/-
Copies between memory views in the address space of the host
(`kaapi_memory_write_view`, `kaapi_memory_copy_cpu2cpu`). A view is one
row (1D) or `size[0]` rows of `size[1]` elements, `lda` elements apart
(2D); two contiguous views are moved as one block, all others row by
row, with the sizes of the source and the leading dimension of each.

On two views of one type, of the same sizes and word size, on memory
that does not overlap, both paths copy every element and touch nothing
else (`memoryCopyCpu2cpu_spec`): each is `Rows.Copied` of all rows. The
types are compared by an assertion, so two 1D or 2D views of different
types end the program instead of giving an error.
-/
import XKaapi.Lib.RowCopy

namespace XKaapi.CopyView

variable {β : Type}

-- ======== memory views

/-- A size_t. -/
def szt (x : Nat) : Nat := x % 2 ^ 64

/-- KAAPI_MEMORY_VIEW_1D -/
def view1D : Int := 1

/-- KAAPI_MEMORY_VIEW_2D, row major. -/
def view2D : Int := 2

/-- EINVAL -/
def einval : Nat := 22

/-- kaapi_memory_view_t; the base is not part of the view. -/
structure MemoryView where
  type : Int
  size0 : Nat
  size1 : Nat
  lda : Nat
  wordsize : Nat

namespace MemoryView

/-- kaapi_memory_view_iscontiguous -/
def iscontiguous (v : MemoryView) : Bool :=
  if v.type = view1D then true
  else if v.type = view2D then v.lda == v.size1
  else false

end MemoryView

-- ======== the copy

/-- The function comes back with an error code, or an assertion fails. -/
inductive Exit where
  | ret (error : Nat)
  | abort
  deriving DecidableEq

/-- contiguous_write_func_t: memory, destination, source, size. -/
abbrev WriteFunc (β : Type) := Cells β → Nat → Nat → Nat → Nat × Cells β

/-- memcpy_wrapper -/
def memcpyWrapper : WriteFunc β := fun m dest src size =>
  (0, m.copy dest src size)

/-- The loop over the rows, with the number of rows left. -/
def writeRows (writeFn : WriteFunc β) (llda rlda sizeRow : Nat) :
    Nat → Cells β → Nat → Nat → Nat × Cells β
  | 0, m, _, _ => (0, m)
  | n + 1, m, raddr, laddr =>
    let (error, m') := writeFn m raddr laddr sizeRow
    if error = 0 then
      writeRows writeFn llda rlda sizeRow n m' (szt (raddr + rlda))
        (szt (laddr + llda))
    else (error, m')

/-- kaapi_memory_write_view -/
def memoryWriteView (writeFn : WriteFunc β) (m : Cells β)
    (dest : Nat) (viewDest : MemoryView) (src : Nat) (viewSrc : MemoryView) :
    Exit × Cells β :=
  if viewSrc.type = view1D then
    if viewDest.type ≠ view1D then (.abort, m)
    else if viewDest.size0 ≠ viewSrc.size0 then (.ret einval, m)
    else
      let (error, m') :=
        writeFn m dest src (szt (viewSrc.size0 * viewSrc.wordsize))
      (.ret error, m')
  else if viewSrc.type = view2D then
    if viewDest.type ≠ view2D then (.abort, m)
    else if viewDest.size0 ≠ viewSrc.size0 then (.ret einval, m)
    else
      let size := szt (viewSrc.size0 * viewSrc.size1)
      if viewSrc.size1 ≠ viewDest.size1 then (.ret einval, m)
      else if viewSrc.iscontiguous && viewDest.iscontiguous then
        let (error, m') := writeFn m dest src (szt (size * viewSrc.wordsize))
        (.ret error, m')
      else
        let sizeRow := szt (viewSrc.size1 * viewSrc.wordsize)
        let llda := szt (viewSrc.lda * viewSrc.wordsize)
        -- the stride of the destination in words of the source
        let rlda := szt (viewDest.lda * viewSrc.wordsize)
        let (error, m') :=
          writeRows writeFn llda rlda sizeRow viewSrc.size0 m dest src
        (.ret error, m')
  else (.ret einval, m)

/-- kaapi_memory_copy_cpu2cpu -/
def memoryCopyCpu2cpu (m : Cells β)
    (dest : Nat) (viewDest : MemoryView) (src : Nat) (viewSrc : MemoryView) :
    Exit × Cells β :=
  if dest = 0 ∨ src = 0 then (.ret einval, m)
  else memoryWriteView memcpyWrapper m dest viewDest src viewSrc

-- ======== what a view covers

namespace MemoryView

/-- The number of rows: a 1D view is one row. -/
def nrows (v : MemoryView) : Nat := if v.type = view1D then 1 else v.size0

/-- The number of elements of a row. -/
def ncols (v : MemoryView) : Nat :=
  if v.type = view1D then v.size0 else v.size1

/-- The address of byte `t` of element `(i, j)` of a view at `base`. -/
def addr (v : MemoryView) (base i j t : Nat) : Nat :=
  base + (i * v.lda + j) * v.wordsize + t

/-- `a` is the address of a byte of an element of the view. -/
def HasByte (v : MemoryView) (base a : Nat) : Prop :=
  ∃ i < v.nrows, ∃ j < v.ncols, ∃ t < v.wordsize, a = v.addr base i j t

/-- The view lies in memory at `base`, its rows one after the other. -/
structure LiesAt (v : MemoryView) (base : Nat) : Prop where
  nonnull : base ≠ 0
  base_lt : base < 2 ^ 64
  fits : ∀ a, v.HasByte base a → a < 2 ^ 64
  row_le : v.type = view2D → v.size1 ≤ v.lda

end MemoryView

/-- Two 1D views or two 2D views, of the same sizes and word size. -/
structure Alike (vd vs : MemoryView) : Prop where
  kind : vs.type = view1D ∨ vs.type = view2D
  type : vd.type = vs.type
  nrows : vd.nrows = vs.nrows
  ncols : vd.ncols = vs.ncols
  wordsize : vd.wordsize = vs.wordsize

-- ======== views as rows

theorem szt_of_lt {x : Nat} (h : x < 2 ^ 64) : szt x = x := Nat.mod_eq_of_lt h

theorem szt_szt_mul (a b : Nat) : szt (szt a * b) = szt (a * b) := by
  unfold szt
  rw [Nat.mod_mul_mod]

theorem szt_row_succ (base p i : Nat) :
    szt (szt (base + i * p) + szt p) = szt (base + (i + 1) * p) := by
  unfold szt
  rw [← Nat.add_mod, Nat.succ_mul, Nat.add_assoc]

namespace MemoryView

/-- The rows of a view at `base`, as bytes. -/
def rows (v : MemoryView) (base : Nat) : Rows where
  start := fun i => base + i * (v.lda * v.wordsize)
  len := v.ncols * v.wordsize

variable {v : MemoryView} {base : Nat} {i : Nat}

theorem addr_eq (v : MemoryView) (base i j t : Nat) :
    v.addr base i j t = (v.rows base).start i + (j * v.wordsize + t) := by
  unfold addr rows
  ring

theorem offset_lt {j t : Nat} (hj : j < v.ncols) (ht : t < v.wordsize) :
    j * v.wordsize + t < (v.rows base).len := by
  calc j * v.wordsize + t
      < j * v.wordsize + v.wordsize := Nat.add_lt_add_left ht _
    _ = (j + 1) * v.wordsize := by ring
    _ ≤ v.ncols * v.wordsize := Nat.mul_le_mul_right _ hj

/-- The bytes of a view are those of its rows. -/
theorem hasByte_iff_covers (v : MemoryView) (base a : Nat) :
    v.HasByte base a ↔ (v.rows base).Covers v.nrows a := by
  constructor
  · intro h
    obtain ⟨i, hi, j, hj, t, ht, rfl⟩ := h
    rw [addr_eq]
    exact ⟨i, hi, Rows.inRow_add _ (offset_lt hj ht)⟩
  · intro h
    obtain ⟨i, hi, hle, hlt⟩ := h
    -- the offset in the row, in words and bytes
    have hb : a - (v.rows base).start i < v.ncols * v.wordsize :=
      Nat.sub_lt_left_of_lt_add hle hlt
    have hpos : 0 < v.wordsize := by
      refine Nat.pos_of_ne_zero ?_
      intro h0
      rw [h0, Nat.mul_zero] at hb
      exact Nat.not_lt_zero _ hb
    refine ⟨i, hi, (a - (v.rows base).start i) / v.wordsize, ?_,
      (a - (v.rows base).start i) % v.wordsize, Nat.mod_lt _ hpos, ?_⟩
    · exact Nat.div_lt_of_lt_mul (by rw [Nat.mul_comm]; exact hb)
    · rw [addr_eq, Nat.div_add_mod', Nat.add_sub_cancel' hle]

theorem LiesAt.row_lt (h : v.LiesAt base) {b : Nat} (hi : i < v.nrows)
    (hb : b < (v.rows base).len) : (v.rows base).start i + b < 2 ^ 64 :=
  h.fits _ ((hasByte_iff_covers v base _).mpr ⟨i, hi, Rows.inRow_add _ hb⟩)

theorem LiesAt.szt_start (h : v.LiesAt base) (hi : i < v.nrows)
    (hlen : (v.rows base).len ≠ 0) :
    szt ((v.rows base).start i) = (v.rows base).start i :=
  szt_of_lt (h.row_lt hi (Nat.pos_of_ne_zero hlen))

theorem LiesAt.len_lt (h : v.LiesAt base) (hn : 0 < v.nrows) :
    v.ncols * v.wordsize < 2 ^ 64 := by
  by_cases h0 : (v.rows base).len = 0
  · show (v.rows base).len < _
    omega
  · have hlast := h.row_lt (b := (v.rows base).len - 1) hn (by omega)
    have hbase := h.nonnull
    have hstart : (v.rows base).start 0 = base := by
      show base + 0 * _ = base
      omega
    show (v.rows base).len < _
    omega

theorem LiesAt.ncols_le (h : v.LiesAt base) (h2 : v.type = view2D) :
    v.ncols ≤ v.lda := by
  unfold ncols
  rw [h2, if_neg (by decide)]
  exact h.row_le h2

/-- The rows of a view do not overlap. -/
theorem LiesAt.rows_apart (h : v.LiesAt base) (hk : v.type = view1D ∨ v.type = view2D)
    {k : Nat} (hik : i < k) (hkn : k < v.nrows) {a : Nat} (ha : (v.rows base).InRow i a) :
    ¬ (v.rows base).InRow k a := by
  rcases hk with h1 | h2
  · rw [nrows, if_pos h1] at hkn
    omega
  · have hle : i * (v.lda * v.wordsize) + v.ncols * v.wordsize
        ≤ k * (v.lda * v.wordsize) := by
      calc i * (v.lda * v.wordsize) + v.ncols * v.wordsize
          ≤ i * (v.lda * v.wordsize) + v.lda * v.wordsize :=
            Nat.add_le_add_left (Nat.mul_le_mul_right _ (h.ncols_le h2)) _
        _ = (i + 1) * (v.lda * v.wordsize) := by ring
        _ ≤ k * (v.lda * v.wordsize) := Nat.mul_le_mul_right _ hik
    have hlt : a < base + i * (v.lda * v.wordsize) + v.ncols * v.wordsize :=
      ha.2
    intro hka
    have hge : base + k * (v.lda * v.wordsize) ≤ a := hka.1
    omega

end MemoryView

-- ======== the two paths

open MemoryView Rows

variable {vd vs : MemoryView} {dest src : Nat} {m m' : Cells β} {v : MemoryView}

/-- No byte of the destination is a byte of the source. -/
def Apart (vd : MemoryView) (dest : Nat) (vs : MemoryView) (src : Nat) :
    Prop :=
  ∀ a, vd.HasByte dest a → ¬ vs.HasByte src a

theorem Alike.len_eq (h : Alike vd vs) (dest src : Nat) :
    (vd.rows dest).len = (vs.rows src).len := by
  show vd.ncols * vd.wordsize = vs.ncols * vs.wordsize
  rw [h.ncols, h.wordsize]

theorem Alike.kind_dest (h : Alike vd vs) :
    vd.type = view1D ∨ vd.type = view2D := by
  rw [h.type]
  exact h.kind

section

variable (hd : vd.LiesAt dest) (hs : vs.LiesAt src) (hv : Alike vd vs)
include hd hs hv

/-- A copy of a whole row goes to the row, though its address is computed
modulo the word: an empty row is copied nowhere. -/
theorem copy_szt_row {i : Nat} (hi : i < vs.nrows) (m : Cells β) :
    m.copy (szt ((vd.rows dest).start i)) (szt ((vs.rows src).start i))
        (vd.rows dest).len
      = m.copy ((vd.rows dest).start i) ((vs.rows src).start i)
        (vd.rows dest).len := by
  by_cases h0 : (vd.rows dest).len = 0
  · rw [h0, Cells.copy_zero, Cells.copy_zero]
  · have h0' : (vs.rows src).len ≠ 0 := by
      rw [← hv.len_eq dest src]
      exact h0
    rw [hd.szt_start (by rw [hv.nrows]; exact hi) h0, hs.szt_start hi h0']

/-- The loop copies the rows it has left. -/
theorem writeRows_spec (ha : Apart vd dest vs src) (n k : Nat) (hn : k + n = vs.nrows)
    (h : Copied (vd.rows dest) (vs.rows src) m m' k) :
    ∃ m'', writeRows memcpyWrapper (szt (vs.lda * vs.wordsize))
        (szt (vd.lda * vd.wordsize)) (vd.rows dest).len n m'
        (szt ((vd.rows dest).start k)) (szt ((vs.rows src).start k))
        = (0, m'')
      ∧ Copied (vd.rows dest) (vs.rows src) m m'' vs.nrows := by
  induction n generalizing k m' with
  | zero =>
    refine ⟨m', rfl, ?_⟩
    rw [← hn]
    exact h
  | succ n ih =>
    have hk : k < vs.nrows := by omega
    have hkd : k < vd.nrows := by
      rw [hv.nrows]
      exact hk
    have hstep := h.row_step (fun i hi a => hd.rows_apart hv.kind_dest hi hkd)
      (by
        intro b hb hcov
        obtain ⟨i, hi, hrow⟩ := hcov
        refine ha _ ((hasByte_iff_covers vd dest _).mpr ⟨i, ?_, hrow⟩)
          ((hasByte_iff_covers vs src _).mpr ⟨k, hk, ?_⟩)
        · exact Nat.lt_trans hi hkd
        · rw [hv.len_eq dest src] at hb
          exact Rows.inRow_add _ hb)
    obtain ⟨m'', hrun, hcop⟩ := ih (k + 1) (by omega) hstep
    refine ⟨m'', ?_, hcop⟩
    show writeRows memcpyWrapper _ _ _ n
        (m'.copy (szt ((vd.rows dest).start k)) (szt ((vs.rows src).start k))
          (vd.rows dest).len)
        (szt (szt ((vd.rows dest).start k) + szt (vd.lda * vd.wordsize)))
        (szt (szt ((vs.rows src).start k) + szt (vs.lda * vs.wordsize)))
      = (0, m'')
    rw [copy_szt_row hd hs hv hk]
    show writeRows memcpyWrapper _ _ _ n _
        (szt (szt (dest + k * (vd.lda * vd.wordsize)) + _))
        (szt (szt (src + k * (vs.lda * vs.wordsize)) + _)) = (0, m'')
    rw [szt_row_succ, szt_row_succ]
    exact hrun

/-- The rows are copied one by one. -/
theorem writeRows_from_start (ha : Apart vd dest vs src) (m : Cells β) :
    ∃ m', writeRows memcpyWrapper (szt (vs.lda * vs.wordsize))
        (szt (vd.lda * vd.wordsize)) (szt (vs.ncols * vs.wordsize)) vs.nrows m
        dest src = (0, m')
      ∧ Copied (vd.rows dest) (vs.rows src) m m' vs.nrows := by
  by_cases h0 : vs.nrows = 0
  · rw [h0]
    exact ⟨m, rfl, Copied.zero _ _ m⟩
  · obtain ⟨m', hrun, hcop⟩ := writeRows_spec hd hs hv ha vs.nrows 0
      (Nat.zero_add _) (Copied.zero _ _ m)
    have hlen : szt (vs.ncols * vs.wordsize) = (vd.rows dest).len := by
      rw [hv.len_eq dest src]
      exact szt_of_lt (hs.len_lt (Nat.pos_of_ne_zero h0))
    refine ⟨m', ?_, hcop⟩
    have hfirst (v : MemoryView) {base : Nat} (h : base < 2 ^ 64) :
        szt ((v.rows base).start 0) = base := by
      show szt (base + 0 * _) = base
      rw [Nat.zero_mul, Nat.add_zero, szt_of_lt h]
    rw [hfirst vd hd.base_lt, hfirst vs hs.base_lt] at hrun
    rw [hlen]
    exact hrun

end

/-- The rows of the view follow each other without a gap. -/
def MemoryView.Gapless (v : MemoryView) (base : Nat) : Prop :=
  ∀ i < v.nrows, (v.rows base).start i = base + i * (v.rows base).len

theorem MemoryView.gapless_of_view1D (h1 : v.type = view1D) (base : Nat) :
    v.Gapless base := by
  intro i hi
  rw [nrows, if_pos h1] at hi
  obtain rfl : i = 0 := by omega
  show base + 0 * _ = base + 0 * _
  rw [Nat.zero_mul, Nat.zero_mul]

theorem MemoryView.gapless_of_iscontiguous (h2 : v.type = view2D)
    (hc : v.iscontiguous = true) (base : Nat) : v.Gapless base := by
  intro i _
  unfold iscontiguous at hc
  rw [h2, if_neg (by decide), if_pos rfl, beq_iff_eq] at hc
  show base + i * (v.lda * v.wordsize) = base + i * (v.ncols * v.wordsize)
  rw [hc, ncols, h2, if_neg (by decide)]

theorem MemoryView.LiesAt.size_lt {base : Nat} (h : v.LiesAt base) (hgap : v.Gapless base) :
    v.nrows * (v.rows base).len < 2 ^ 64 := by
  by_cases h0 : v.nrows = 0 ∨ (v.rows base).len = 0
  · rcases h0 with h0 | h0
    · rw [h0, Nat.zero_mul]
      decide
    · rw [h0, Nat.mul_zero]
      decide
  · have hlast := h.row_lt (i := v.nrows - 1)
      (b := (v.rows base).len - 1) (by omega) (by omega)
    rw [hgap _ (by omega), Nat.sub_one_mul] at hlast
    have hle : (v.rows base).len ≤ v.nrows * (v.rows base).len :=
      Nat.le_mul_of_pos_left _ (by omega)
    have hbase := h.nonnull
    omega

/-- Views without gaps are copied at once. -/
theorem copied_block (hs : vs.LiesAt src) (hv : Alike vd vs)
    (hgd : vd.Gapless dest) (hgs : vs.Gapless src) :
    Copied (vd.rows dest) (vs.rows src) m
      (m.copy dest src (szt (vs.nrows * (vs.ncols * vs.wordsize))))
      vs.nrows := by
  have hsize : szt (vs.nrows * (vs.ncols * vs.wordsize))
      = vs.nrows * (vd.rows dest).len := by
    rw [hv.len_eq dest src]
    exact szt_of_lt (hs.size_lt hgs)
  rw [hsize]
  refine Copied.of_block ?_ ?_
  · intro i hi
    exact hgd i (by rw [hv.nrows]; exact hi)
  · intro i hi
    rw [hgs i hi, hv.len_eq dest src]

-- ======== the whole copy

/-- On views that match, whichever path is taken: no error, and all rows
are copied. -/
theorem memoryWriteView_spec
    (hd : vd.LiesAt dest) (hs : vs.LiesAt src) (hv : Alike vd vs)
    (ha : Apart vd dest vs src) :
    ∃ m', memoryWriteView memcpyWrapper m dest vd src vs = (.ret 0, m')
      ∧ Copied (vd.rows dest) (vs.rows src) m m' vs.nrows := by
  have hcols := hv.ncols
  have hrows := hv.nrows
  unfold memoryWriteView
  rcases hv.kind with h1 | h2
  · have hd1 : vd.type = view1D := by
      rw [hv.type, h1]
    rw [ncols, ncols, if_pos h1, if_pos hd1] at hcols
    rw [if_pos h1, if_neg (by rw [hd1]; decide), if_neg (by omega)]
    refine ⟨_, rfl, ?_⟩
    have hcop := copied_block (m := m) hs hv (gapless_of_view1D hd1 dest)
      (gapless_of_view1D h1 src)
    rw [nrows, if_pos h1, Nat.one_mul, ncols, if_pos h1] at hcop
    rw [nrows, if_pos h1]
    exact hcop
  · have hd2 : vd.type = view2D := by
      rw [hv.type, h2]
    have hn1 : ¬ vs.type = view1D := by
      rw [h2]
      decide
    have hdn1 : ¬ vd.type = view1D := by
      rw [hd2]
      decide
    rw [nrows, nrows, if_neg hn1, if_neg hdn1] at hrows
    rw [ncols, ncols, if_neg hn1, if_neg hdn1] at hcols
    rw [if_neg hn1, if_pos h2, if_neg (by rw [hd2]; decide), if_neg (by omega)]
    show ∃ m', (if vs.size1 ≠ vd.size1 then _ else _) = _ ∧ _
    rw [if_neg (by omega)]
    split
    next hc =>
      rw [Bool.and_eq_true] at hc
      refine ⟨_, rfl, ?_⟩
      have hcop := copied_block (m := m) hs hv
        (gapless_of_iscontiguous hd2 hc.2 dest)
        (gapless_of_iscontiguous h2 hc.1 src)
      rw [nrows, if_neg hn1, ncols, if_neg hn1] at hcop
      rw [nrows, if_neg hn1]
      show Copied _ _ m
        (m.copy dest src (szt (szt (vs.size0 * vs.size1) * vs.wordsize))) _
      rw [szt_szt_mul, Nat.mul_assoc]
      exact hcop
    next =>
      obtain ⟨m', hrun, hcop⟩ := writeRows_from_start hd hs hv ha m
      rw [nrows, if_neg hn1, ncols, if_neg hn1] at hrun
      refine ⟨m', ?_, hcop⟩
      show (Exit.ret (writeRows _ _ (szt (vd.lda * vs.wordsize)) _ _ m _ _).1,
        (writeRows _ _ (szt (vd.lda * vs.wordsize)) _ _ m _ _).2) = _
      rw [← hv.wordsize] at hrun ⊢
      rw [hrun]

/-- A copy of another kind of view, or of another shape, is refused. -/
theorem memoryWriteView_refuses (writeFn : WriteFunc β)
    (h : (vs.type ≠ view1D ∧ vs.type ≠ view2D)
      ∨ (vd.type = vs.type ∧ (vd.nrows ≠ vs.nrows ∨ vd.ncols ≠ vs.ncols))) :
    memoryWriteView writeFn m dest vd src vs = (.ret einval, m) := by
  unfold memoryWriteView
  by_cases h1 : vs.type = view1D
  · rw [if_pos h1]
    rcases h with h | ⟨ht, hne⟩
    · exact absurd h1 h.1
    · have hd1 : vd.type = view1D := by
        rw [ht, h1]
      rw [nrows, nrows, ncols, ncols, if_pos h1, if_pos hd1, if_pos h1,
        if_pos hd1] at hne
      rw [if_neg (by rw [hd1]; decide), if_pos (by omega)]
  · rw [if_neg h1]
    by_cases h2 : vs.type = view2D
    · rw [if_pos h2]
      rcases h with h | ⟨ht, hne⟩
      · exact absurd h2 h.2
      · have hd1 : ¬ vd.type = view1D := by
          rw [ht]
          exact h1
        rw [nrows, nrows, ncols, ncols, if_neg h1, if_neg hd1, if_neg h1,
          if_neg hd1] at hne
        rw [if_neg (by rw [ht, h2]; decide)]
        by_cases h0 : vd.size0 = vs.size0
        · rw [if_neg (by omega)]
          exact if_pos (by omega)
        · rw [if_pos h0]
    · rw [if_neg h2]

/-- A copy between two kinds aborts. -/
theorem memoryWriteView_aborts
    (writeFn : WriteFunc β) (hk : vs.type = view1D ∨ vs.type = view2D)
    (hne : vd.type ≠ vs.type) :
    memoryWriteView writeFn m dest vd src vs = (.abort, m) := by
  unfold memoryWriteView
  rcases hk with h1 | h2
  · rw [if_pos h1, if_pos (by rw [← h1]; exact hne)]
  · rw [if_neg (by rw [h2]; decide), if_pos h2,
      if_pos (by rw [← h2]; exact hne)]

theorem memoryCopyCpu2cpu_of_nonnull (hd : dest ≠ 0) (hs : src ≠ 0) :
    memoryCopyCpu2cpu m dest vd src vs
      = memoryWriteView memcpyWrapper m dest vd src vs := by
  unfold memoryCopyCpu2cpu
  rw [if_neg (by omega)]

/-- The copy of a view: every element of views that match, and nothing
else; EINVAL and nothing at all for null pointers, other types of view
and sizes that differ; and the failed assertion, again with nothing
written, for two types of view. -/
theorem memoryCopyCpu2cpu_spec
    (m : Cells β) (dest : Nat) (vd : MemoryView) (src : Nat)
    (vs : MemoryView) :
    (Alike vd vs → vd.LiesAt dest → vs.LiesAt src → Apart vd dest vs src →
      ∃ m', memoryCopyCpu2cpu m dest vd src vs = (.ret 0, m')
        ∧ (∀ i < vs.nrows, ∀ j < vs.ncols, ∀ t < vs.wordsize,
            m' (vd.addr dest i j t) = m (vs.addr src i j t))
        ∧ ∀ a, ¬ vd.HasByte dest a → m' a = m a)
    ∧ (dest = 0 ∨ src = 0 ∨ (vs.type ≠ view1D ∧ vs.type ≠ view2D)
        ∨ (vd.type = vs.type
          ∧ (vd.nrows ≠ vs.nrows ∨ vd.ncols ≠ vs.ncols)) →
      memoryCopyCpu2cpu m dest vd src vs = (.ret einval, m))
    ∧ (dest ≠ 0 → src ≠ 0 → vs.type = view1D ∨ vs.type = view2D →
      vd.type ≠ vs.type →
      memoryCopyCpu2cpu m dest vd src vs = (.abort, m)) := by
  refine ⟨?copies, ?refuses, ?aborts⟩
  case copies =>
    intro hv hd hs ha
    obtain ⟨m', hrun, hcop⟩ := memoryWriteView_spec (m := m) hd hs hv ha
    refine ⟨m', ?_, ?_, ?_⟩
    · rw [memoryCopyCpu2cpu_of_nonnull hd.nonnull hs.nonnull, hrun]
    · intro i hi j hj t ht
      rw [addr_eq, addr_eq, hv.wordsize]
      refine hcop.row i hi _ ?_
      rw [hv.len_eq dest src]
      exact offset_lt hj ht
    · intro a hna
      refine hcop.frame a ?_
      intro hcov
      rw [← hv.nrows] at hcov
      exact hna ((hasByte_iff_covers vd dest a).mpr hcov)
  case refuses =>
    intro h
    by_cases h0 : dest = 0 ∨ src = 0
    · exact if_pos h0
    · rw [memoryCopyCpu2cpu_of_nonnull (by omega) (by omega)]
      refine memoryWriteView_refuses memcpyWrapper ?_
      rcases h with h | h | h
      · exact absurd (.inl h) h0
      · exact absurd (.inr h) h0
      · exact h
  case aborts =>
    intro hd hs hk hne
    rw [memoryCopyCpu2cpu_of_nonnull hd hs]
    exact memoryWriteView_aborts memcpyWrapper hk hne

/-- Two rows of two bytes, with gaps of one byte and of two. -/
theorem memoryCopyCpu2cpu_two_rows :
    ∃ m', memoryCopyCpu2cpu id 100 ⟨view2D, 2, 2, 3, 1⟩ 200
        ⟨view2D, 2, 2, 4, 1⟩ = (.ret 0, m')
      ∧ m' 104 = 205 ∧ m' 102 = 102 := by
  have hrange (base lda a : Nat)
      (h : (MemoryView.mk view2D 2 2 lda 1).HasByte base a) :
      ∃ i < 2, ∃ j < 2, a = base + i * lda + j := by
    obtain ⟨i, hi, j, hj, t, ht, rfl⟩ := h
    have ht' : t = 0 := Nat.lt_one_iff.mp ht
    refine ⟨i, hi, j, hj, ?_⟩
    show base + (i * lda + j) * 1 + t = _
    omega
  have hlies (base lda : Nat) (hb : base ≠ 0) (hb' : base < 1000)
      (hl : 2 ≤ lda) (hl' : lda < 1000) :
      (MemoryView.mk view2D 2 2 lda 1).LiesAt base := by
    refine ⟨hb, by omega, ?_, fun _ => hl⟩
    intro a h
    obtain ⟨i, hi, j, hj, rfl⟩ := hrange base lda a h
    have hle : i * lda ≤ 1 * lda := Nat.mul_le_mul_right _ (by omega)
    omega
  obtain ⟨m', hrun, hcop, hframe⟩ := (memoryCopyCpu2cpu_spec id 100
    ⟨view2D, 2, 2, 3, 1⟩ 200 ⟨view2D, 2, 2, 4, 1⟩).1
    ⟨.inr rfl, rfl, rfl, rfl, rfl⟩
    (hlies 100 3 (by decide) (by decide) (by decide) (by decide))
    (hlies 200 4 (by decide) (by decide) (by decide) (by decide))
    (by
      intro a hd hs
      obtain ⟨i, hi, j, hj, rfl⟩ := hrange 100 3 a hd
      obtain ⟨i', hi', j', hj', heq⟩ := hrange 200 4 _ hs
      omega)
  refine ⟨m', hrun, hcop 1 (by decide) 1 (by decide) 0 (by decide), ?_⟩
  refine hframe 102 ?_
  intro h
  obtain ⟨i, hi, j, hj, heq⟩ := hrange 100 3 102 h
  omega

/-- A pair that does not match is not always refused with an error: on
two types of view the program ends, and word sizes and leading
dimensions are not looked at. -/
theorem not_refuses_every_other_pair :
    (¬ ∀ (m : Cells Nat) (dest : Nat) (vd : MemoryView) (src : Nat)
      (vs : MemoryView), vd.type ≠ vs.type →
      ∃ e, e ≠ 0 ∧ memoryCopyCpu2cpu m dest vd src vs = (.ret e, m))
    ∧ (¬ ∀ (m : Cells Nat) (dest : Nat) (vd : MemoryView) (src : Nat)
      (vs : MemoryView), vd.wordsize ≠ vs.wordsize →
      ∃ e, e ≠ 0 ∧ memoryCopyCpu2cpu m dest vd src vs = (.ret e, m))
    ∧ ¬ ∀ (m : Cells Nat) (dest : Nat) (vd : MemoryView) (src : Nat)
      (vs : MemoryView), vd.type = view2D → vd.lda < vd.size1 →
      ∃ e, e ≠ 0 ∧ memoryCopyCpu2cpu m dest vd src vs = (.ret e, m) := by
  refine ⟨?types, ?words, ?ldas⟩
  case types =>
    intro h
    obtain ⟨e, -, hrun⟩ := h id 100 ⟨view1D, 4, 0, 0, 1⟩ 200
      ⟨view2D, 2, 2, 2, 1⟩ (by decide)
    have hexit : Exit.abort = .ret e := congrArg Prod.fst hrun
    cases hexit
  case words =>
    intro h
    obtain ⟨e, hne, hrun⟩ := h id 100 ⟨view1D, 4, 0, 0, 1⟩ 200
      ⟨view1D, 4, 0, 0, 2⟩ (by decide)
    have hexit : Exit.ret 0 = .ret e := congrArg Prod.fst hrun
    cases hexit
    exact hne rfl
  case ldas =>
    intro h
    obtain ⟨e, hne, hrun⟩ := h id 100 ⟨view2D, 2, 2, 1, 1⟩ 200
      ⟨view2D, 2, 2, 2, 1⟩ (by decide) (by decide)
    have hexit : Exit.ret 0 = .ret e := congrArg Prod.fst hrun
    cases hexit
    exact hne rfl

end XKaapi.CopyView
