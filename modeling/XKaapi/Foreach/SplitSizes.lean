/-
The arithmetic of the splits of a local range.

The splitter of a parallel loop divides the range of its victim by one
more than the count of the requests, and falls back on parts of one
parallel grain when these come out smaller. A worker that looks for work
itself takes half of the range. In both the stolen part is cut off the
end.

`splits_iff` says when the parts are right. The splitter keeps one grain
to its victim whatever the sizes are, but a grain that is not positive
lets it cut a range shorter than the count of the requests, in parts of
0 iterations: `kaapi_workqueue_steal` asserts that the size is not 0. The
other split does not have the fallback: the half it leaves can be less
than a grain.
-/
import XKaapi.Foreach.Run

namespace XKaapi.Foreach

open Bitmap

variable {w : Nat}

-- ======== properties

/-- The iterations of a reply. -/
def Reply.range (r : Reply) : Int × Int := (r.first, r.last)

/-- A split turns the queue `lwork` into `lwork'` and hands out `given`,
the last part first: these have the same length, they tile what was
stolen, and the victim keeps a parallel grain. -/
structure WellSplit (parGrain : Int) (lwork lwork' : LocalWork)
    (given : List Reply) : Prop where
  rest : lwork' = { lwork with crEnd := lwork'.crEnd }
  stolen : ∃ unitSize : Int,
    given.length * unitSize ≤ lwork.size
      ∧ lwork.size - lwork'.size = given.length * unitSize
      ∧ ∀ r ∈ given, r.last = r.first + unitSize
  tiles : Tiles lwork'.crEnd lwork.crEnd (given.reverse.map Reply.range)
  once : (given.map Reply.ident).Nodup
  kept : parGrain < lwork.size → parGrain ≤ lwork'.size

/-- The local split of `vid` is right, and goes to requesters. The queue of
a victim that is not one of them is what the split left. -/
def LocalSplits (vid : Nat) (s : SplitState w) : Prop :=
  ∃ lwork' given, (splitLocal vid s).replies = s.replies ++ given
    ∧ (∀ r ∈ given, s.lri.Mem r.ident)
    ∧ (¬ s.lri.Mem vid → (splitLocal vid s).gwork.lwork vid = lwork')
    ∧ WellSplit s.gwork.parGrain (s.gwork.lwork vid) lwork' given

/-- kaapic_global_work_steal once it has selected the victim `vid`. -/
def globalWorkSteal (c : Config w) (t vid : Nat) (s : St w) :
    Option (St w) :=
  (selectStep c t vid s).bind fun s' =>
    match (s'.thread t).pc with
    | .steal _ _ _ => threadStep c t s'
    | _ => some s'

/-- What a thread has taken when it leaves this function. -/
def St.taken (s : St w) (t : Nat) : List Reply :=
  match (s.thread t).pc with
  | .refill i j => [⟨t, none, i, j⟩]
  | _ => []

/-- The two-way split of `vid` is right. -/
def HalfSplits (c : Config w) (t vid : Nat) (s : St w) : Prop :=
  ∃ s', globalWorkSteal c t vid s = some s'
    ∧ WellSplit c.parGrain (s.thread vid).lwork (s'.thread vid).lwork
      (s'.taken t)

-- ======== queues

theorem LocalWork.size_nonneg (lwork : LocalWork) : 0 ≤ lwork.size := by
  unfold LocalWork.size
  dsimp only
  split <;> omega

theorem LocalWork.size_of_le {lwork : LocalWork}
    (h : lwork.crBeg ≤ lwork.crEnd) :
    lwork.size = lwork.crEnd - lwork.crBeg := by
  unfold LocalWork.size
  dsimp only
  rw [if_neg (by omega)]

theorem LocalWork.size_of_lt {lwork : LocalWork}
    (h : lwork.crEnd < lwork.crBeg) : lwork.size = 0 := by
  unfold LocalWork.size
  dsimp only
  rw [if_pos (by omega)]

/-- A steal within the queue. -/
theorem LocalWork.steal_of_le {lwork : LocalWork} {size : Int}
    (hle : lwork.crBeg ≤ lwork.crEnd) (h : size ≤ lwork.size) :
    lwork.steal size
      = some ({ lwork with crEnd := lwork.crEnd - size },
          lwork.crEnd - size, lwork.crEnd) := by
  rw [LocalWork.size_of_le hle] at h
  unfold LocalWork.steal
  dsimp only
  rw [if_neg (by omega), Int.sub_add_cancel]

/-- A steal of an empty queue. -/
theorem LocalWork.steal_of_lt {lwork : LocalWork} {size : Int}
    (hlt : lwork.crEnd < lwork.crBeg) (h : 0 ≤ size) :
    lwork.steal size = none := by
  unfold LocalWork.steal
  dsimp only
  rw [if_pos (by omega)]

theorem LocalWork.size_crEnd_sub {lwork : LocalWork} {size : Int}
    (hle : lwork.crBeg ≤ lwork.crEnd) (h : size ≤ lwork.size) :
    LocalWork.size { lwork with crEnd := lwork.crEnd - size }
      = lwork.size - size := by
  rw [LocalWork.size_of_le hle] at h ⊢
  rw [LocalWork.size_of_le (by show lwork.crBeg ≤ lwork.crEnd - size; omega)]
  show lwork.crEnd - size - lwork.crBeg = _
  omega

theorem WellSplit.nothing (parGrain : Int) (lwork : LocalWork) :
    WellSplit parGrain lwork lwork [] where
  rest := rfl
  stolen :=
    ⟨0, by simp [lwork.size_nonneg], by simp, fun r hr => by cases hr⟩
  tiles := rfl
  once := List.nodup_nil
  kept h := Int.le_of_lt h

theorem WellSplit.first_lt_last {parGrain : Int} {lwork lwork' : LocalWork}
    {given : List Reply} (h : WellSplit parGrain lwork lwork' given)
    {r : Reply} (hr : r ∈ given) : r.first < r.last :=
  (h.tiles.mem_bounds (List.mem_map_of_mem (List.mem_reverse.mpr hr))).2.1

-- ======== sizes

/-- What the sizes of the local split are worth. -/
structure SplitSizes (lwork : LocalWork) (parGrain : Int) (count : Nat)
    (nreq unitSize : Int) : Prop where
  nonneg : 0 ≤ nreq
  served : nreq ≤ count
  unit : 0 ≤ unitSize
  stolen : nreq * unitSize ≤ lwork.size
  kept : parGrain ≤ lwork.size - nreq * unitSize
  positive : 0 < parGrain ∨ count < lwork.size → 0 < unitSize

/-- One part more than the count of the requests fits into the range, and
so does one grain more than the fallback hands out. `nreq` is an `int` in
the code: it is no more than the count. -/
theorem splitSize_spec {lwork : LocalWork} {parGrain : Int} {count : Nat}
    {nreq unitSize : Int}
    (h : splitSize lwork parGrain count = some (nreq, unitSize)) :
    SplitSizes lwork parGrain count nreq unitSize := by
  have hsize : 0 ≤ lwork.size := lwork.size_nonneg
  have hpos : (0 : Int) < (count : Int) + 1 := by omega
  have hmul : lwork.size / ((count : Int) + 1) * ((count : Int) + 1)
      ≤ lwork.size := Int.ediv_mul_le _ (by omega)
  have hunit : 0 ≤ lwork.size / ((count : Int) + 1) :=
    Int.ediv_nonneg hsize (Int.le_of_lt hpos)
  unfold splitSize at h
  dsimp only at h
  split at h
  · cases h
  split at h
  · cases h
  next hgrain =>
  split at h
  next hlt =>
    -- parts of one grain
    have hgpos : 0 < parGrain := by omega
    have hone : 1 ≤ lwork.size / parGrain :=
      (Int.le_ediv_iff_mul_le hgpos).mpr (by omega)
    have hg : lwork.size / parGrain * parGrain ≤ lwork.size :=
      Int.ediv_mul_le _ (by omega)
    have hserved : lwork.size / parGrain < (count : Int) + 1 := by
      rw [Int.ediv_lt_iff_lt_mul hgpos, Int.mul_comm]
      exact (Int.ediv_lt_iff_lt_mul hpos).mp hlt
    split at h
    · cases h
    obtain ⟨rfl, rfl⟩ := Prod.mk.inj (Option.some.inj h)
    have hcut : (lwork.size / parGrain - 1) * parGrain
        = lwork.size / parGrain * parGrain - parGrain := by
      rw [Int.sub_mul, Int.one_mul]
    exact
      { nonneg := by omega
        served := by omega
        unit := Int.le_of_lt hgpos
        stolen := by omega
        kept := by omega
        positive := fun _ => hgpos }
  next hge =>
    obtain ⟨rfl, rfl⟩ := Prod.mk.inj (Option.some.inj h)
    have hcut : lwork.size / ((count : Int) + 1) * ((count : Int) + 1)
        = (count : Int) * (lwork.size / ((count : Int) + 1))
          + lwork.size / ((count : Int) + 1) := by
      rw [Int.mul_add, Int.mul_one, Int.mul_comm]
    exact
      { nonneg := by omega
        served := Int.le_refl _
        unit := hunit
        stolen := by omega
        kept := by omega
        positive := by
          intro hp
          rcases hp with hp | hp
          · omega
          · exact Int.lt_of_lt_of_le Int.zero_lt_one
              ((Int.le_ediv_iff_mul_le hpos).mpr (by omega)) }

/-- With a grain that is not positive, a range no longer than the count of
the requests gives parts of 0 iterations, one to each. -/
theorem splitSize_zero {lwork : LocalWork} {parGrain : Int} {count : Nat}
    (hinit : lwork.init ≠ false) (hgrain : parGrain < lwork.size)
    (hp : parGrain ≤ 0) (hsize : lwork.size ≤ count) :
    splitSize lwork parGrain count = some ((count : Int), 0) := by
  have hzero : lwork.size / ((count : Int) + 1) = 0 :=
    Int.ediv_eq_zero_of_lt lwork.size_nonneg (by omega)
  unfold splitSize
  dsimp only
  rw [if_neg hinit, if_neg (by omega), hzero, if_neg (by omega)]

-- ======== loop

/-- The loop has handed `given` out to `n` of the requesters, from `last`
down. -/
structure Cut (unitSize : Int) (n : Nat) (last : Int) (s s' : SplitState w)
    (given : List Reply) : Prop where
  replies : s'.replies = s.replies ++ given
  length : given.length = n
  mem : ∀ r ∈ given, s.lri.Mem r.ident
  unit : ∀ r ∈ given, r.last = r.first + unitSize
  once : (given.map Reply.ident).Nodup
  tiles : 0 < unitSize →
    Tiles (last - n * unitSize) last (given.reverse.map Reply.range)
  frame : ∀ v, ¬ s.lri.Mem v → s'.gwork.lwork v = s.gwork.lwork v

theorem ListrequestIterator.not_mem_next {lri : ListrequestIterator w}
    {ident : Nat} (h : lri.idcurr = some ident) : ¬ lri.next.Mem ident := by
  unfold ListrequestIterator.next
  rw [ListrequestIterator.mem_ofBitmap, lri.fresh ident h]
  exact Bool.false_ne_true

/-- One turn: the current requester gets the part that ends at `last`, the
loop goes on from the start of this part. -/
theorem Cut.turn {unitSize : Int} {n : Nat} {last : Int}
    {s s' : SplitState w} {given : List Reply} {ident : Nat}
    (hcurr : s.lri.idcurr = some ident)
    (h : Cut unitSize n (last - unitSize)
      { s.reply ident none (last - unitSize) last with lri := s.lri.next }
      s' given) :
    Cut unitSize (n + 1) last s s'
      (⟨ident, none, last - unitSize, last⟩ :: given) where
  replies := by
    rw [h.replies]
    show (s.replies ++ [_]) ++ given = _
    rw [List.append_assoc]
    rfl
  length := by rw [List.length_cons, h.length]
  mem r hr := by
    rcases List.mem_cons.mp hr with rfl | hr
    · exact .inl hcurr
    · exact ListrequestIterator.mem_iff_next.mpr (.inr (h.mem r hr))
  unit r hr := by
    rcases List.mem_cons.mp hr with rfl | hr
    · show last = last - unitSize + unitSize
      omega
    · exact h.unit r hr
  once := by
    rw [List.map_cons, List.nodup_cons]
    refine ⟨fun hmem => ?_, h.once⟩
    obtain ⟨r, hr, heq⟩ := List.mem_map.mp hmem
    have hnext : s.lri.next.Mem r.ident := h.mem r hr
    rw [show r.ident = ident from heq] at hnext
    exact ListrequestIterator.not_mem_next hcurr hnext
  tiles hpos := by
    have hlo : last - ((n + 1 : Nat) : Int) * unitSize
        = last - unitSize - n * unitSize := by
      show last - ((n : Int) + 1) * unitSize = _
      rw [Int.add_mul, Int.one_mul]
      omega
    rw [hlo, List.reverse_cons, List.map_append]
    exact (h.tiles hpos).snoc (by omega)
  frame v hv := by
    have hne : v ≠ ident := fun heq => hv (.inl (heq.symm ▸ hcurr))
    have hnext : ¬ s.lri.next.Mem v :=
      fun hmem => hv (ListrequestIterator.mem_iff_next.mpr (.inr hmem))
    rw [h.frame v hnext]
    exact Function.update_of_ne hne ..

/-- The loop cuts the queue from its end. -/
theorem splitLoop_cut (unitSize : Int) (n : Nat) :
    ∀ (last : Int) (s : SplitState w), n ≤ s.lri.count →
      ∃ given, Cut unitSize n last s (splitLoop unitSize n last s) given := by
  induction n with
  | zero =>
    intro last s _
    exact ⟨[],
      { replies := (List.append_nil _).symm
        length := rfl
        mem := fun r hr => by cases hr
        unit := fun r hr => by cases hr
        once := List.nodup_nil
        tiles := fun _ => by
          show last - ((0 : Nat) : Int) * unitSize = last
          rw [Int.natCast_zero, Int.zero_mul, Int.sub_zero]
        frame := fun _ _ => rfl }⟩
  | succ n ih =>
    intro last s hcount
    unfold splitLoop
    split
    next hnone =>
      -- no request is left: the count is 0
      rw [ListrequestIterator.count_eq_zero_iff.mpr hnone] at hcount
      exact absurd hcount (Nat.not_succ_le_zero n)
    next ident hcurr =>
      have hnext := ListrequestIterator.count_next hcurr
      obtain ⟨given, hcut⟩ := ih (last - unitSize)
        { s.reply ident none (last - unitSize) last with
          lri := s.lri.next } (by show n ≤ s.lri.next.count; omega)
      exact ⟨_, hcut.turn hcurr⟩

-- ======== local split

theorem splitLocal_eq_loop {vid : Nat} {s : SplitState w} {nreq unitSize : Int}
    (hsizes : splitSize (s.gwork.lwork vid) s.gwork.parGrain s.lri.count
      = some (nreq, unitSize))
    (hle : (s.gwork.lwork vid).crBeg ≤ (s.gwork.lwork vid).crEnd) :
    splitLocal vid s
      = splitLoop unitSize nreq.toNat (s.gwork.lwork vid).crEnd
          { s with
            gwork := s.gwork.setLwork vid
              { s.gwork.lwork vid with
                crEnd := (s.gwork.lwork vid).crEnd - nreq * unitSize } } := by
  unfold splitLocal
  dsimp only
  rw [hsizes]
  dsimp only
  rw [LocalWork.steal_of_le hle (splitSize_spec hsizes).stolen]

/-- A queue that is not ready, too small or empty is not split. -/
theorem splitLocal_eq_self {vid : Nat} {s : SplitState w}
    (h : splitSize (s.gwork.lwork vid) s.gwork.parGrain s.lri.count = none
      ∨ (s.gwork.lwork vid).crEnd < (s.gwork.lwork vid).crBeg) :
    splitLocal vid s = s := by
  unfold splitLocal
  dsimp only
  generalize hsizes : splitSize (s.gwork.lwork vid) s.gwork.parGrain
    s.lri.count = sizes at h
  rcases sizes with - | ⟨nreq, unitSize⟩
  · rfl
  · have hok := splitSize_spec hsizes
    have hlt := h.resolve_left (Option.some_ne_none _)
    dsimp only
    rw [LocalWork.steal_of_lt hlt (Int.mul_nonneg hok.nonneg hok.unit)]

theorem splitSize_eq_none {lwork : LocalWork} {parGrain : Int} {count : Nat}
    (h : lwork.init = false ∨ lwork.size ≤ parGrain) :
    splitSize lwork parGrain count = none := by
  unfold splitSize
  dsimp only
  rcases h with h | h
  · rw [if_pos h]
  · rw [if_pos h, ite_self]

theorem localSplits_of_eq_self {vid : Nat} {s : SplitState w}
    (h : splitLocal vid s = s) : LocalSplits vid s := by
  unfold LocalSplits
  rw [h]
  exact ⟨s.gwork.lwork vid, [], (List.append_nil _).symm,
    fun r hr => (List.not_mem_nil hr).elim, fun _ => rfl,
    WellSplit.nothing ..⟩

/-- A local split whose parts are not of 0 iterations is right. -/
theorem localSplits_of_pos {vid : Nat} {s : SplitState w}
    (h : 0 < s.gwork.parGrain ∨ s.lri.count < (s.gwork.lwork vid).size) :
    LocalSplits vid s := by
  rcases Int.lt_or_le (s.gwork.lwork vid).crEnd (s.gwork.lwork vid).crBeg
    with hlt | hle
  · exact localSplits_of_eq_self (splitLocal_eq_self (.inr hlt))
  generalize hsizes : splitSize (s.gwork.lwork vid) s.gwork.parGrain
    s.lri.count = sizes
  rcases sizes with - | ⟨nreq, unitSize⟩
  · exact localSplits_of_eq_self (splitLocal_eq_self (.inl hsizes))
  have hok := splitSize_spec hsizes
  have hnreq : (nreq.toNat : Int) = nreq := Int.toNat_of_nonneg hok.nonneg
  have hserved := hok.served
  obtain ⟨given, hcut⟩ := splitLoop_cut unitSize nreq.toNat
    (s.gwork.lwork vid).crEnd
    { s with
      gwork := s.gwork.setLwork vid
        { s.gwork.lwork vid with
          crEnd := (s.gwork.lwork vid).crEnd - nreq * unitSize } }
    (by show nreq.toNat ≤ s.lri.count; omega)
  unfold LocalSplits
  rw [splitLocal_eq_loop hsizes hle]
  refine ⟨{ s.gwork.lwork vid with
      crEnd := (s.gwork.lwork vid).crEnd - nreq * unitSize },
    given, hcut.replies, hcut.mem, fun hvid => ?_, ?_⟩
  · rw [hcut.frame vid hvid]
    exact Function.update_self ..
  · exact
      { rest := rfl
        stolen := by
          refine ⟨unitSize, ?_, ?_, hcut.unit⟩
          · rw [hcut.length, hnreq]
            exact hok.stolen
          · rw [hcut.length, hnreq,
              LocalWork.size_crEnd_sub hle hok.stolen]
            omega
        tiles := by
          have htiles := hcut.tiles (hok.positive h)
          rw [hnreq] at htiles
          exact htiles
        once := hcut.once
        kept := fun _ => by
          rw [LocalWork.size_crEnd_sub hle hok.stolen]
          exact hok.kept }

theorem not_localSplits {vid : Nat} {s : SplitState w}
    (hreq : 0 < s.lri.count) (hinit : (s.gwork.lwork vid).init ≠ false)
    (hgrain : s.gwork.parGrain < (s.gwork.lwork vid).size)
    (hle : (s.gwork.lwork vid).crBeg ≤ (s.gwork.lwork vid).crEnd)
    (hp : s.gwork.parGrain ≤ 0)
    (hsize : (s.gwork.lwork vid).size ≤ s.lri.count) :
    ¬ LocalSplits vid s := by
  intro ⟨lwork', given, hgiven, _, _, hwell⟩
  obtain ⟨given', hcut⟩ := splitLoop_cut 0 s.lri.count (s.gwork.lwork vid).crEnd
    { s with
      gwork := s.gwork.setLwork vid
        { s.gwork.lwork vid with
          crEnd := (s.gwork.lwork vid).crEnd - s.lri.count * 0 } }
    (Nat.le_refl _)
  rw [splitLocal_eq_loop (splitSize_zero hinit hgrain hp hsize) hle,
    Int.toNat_natCast, hcut.replies, List.append_cancel_left_eq] at hgiven
  subst hgiven
  -- the first requester is given an empty part
  obtain ⟨r, hr⟩ := List.exists_mem_of_length_pos
    (Nat.lt_of_lt_of_eq hreq hcut.length.symm)
  have hlt := hwell.first_lt_last hr
  rw [hcut.unit r hr, Int.add_zero] at hlt
  exact Int.lt_irrefl _ hlt

/-- A local split is right iff none is made, or the grain is positive, or
the queue holds more than the requests. -/
theorem localSplits_iff {vid : Nat} {s : SplitState w}
    (hreq : 0 < s.lri.count) :
    LocalSplits vid s
      ↔ (s.gwork.lwork vid).init = false
        ∨ (s.gwork.lwork vid).size ≤ s.gwork.parGrain
        ∨ (s.gwork.lwork vid).crEnd < (s.gwork.lwork vid).crBeg
        ∨ 0 < s.gwork.parGrain
        ∨ s.lri.count < (s.gwork.lwork vid).size := by
  constructor
  · intro h
    by_contra hnot
    simp only [not_or, Int.not_lt, Int.not_le] at hnot
    obtain ⟨hinit, hgrain, hle, hp, hsize⟩ := hnot
    exact not_localSplits hreq hinit hgrain hle hp hsize h
  · intro h
    rcases h with h | h | h | h
    · exact localSplits_of_eq_self
        (splitLocal_eq_self (.inl (splitSize_eq_none (.inl h))))
    · exact localSplits_of_eq_self
        (splitLocal_eq_self (.inl (splitSize_eq_none (.inr h))))
    · exact localSplits_of_eq_self (splitLocal_eq_self (.inr h))
    · exact localSplits_of_pos h

-- ======== two-way split

theorem St.goto_pc (s : St w) (t : Nat) (pc : Pc) :
    ((s.goto t pc).thread t).pc = pc := by
  show (Function.update s.thread t _ t).pc = pc
  rw [Function.update_self]

theorem St.goto_lwork (s : St w) (t : Nat) (pc : Pc) (vid : Nat) :
    ((s.goto t pc).thread vid).lwork = (s.thread vid).lwork := by
  show (Function.update s.thread t _ vid).lwork = _
  by_cases heq : vid = t
  · rw [heq, Function.update_self]
  · rw [Function.update_of_ne heq]

theorem St.setThread_thread (s : St w) (t : Nat) (th : Thread) :
    (s.setThread t th).thread t = th :=
  Function.update_self ..

theorem halfSplits_of_redo {c : Config w} {t vid : Nat} {s s' : St w}
    {outer : Bool}
    (h : globalWorkSteal c t vid s = some (s'.goto t (.redoSelect outer)))
    (hsame : (s'.thread vid).lwork = (s.thread vid).lwork) :
    HalfSplits c t vid s := by
  refine ⟨_, h, ?_⟩
  have htaken : (s'.goto t (.redoSelect outer)).taken t = [] := by
    unfold St.taken
    rw [St.goto_pc]
  rw [St.goto_lwork, htaken, hsame]
  exact WellSplit.nothing ..

theorem globalWorkSteal_eq_redo {c : Config w} {t vid : Nat} {s : St w}
    {outer : Bool} (hpc : (s.thread t).pc = .select outer)
    (h : vid = t ∨ (s.thread vid).lwork.init = false
      ∨ (s.thread vid).lwork.size ≤ c.parGrain) :
    globalWorkSteal c t vid s = some (s.goto t (.redoSelect outer)) := by
  have hselect : selectStep c t vid s
      = some (s.goto t (.redoSelect outer)) := by
    unfold selectStep
    rw [hpc]
    dsimp only
    rcases h with h | h | h
    · rw [if_pos h]
    · rw [if_pos h, ite_self]
    · rw [if_pos h, ite_self, ite_self]
  unfold globalWorkSteal
  rw [hselect, Option.bind_some, St.goto_pc]

/-- A steal of a large queue. -/
theorem globalWorkSteal_eq_steal {c : Config w} {t vid : Nat} {s : St w}
    {outer : Bool} (hpc : (s.thread t).pc = .select outer) (hne : vid ≠ t)
    (hinit : (s.thread vid).lwork.init ≠ false)
    (hgrain : c.parGrain < (s.thread vid).lwork.size) :
    globalWorkSteal c t vid s
      = threadStep c t (s.goto t
          (.steal outer vid ((s.thread vid).lwork.size / 2))) := by
  have hselect : selectStep c t vid s
      = some (s.goto t
          (.steal outer vid ((s.thread vid).lwork.size / 2))) := by
    unfold selectStep
    rw [hpc]
    dsimp only
    rw [if_neg hne, if_neg hinit, if_neg (Int.not_le.mpr hgrain)]
  unfold globalWorkSteal
  rw [hselect, Option.bind_some, St.goto_pc]

theorem threadStep_steal_of_lt {c : Config w} {t vid : Nat} {s : St w}
    {outer : Bool} {unitSize : Int}
    (hpc : (s.thread t).pc = .steal outer vid unitSize)
    (hlt : (s.thread vid).lwork.crEnd < (s.thread vid).lwork.crBeg)
    (hunit : 0 ≤ unitSize) :
    threadStep c t s = some (s.goto t (.redoSelect outer)) := by
  unfold threadStep
  dsimp only
  rw [hpc]
  dsimp only
  rw [LocalWork.steal_of_lt hlt hunit]

theorem threadStep_steal_of_le {c : Config w} {t vid : Nat} {s : St w}
    {outer : Bool} {unitSize : Int}
    (hpc : (s.thread t).pc = .steal outer vid unitSize)
    (hle : (s.thread vid).lwork.crBeg ≤ (s.thread vid).lwork.crEnd)
    (hunit : unitSize ≤ (s.thread vid).lwork.size) :
    threadStep c t s
      = some ((s.setThread vid
          { s.thread vid with
            lwork :=
              { (s.thread vid).lwork with
                crEnd := (s.thread vid).lwork.crEnd - unitSize } }).goto t
          (.refill ((s.thread vid).lwork.crEnd - unitSize)
            (s.thread vid).lwork.crEnd)) := by
  unfold threadStep
  dsimp only
  rw [hpc]
  dsimp only
  rw [LocalWork.steal_of_le hle hunit]

/-- A steal by half is right iff it splits well. -/
theorem halfSplits_iff_wellSplit {c : Config w} {t vid : Nat} {s : St w}
    {outer : Bool} (hpc : (s.thread t).pc = .select outer) (hne : vid ≠ t)
    (hinit : (s.thread vid).lwork.init ≠ false)
    (hgrain : c.parGrain < (s.thread vid).lwork.size)
    (hle : (s.thread vid).lwork.crBeg ≤ (s.thread vid).lwork.crEnd) :
    HalfSplits c t vid s
      ↔ WellSplit c.parGrain (s.thread vid).lwork
        { (s.thread vid).lwork with
          crEnd := (s.thread vid).lwork.crEnd
            - (s.thread vid).lwork.size / 2 }
        [⟨t, none, (s.thread vid).lwork.crEnd
            - (s.thread vid).lwork.size / 2,
          (s.thread vid).lwork.crEnd⟩] := by
  have hnonneg := (s.thread vid).lwork.size_nonneg
  have hrun := threadStep_steal_of_le (c := c)
    (St.goto_pc s t (.steal outer vid ((s.thread vid).lwork.size / 2)))
    (by rw [St.goto_lwork]; exact hle) (by rw [St.goto_lwork]; omega)
  rw [← globalWorkSteal_eq_steal hpc hne hinit hgrain] at hrun
  unfold HalfSplits
  rw [hrun]
  simp only [Option.some_inj, exists_eq_left', St.goto_lwork,
    St.setThread_thread]
  unfold St.taken
  rw [St.goto_pc]

/-- Half of the range goes to the thread: the part is not empty from 2
iterations on, the rest can be less than a grain. -/
theorem wellSplit_half_iff {parGrain : Int} {lwork : LocalWork} {t : Nat}
    (hgrain : parGrain < lwork.size) (hle : lwork.crBeg ≤ lwork.crEnd) :
    WellSplit parGrain lwork
        { lwork with crEnd := lwork.crEnd - lwork.size / 2 }
        [⟨t, none, lwork.crEnd - lwork.size / 2, lwork.crEnd⟩]
      ↔ 2 ≤ lwork.size ∧ parGrain ≤ lwork.size - lwork.size / 2 := by
  have hnonneg := lwork.size_nonneg
  have hrest := LocalWork.size_crEnd_sub hle
    (show lwork.size / 2 ≤ lwork.size by omega)
  constructor
  · intro h
    have hlt := h.first_lt_last (List.mem_singleton.mpr rfl)
    have hkept := h.kept hgrain
    rw [hrest] at hkept
    dsimp only at hlt
    exact ⟨by omega, hkept⟩
  · intro ⟨htwo, hkept⟩
    exact
      { rest := rfl
        stolen := by
          refine ⟨lwork.size / 2, ?_, ?_, fun r hr => ?_⟩
          · rw [List.length_singleton]
            omega
          · rw [List.length_singleton, hrest]
            omega
          · rw [List.mem_singleton.mp hr, Int.sub_add_cancel]
        tiles := ⟨rfl, by show lwork.crEnd - _ < lwork.crEnd; omega, rfl⟩
        once := List.nodup_singleton t
        kept := fun _ => by
          rw [hrest]
          exact hkept }

/-- The victims the two-way split is right on. -/
theorem halfSplits_iff {c : Config w} {t vid : Nat} {s : St w}
    {outer : Bool} (hpc : (s.thread t).pc = .select outer) :
    HalfSplits c t vid s
      ↔ vid = t
        ∨ (s.thread vid).lwork.init = false
        ∨ (s.thread vid).lwork.size ≤ c.parGrain
        ∨ (s.thread vid).lwork.crEnd < (s.thread vid).lwork.crBeg
        ∨ 2 ≤ (s.thread vid).lwork.size
          ∧ c.parGrain ≤ (s.thread vid).lwork.size
            - (s.thread vid).lwork.size / 2 := by
  by_cases hidle : vid = t ∨ (s.thread vid).lwork.init = false
      ∨ (s.thread vid).lwork.size ≤ c.parGrain
  · refine iff_of_true
      (halfSplits_of_redo (globalWorkSteal_eq_redo hpc hidle) rfl) ?_
    rcases hidle with h | h | h
    · exact .inl h
    · exact .inr (.inl h)
    · exact .inr (.inr (.inl h))
  · simp only [not_or, Int.not_le] at hidle
    obtain ⟨hne, hinit, hgrain⟩ := hidle
    rw [or_iff_right hne, or_iff_right hinit,
      or_iff_right (Int.not_le.mpr hgrain)]
    rcases Int.lt_or_le (s.thread vid).lwork.crEnd
      (s.thread vid).lwork.crBeg with hlt | hle
    · -- the steal fails
      have hsteal := globalWorkSteal_eq_steal hpc hne hinit hgrain
      rw [threadStep_steal_of_lt (St.goto_pc ..)
        (by rw [St.goto_lwork]; exact hlt)
        (by rw [LocalWork.size_of_lt hlt]; decide)] at hsteal
      exact iff_of_true
        (halfSplits_of_redo hsteal (St.goto_lwork ..)) (.inl hlt)
    · rw [or_iff_right (Int.not_lt.mpr hle),
        halfSplits_iff_wellSplit hpc hne hinit hgrain hle,
        wellSplit_half_iff hgrain hle]

-- ======== which splits are right

/-- The local split of `vid` is right iff it does nothing or its parts are
not of 0 iterations; the two-way split by `t` iff it does nothing, or it
steals something and leaves a grain. -/
theorem splits_iff (c : Config w) (t vid : Nat) (s : St w) (outer : Bool)
    (sp : SplitState w) (victim : Nat)
    (hpc : (s.thread t).pc = .select outer) (hreq : 0 < sp.lri.count) :
    (LocalSplits victim sp
      ↔ (sp.gwork.lwork victim).init = false
        ∨ (sp.gwork.lwork victim).size ≤ sp.gwork.parGrain
        ∨ (sp.gwork.lwork victim).crEnd < (sp.gwork.lwork victim).crBeg
        ∨ 0 < sp.gwork.parGrain
        ∨ sp.lri.count < (sp.gwork.lwork victim).size)
    ∧ (HalfSplits c t vid s
      ↔ vid = t
        ∨ (s.thread vid).lwork.init = false
        ∨ (s.thread vid).lwork.size ≤ c.parGrain
        ∨ (s.thread vid).lwork.crEnd < (s.thread vid).lwork.crBeg
        ∨ 2 ≤ (s.thread vid).lwork.size
          ∧ c.parGrain ≤ (s.thread vid).lwork.size
            - (s.thread vid).lwork.size / 2) :=
  ⟨localSplits_iff hreq, halfSplits_iff hpc⟩

/-- Thread 0 runs `[0, n)` of a loop with this grain; the other threads
have nothing left and select a victim. -/
def selecting (parGrain n : Int) : Config 64 × St 64 :=
  (⟨0, 0b11, 2, 2, 0, n, parGrain, 1⟩,
    { workremain := n
      workerdone := 0
      wa := ⟨0, fun _ => none, fun _ => none⟩
      thread := fun t =>
        if t = 0 then ⟨.worknext, ⟨0, n, true, 0⟩, []⟩
        else ⟨.select true, ⟨0, 0, false, 0⟩, []⟩
      split := fun _ => .free
      accounted := []
      executed := [] })

/-- The splitter comes to the range `[0, n)` of thread 0, with the request
of thread 1. -/
def splitting (parGrain n : Int) : SplitState 64 :=
  { gwork :=
      { workremain := n
        workerdone := 0
        wa := ⟨0, fun _ => none, fun _ => none⟩
        lwork := fun t => if t = 0 then ⟨0, n, true, 0⟩ else ⟨0, 0, false, 0⟩
        body := true
        parGrain := parGrain
        seqGrain := 1 }
    lri := .ofBitmap 0b10
    replies := [] }

/-- Four iterations and a grain of 1: thread 1 gets the last two of them
from the splitter, or takes them. -/
theorem splits_iff_four :
    LocalSplits 0 (splitting 1 4)
      ∧ HalfSplits (selecting 1 4).1 1 0 (selecting 1 4).2 := by
  obtain ⟨hlocal, hhalf⟩ := splits_iff (selecting 1 4).1 1 0
    (selecting 1 4).2 true (splitting 1 4) 0 rfl (by decide)
  exact ⟨hlocal.mpr (by decide), hhalf.mpr (by decide)⟩

/-- A grain of 0 lets the splitter hand out 0 of 1 iteration; with a grain
of 3, half of 4 iterations leaves 2. -/
theorem not_splits_small :
    ¬ LocalSplits 0 (splitting 0 1)
      ∧ ¬ HalfSplits (selecting 3 4).1 1 0 (selecting 3 4).2 := by
  rw [localSplits_iff (by decide), @halfSplits_iff 64 _ 1 0 _ true rfl]
  decide

end XKaapi.Foreach
