/-
The reductions that `kaapi_c2c` prints for a cumulative-write parameter:
the cases of `redinit`, which set the private storage of a stolen task to
the identity, and of `reducor`, which combine it with the shared data
(`DoKaapiGenerateFormat`). The two print the same loops around another
assignment, and one definition models both.

The builtin operators `&&` and `||` are printed as `&&=` and `||=`, which C
does not have. For two dimensions neither function is right. With a builtin
operator the printed code moves to the next row by `view.kda`, a field that
`kaapi_memory_view_t` does not have, so it does not compile. With an
operator of the user it walks the first `size[0]` elements of one row. All
printed loops count in `unsigned int` up to a `size_t`, and do not end for
sizes from `2 ^ 32` on.

The operator is one that the type of the elements has. Not modelled: three
dimensions, for which `get_view_param` aborts; the identity of a user
operator that declares none, which is a `memset`.
-/
import Mathlib.Data.List.Nodup
import Mathlib.Data.List.Perm.Basic
import XKaapi.Lib.CountedLoop
import XKaapi.Memory.CopyView

namespace XKaapi.C2c

open CopyView (MemoryView view1D view2D)
open CountedLoop (execFor Runs)
open Function (update)

-- ======== what is printed

/-- `attr`: an array of dimension 0, 1 or 2, or the begin of a range. -/
inductive Attr
  | scalar
  | array1
  | array2
  | range
deriving DecidableEq

/-- The builtin operators of the table of `main`. -/
inductive Builtin
  | plus
  | minus
  | times
  | band
  | bor
  | bxor
  | land
  | lor
deriving DecidableEq

/-- `name_reducor`. -/
def Builtin.nameReducor : Builtin → String
  | .plus => "+="
  | .minus => "-="
  | .times => "*="
  | .band => "&="
  | .bor => "|="
  | .bxor => "^="
  | .land => "&&="
  | .lor => "||="

/-- `redop`: `user` is an operator of `declare reduction`, whose reducor
and redinit are functions. -/
inductive Redop
  | builtin (op : Builtin)
  | user
deriving DecidableEq

/-- A parameter in `KAAPI_CW_MODE`. -/
structure CwParam where
  attr : Attr
  redop : Redop
deriving DecidableEq

/-- `kaapi_memory_view_make1d`. -/
def make1d (size wordsize : Nat) : MemoryView := ⟨view1D, size, 0, 0, wordsize⟩

/-- `kaapi_memory_view_make2d`. -/
def make2d (n m lda wordsize : Nat) : MemoryView := ⟨view2D, n, m, lda, wordsize⟩

/-- `get_view_param`, for the values of the dimension expressions. -/
def CwParam.view (p : CwParam) (n m lda wordsize : Nat) : MemoryView :=
  match p.attr with
  | .scalar => make1d 1 wordsize
  | .array1 => make1d n wordsize
  | .array2 => make2d n m lda wordsize
  | .range => make1d n wordsize

/-- The operands of a printed assignment: `var[ikak<k>]` and
`value[ikak<k>]`; `*var` and `*value`; `*var++` and `*value++`. -/
inductive Access
  | cell (k : Nat)
  | here
  | next

/-- What is printed with the operands: an operator between them, or a call
on both. -/
inductive Printed
  | operator (text : String)
  | call

/-- What `redinit` assigns by. -/
def CwParam.redinitOp (p : CwParam) : Printed :=
  match p.redop with
  | .builtin _ => .operator "="
  | .user => .call

/-- What `reducor` assigns by. -/
def CwParam.reducorOp (p : CwParam) : Printed :=
  match p.redop with
  | .builtin op => .operator op.nameReducor
  | .user => .call

/-- `loop k` is `for (unsigned int ikak<k>=0; ikak<k> < view.size[<k>]; …)`,
`advance` is `var += view.<field>;`. -/
inductive Stmt
  | assign (a : Access) (op : Printed)
  | advance (field : String)
  | seq (s t : Stmt)
  | loop (k : Nat) (body : Stmt)

/-- What stands before the closing brace number `k` of the nested loops: it
closes the loop of the index `dim - 1 - k`. -/
def closed (dim : Nat) (body : Stmt) : Nat → Stmt
  | 0 => body
  | k + 1 =>
    if k = 0 ∧ dim = 2 then .seq (.loop (dim - 1 - k) (closed dim body k)) (.advance "kda")
    else .loop (dim - 1 - k) (closed dim body k)

/-- The body of the `case` of the parameter. -/
def emitted (p : CwParam) (op : Printed) : Stmt :=
  match p.redop with
  | .builtin _ =>
    match p.attr with
    | .scalar => .assign .here op
    | .array1 => closed 1 (.assign (.cell 0) op) 1
    | .array2 => closed 2 (.assign (.cell 1) op) 2
    | .range => .loop 0 (.assign .next op)
  | .user => .loop 0 (.assign .next op)

-- ======== what it does

/-- The fields of `kaapi_memory_view_t` that are one `size_t`. -/
def viewFields : List (String × (MemoryView → Nat)) :=
  [("lda", (·.lda)), ("wordsize", (·.wordsize))]

/-- The assignment operators of C. -/
def assignmentOperators : List String :=
  ["=", "*=", "/=", "%=", "+=", "-=", "<<=", ">>=", "&=", "^=", "|="]

def compiles : Stmt → Bool
  | .assign _ (.operator text) => assignmentOperators.contains text
  | .assign _ .call => true
  | .advance field => (viewFields.lookup field).isSome
  | .seq s t => compiles s && compiles t
  | .loop _ body => compiles body

/-- `view.size[k]`. -/
def size (view : MemoryView) : Nat → Nat
  | 0 => view.size0
  | _ => view.size1

/-- The indices `ikak<k>`, the two pointers, and the memory assigned to. -/
structure St (μ : Type) where
  idx : Nat → Nat
  var : Nat
  value : Nat
  mem : μ

section

variable {μ : Type} (act : Nat → Nat → μ → μ) (view : MemoryView)

/-- The printed code run with at most `fuel` turns in each loop; `act a b` is
the assignment to the element `a` of `var` from the element `b` of
`value`. -/
def exec (fuel : Nat) : Stmt → St μ → Option (St μ)
  | .assign (.cell k) _, s =>
    some { s with mem := act (s.var + s.idx k) (s.value + s.idx k) s.mem }
  | .assign .here _, s => some { s with mem := act s.var s.value s.mem }
  | .assign .next _, s =>
    some { s with
      mem := act s.var s.value s.mem
      var := s.var + 1
      value := s.value + 1 }
  | .advance field, s =>
    (viewFields.lookup field).map fun get => { s with var := s.var + get view }
  | .seq a b, s => (exec fuel a s).bind (exec fuel b)
  | .loop k body, s =>
    (execFor (fun i => decide (i < size view k)) (fun i => some ((i + 1) % 2 ^ 32))
      fuel 0).bind fun is =>
        is.foldlM (fun s i => exec fuel body { s with idx := update s.idx k i }) s

/-- The printed code compiles, ends, and leaves `mem'`. -/
def Computes (p : CwParam) (op : Printed) (mem mem' : μ) : Prop :=
  compiles (emitted p op) = true
    ∧ ∃ fuel s, exec act view fuel (emitted p op) ⟨fun _ => 0, 0, 0, mem⟩
        = some s
      ∧ s.mem = mem'

end

variable {V : Type}

/-- `var = identity`. -/
def redinit (identity : V) (a _b : Nat) (mem : Nat → V) : Nat → V :=
  update mem a identity

/-- `var op= value`. -/
def reducor (op : V → V → V) (value : Nat → V) (a b : Nat) (mem : Nat → V) : Nat → V :=
  update mem a (op (mem a) (value b))

-- ======== what it should do

/-- The places of the elements in the storage that the view lays out. -/
def elements (p : CwParam) (n m lda : Nat) : List Nat :=
  match p.attr with
  | .scalar => [0]
  | .array1 => List.range n
  | .array2 =>
    (List.range n).flatMap fun i => (List.range m).map fun j => i * lda + j
  | .range => List.range n

/-- `redinit` sets the elements of the private storage to the identity, and
`reducor` combines each shared element with the private one once; neither
touches anything else. -/
def Right (p : CwParam) (n m lda wordsize : Nat) : Prop :=
  ∀ (V : Type) (op : V → V → V) (identity : V) (shared priv : Nat → V),
    Computes (redinit identity) (p.view n m lda wordsize) p p.redinitOp priv
        (fun a => if a ∈ elements p n m lda then identity else priv a)
      ∧ Computes (reducor op priv) (p.view n m lda wordsize) p p.reducorOp shared
        ((elements p n m lda).foldl (fun mem a => reducor op priv a a mem) shared)

/-- The parameters whose reduction is right: not those with the builtin
operators `&&` and `||`; not the arrays of dimension 2, unless the operator
is the user's and the elements are the first `n` ones; and no size that an
`unsigned int` does not reach. -/
def Meets (p : CwParam) (n m lda : Nat) : Prop :=
  p.redop ≠ .builtin .land ∧ p.redop ≠ .builtin .lor ∧
  match p.attr with
  | .scalar => True
  | .array1 => n < 2 ^ 32
  | .range => n < 2 ^ 32
  | .array2 =>
    p.redop = .user ∧ n < 2 ^ 32 ∧ (n = 0 ∨ m = 1 ∧ (n = 1 ∨ lda = 1))

-- ======== the loops that compile

section

variable {μ : Type} {act : Nat → Nat → μ → μ} {view : MemoryView} {p : CwParam}
  {a : Access} {op : Printed} {mem mem' : μ}

/-- How far an assignment has moved the pointers after `i` turns. -/
def Access.moved : Access → Nat → Nat
  | .next, i => i
  | _, _ => 0

/-- `n` turns assign the elements `0`, …, `n - 1`, whether the index or the
pointers move. -/
theorem foldlM_assign (ha : a = .cell 0 ∨ a = .next) (fuel n : Nat) :
    ∃ s, (List.range n).foldlM
        (fun s i => exec act view fuel (.assign a op) { s with idx := update s.idx 0 i })
        (⟨fun _ => 0, 0, 0, mem⟩ : St μ) = some s
      ∧ s.mem = (List.range n).foldl (fun mem i => act i i mem) mem
      ∧ s.var = a.moved n ∧ s.value = a.moved n := by
  induction n with
  | zero => exact ⟨_, rfl, rfl, by cases a <;> rfl, by cases a <;> rfl⟩
  | succ n ih =>
    obtain ⟨s, hs, hmem, hvar, hvalue⟩ := ih
    rw [List.range_succ, List.foldlM_append, hs, List.foldl_append, ← hmem]
    rcases ha with rfl | rfl
    · refine ⟨_, rfl, ?_, hvar, hvalue⟩
      simp [Access.moved, hvar, hvalue]
    · refine ⟨_, rfl, ?_, congrArg (· + 1) hvar, congrArg (· + 1) hvalue⟩
      simp [Access.moved, hvar, hvalue]

theorem runs_range {n : Nat} (hn : n < 2 ^ 32) :
    Runs (fun i => decide (i < n)) (fun i => some ((i + 1) % 2 ^ 32)) 0
      (List.range n) := by
  have h := CountedLoop.runs_of_values (fun i => decide (i < n))
    (fun i => some ((i + 1) % 2 ^ 32)) id (n := n) (by simp) ?_ (by simp)
  · simpa using h
  · intro i hi
    rw [id, id, Nat.mod_eq_of_lt (by omega)]

/-- The index wraps around before it reaches the size. -/
theorem execFor_none {n : Nat} (hn : 2 ^ 32 ≤ n) (fuel : Nat) {i : Nat}
    (hi : i < 2 ^ 32) :
    execFor (fun i => decide (i < n)) (fun i => some ((i + 1) % 2 ^ 32)) fuel i
      = none := by
  induction fuel generalizing i with
  | zero => rfl
  | succ fuel ih =>
    unfold execFor
    rw [if_pos (decide_eq_true (by omega)), Option.bind_some,
      ih (Nat.mod_lt _ (by decide))]
    rfl

/-- What a printed loop over the first size computes. -/
theorem computes_loop (ha : a = .cell 0 ∨ a = .next)
    (hp : emitted p op = .loop 0 (.assign a op))
    (hop : compiles (.assign a op) = true) :
    Computes act view p op mem mem' ↔ view.size0 < 2 ^ 32
      ∧ mem' = (List.range view.size0).foldl (fun mem i => act i i mem) mem := by
  have hrun : ∀ fuel s, (List.range view.size0).foldlM
      (fun s i => exec act view fuel (.assign a op) { s with idx := update s.idx 0 i })
      (⟨fun _ => 0, 0, 0, mem⟩ : St μ) = some s →
      s.mem = (List.range view.size0).foldl (fun mem i => act i i mem) mem := by
    intro fuel s hs
    obtain ⟨s', hs', hmem, -⟩ := foldlM_assign ha fuel view.size0
    rw [hs'] at hs
    rwa [← Option.some.inj hs]
  unfold Computes
  rw [hp]
  constructor
  · rintro ⟨-, fuel, s, hs, rfl⟩
    obtain ⟨is, his, hs⟩ := Option.bind_eq_some_iff.1 hs
    by_cases hn : view.size0 < 2 ^ 32
    · obtain rfl := Runs.unique ⟨fuel, his⟩ (runs_range hn)
      exact ⟨hn, hrun fuel s hs⟩
    · cases (execFor_none (Nat.not_lt.1 hn) fuel (by decide)).symm.trans his
  · rintro ⟨hn, rfl⟩
    obtain ⟨fuel, hfuel⟩ := runs_range hn
    obtain ⟨s, hs, hmem, -⟩ := foldlM_assign ha fuel view.size0
    exact ⟨hop, fuel, s, Option.bind_eq_some_iff.2 ⟨_, hfuel, hs⟩, hmem⟩

end

-- ======== assigning a list

theorem foldl_redinit (identity : V) (l : List Nat) (mem : Nat → V) :
    l.foldl (fun mem a => redinit identity a a mem) mem
      = fun a => if a ∈ l then identity else mem a := by
  induction l generalizing mem with
  | nil => simp
  | cons b l ih =>
    rw [List.foldl_cons, ih]
    funext a
    by_cases hab : a = b
    · simp [redinit, hab]
    · simp [redinit, update, hab]

/-- An operator that counts the combinations of each element. -/
def counting (x _v : Nat) : Nat := x + 1

theorem foldl_counting (priv : Nat → Nat) (l : List Nat) (mem : Nat → Nat) (a : Nat) :
    l.foldl (fun mem a => reducor counting priv a a mem) mem a = mem a + l.count a := by
  induction l generalizing mem with
  | nil => rfl
  | cons b l ih =>
    rw [List.foldl_cons, ih, List.count_cons]
    by_cases hab : a = b
    · subst hab
      simp [reducor, counting, Nat.add_assoc, Nat.add_comm 1]
    · simp [reducor, update, hab, Ne.symm hab]

-- ======== when it is right

theorem compiles_builtin (a : Access) (b : Builtin) :
    compiles (.assign a (.operator b.nameReducor)) = true
      ↔ b ≠ .land ∧ b ≠ .lor := by
  change assignmentOperators.contains b.nameReducor = true ↔ _
  cases b <;> decide

section

variable {p : CwParam} {a : Access} {n m lda wordsize : Nat}

theorem Right.of_loop (ha : a = .cell 0 ∨ a = .next)
    (hp : ∀ op, emitted p op = .loop 0 (.assign a op))
    (hinit : compiles (.assign a p.redinitOp) = true)
    (hred : compiles (.assign a p.reducorOp) = true)
    (hn : (p.view n m lda wordsize).size0 < 2 ^ 32)
    (he : elements p n m lda = List.range (p.view n m lda wordsize).size0) :
    Right p n m lda wordsize := by
  intro V op identity shared priv
  rw [he]
  refine ⟨(computes_loop ha (hp _) hinit).2 ⟨hn, ?_⟩,
    (computes_loop ha (hp _) hred).2 ⟨hn, rfl⟩⟩
  exact (foldl_redinit identity _ priv).symm

/-- A loop that is right combines each element as often as the view has
it. -/
theorem Right.perm (ha : a = .cell 0 ∨ a = .next)
    (hp : ∀ op, emitted p op = .loop 0 (.assign a op))
    (hred : compiles (.assign a p.reducorOp) = true)
    (h : Right p n m lda wordsize) :
    (p.view n m lda wordsize).size0 < 2 ^ 32
      ∧ (elements p n m lda).Perm (List.range (p.view n m lda wordsize).size0) := by
  obtain ⟨hn, heq⟩ := (computes_loop ha (hp _) hred).1
    (h Nat counting 0 (fun _ => 0) fun _ => 0).2
  refine ⟨hn, List.perm_iff_count.2 fun b => ?_⟩
  have hb := congrFun heq b
  have hr := foldl_counting (fun _ => 0)
    (List.range (p.view n m lda wordsize).size0) (fun _ => 0) b
  rw [foldl_counting] at hb
  rw [← hb] at hr
  omega

theorem elements_column (hp : p.attr = .array2) :
    elements p n 1 lda = (List.range n).map (· * lda) := by
  rw [elements, hp, List.map_eq_flatMap]
  rfl

/-- When the elements of an array of dimension 2 are the first `n` ones. -/
theorem first_of_perm (hp : p.attr = .array2)
    (h : (elements p n m lda).Perm (List.range n)) :
    n = 0 ∨ m = 1 ∧ (n = 1 ∨ lda = 1) := by
  have hlen : n * m = n := by
    simpa [elements, hp, List.length_flatMap] using h.length_eq
  rcases Nat.eq_zero_or_pos n with h0 | hpos
  · exact .inl h0
  obtain rfl : m = 1 := Nat.eq_of_mul_eq_mul_left hpos (hlen.trans (Nat.mul_one n).symm)
  refine .inr ⟨rfl, ?_⟩
  rw [elements_column hp] at h
  by_contra hnot
  obtain ⟨hn1, hlda⟩ := not_or.1 hnot
  -- two rows fall together, or the last one lies behind the first `n` places
  rcases Nat.eq_zero_or_pos lda with rfl | hlda0
  · have hinj := List.inj_on_of_nodup_map (h.nodup_iff.2 List.nodup_range)
      (List.mem_range.2 hpos) (List.mem_range.2 (by omega : 1 < n)) rfl
    cases hinj
  · have hlast : (n - 1) * lda < n :=
      List.mem_range.1 (h.mem_iff.1
        (List.mem_map_of_mem (List.mem_range.2 (Nat.sub_lt hpos Nat.one_pos))))
    have h2 : (n - 1) * 2 ≤ (n - 1) * lda := Nat.mul_le_mul_left _ (by omega)
    omega

theorem elements_of_first (hp : p.attr = .array2)
    (h : n = 0 ∨ m = 1 ∧ (n = 1 ∨ lda = 1)) : elements p n m lda = List.range n := by
  rcases h with rfl | ⟨rfl, h⟩
  · rw [elements, hp]
    rfl
  · rw [elements_column hp]
    rcases h with rfl | rfl
    · simp [List.range_one]
    · simp

end

/-- Which parameters get a reduction that is right. -/
theorem reduction_right_iff (p : CwParam) (n m lda wordsize : Nat) :
    Right p n m lda wordsize ↔ Meets p n m lda := by
  obtain ⟨attr, redop⟩ := p
  cases redop with
  | user =>
    let p (attr : Attr) : CwParam := ⟨attr, .user⟩
    have hright {attr : Attr}
        (hn : ((p attr).view n m lda wordsize).size0 < 2 ^ 32)
        (he : elements (p attr) n m lda
          = List.range ((p attr).view n m lda wordsize).size0) :
        Right (p attr) n m lda wordsize :=
      .of_loop (.inr rfl) (fun _ => rfl) rfl rfl hn he
    have hperm {attr : Attr} (h : Right (p attr) n m lda wordsize) :=
      h.perm (.inr rfl) (fun _ => rfl) rfl
    cases attr with
    | scalar =>
      refine iff_of_true ?_ ⟨nofun, nofun, trivial⟩
      exact hright (Nat.one_lt_two_pow (by decide)) rfl
    | array1 =>
      exact ⟨fun h => ⟨nofun, nofun, (hperm h).1⟩, fun h => hright h.2.2 rfl⟩
    | range =>
      exact ⟨fun h => ⟨nofun, nofun, (hperm h).1⟩, fun h => hright h.2.2 rfl⟩
    | array2 =>
      constructor
      · intro h
        obtain ⟨hn, hp⟩ := hperm h
        exact ⟨nofun, nofun, rfl, hn, first_of_perm rfl hp⟩
      · rintro ⟨-, -, -, hn, h⟩
        exact hright hn (elements_of_first rfl h)
  | builtin b =>
    have hmeets {Q : Prop} : Redop.builtin b ≠ .builtin .land
        ∧ Redop.builtin b ≠ .builtin .lor ∧ Q ↔ (b ≠ .land ∧ b ≠ .lor) ∧ Q := by
      rw [and_assoc, ne_eq, ne_eq, Redop.builtin.injEq, Redop.builtin.injEq]
    rw [Meets, hmeets]
    by_cases hb : b ≠ .land ∧ b ≠ .lor
    · have hred a := (compiles_builtin a b).2 hb
      rw [and_iff_right hb]
      cases attr with
      | scalar =>
        refine iff_of_true ?_ trivial
        intro V op identity shared priv
        refine ⟨⟨rfl, 0, _, rfl, ?_⟩, hred .here, 0, _, rfl, rfl⟩
        exact foldl_redinit identity [0] priv
      | array1 =>
        exact ⟨fun h => (h.perm (.inl rfl) (fun _ => rfl) (hred _)).1,
          fun h => .of_loop (.inl rfl) (fun _ => rfl) rfl (hred _) h rfl⟩
      | range =>
        exact ⟨fun h => (h.perm (.inr rfl) (fun _ => rfl) (hred _)).1,
          fun h => .of_loop (.inr rfl) (fun _ => rfl) rfl (hred _) h rfl⟩
      | array2 =>
        -- `view.kda` does not compile
        refine iff_of_false (fun h => ?_) fun h => nomatch h.1
        exact Bool.noConfusion (h Nat counting 0 id id).1.1
    · -- nor does `&&=`
      refine iff_of_false (fun h => hb ?_) fun h => hb h.1
      have hcomp := (h Nat counting 0 id id).2.1
      cases attr with
      | scalar => exact (compiles_builtin .here b).1 hcomp
      | array1 => exact (compiles_builtin (.cell 0) b).1 hcomp
      | range => exact (compiles_builtin .next b).1 hcomp
      | array2 => exact Bool.noConfusion (h Nat counting 0 id id).1.1

/-- The array `[2][2]` with the operator `+` of the compiler. -/
theorem builtin_array2_fails :
    ¬ ∀ (p : CwParam) (n m lda wordsize : Nat), Right p n m lda wordsize :=
  fun h => Bool.noConfusion
    (h ⟨.array2, .builtin .plus⟩ 2 2 2 8 Nat (· + ·) 0 id id).1.1

end XKaapi.C2c
