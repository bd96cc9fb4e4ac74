/-
The searches of KASTL (api/kastl/kastl/find.h, adjacent_find.h, search.h,
mismatch.h).

A task answers with the position its result holds, or with the first match
of its range, or with the first answer of its thieves, in the order of the
list (`answer`). Only whether that is the first match of the whole
sequence counts, and every step keeps it: a pop cuts a range, a
preemption puts the range and the thieves of a thief where the thief was.
A split that replies to several requests reverses its pieces in the list,
which keeps the answer unless the first match is in one piece and another
match in a later one.

`touched_algorithm_result` does not set its iterator: a search without a
match returns the iterator its default constructor left (`uninit`).
-/
import XKaapi.Kastl.Loop

namespace XKaapi.Kastl

open StepMachine (run Along)

-- ======== the bodies

/-- touched_algorithm_result, mismatch_result. -/
structure Touched (I : Type*) where
  isTouched : Bool
  iter : I
deriving DecidableEq, Repr

variable {α β I : Type*} {lo hi n : Nat} {p : Nat → Bool} {os : List (Option Bool)}
  {first : Option Nat} {ps : List (Nat × Nat)}

/-- The bodies of the searches: a match at a position ends the loop. -/
def touchedBody (p : Nat → Bool) (at' : Nat → I) (uninit : I)
    (reduce : Touched I → Touched I → Touched I × Bool) : Body (Touched I) where
  result := fun _ => ⟨false, uninit⟩
  apply := fun res pos => if p pos then (⟨true, at' pos⟩, true) else (res, false)
  reduce := reduce

/-- find_body::reduce -/
def findReduce (lhs rhs : Touched I) : Touched I × Bool :=
  if rhs.isTouched = false then (lhs, false) else (⟨true, rhs.iter⟩, true)

/-- The reduce of the others. -/
def touchedReduce (lhs rhs : Touched I) : Touched I × Bool :=
  let lhs := if lhs.isTouched = false ∧ rhs.isTouched
    = true then ⟨true, rhs.iter⟩ else lhs
  (lhs, lhs.isTouched)

/-- find_body::operator() -/
def findAt [BEq α] (xs : List α) (value : α) (pos : Nat) : Bool :=
  match xs[pos]? with
  | some x => x == value
  | none => false

/-- adjacent_find_body::operator() -/
def adjacentFindAt (pred : α → α → Bool) (xs : List α) (pos : Nat) : Bool :=
  match xs[pos]?, xs[pos + 1]? with
  | some x, some y => pred x y
  | _, _ => false

/-- search_body::operator(), from the sequence at a position. -/
def searchAt (pred : α → β → Bool) : List β → List α → Bool
  | [], _ => true
  | y :: ys, x :: xs => if pred x y = false then false else searchAt pred ys xs
  | _ :: _, [] => false

/-- mismatch_body::operator() -/
def mismatchAt (pred : α → β → Bool) (xs : List α) (ys : List β)
    (pos : Nat) : Bool :=
  match xs[pos]?, ys[pos]? with
  | some x, some y => !pred x y
  | _, _ => false

-- ======== the searches

/-- A search returns at once, or runs the loop on a number of positions
from a result. -/
inductive Call (I : Type*) where
  | returns (iter : I)
  | loops (body : Body (Touched I)) (n : Nat) (res : Touched I)

/-- kastl::find -/
def find [BEq α] (uninit : Nat) (xs : List α) (value : α) : Call Nat :=
  .loops (touchedBody (findAt xs value) id uninit findReduce) xs.length
    ⟨false, uninit⟩

/-- kastl::adjacent_find -/
def adjacentFind (uninit : Nat) (pred : α → α → Bool) (xs : List α) : Call Nat :=
  if xs.length ≤ 1 then .returns xs.length
  else .loops (touchedBody (adjacentFindAt pred xs) id uninit touchedReduce)
    (xs.length - 1) ⟨false, uninit⟩

/-- kastl::search -/
def search (uninit : Nat) (pred : α → β → Bool) (xs : List α)
    (ys : List β) : Call Nat :=
  if xs.length < ys.length then .returns xs.length
  else .loops (touchedBody (fun pos => searchAt pred ys (xs.drop pos)) id uninit
    touchedReduce) (xs.length - ys.length + 1) ⟨false, uninit⟩

/-- kastl::mismatch; the result of a thief has no iterators. -/
def mismatch (uninit : Nat × Nat) (pred : α → β → Bool) (xs : List α)
    (ys : List β) :
    Call (Nat × Nat) :=
  .loops (touchedBody (mismatchAt pred xs ys)
    (fun pos => (pos, pos)) uninit touchedReduce)
    xs.length ⟨false, (xs.length, xs.length)⟩

/-- The first of `n` positions that matches. -/
def firstMatch (p : Nat → Bool) (n : Nat) : Option Nat := (List.range n).find? p

/-- std::find, as a position. -/
def stdFind [BEq α] (xs : List α) (value : α) : Nat :=
  (firstMatch (findAt xs value) xs.length).getD xs.length

/-- std::adjacent_find -/
def stdAdjacentFind (pred : α → α → Bool) (xs : List α) : Nat :=
  (firstMatch (adjacentFindAt pred xs) (xs.length - 1)).getD xs.length

/-- std::search -/
def stdSearch (pred : α → β → Bool) (xs : List α) (ys : List β) : Nat :=
  if xs.length < ys.length then xs.length
  else (firstMatch (fun pos => searchAt pred ys (xs.drop pos))
    (xs.length - ys.length + 1)).getD xs.length

/-- std::mismatch -/
def stdMismatch (pred : α → β → Bool) (xs : List α) (ys : List β) : Nat × Nat :=
  ((firstMatch (mismatchAt pred xs ys) xs.length).map fun pos => (pos, pos)).getD
    (xs.length, xs.length)

/-- A split does not put the first match in a piece and another match in a
later piece. -/
def FirstKept (p : Nat → Bool) (n : Nat) (ps : List (Nat × Nat)) : Prop :=
  ∀ i, firstMatch p n = some i → ps.Pairwise fun a b =>
    a.1 ≤ i ∧ i < a.2 → ∀ j, b.1 ≤ j → j < b.2 → p j = false

/-- Whatever the schedule, the search returns what is expected if it
returns, and it can return. -/
def Call.Returns (s : Settings) (p : Nat → Bool) (expected : I) : Call I → Prop
  | .returns iter => iter = expected
  | .loops body n res => ∀ as t,
      Along (step s body (whileStep s body)) (SplitMeets s (FirstKept p n)) as
        (master n res) →
      run (step s body (whileStep s body)) as (master n res) = some t →
      (t.val.pc = .finished → t.val.res.iter = expected)
        ∧ ∃ bs t', run (step s body (whileStep s body)) bs t = some t'
          ∧ t'.val.pc = .finished

-- ======== the answers

/-- The first match of a range. -/
def seg (p : Nat → Bool) (lo hi : Nat) : Option Nat :=
    (List.range' lo (hi - lo)).find? p

/-- A search in two parts. -/
theorem seg_append {mid : Nat} (h₁ : lo ≤ mid) (h₂ : mid ≤ hi) :
    seg p lo hi = (seg p lo mid).or (seg p mid hi) := by
  unfold seg
  rw [← List.find?_append]
  congr 1
  rw [show hi - lo = (mid - lo) + (hi - mid) by omega, ← List.range'_append_1,
    Nat.add_sub_of_le h₁]

theorem seg_of_le (h : hi ≤ lo) : seg p lo hi
    = none := by
  unfold seg
  rw [Nat.sub_eq_zero_of_le h]
  rfl

/-- A position found is in the range, and matches. -/
theorem seg_eq_some {i : Nat} (h : seg p lo hi = some i) :
    lo ≤ i ∧ i < hi ∧ p i = true := by
  have hmem := List.mem_of_find?_eq_some h
  rw [List.mem_range'_1] at hmem
  exact ⟨hmem.1, by omega, List.find?_some h⟩

/-- The first match is that of the whole range. -/
theorem firstMatch_eq_seg (p : Nat → Bool) (n : Nat) : firstMatch p n
    = seg p 0 n := by
  unfold firstMatch seg
  rw [List.range_eq_range', Nat.sub_zero]

/-- No match is before the first one. -/
theorem le_of_firstMatch {i j : Nat} (h : firstMatch p n = some i) (hj : p j = true) :
    i ≤ j := by
  rw [firstMatch_eq_seg] at h
  by_contra hlt
  have hlt := Nat.not_le.mp hlt
  obtain ⟨-, hin, -⟩ := seg_eq_some h
  rw [seg_append (Nat.zero_le (j + 1)) (by omega)] at h
  cases hseg : seg p 0 (j + 1) with
  | none =>
    unfold seg at hseg
    have hno := List.find?_eq_none.mp hseg j (by rw [List.mem_range'_1]; omega)
    exact hno hj
  | some k =>
    rw [hseg] at h
    cases h
    obtain ⟨-, hk, -⟩ := seg_eq_some hseg
    omega

/-- The first answer of a list. -/
def firsts (os : List (Option Bool)) : Option Bool := os.foldr Option.or none

/-- The answers of two lists. -/
theorem firsts_append (os os' : List (Option Bool)) :
    firsts (os ++ os') = (firsts os).or (firsts os') := by
  unfold firsts
  induction os with
  | nil => rfl
  | cons o os ih =>
    rw [List.cons_append, List.foldr_cons, ih, List.foldr_cons, Option.or_assoc]

theorem firsts_of_notMem (h : some true ∉ os) :
    firsts os = if some false ∈ os then some false else none := by
  induction os with
  | nil => rfl
  | cons o os ih =>
    have ih := ih fun hc => h (List.mem_cons_of_mem o hc)
    show o.or (firsts os) = _
    rcases o with _ | _ | _
    · rw [ih]
      simp
    · simp
    · exact absurd List.mem_cons_self h

/-- One right answer is the answer, when the others are none. -/
theorem firsts_of_mem (h : some true ∈ os)
    (hpair : os.Pairwise fun a b =>
      (a = some true → b = none) ∧ (b = some true → a = none)) :
    firsts os = some true := by
  induction os with
  | nil => cases h
  | cons o os ih =>
    rw [List.pairwise_cons] at hpair
    show o.or (firsts os) = _
    rcases List.mem_cons.mp h with rfl | h
    · rfl
    · rw [(hpair.1 _ h).2 rfl, ih h hpair.2]
      rfl

theorem firsts_reverse
    (hpair : os.Pairwise fun a b =>
      (a = some true → b = none) ∧ (b = some true → a = none)) :
    firsts os.reverse = firsts os := by
  by_cases h : some true ∈ os
  · rw [firsts_of_mem h hpair, firsts_of_mem (List.mem_reverse.mpr h)]
    rw [List.pairwise_reverse]
    exact hpair.imp fun hab => ⟨hab.2, hab.1⟩
  · rw [firsts_of_notMem h, firsts_of_notMem (fun hc => h (List.mem_reverse.mp hc))]
    simp only [List.mem_reverse]

-- ======== the pieces

/-- Whether the first match of a range, if any, is the first of all. -/
def segIsFirst (p : Nat → Bool) (first : Option Nat) (lo hi : Nat) : Option Bool :=
  (seg p lo hi).map fun i => decide (some i = first)

/-- Whether the first match is in a part. -/
theorem segIsFirst_append {mid : Nat} (h₁ : lo ≤ mid) (h₂ : mid ≤ hi) :
    segIsFirst p first lo hi = (segIsFirst p first lo mid).or
      (segIsFirst p first mid hi) := by
  unfold segIsFirst
  rw [seg_append h₁ h₂]
  cases seg p lo mid with
  | none => rfl
  | some i => rfl

theorem segIsFirst_of_le (h : hi ≤ lo) : segIsFirst p first lo hi = none := by
  unfold segIsFirst
  rw [seg_of_le h]
  rfl

theorem segIsFirst_eq_true (h : segIsFirst p first lo hi = some true) : ∃ i,
      first = some i ∧ lo ≤ i ∧ i < hi := by
  unfold segIsFirst at h
  cases hseg : seg p lo hi with
  | none =>
    rw [hseg] at h
    cases h
  | some i =>
    rw [hseg] at h
    obtain ⟨h₁, h₂, -⟩ := seg_eq_some hseg
    refine ⟨i, ?_, h₁, h₂⟩
    have hdec : decide (some i = first) = true := Option.some.inj h
    exact (of_decide_eq_true hdec).symm

theorem seg_eq_none (h : ∀ j, lo ≤ j → j < hi → p j = false) :
    segIsFirst p first lo hi = none := by
  unfold segIsFirst seg
  rw [List.find?_eq_none.mpr]
  · rfl
  · intro j hj
    rw [List.mem_range'_1] at hj
    rw [h j hj.1 (by omega)]
    exact Bool.false_ne_true

/-- The pieces of a chain answer as the whole. -/
theorem firsts_chain (h : Chain lo ps hi) :
    firsts (ps.map fun q => segIsFirst p first q.1 q.2)
      = segIsFirst p first lo hi := by
  induction ps generalizing lo with
  | nil => exact (segIsFirst_of_le (Nat.le_of_eq h.symm)).symm
  | cons q ps ih =>
    obtain ⟨h₁, h₂, h₃⟩ := h
    show (segIsFirst p first q.1 q.2).or _ = _
    have htail := ih h₃
    unfold firsts at htail
    rw [htail, h₁]
    exact (segIsFirst_append (by omega) (chain_le h₃)).symm

theorem chain_pairwise (h : Chain lo ps hi) :
    ps.Pairwise (fun a b => a.2 ≤ b.1) ∧ ∀ q ∈ ps, lo ≤ q.1 := by
  induction ps generalizing lo with
  | nil => exact ⟨List.Pairwise.nil, fun q hq => nomatch hq⟩
  | cons q ps ih =>
    obtain ⟨h₁, h₂, h₃⟩ := h
    obtain ⟨hpair, hge⟩ := ih h₃
    refine ⟨List.pairwise_cons.mpr ⟨hge, hpair⟩, fun r hr => ?_⟩
    rcases List.mem_cons.mp hr with rfl | hr
    · exact Nat.le_of_eq h₁.symm
    · have hle := hge r hr
      omega

/-- So do the pieces of a split that keeps the first match. -/
theorem firsts_pieces (hchain : Chain lo ps hi) (hkept : FirstKept p n ps) :
    firsts (ps.reverse.map fun q => segIsFirst p (firstMatch p n) q.1 q.2)
      = segIsFirst p (firstMatch p n) lo hi := by
  rw [List.map_reverse, firsts_reverse, firsts_chain hchain]
  rw [List.pairwise_map]
  have hpair := (chain_pairwise hchain).1
  cases hfirst : firstMatch p n with
  | none =>
    refine hpair.imp fun _ => ⟨fun hc => ?_, fun hc => ?_⟩
    all_goals
      obtain ⟨i, hi, -⟩ := segIsFirst_eq_true hc
      cases hi
  | some i =>
    refine (hpair.and (hkept i hfirst)).imp fun {a b} ⟨hab, hno⟩ =>
      ⟨fun hc => ?_, fun hc => ?_⟩
    · obtain ⟨j, hj, h₁, h₂⟩ := segIsFirst_eq_true hc
      cases hj
      exact seg_eq_none (hno ⟨h₁, h₂⟩)
    · obtain ⟨j, hj, h₁, -⟩ := segIsFirst_eq_true hc
      cases hj
      refine seg_eq_none fun k _ hk => ?_
      cases hpk : p k with
      | false => rfl
      | true =>
        have hle := le_of_firstMatch hfirst hpk
        omega

-- ======== the answers

/-- What the proofs use of a body: a match ends the loop, and a thief with
a match ends the loop of a task without one. -/
structure Searches (body : Body (Touched I)) (p : Nat → Bool)
    (at' : Nat → I) : Prop where
  result : ∀ pos, (body.result pos).isTouched = false
  hit : ∀ res pos, p pos = true → body.apply res pos = (⟨true, at' pos⟩, true)
  miss : ∀ res pos, p pos = false → body.apply res pos = (res, false)
  found : ∀ lhs rhs, lhs.isTouched = false → rhs.isTouched = true →
    body.reduce lhs rhs = (⟨true, rhs.iter⟩, true)
  lost : ∀ lhs rhs, lhs.isTouched = false → rhs.isTouched = false →
    body.reduce lhs rhs = (lhs, false)
  injective : ∀ i j, at' i = at' j → i = j

variable {p : Nat → Bool} {at' : Nat → I} {body : Body (Touched I)} {s : Settings}

/-- The body of find searches. -/
theorem searches_find (uninit : Nat) :
    Searches (touchedBody p id uninit findReduce) p id where
  result := fun _ => rfl
  hit := fun _ _ h => if_pos h
  miss := fun _ _ h => if_neg (by rw [h]; exact Bool.false_ne_true)
  found := fun _ rhs _ h => if_neg (by rw [h]; exact Bool.noConfusion)
  lost := fun _ rhs _ h => if_pos h
  injective := fun _ _ h => h

/-- So does a body that keeps a touched position. -/
theorem searches_touched {uninit : I} (hinj : ∀ i j, at' i = at' j → i = j) :
    Searches (touchedBody p at' uninit touchedReduce) p at' where
  result := fun _ => rfl
  hit := fun _ _ h => if_pos h
  miss := fun _ _ h => if_neg (by rw [h]; exact Bool.false_ne_true)
  found := by
    intro lhs rhs h₁ h₂
    show touchedReduce lhs rhs = _
    unfold touchedReduce
    rw [if_pos ⟨h₁, h₂⟩]
  lost := by
    intro lhs rhs h₁ h₂
    show touchedReduce lhs rhs = _
    unfold touchedReduce
    rw [if_neg (by rw [h₂]; exact fun hc => nomatch hc.2)]
    show (lhs, lhs.isTouched) = _
    rw [h₁]
  injective := hinj

/-- The inner loop stops at the first match. -/
theorem innerLoop_eq (hb : Searches body p at') (res : Touched I)
    (pos count : Nat) :
    innerLoop body res pos count
      = match seg p pos (pos + count) with
        | none => (res, false)
        | some i => (⟨true, at' i⟩, true) := by
  unfold seg
  rw [Nat.add_sub_cancel_left]
  induction count generalizing pos with
  | zero => rfl
  | succ count ih =>
    unfold innerLoop
    rw [List.range'_succ, List.find?_cons]
    cases hp : p pos with
    | true => rw [hb.hit res pos hp]
    | false =>
      rw [hb.miss res pos hp]
      exact ih (pos + 1)

/-- What a task holds. -/
structure WhileOk (w : Work (Touched I)) (last : Bool) : Prop where
  done : w.res.isTouched = w.isDone
  looping : w.pc = .loop → w.isDone = false
  worked : w.pc = .reduce ∨ w.pc = .finished → w.fin ≤ w.beg
  last : w.pc = .finished → last = true
  inInt : InInt w

/-- The answer of the result or of the range of a task. -/
def own [DecidableEq I] (p : Nat → Bool) (at' : Nat → I) (first : Option Nat)
    (w : Work (Touched I)) : Option Bool :=
  if w.res.isTouched then some (decide (some w.res.iter = first.map at'))
  else segIsFirst p first w.beg w.fin

/-- The answer of a task and of its thieves. -/
def answer [DecidableEq I] (p : Nat → Bool) (at' : Nat → I) (first : Option Nat) :
    Task (Touched I) → Option Bool :=
  RoseTree.fold fun w os => (own p at' first w).or (firsts os)

section Answers

variable [DecidableEq I] {first : Option Nat} {w : Work (Touched I)} {res : Touched I}
  {u u' : Task (Touched I)} {n : Nat}

/-- The answer of a task: its own, then those of its thieves. -/
theorem answer_node (w : Work (Touched I)) (ts : List (Task (Touched I))) :
    answer p at' first (.node w ts)
      = (own p at' first w).or (firsts (ts.map (answer p at' first))) :=
  RoseTree.fold_node _ w ts

theorem own_of_touched (h : w.res.isTouched = true) :
    own p at' first w = some (decide (some w.res.iter = first.map at')) := if_pos h

theorem own_of_untouched (h : w.res.isTouched = false) :
    own p at' first w = segIsFirst p first w.beg w.fin :=
  if_neg (by rw [h]; exact Bool.false_ne_true)

theorem answer_of_touched (h : w.res.isTouched = true) (ts : List (Task (Touched I))) :
    answer p at' first (.node w ts)
      = some (decide (some w.res.iter = first.map at')) := by
  rw [answer_node, own_of_touched h]
  rfl

theorem decide_at (hb : Searches body p at') (i : Nat) :
    decide (some (at' i) = first.map at') = decide (some i = first) := by
  apply decide_eq_decide.mpr
  cases first with
  | none => exact ⟨nofun, nofun⟩
  | some k =>
    show some (at' i) = some (at' k) ↔ some i = some k
    constructor
    · intro h
      rw [hb.injective i k (Option.some.inj h)]
    · intro h
      rw [Option.some.inj h]

-- ======== steps

/-- One more piece is searched. -/
theorem pop_inv (first : Option Nat) (hb : Searches body p at')
    {ts : List (Task (Touched I))} (hok : WhileOk w ts.isEmpty) (hpc : w.pc = .loop)
    {size : Nat} (hsize : w.beg + size ≤ w.fin) {isDone : Bool}
    (hrun : innerLoop body w.res w.beg size = (res, isDone)) :
    answer p at' first (.node ⟨.ran, w.beg + size, w.fin, res, isDone, w.rep⟩ ts)
        = answer p at' first (.node w ts)
      ∧ WhileOk ⟨.ran, w.beg + size, w.fin, res, isDone, w.rep⟩ ts.isEmpty := by
  have huntouched : w.res.isTouched = false := hok.done.trans (hok.looping hpc)
  have hint : ∀ {r : Touched I} {b : Bool},
      InInt ⟨.ran, w.beg + size, w.fin, r, b, w.rep⟩ :=
    ⟨Nat.le_add_right_of_le hok.inInt.rep, Nat.le_trans hsize hok.inInt.fin,
      hok.inInt.fin⟩
  have hcut : segIsFirst p first w.beg w.fin
      = (segIsFirst p first w.beg (w.beg + size)).or
        (segIsFirst p first (w.beg + size) w.fin) :=
    segIsFirst_append (Nat.le_add_right w.beg size) hsize
  rw [innerLoop_eq hb] at hrun
  rw [answer_node (w := w), own_of_untouched huntouched, hcut]
  cases hseg : seg p w.beg (w.beg + size) with
  | none =>
    rw [hseg] at hrun
    cases hrun
    refine ⟨?_, huntouched, nofun, fun hc => ?_, nofun, hint⟩
    · have hown : own p at' first ⟨.ran, w.beg + size, w.fin, w.res, false, w.rep⟩
          = segIsFirst p first (w.beg + size) w.fin := own_of_untouched huntouched
      have hnone : segIsFirst p first w.beg (w.beg + size) = none := by
        unfold segIsFirst
        rw [hseg]
        rfl
      rw [answer_node, hown, hnone]
      rfl
    · rcases hc with hc | hc
      all_goals cases hc
  | some i =>
    rw [hseg] at hrun
    cases hrun
    refine ⟨?_, rfl, nofun, fun hc => ?_, nofun, hint⟩
    · rw [answer_of_touched rfl, decide_at hb]
      unfold segIsFirst
      rw [hseg]
      rfl
    · rcases hc with hc | hc
      all_goals cases hc

/-- A thief gives its place to its range and its thieves. -/
theorem preempt_inv (first : Option Nat) (hb : Searches body p at') {t : Work (Touched I)}
    {ts rest : List (Task (Touched I))} (hdone : w.res.isTouched = false)
    (hempty : w.fin ≤ w.beg) {isDone : Bool}
    (hred : body.reduce w.res t.res = (res, isDone)) :
    isDone = t.res.isTouched ∧ res.isTouched = isDone
      ∧ ∀ w' : Work (Touched I), w'.res = res →
        (isDone = false → w'.beg = t.beg ∧ w'.fin = t.fin) →
        answer p at' first (.node w' (ts ++ rest))
          = answer p at' first (.node w (.node t ts :: rest)) := by
  have hright : answer p at' first (.node w (.node t ts :: rest))
      = (own p at' first t).or
        (firsts ((ts ++ rest).map (answer p at' first))) := by
    rw [answer_node, own_of_untouched hdone, segIsFirst_of_le hempty,
      List.map_append,
      firsts_append, ← Option.or_assoc, ← answer_node]
    rfl
  cases htouched : t.res.isTouched with
  | true =>
    rw [hb.found _ _ hdone htouched] at hred
    cases hred
    refine ⟨rfl, rfl, fun w' hres _ => ?_⟩
    have hw : w'.res.isTouched = true := by rw [hres]
    rw [hright, own_of_touched htouched, answer_of_touched hw, hres]
    rfl
  | false =>
    rw [hb.lost _ _ hdone htouched] at hred
    cases hred
    refine ⟨rfl, hdone, fun w' hres hrange => ?_⟩
    have hw : w'.res.isTouched = false := by rw [hres, hdone]
    obtain ⟨hbeg, hfin⟩ := hrange rfl
    rw [hright, own_of_untouched htouched, answer_node, own_of_untouched hw,
      hbeg, hfin]

/-- A step of the loop keeps the answer. -/
theorem whileStep_inv (first : Option Nat) (hb : Searches body p at')
    (h : RoseTree.All WhileOk u) (hs : whileStep s body u = some u') :
    answer p at' first u' = answer p at' first u ∧ RoseTree.All WhileOk u' := by
  cases u with
  | node w ts =>
    obtain ⟨hok, hkids⟩ := RoseTree.all_node.mp h
    have hint : ∀ {pc : Pc} {r : Touched I} {b : Bool},
        InInt ⟨pc, w.beg, w.fin, r, b, w.rep⟩ :=
      ⟨hok.inInt.rep, hok.inInt.beg, hok.inInt.fin⟩
    unfold whileStep at hs
    cases hpc : w.pc with
    | loop =>
      simp only [hpc] at hs
      split at hs
      · next hlt =>
          rw [hok.inInt.shift (Nat.le_refl _) hlt] at hs
          cases hs
          have hsize : w.beg + min s.seqSize (w.fin - w.beg) ≤ w.fin := by omega
          obtain ⟨hans, hok'⟩ := pop_inv first hb hok hpc hsize rfl
          exact ⟨hans, RoseTree.all_node.mpr ⟨hok', hkids⟩⟩
      · next hlt =>
          cases hs
          refine ⟨?_, RoseTree.all_node.mpr ⟨⟨hok.done, nofun,
            fun _ => Nat.not_lt.mp hlt, nofun, hint⟩, hkids⟩⟩
          rw [answer_node, answer_node]
          rfl
    | ran =>
      simp only [hpc] at hs
      split at hs
      · next hdone =>
          cases hs
          have htouched : w.res.isTouched = true := hok.done.trans hdone
          refine ⟨?_, RoseTree.all_node.mpr ⟨⟨hok.done, nofun,
            fun _ => Nat.le_refl _, nofun, hok.inInt.rep, hok.inInt.beg,
            hok.inInt.beg⟩, hkids⟩⟩
          have hafter : answer p at' first (.node { w with
              pc := .reduce
              fin := w.beg } ts) = some
                (decide (some w.res.iter = first.map at')) :=
            answer_of_touched (w :=
              ⟨.reduce, w.beg, w.beg, w.res, w.isDone, w.rep⟩) htouched ts
          rw [hafter, answer_of_touched htouched]
      · next hdone =>
          cases hs
          refine ⟨?_, RoseTree.all_node.mpr
            ⟨⟨hok.done, fun _ => ?_, fun hc => ?_,
            nofun, hint⟩, hkids⟩⟩
          · rw [answer_node, answer_node]
            rfl
          · exact Bool.eq_false_iff.mpr hdone
          · rcases hc with hc | hc
            all_goals cases hc
    | reduce =>
      simp only [hpc] at hs
      cases ts with
      | nil =>
        cases hs
        refine ⟨?_, RoseTree.all_node.mpr ⟨⟨hok.done, nofun,
          fun _ => hok.worked (.inl hpc), fun _ => rfl, hint⟩, hkids⟩⟩
        rw [answer_node, answer_node]
        rfl
      | cons t rest =>
        cases t with
        | node t ts =>
          have hthief := (RoseTree.all_node.mp
            (hkids _ List.mem_cons_self)).1.inInt
          have hts := (RoseTree.all_node.mp (hkids _ List.mem_cons_self)).2
          have hall : ∀ k ∈ ts ++ rest, RoseTree.All WhileOk k := by
            intro k hk
            rcases List.mem_append.mp hk with hk | hk
            · exact hts k hk
            · exact hkids k (List.mem_cons_of_mem _ hk)
          dsimp only at hs
          split at hs
          · split at hs
            · next hdone =>
                cases hs
                have htouched : w.res.isTouched = true := hok.done.trans hdone
                refine ⟨?_, RoseTree.all_node.mpr ⟨⟨hok.done, hok.looping,
                  hok.worked, fun hc => ?_, hint⟩, hall⟩⟩
                · rw [answer_of_touched htouched,
                    answer_of_touched htouched]
                · rw [hpc] at hc
                  cases hc
            · next hdone =>
                have hdone := Bool.eq_false_iff.mpr hdone
                have huntouched := hok.done.trans hdone
                have hempty := hok.worked (.inl hpc)
                generalize hr : body.reduce w.res t.res = r at hs
                obtain ⟨res, isDone⟩ := r
                obtain ⟨-, htouched, hans⟩ :=
                  preempt_inv first hb huntouched hempty hr
                cases isDone with
                | true =>
                  cases hs
                  refine ⟨hans _ rfl nofun,
                    RoseTree.all_node.mpr ⟨⟨htouched, fun hc => ?_,
                      fun _ => hempty, fun hc => ?_, hint⟩, hall⟩⟩
                  all_goals cases hc
                | false =>
                  cases hs
                  refine ⟨hans _ rfl fun _ => ⟨rfl, rfl⟩,
                    RoseTree.all_node.mpr
                      ⟨⟨htouched, fun _ => rfl, fun hc => ?_,
                      nofun, hthief.rep, hthief.beg, hthief.fin⟩, hall⟩⟩
                  rcases hc with hc | hc
                  all_goals cases hc
          · cases hs
    | finished =>
      simp only [hpc] at hs
      cases hs

/-- A thief answers for its range. -/
theorem answer_thief (hb : Searches body p at') (q : Nat × Nat) :
    answer p at' first (thief body q) = segIsFirst p first q.1 q.2 := by
  unfold thief
  rw [answer_node, own_of_untouched (hb.result q.1)]
  exact Option.or_none

/-- The pieces of a split answer for the back of the range. -/
theorem split_inv (hb : Searches body p at') {seen count : Nat}
    (h : RoseTree.All WhileOk u)
    (hq : ∀ r, splitPieces s seen count u.val = some r → FirstKept p n r.2)
    (hs : split s body seen count u = some u') :
    answer p at' (firstMatch p n) u' = answer p at' (firstMatch p n) u
      ∧ RoseTree.All WhileOk u' := by
  cases u with
  | node w ts =>
    obtain ⟨hok, hkids⟩ := RoseTree.all_node.mp h
    obtain ⟨lo, ps, hsp, hbeg, hchain, rfl⟩ := split_eq_some hok.inInt hs
    have hle := chain_le hchain
    have hfin := hok.inInt.fin
    refine ⟨?_, RoseTree.all_node.mpr
      ⟨⟨hok.done, hok.looping, fun hc => ?_, fun hc => ?_, hok.inInt.rep,
        hok.inInt.beg, Nat.le_trans hle hfin⟩, fun k hk => ?_⟩⟩
    · have hpieces := firsts_pieces hchain (hq _ hsp)
      have hcut : segIsFirst p (firstMatch p n) w.beg w.fin
          = (segIsFirst p (firstMatch p n) w.beg lo).or
            (segIsFirst p (firstMatch p n) lo w.fin) := segIsFirst_append hbeg hle
      cases htouched : w.res.isTouched with
      | true =>
        have hafter : answer p at' (firstMatch p n) (.node { w with fin := lo }
            (ps.reverse.map (thief body) ++ ts))
            = some (decide (some w.res.iter = (firstMatch p n).map at')) :=
          answer_of_touched (w := ⟨w.pc, w.beg, lo, w.res, w.isDone, w.rep⟩) htouched _
        rw [hafter, answer_of_touched htouched]
      | false =>
        have hown : own p at' (firstMatch p n) { w with fin := lo }
            = segIsFirst p (firstMatch p n) w.beg lo :=
          own_of_untouched (w := ⟨w.pc, w.beg, lo, w.res, w.isDone, w.rep⟩) htouched
        rw [answer_node, answer_node, hown, own_of_untouched htouched,
          List.map_append,
          firsts_append, List.map_map, hcut, Option.or_assoc, ← hpieces]
        congr 3
        exact List.map_congr_left fun q _ => answer_thief hb q
    · exact Nat.le_trans hle (hok.worked hc)
    · have hfin := hok.worked (.inr hc)
      rw [chain_eq_nil hchain (by omega)]
      exact hok.last hc
    · rcases List.mem_append.mp hk with hk | hk
      · obtain ⟨q, hq, rfl⟩ := List.mem_map.mp hk
        have hq := chain_bounds hchain q (List.mem_reverse.mp hq)
        refine RoseTree.all_node.mpr ⟨⟨hb.result q.1, fun _ => rfl, fun hc => ?_,
          nofun, Nat.le_refl _, Nat.le_trans (Nat.le_of_lt hq.1)
            (Nat.le_trans hq.2 hfin), Nat.le_trans hq.2 hfin⟩,
          fun k hk => nomatch hk⟩
        rcases hc with hc | hc
        all_goals cases hc
      · exact hkids k hk

omit [DecidableEq I] in
/-- A step that finds nothing keeps the result. -/
theorem whileStep_res (hb : Searches body p at') (h : RoseTree.All WhileOk u)
    (hs : whileStep s body u = some u') (huntouched : u'.val.res.isTouched = false) :
    u'.val.res = u.val.res := by
  cases u with
  | node w ts =>
    obtain ⟨hok, hkids⟩ := RoseTree.all_node.mp h
    unfold whileStep at hs
    cases hpc : w.pc with
    | loop =>
      simp only [hpc] at hs
      split at hs
      · next hlt =>
        rw [hok.inInt.shift (Nat.le_refl _) hlt] at hs
        cases hs
        dsimp only at huntouched ⊢
        rw [innerLoop_eq hb] at huntouched ⊢
        cases hseg : seg p w.beg (w.beg + min s.seqSize (w.fin - w.beg)) with
        | none => rfl
        | some i =>
          rw [hseg] at huntouched
          cases huntouched
      · cases hs
        rfl
    | ran =>
      simp only [hpc] at hs
      split at hs
      all_goals
        cases hs
        rfl
    | reduce =>
      simp only [hpc] at hs
      cases ts with
      | nil =>
        cases hs
        rfl
      | cons t rest =>
        cases t with
        | node t ts =>
          dsimp only at hs
          split at hs
          · split at hs
            · cases hs
              rfl
            · next hdone =>
                have hw := hok.done.trans (Bool.eq_false_iff.mpr hdone)
                cases ht : t.res.isTouched with
                | true =>
                  rw [hb.found _ _ hw ht] at hs
                  cases hs
                  cases huntouched
                | false =>
                  rw [hb.lost _ _ hw ht] at hs
                  cases hs
                  rfl
          · cases hs
    | finished =>
      simp only [hpc] at hs
      cases hs

/-- What holds of the tree of a search of `n` positions. -/
structure SearchInv (p : Nat → Bool) (at' : Nat → I) (n : Nat) (res : Touched I)
    (t : Task (Touched I)) : Prop where
  answer : answer p at' (firstMatch p n) t = segIsFirst p (firstMatch p n) 0 n
  tasks : RoseTree.All WhileOk t
  root : t.val.res.isTouched = false → t.val.res = res

/-- The master at its start. -/
theorem searchInv_master (hn : n ≤ 2 ^ 31) (hres : res.isTouched = false) :
    SearchInv p at' n res (master n res) where
  answer := by
    have hown : own p at' (firstMatch p n) ⟨.loop, 0, n, res, false, 0⟩
        = segIsFirst p (firstMatch p n) 0 n := own_of_untouched hres
    unfold master
    rw [answer_node, hown]
    exact Option.or_none
  tasks := by
    refine RoseTree.all_node.mpr ⟨⟨hres, fun _ => rfl, fun hc => ?_, nofun,
      Nat.le_refl 0, Nat.zero_le _, hn⟩, fun k hk => nomatch hk⟩
    rcases hc with hc | hc
    all_goals cases hc
  root := fun _ => rfl

/-- Every step keeps the invariant. -/
theorem SearchInv.step (hb : Searches body p at') {a : Act} {t t' : Task (Touched I)}
    (h : SearchInv p at' n res t) (hq : SplitMeets s (FirstKept p n) a t)
    (hs : Kastl.step s body (whileStep s body) a t = some t') : SearchInv p at'
      n res t' := by
  obtain ⟨path, op⟩ := a
  have hroot : path ≠ [] → ∀ f, t.modifyAt f path = some t' →
      t'.val.res.isTouched = false → t'.val.res = res := by
    intro hpath f hf
    rw [RoseTree.val_modifyAt hpath hf]
    exact h.root
  cases op with
  | go =>
    have hs : t.modifyAt (whileStep s body) path = some t' := hs
    obtain ⟨hans, hall⟩ := RoseTree.modifyAt_inv
      (fun u u' _ hu huu => whileStep_inv _ hb hu huu) h.tasks hs
    refine ⟨hans.trans h.answer, hall, ?_⟩
    rcases eq_or_ne path [] with rfl | hpath
    · intro hun
      have hsame := whileStep_res hb h.tasks hs hun
      rw [hsame] at hun ⊢
      exact h.root hun
    · exact hroot hpath _ hs
  | split seen count =>
    have hs : t.modifyAt (split s body seen count) path = some t' := hs
    have hq : ∀ u, t.at? path = some u → ∀ r,
      splitPieces s seen count u.val = some r →
        FirstKept p n r.2 := hq
    obtain ⟨hans, hall⟩ := RoseTree.modifyAt_inv
      (fun u u' hat hu huu => split_inv hb hu (hq u hat) huu) h.tasks hs
    refine ⟨hans.trans h.answer, hall, ?_⟩
    rcases eq_or_ne path [] with rfl | hpath
    · cases t with
      | node w ts =>
        obtain ⟨lo, ps, -, -, -, rfl⟩ := split_eq_some
          (RoseTree.all_node.mp h.tasks).1.inInt hs
        exact h.root
    · exact hroot hpath _ hs

/-- A finished master has the first match. -/
theorem SearchInv.iter {t : Task (Touched I)} (h : SearchInv p at' n res t)
    (hpc : t.val.pc = .finished) :
    t.val.res.iter = ((firstMatch p n).map at').getD res.iter := by
  cases t with
  | node w ts =>
    obtain ⟨hok, -⟩ := RoseTree.all_node.mp h.tasks
    have hans := h.answer
    have hnil : ts = [] := List.isEmpty_iff.mp (hok.last hpc)
    rw [hnil] at hans
    cases htouched : w.res.isTouched with
    | true =>
      rw [answer_of_touched htouched] at hans
      unfold segIsFirst at hans
      rw [← firstMatch_eq_seg] at hans
      cases hfirst : firstMatch p n with
      | none =>
        rw [hfirst] at hans
        cases hans
      | some i =>
        rw [hfirst] at hans
        have hdec : decide (some w.res.iter = (some i).map at') = decide
          (some i = some i) :=
          Option.some.inj hans
        rw [decide_eq_true rfl] at hdec
        exact Option.some.inj (of_decide_eq_true hdec)
    | false =>
      have hempty := hok.worked (.inr hpc)
      rw [answer_node, own_of_untouched htouched,
        segIsFirst_of_le hempty] at hans
      unfold segIsFirst at hans
      rw [← firstMatch_eq_seg] at hans
      cases hfirst : firstMatch p n with
      | none =>
        show w.res.iter = res.iter
        exact congrArg _ (h.root htouched)
      | some i =>
        rw [hfirst] at hans
        cases hans

end Answers

-- ======== progress

/-- What a task does is bounded by its load. -/
theorem whileStep_lt {u u' : Task (Touched I)} (hs : whileStep s body u = some u') :
    RoseTree.weight load u' < RoseTree.weight load u := by
  have hpos := s.seq_pos
  cases u with
  | node w ts =>
    obtain ⟨pc, beg, fin, res, isDone⟩ := w
    unfold whileStep at hs
    cases pc with
    | loop =>
      dsimp only at hs
      split at hs
      · obtain ⟨pos, -, rfl⟩ := Option.map_eq_some_iff.mp hs
        rw [RoseTree.weight_node, RoseTree.weight_node, load_loop, load_ran]
        omega
      · cases hs
        rw [RoseTree.weight_node, RoseTree.weight_node, load_loop, load_reduce]
        omega
    | ran =>
      dsimp only at hs
      split at hs
      · cases hs
        rw [RoseTree.weight_node, RoseTree.weight_node, load_ran, load_reduce]
        omega
      · cases hs
        rw [RoseTree.weight_node, RoseTree.weight_node, load_ran, load_loop]
        omega
    | reduce =>
      dsimp only at hs
      cases ts with
      | nil =>
        cases hs
        rw [RoseTree.weight_node, RoseTree.weight_node, load_reduce,
          load_finished]
        omega
      | cons t rest =>
        cases t with
        | node t ts =>
          have hthief := load_ge t
          dsimp only at hs
          rw [weight_head, load_reduce]
          split at hs
          · split at hs
            · cases hs
              rw [RoseTree.weight_node, load_reduce]
              omega
            · split at hs
              · cases hs
                rw [RoseTree.weight_node, load_reduce]
                omega
              · cases hs
                rw [RoseTree.weight_node, load_loop]
                omega
          · cases hs
    | finished => cases hs

/-- A loop that is not finished goes on. -/
theorem exists_whileStep {w : Work (Touched I)} {ts : List (Task (Touched I))}
    (hint : InInt w) (hpc : w.pc ≠ .finished)
    (hready : w.pc = .reduce → ∀ t ∈ ts.head?,
      t.val.pc = .ran ∨ t.val.pc = .finished) :
    ∃ u, whileStep s body (.node w ts) = some u := by
  obtain ⟨pc, beg, fin, res, isDone⟩ := w
  unfold whileStep
  cases pc with
  | finished => exact absurd rfl hpc
  | loop =>
    dsimp only
    split
    · next hlt =>
        rw [hint.shift (Nat.le_refl _) hlt]
        exact ⟨_, rfl⟩
    · exact ⟨_, rfl⟩
  | ran =>
    dsimp only
    split
    all_goals exact ⟨_, rfl⟩
  | reduce =>
    cases ts with
    | nil => exact ⟨_, rfl⟩
    | cons t rest =>
      cases t with
      | node t ts =>
        have hpre : t.pc = .ran ∨ t.pc = .finished := hready rfl _ rfl
        dsimp only
        rw [if_pos hpre]
        split
        · exact ⟨_, rfl⟩
        · split
          all_goals exact ⟨_, rfl⟩

-- ======== results

/-- The loop returns the first match. -/
theorem returns_loops [DecidableEq I] (hb : Searches body p at') (hn : n ≤ 2 ^ 31)
    {res : Touched I} (hres : res.isTouched = false) {expected : I}
    (hexpected : ((firstMatch p n).map at').getD res.iter = expected) :
    (Call.loops body n res).Returns s p expected := by
  intro as t hq hs
  have hinv : SearchInv p at' n res t :=
    hq.run_inv (fun hm h hst => h.step hb hm hst) (searchInv_master hn hres) hs
  refine ⟨fun hpc => (hinv.iter hpc).trans hexpected, exists_run_finished
    (fun pc => pc = .ran ∨ pc = .finished)
      (fun _ _ hu hpc hready =>
        exists_whileStep (RoseTree.all_node.mp hu).1.inInt hpc hready)
    (fun u u' hu huu => (whileStep_inv (firstMatch p n) hb hu huu).2)
    (fun _ _ _ huu => whileStep_lt huu) (.inr rfl) hinv.tasks⟩

/-- Whatever the sequence, the predicate, the grains and the schedule: when
the loop is over at most 2^31 positions, no split puts the first match in a
piece and another match in a later piece, and there is a match or the
iterator of the result happens to be the last one, the searches return what
the sequential ones return. -/
theorem searches_return [BEq α] (s : Settings) (uninit : Nat) (uninits : Nat × Nat)
    (value : α) (pred : α → α → Bool) (predβ : α → β → Bool) (xs : List α)
      (ys : List β) :
    (xs.length ≤ 2 ^ 31 →
      (firstMatch (findAt xs value) xs.length = none → uninit = xs.length) →
      (find uninit xs value).Returns s (findAt xs value) (stdFind xs value))
    ∧ (xs.length - 1 ≤ 2 ^ 31 →
      (1 < xs.length → firstMatch (adjacentFindAt pred xs) (xs.length - 1) = none →
        uninit = xs.length) →
      (adjacentFind uninit pred xs).Returns s (adjacentFindAt pred xs)
        (stdAdjacentFind pred xs))
    ∧ (xs.length - ys.length + 1 ≤ 2 ^ 31 →
      (ys.length ≤ xs.length →
        firstMatch (fun pos => searchAt predβ ys (xs.drop pos))
          (xs.length - ys.length + 1)
          = none → uninit = xs.length) →
      (search uninit predβ xs ys).Returns s
        (fun pos => searchAt predβ ys (xs.drop pos))
        (stdSearch predβ xs ys))
    ∧ (xs.length ≤ 2 ^ 31 →
      (mismatch uninits predβ xs ys).Returns s (mismatchAt predβ xs ys)
        (stdMismatch predβ xs ys)) := by
  refine ⟨fun hn h => ?_, fun hn h => ?_, fun hn h => ?_, fun hn => ?_⟩
  · refine returns_loops (searches_find uninit) hn rfl ?_
    unfold stdFind
    cases hfirst : firstMatch (findAt xs value) xs.length with
    | none => exact h hfirst
    | some i => rfl
  · unfold adjacentFind stdAdjacentFind
    split
    · next hle =>
        rw [Nat.sub_eq_zero_of_le hle]
        rfl
    · next hlt =>
        refine returns_loops (searches_touched fun _ _ hij => hij) hn rfl ?_
        cases hfirst : firstMatch (adjacentFindAt pred xs) (xs.length - 1) with
        | none => exact h (Nat.not_le.mp hlt) hfirst
        | some i => rfl
  · unfold search stdSearch
    split
    · rfl
    · next hle =>
        refine returns_loops (searches_touched fun _ _ hij => hij) hn rfl ?_
        cases hfirst : firstMatch (fun pos => searchAt predβ ys (xs.drop pos))
            (xs.length - ys.length + 1) with
        | none => exact h (Nat.not_lt.mp hle) hfirst
        | some i => rfl
  · refine returns_loops (searches_touched fun i j hij => ?_) hn rfl rfl
    exact congrArg Prod.fst hij

/-- Grains of one position. -/
def unitGrains : Settings := ⟨1, 1, Nat.one_pos, Nat.one_pos⟩

theorem searches_return_four :
    (find 9 [5, 6, 7, 6] 6).Returns unitGrains (findAt [5, 6, 7, 6] 6)
        (stdFind [5, 6, 7, 6] 6)
      ∧ (adjacentFind 9 (· == ·) [1, 2, 2]).Returns unitGrains
        (adjacentFindAt (· == ·) [1, 2, 2]) (stdAdjacentFind (· == ·) [1, 2, 2])
      ∧ (search 9 (· == ·) [1, 2, 3] [2, 3]).Returns unitGrains
        (fun pos => searchAt (· == ·) [2, 3] ([1, 2, 3].drop pos))
        (stdSearch (· == ·) [1, 2, 3] [2, 3])
      ∧ (mismatch (9, 9) (· == ·) [1, 2] [1, 2]).Returns unitGrains
        (mismatchAt (· == ·) [1, 2] [1, 2]) (stdMismatch (· == ·) [1, 2] [1, 2]) :=
  ⟨(searches_return unitGrains 9 (9, 9) 6 (· == ·) (· == ·) [5, 6, 7, 6] [2, 3]).1
      (by decide) fun h => by revert h; decide,
    (searches_return unitGrains 9 (9, 9) 6 (· == ·) (· == ·) [1, 2, 2] [2, 3]).2.1
      (by decide) fun _ h => by revert h; decide,
    (searches_return unitGrains 9 (9, 9) 6 (· == ·) (· == ·) [1, 2, 3] [2, 3]).2.2.1
      (by decide) fun _ h => by revert h; decide,
    (searches_return unitGrains 9 (9, 9) 6 (· == ·) (· == ·) [1, 2] [1, 2]).2.2.2
      (by decide)⟩

/-- A split with two replies, whose pieces both match. -/
def twoReplies : List Act :=
  [⟨[], .split 3 2⟩, ⟨[0], .go⟩, ⟨[], .go⟩, ⟨[], .go⟩, ⟨[], .go⟩, ⟨[], .go⟩,
    ⟨[0], .go⟩,
    ⟨[], .go⟩, ⟨[], .go⟩]

/-- Without a match find returns what the default constructor of the
iterator left; and after a split with two replies it returns the match of
the second piece. -/
theorem find_fails :
    (∃ as t, run (step unitGrains (touchedBody (findAt [] 7) id 5 findReduce)
        (whileStep unitGrains (touchedBody (findAt [] 7) id 5 findReduce))) as
        (master 0 ⟨false, 5⟩) = some t
      ∧ t.val.pc = .finished ∧ t.val.res.iter ≠ stdFind [] 7)
    ∧ ∃ as t, run (step unitGrains
      (touchedBody (findAt [0, 1, 1] 1) id 5 findReduce)
        (whileStep unitGrains
          (touchedBody (findAt [0, 1, 1] 1) id 5 findReduce))) as
        (master 3 ⟨false, 5⟩) = some t
      ∧ t.val.pc = .finished ∧ t.val.res.iter ≠ stdFind [0, 1, 1] 1 := by
  have hempty : (run (step unitGrains (touchedBody (findAt [] 7) id 5 findReduce)
      (whileStep unitGrains (touchedBody (findAt [] 7) id 5 findReduce)))
      [⟨[], .go⟩, ⟨[], .go⟩] (master 0 ⟨false, 5⟩)).map
        (fun t => (t.val.pc, t.val.res.iter))
      = some (.finished, 5) := by decide +kernel
  have htwo : (run (step unitGrains
    (touchedBody (findAt [0, 1, 1] 1) id 5 findReduce)
      (whileStep unitGrains (touchedBody (findAt [0, 1, 1] 1) id 5 findReduce)))
      twoReplies (master 3 ⟨false, 5⟩)).map (fun t => (t.val.pc, t.val.res.iter))
      = some (.finished, 2) := by decide +kernel
  obtain ⟨t, ht, hproj⟩ := Option.map_eq_some_iff.mp hempty
  obtain ⟨t', ht', hproj'⟩ := Option.map_eq_some_iff.mp htwo
  simp only [Prod.mk.injEq] at hproj hproj'
  refine ⟨⟨_, t, ht, hproj.1, ?_⟩, ⟨_, t', ht', hproj'.1, ?_⟩⟩
  · rw [hproj.2]
    decide
  · rw [hproj'.2]
    decide

end XKaapi.Kastl
