/-
The reductions of KASTL (api/kastl/kastl/accumulate.h, inner_product.h,
min_element.h).

A task stands for the fold of its range from its result, followed by the
partial results of its thieves in the order of the list (`total`). A pop
and a reduction keep it whatever the operation is. A split replaces the
back of a range by thieves that start from `numeric_result(Iterator)`,
that is from 0, and come in the reverse order: it keeps the total when a 0
before the elements of a piece changes nothing, nor does the order of two
pieces (`Combines`).

min_element keeps the last of the elements that are not after any other;
`std::min_element` returns the first. Only whether a task will yield the
least position counts there (`yields`).
-/
import XKaapi.Kastl.Loop

namespace XKaapi.Kastl

open StepMachine (run Along)

-- ======== the bodies

variable {α β V R : Type*}

/-- accumulate_body; a thief starts from numeric_result(Iterator). -/
def accumulateBody [Zero V] (op : V → V → V) (xs : List V) : Body V where
  result := fun _ => 0
  apply := fun res pos =>
    match xs[pos]? with
    | some x => (op res x, false)
    | none => (res, false)
  reduce := fun lhs rhs => (op lhs rhs, false)

/-- inner_product_body -/
def innerProductBody [Zero V] (op₀ : V → V → V) (op₁ : α → β → V) (xs : List α)
    (ys : List β) : Body V where
  result := fun _ => 0
  apply := fun res pos =>
    match xs[pos]?, ys[pos]? with
    | some x, some y => (op₀ res (op₁ x y), false)
    | _, _ => (res, false)
  reduce := fun lhs rhs => (op₀ lhs rhs, false)

/-- The predicate on two positions. -/
def predAt (pred : α → α → Bool) (xs : List α) (i j : Nat) : Bool :=
  match xs[i]?, xs[j]? with
  | some x, some y => pred x y
  | _, _ => false

/-- The operator and the reduction of min_element_body. -/
def minOf (lt : Nat → Nat → Bool) (lhs rhs : Nat) : Nat :=
  if lt lhs rhs = false then rhs else lhs

/-- min_element_body; the result is an iterator, that of a thief its first
position. -/
def minElementBody (pred : α → α → Bool) (xs : List α) : Body Nat where
  result := fun pos => pos
  apply := fun res pos => (minOf (predAt pred xs) res pos, false)
  reduce := fun lhs rhs => (minOf (predAt pred xs) lhs rhs, false)

/-- std::min_element, as a position. -/
def stdMinElement (pred : α → α → Bool) (xs : List α) : Nat :=
  (List.range' 1 (xs.length - 1)).foldl
    (fun res pos => if predAt pred xs pos res then pos else res) 0

/-- The elements of a piece. -/
def elements (vs : List V) (q : Nat × Nat) : List V :=
  (vs.drop q.1).take (q.2 - q.1)

/-- A 0 before the elements of a piece changes nothing, and two pieces can
be folded in either order. -/
structure Combines [Zero V] (op : V → V → V) (vs : List V)
    (ps : List (Nat × Nat)) : Prop where
  zero : ∀ q ∈ ps, ∀ a,
    op a ((elements vs q).foldl op 0) = (elements vs q).foldl op a
  swap : ps.Pairwise fun q r => ∀ a,
    (elements vs r).foldl op ((elements vs q).foldl op a)
      = (elements vs q).foldl op ((elements vs r).foldl op a)

/-- Whatever the schedule, the loop returns what is expected if it returns,
and it can return. -/
def Reduces (s : Settings) (body : Body R) (n : Nat) (res expected : R)
    (C : List (Nat × Nat) → Prop) : Prop :=
  ∀ as t, Along (step s body (foreachStep s body)) (SplitMeets s C) as
    (master n res) →
    run (step s body (foreachStep s body)) as (master n res) = some t →
    (t.val.pc = .finished → t.val.res = expected)
      ∧ ∃ bs t', run (step s body (foreachStep s body)) bs t = some t'
        ∧ t'.val.pc = .finished

/-- A position before all others, and after none. -/
structure Least (lt : Nat → Nat → Bool) (n m : Nat) : Prop where
  lt_length : m < n
  irrefl : lt m m = false
  before : ∀ j < n, j ≠ m → lt m j = true
  notAfter : ∀ j < n, j ≠ m → lt j m = false

/-- The least element, if there are elements, is there once. -/
def UniqueMin (pred : α → α → Bool) (xs : List α) : Prop :=
  xs ≠ [] → ∃ m, Least (predAt pred xs) xs.length m

-- ======== the tasks

/-- What a task holds. -/
structure EachOk (w : Work R) (last : Bool) : Prop where
  pc : w.pc ≠ .ran
  worked : w.pc = .reduce ∨ w.pc = .finished → w.fin ≤ w.beg
  last : w.pc = .finished → last = true
  inInt : InInt w

/-- The inner loop in two parts. -/
theorem innerLoopAll_add (body : Body R) (res : R) (pos m k : Nat) :
    innerLoopAll body res pos (m + k)
      = innerLoopAll body (innerLoopAll body res pos m) (pos + m) k := by
  unfold innerLoopAll
  rw [← List.foldl_append, List.range'_append_1]

variable {body : Body R} {s : Settings} {u u' : Task R} {ps : List (Nat × Nat)}
  {op : V → V → V} {vs : List V}

/-- A finished task has no work and no thief. -/
theorem EachOk.finished {w : Work R} {ts : List (Task R)}
    (h : RoseTree.All EachOk (.node w ts)) (hpc : w.pc = .finished) :
    w.fin ≤ w.beg ∧ ts = [] := by
  obtain ⟨hok, -⟩ := RoseTree.all_node.mp h
  exact ⟨hok.worked (.inr hpc), List.isEmpty_iff.mp (hok.last hpc)⟩

/-- A step of a loop without termination, taken apart. -/
inductive EachStep (s : Settings) (body : Body R) : Task R → Task R → Prop where
  | pop {w : Work R} {ts : List (Task R)} {size : Nat} (hpc : w.pc = .loop)
      (hpos : 0 < size) (hsize : w.beg + size ≤ w.fin) :
      EachStep s body (.node w ts) (.node { w with
        beg := w.beg + size
        res := innerLoopAll body w.res w.beg size } ts)
  | empty {w : Work R} {ts : List (Task R)} (hpc : w.pc = .loop)
    (hle : w.fin ≤ w.beg) :
      EachStep s body (.node w ts) (.node { w with pc := .reduce } ts)
  | join {w t : Work R} {ts rest : List (Task R)} (hpc : w.pc = .reduce)
      (ht : t.pc = .finished) :
      EachStep s body (.node w (.node t ts :: rest)) (.node { w with
        beg := t.beg
        fin := t.fin
        res := (body.reduce w.res t.res).1
        rep := t.rep } (ts ++ rest))
  | finish {w : Work R} (hpc : w.pc = .reduce) :
      EachStep s body (.node w []) (.node { w with pc := .finished } [])

/-- What a step of the loop can do. -/
theorem foreachStep_cases (h : RoseTree.All EachOk u)
    (hs : foreachStep s body u = some u') : EachStep s body u u' := by
  cases u with
  | node w ts =>
    have hint := (RoseTree.all_node.mp h).1.inInt
    unfold foreachStep at hs
    cases hpc : w.pc with
    | loop =>
      simp only [hpc] at hs
      split at hs
      · next hlt =>
          rw [hint.shift (Nat.le_refl _) hlt] at hs
          cases hs
          have hpos := s.seq_pos
          rw [← hpc]
          exact .pop hpc (by omega) (by omega)
      · next hlt =>
          cases hs
          exact .empty hpc (Nat.not_lt.mp hlt)
    | ran =>
      simp only [hpc] at hs
      cases hs
    | reduce =>
      simp only [hpc] at hs
      cases ts with
      | nil =>
        cases hs
        exact .finish hpc
      | cons t rest =>
        cases t with
        | node t ts =>
          dsimp only at hs
          split at hs
          · next ht =>
              cases hs
              rw [← hpc]
              exact .join hpc ht
          · cases hs
    | finished =>
      simp only [hpc] at hs
      cases hs

/-- A step keeps the shape of the tree. -/
theorem EachStep.all (h : RoseTree.All EachOk u) (hs : EachStep s body u u') :
    RoseTree.All EachOk u' := by
  cases hs with
  | pop hpc hpos hsize =>
    obtain ⟨hok, hkids⟩ := RoseTree.all_node.mp h
    refine RoseTree.all_node.mpr ⟨⟨hok.pc, fun hc => ?_, fun hc => ?_,
      ⟨Nat.le_add_right_of_le hok.inInt.rep,
        Nat.le_trans hsize hok.inInt.fin, hok.inInt.fin⟩⟩, hkids⟩
    · dsimp only at hc
      rw [hpc] at hc
      rcases hc with hc | hc
      all_goals cases hc
    · dsimp only at hc
      rw [hpc] at hc
      cases hc
  | empty hpc hle =>
    obtain ⟨hok, hkids⟩ := RoseTree.all_node.mp h
    exact RoseTree.all_node.mpr ⟨⟨nofun, fun _ => hle, nofun,
      ⟨hok.inInt.rep, hok.inInt.beg, hok.inInt.fin⟩⟩, hkids⟩
  | join hpc ht =>
    obtain ⟨hok, hkids⟩ := RoseTree.all_node.mp h
    have hthief := hkids _ List.mem_cons_self
    obtain ⟨hempty, hnil⟩ := EachOk.finished hthief ht
    have hint := (RoseTree.all_node.mp hthief).1.inInt
    rw [hnil]
    refine RoseTree.all_node.mpr ⟨⟨hok.pc, fun _ => hempty, fun hc => ?_,
      ⟨hint.rep, hint.beg, hint.fin⟩⟩, fun k hk => hkids k (List.mem_cons_of_mem _ hk)⟩
    dsimp only at hc
    rw [hpc] at hc
    cases hc
  | finish hpc =>
    obtain ⟨hok, hkids⟩ := RoseTree.all_node.mp h
    exact RoseTree.all_node.mpr ⟨⟨nofun, fun _ => hok.worked (.inl hpc),
      fun _ => rfl, ⟨hok.inInt.rep, hok.inInt.beg, hok.inInt.fin⟩⟩, hkids⟩

/-- So does a split. -/
theorem split_all {seen count : Nat} (h : RoseTree.All EachOk u)
    (hs : split s body seen count u = some u') : RoseTree.All EachOk u' := by
  cases u with
  | node w ts =>
    obtain ⟨hok, hkids⟩ := RoseTree.all_node.mp h
    obtain ⟨lo, ps, -, hbeg, hchain, rfl⟩ := split_eq_some hok.inInt hs
    have hle := chain_le hchain
    have hfin := hok.inInt.fin
    refine RoseTree.all_node.mpr ⟨⟨hok.pc, fun hc => ?_, fun hc => ?_,
      ⟨hok.inInt.rep, hok.inInt.beg, Nat.le_trans hle hfin⟩⟩, fun k hk => ?_⟩
    · exact Nat.le_trans hle (hok.worked hc)
    · have hfin := hok.worked (.inr hc)
      rw [chain_eq_nil hchain (by omega)]
      exact hok.last hc
    · rcases List.mem_append.mp hk with hk | hk
      · obtain ⟨q, hq, rfl⟩ := List.mem_map.mp hk
        have hq := chain_bounds hchain q (List.mem_reverse.mp hq)
        refine RoseTree.all_node.mpr ⟨⟨nofun, fun hc => ?_, nofun,
          ⟨Nat.le_refl _, Nat.le_trans (Nat.le_of_lt hq.1)
            (Nat.le_trans hq.2 hfin), Nat.le_trans hq.2 hfin⟩⟩, fun k hk => nomatch hk⟩
        rcases hc with hc | hc
        all_goals cases hc
      · exact hkids k hk

/-- The master at its start. -/
theorem all_master {n : Nat} (hn : n ≤ 2 ^ 31) (res : R) :
    RoseTree.All EachOk (master n res) := by
  refine RoseTree.all_node.mpr ⟨⟨nofun, fun hc => ?_, nofun,
    ⟨Nat.le_refl 0, Nat.zero_le _, hn⟩⟩, fun k hk => nomatch hk⟩
  rcases hc with hc | hc
  all_goals cases hc

/-- A step lowers the work that is left. -/
theorem EachStep.weight_lt (hs : EachStep s body u u') :
    RoseTree.weight load u' < RoseTree.weight load u := by
  cases hs with
  | @pop w ts size hpc hpos hsize =>
    obtain ⟨pc, beg, fin, res, isDone⟩ := w
    cases hpc
    dsimp only at hsize ⊢
    rw [RoseTree.weight_node, RoseTree.weight_node, load_loop, load_loop]
    omega
  | @empty w ts hpc hle =>
    obtain ⟨pc, beg, fin, res, isDone⟩ := w
    cases hpc
    rw [RoseTree.weight_node, RoseTree.weight_node, load_loop, load_reduce]
    omega
  | @join w t ts rest hpc ht =>
    obtain ⟨pc, beg, fin, res, isDone⟩ := w
    cases hpc
    have hthief := load_ge t
    rw [weight_head, RoseTree.weight_node, load_reduce, load_reduce]
    omega
  | @finish w hpc =>
    obtain ⟨pc, beg, fin, res, isDone⟩ := w
    cases hpc
    rw [RoseTree.weight_node, RoseTree.weight_node, load_reduce, load_finished]
    dsimp only
    omega

/-- A task that is not finished goes on. -/
theorem exists_foreachStep {w : Work R} {ts : List (Task R)}
    (h : RoseTree.All EachOk (.node w ts)) (hpc : w.pc ≠ .finished)
    (hready : w.pc = .reduce → ∀ t ∈ ts.head?, t.val.pc = .finished) :
    ∃ u, foreachStep s body (.node w ts) = some u := by
  have hran := (RoseTree.all_node.mp h).1.pc
  have hint := (RoseTree.all_node.mp h).1.inInt
  obtain ⟨pc, beg, fin, res, isDone⟩ := w
  unfold foreachStep
  cases pc with
  | finished => exact absurd rfl hpc
  | ran => exact absurd rfl hran
  | loop =>
    dsimp only
    split
    · next hlt =>
        rw [hint.shift (Nat.le_refl _) hlt]
        exact ⟨_, rfl⟩
    · exact ⟨_, rfl⟩
  | reduce =>
    cases ts with
    | nil => exact ⟨_, rfl⟩
    | cons t rest =>
      cases t with
      | node t ts =>
        have hfin : t.pc = .finished := hready rfl _ rfl
        dsimp only
        rw [if_pos hfin]
        exact ⟨_, rfl⟩

/-- Some run of the loop finishes. -/
theorem exists_run_foreach {t : Task R} (h : RoseTree.All EachOk t) :
    ∃ as t', run (step s body (foreachStep s body)) as t = some t'
      ∧ t'.val.pc = .finished :=
  exists_run_finished (fun pc => pc = .finished)
    (fun _ _ hw hpc hready => exists_foreachStep hw hpc hready)
    (fun _ _ hu hs => (foreachStep_cases hu hs).all hu)
    (fun _ _ hu hs => (foreachStep_cases hu hs).weight_lt) rfl h

-- ======== the totals

/-- The fold a task and its thieves stand for. -/
def total (body : Body R) : Task R → R :=
  RoseTree.fold fun w rs => rs.foldl (fun a b => (body.reduce a b).1)
    (innerLoopAll body w.res w.beg (w.fin - w.beg))

/-- The total of a task: its own, then those of its thieves. -/
theorem total_node (body : Body R) (w : Work R) (ts : List (Task R)) :
    total body (.node w ts) = (ts.map (total body)).foldl
      (fun a b => (body.reduce a b).1)
      (innerLoopAll body w.res w.beg (w.fin - w.beg)) := RoseTree.fold_node _ w ts

theorem innerLoopAll_of_le {res : R} {beg fin : Nat} (h : fin ≤ beg) :
    innerLoopAll body res beg (fin - beg) = res := by
  rw [Nat.sub_eq_zero_of_le h]
  rfl

/-- A step keeps the total. -/
theorem EachStep.total_eq (h : RoseTree.All EachOk u) (hs : EachStep s body u u') :
    total body u' = total body u := by
  cases hs with
  | @pop w ts size hpc hpos hsize =>
    rw [total_node, total_node]
    dsimp only
    rw [show w.fin - w.beg = size + (w.fin - (w.beg + size)) by omega,
      innerLoopAll_add]
  | empty hpc hle =>
    rw [total_node, total_node]
  | @join w t ts rest hpc ht =>
    obtain ⟨hok, hkids⟩ := RoseTree.all_node.mp h
    obtain ⟨hempty, hnil⟩ := EachOk.finished (hkids _ List.mem_cons_self) ht
    rw [hnil, total_node, total_node, List.nil_append, List.map_cons,
      List.foldl_cons,
      total_node, innerLoopAll_of_le (hok.worked (.inl hpc)), List.map_nil,
      List.foldl_nil, innerLoopAll_of_le hempty]
    dsimp only
    rw [innerLoopAll_of_le hempty]
  | finish hpc =>
    rw [total_node, total_node]

/-- The pieces of a chain give the whole. -/
theorem innerLoopAll_chain {lo hi : Nat} (h : Chain lo ps hi) (a : R) :
    innerLoopAll body a lo (hi - lo)
      = ps.foldl (fun a q => innerLoopAll body a q.1 (q.2 - q.1)) a := by
  induction ps generalizing lo a with
  | nil => exact innerLoopAll_of_le (Nat.le_of_eq h.symm)
  | cons q ps ih =>
    obtain ⟨h₁, h₂, h₃⟩ := h
    have hle := chain_le h₃
    rw [List.foldl_cons, ← ih h₃, show hi - lo = (q.2 - lo) + (hi - q.2) by omega,
      innerLoopAll_add, h₁, show lo + (q.2 - lo) = q.2 by omega]

theorem innerLoopAll_elements [Zero V] (op : V → V → V) (vs : List V) :
    ∀ (k pos : Nat) (a : V), innerLoopAll (accumulateBody op vs) a pos k
      = ((vs.drop pos).take k).foldl op a := by
  intro k
  induction k with
  | zero => exact fun _ _ => rfl
  | succ k ih =>
    intro pos a
    rw [Nat.add_comm, innerLoopAll_add, ih]
    have hone : innerLoopAll (accumulateBody op vs) a pos 1
        = ((accumulateBody op vs).apply a pos).1 := rfl
    rw [hone, Nat.add_comm 1 k]
    unfold accumulateBody
    cases hpos : vs[pos]? with
    | none =>
      have hle := List.getElem?_eq_none_iff.mp hpos
      rw [List.drop_eq_nil_of_le hle, List.drop_eq_nil_of_le (by omega),
        List.take_nil, List.take_nil]
      simp only [hpos]
    | some x =>
      obtain ⟨hlt, rfl⟩ := List.getElem?_eq_some_iff.mp hpos
      rw [List.drop_eq_getElem_cons hlt, List.take_succ_cons, List.foldl_cons]
      simp only [hpos]

/-- What a thief adds. -/
theorem total_thief [Zero V] (op : V → V → V) (vs : List V) (q : Nat × Nat) :
    total (accumulateBody op vs) (thief (accumulateBody op vs) q)
      = (elements vs q).foldl op 0 := by
  unfold thief
  rw [total_node]
  exact innerLoopAll_elements op vs _ _ _

/-- The pieces in the other order give the same. -/
theorem Combines.foldl [Zero V] (h : Combines op vs ps) (a : V) :
    ps.reverse.foldl (fun a q => op a ((elements vs q).foldl op 0)) a
      = ps.foldl (fun a q => (elements vs q).foldl op a) a := by
  have hzero : ps.reverse.foldl
      (fun a q => op a ((elements vs q).foldl op 0)) a
      = ps.reverse.foldl (fun a q => (elements vs q).foldl op a) a :=
    List.foldl_ext _ _ _ fun a q hq => h.zero q (List.mem_reverse.mp hq) a
  rw [hzero]
  have hswap : ∀ q ∈ ps, ∀ r ∈ ps, ∀ b,
      (elements vs r).foldl op ((elements vs q).foldl op b)
        = (elements vs q).foldl op ((elements vs r).foldl op b) :=
    fun q hq r hr => List.Pairwise.forall_of_forall_of_flip
      (fun _ _ _ => rfl) h.swap (h.swap.imp fun hqr b => (hqr b).symm) hq hr
  exact (List.reverse_perm ps).foldl_eq' (fun q hq r hr =>
    hswap q (List.mem_reverse.mp hq) r (List.mem_reverse.mp hr)) a

/-- A split that combines keeps the total. -/
theorem split_total [Zero V] {seen count : Nat} {u u' : Task V}
    (h : RoseTree.All EachOk u)
    (hq : ∀ r, splitPieces s seen count u.val = some r → Combines op vs r.2)
    (hs : split s (accumulateBody op vs) seen count u = some u') :
    total (accumulateBody op vs) u' = total (accumulateBody op vs) u := by
  cases u with
  | node w ts =>
    obtain ⟨lo, ps, hsp, hbeg, hchain, rfl⟩ :=
      split_eq_some (RoseTree.all_node.mp h).1.inInt hs
    have hle := chain_le hchain
    have hpartial : (ps.reverse.map (thief (accumulateBody op vs))).map
        (total (accumulateBody op vs))
        = ps.reverse.map fun q => (elements vs q).foldl op 0 := by
      rw [List.map_map]
      exact List.map_congr_left fun q _ => total_thief op vs q
    have hcomb : ∀ a, (ps.reverse.map fun q => (elements vs q).foldl op 0).foldl
        (fun a b => ((accumulateBody op vs).reduce a b).1) a
        = innerLoopAll (accumulateBody op vs) a lo (w.fin - lo) := by
      intro a
      rw [List.foldl_map, innerLoopAll_chain hchain]
      simp only [innerLoopAll_elements]
      exact (hq _ hsp).foldl a
    rw [total_node, total_node, List.map_append, List.foldl_append, hpartial]
    dsimp only
    rw [hcomb, show w.fin - w.beg = (lo - w.beg) + (w.fin - lo) by omega,
      innerLoopAll_add, show w.beg + (lo - w.beg) = lo by omega]

/-- The loop returns the fold of the values. -/
theorem reduces_of_combines [Zero V] (op : V → V → V) (vs : List V) {n : Nat}
    (hn : n ≤ 2 ^ 31) (res : V) :
    Reduces s (accumulateBody op vs) n res ((vs.take n).foldl op res)
      (Combines op vs) := by
  intro as t hq hs
  have hinv : total (accumulateBody op vs) t = (vs.take n).foldl op res
      ∧ RoseTree.All EachOk t := by
    refine hq.run_inv (P := fun t => total (accumulateBody op vs) t
      = (vs.take n).foldl op res ∧ RoseTree.All EachOk t) ?_ ⟨?_, all_master hn res⟩
      hs
    · rintro ⟨path, op'⟩ t t' hm ⟨htotal, hall⟩ hst
      cases op' with
      | go =>
        have hst : t.modifyAt (foreachStep s (accumulateBody op vs)) path
          = some t' := hst
        obtain ⟨heq, hall'⟩ := RoseTree.modifyAt_inv (fun u u' _ hu huu =>
          ⟨(foreachStep_cases hu huu).total_eq hu,
            (foreachStep_cases hu huu).all hu⟩) hall hst
        exact ⟨heq.trans htotal, hall'⟩
      | split seen count =>
        have hst : t.modifyAt (split s (accumulateBody op vs) seen count) path
          = some t' := hst
        have hm : ∀ u, t.at? path = some u → ∀ r,
          splitPieces s seen count u.val = some r → Combines op vs r.2 := hm
        obtain ⟨heq, hall'⟩ := RoseTree.modifyAt_inv (fun u u' hat hu huu =>
          ⟨split_total hu (hm u hat) huu, split_all hu huu⟩) hall hst
        exact ⟨heq.trans htotal, hall'⟩
    · unfold master
      rw [total_node]
      exact innerLoopAll_elements op vs n 0 res
  obtain ⟨htotal, hall⟩ := hinv
  refine ⟨fun hpc => ?_, exists_run_foreach hall⟩
  cases t with
  | node w ts =>
    obtain ⟨hempty, hnil⟩ := EachOk.finished hall hpc
    rw [hnil, total_node, innerLoopAll_of_le hempty] at htotal
    exact htotal

/-- inner_product accumulates the products. -/
theorem innerProductBody_eq [Zero V] (op₀ : V → V → V) (op₁ : α → β → V)
    (xs : List α) (ys : List β) :
    innerProductBody op₀ op₁ xs ys
      = accumulateBody op₀ (List.zipWith op₁ xs ys) := by
  unfold innerProductBody accumulateBody
  congr 1
  funext res pos
  rw [List.getElem?_zipWith]
  cases xs[pos]? with
  | none => rfl
  | some x => cases ys[pos]? <;> rfl

/-- The fold from any start. -/
theorem foldl_elements [Zero V] (hassoc : ∀ a b c, op (op a b) c = op a (op b c))
    (hzero : ∀ a, op a 0 = a) (vs : List V) (a : V) :
    vs.foldl op a = op a (vs.foldl op 0) := by
  have hgen : ∀ (l : List V) (b : V), l.foldl op (op a b) = op a (l.foldl op b) := by
    intro l
    induction l with
    | nil => exact fun _ => rfl
    | cons x l ih =>
      intro b
      rw [List.foldl_cons, List.foldl_cons, hassoc, ih]
  rw [← hgen, hzero]

/-- The splits that combine for any elements: 0 is neutral, and there is
one reply or the operation commutes. -/
theorem combines_of_neutral [Zero V] (hassoc : ∀ a b c, op (op a b) c = op a (op b c))
    (hzero : ∀ a, op a 0 = a) (h : ps.length ≤ 1 ∨ ∀ a b, op a b = op b a) :
    Combines op vs ps where
  zero q _ a := (foldl_elements hassoc hzero _ a).symm
  swap := by
    rcases h with h | hcomm
    · rcases ps with _ | ⟨q, _ | ⟨r, ps⟩⟩
      · exact .nil
      · exact List.pairwise_singleton _ q
      · rw [List.length_cons, List.length_cons] at h
        omega
    · refine List.pairwise_of_forall fun q r a => ?_
      have hfold := foldl_elements hassoc hzero
      rw [hfold (elements vs r) ((elements vs q).foldl op a),
        hfold (elements vs q) a,
        hfold (elements vs q) ((elements vs r).foldl op a),
        hfold (elements vs r) a, hassoc, hassoc,
        hcomm ((elements vs q).foldl op 0)]

-- ======== min_element

section MinElement

variable {lt : Nat → Nat → Bool} {n m : Nat} {pred : α → α → Bool} {xs : List α}

/-- The lesser of two is the least iff one of them is. -/
theorem minOf_eq_iff (h : Least lt n m) {i j : Nat} (hi : i < n) (hj : j < n) :
    minOf lt i j < n ∧ (minOf lt i j = m ↔ i = m ∨ j = m) := by
  unfold minOf
  split
  · next hlt =>
      refine ⟨hj, .inr, fun hor => ?_⟩
      rcases hor with rfl | hjm
      · by_contra hne
        rw [h.before j hj hne] at hlt
        cases hlt
      · exact hjm
  · next hlt =>
      refine ⟨hi, .inl, fun hor => ?_⟩
      rcases hor with him | rfl
      · exact him
      · by_contra hne
        exact hlt (h.notAfter i hi hne)

theorem foldl_choice {f : Nat → Nat → Nat}
    (hf : ∀ i j, i < n → j < n → f i j < n ∧ (f i j = m ↔ i = m ∨ j = m))
      (l : List Nat)
    (hl : ∀ i ∈ l, i < n) :
    ∀ res, res < n → l.foldl f res < n ∧ (l.foldl f res = m ↔ res = m ∨ m ∈ l) := by
  induction l with
  | nil =>
    intro res hres
    exact ⟨hres, .inl, fun hor => hor.resolve_right List.not_mem_nil⟩
  | cons i l ih =>
    intro res hres
    obtain ⟨hlt, hiff⟩ := hf res i hres (hl i List.mem_cons_self)
    obtain ⟨hlt', hiff'⟩ := ih
      (fun j hj => hl j (List.mem_cons_of_mem i hj)) _ hlt
    refine ⟨hlt', ?_⟩
    rw [List.foldl_cons, hiff', hiff, List.mem_cons, or_assoc, @eq_comm _ i m]

/-- The least element is the one the library finds. -/
theorem stdMinElement_eq (h : Least (predAt pred xs) xs.length m) :
    stdMinElement pred xs = m := by
  have hchoice : ∀ i j, i < xs.length → j < xs.length →
      (if predAt pred xs j i then j else i) < xs.length
        ∧ ((if predAt pred xs j i then j else i) = m ↔ i = m ∨ j = m) := by
    intro i j hi hj
    have hiff := minOf_eq_iff h hj hi
    unfold minOf at hiff
    rw [or_comm]
    cases hlt : predAt pred xs j i with
    | true =>
      rw [hlt] at hiff
      exact hiff
    | false =>
      rw [hlt] at hiff
      exact hiff
  have hm := h.lt_length
  have hrange : ∀ i ∈ List.range' 1 (xs.length - 1), i < xs.length := by
    intro i hi
    rw [List.mem_range'_1] at hi
    omega
  refine (foldl_choice hchoice _ hrange 0 (by omega)).2.mpr ?_
  rw [List.mem_range'_1]
  omega

/-- Whether a task will yield the least position. -/
def yields (m : Nat) : Task Nat → Prop :=
  RoseTree.fold fun w rs => w.res = m ∨ (w.beg ≤ m ∧ m < w.fin) ∨ ∃ r ∈ rs, r

/-- Who may yield the least element. -/
theorem yields_node (m : Nat) (w : Work Nat) (ts : List (Task Nat)) :
    yields m (.node w ts)
      = (w.res = m ∨ (w.beg ≤ m ∧ m < w.fin) ∨ ∃ r ∈ ts.map (yields m), r) :=
  RoseTree.fold_node _ w ts

/-- What a task of min_element holds. -/
structure MinOk (n : Nat) (w : Work Nat) (last : Bool) : Prop where
  each : EachOk w last
  res : w.res < n
  fin : w.fin ≤ n

theorem MinOk.all_each {t : Task Nat} (h : RoseTree.All (MinOk n) t) :
    RoseTree.All EachOk t := by
  induction h with
  | node h hkids ih => exact RoseTree.all_node.mpr ⟨h.each, ih⟩

theorem innerLoopAll_min (h : Least (predAt pred xs) xs.length m) {res pos k : Nat}
    (hres : res < xs.length) (hk : pos + k ≤ xs.length) :
    innerLoopAll (minElementBody pred xs) res pos k < xs.length
      ∧ (innerLoopAll (minElementBody pred xs) res pos k = m
        ↔ res = m ∨ (pos ≤ m ∧ m < pos + k)) := by
  have hrange : ∀ i ∈ List.range' pos k, i < xs.length := by
    intro i hi
    rw [List.mem_range'_1] at hi
    omega
  have hfold := foldl_choice
    (fun i j hi hj => minOf_eq_iff h hi hj) _ hrange res hres
  rw [List.mem_range'_1] at hfold
  exact hfold

/-- A step keeps the least element. -/
theorem EachStep.min {u u' : Task Nat} (hl : Least (predAt pred xs) xs.length m)
    (h : RoseTree.All (MinOk xs.length) u) (hs : EachStep s (minElementBody pred xs) u u') :
    yields m u' = yields m u ∧ RoseTree.All (MinOk xs.length) u' := by
  have heach := hs.all (MinOk.all_each h)
  cases hs with
  | @pop w ts size hpc hpos hsize =>
    obtain ⟨hok, hkids⟩ := RoseTree.all_node.mp h
    have hfin := hok.fin
    have hk : w.beg + size ≤ xs.length := by omega
    obtain ⟨hlt, hiff⟩ := innerLoopAll_min hl hok.res hk
    refine ⟨?_, RoseTree.all_node.mpr
      ⟨⟨(RoseTree.all_node.mp heach).1, hlt, hok.fin⟩,
      hkids⟩⟩
    rw [yields_node, yields_node]
    dsimp only
    rw [hiff]
    apply propext
    constructor
    · rintro ((h | h) | h | h)
      · exact .inl h
      · exact .inr (.inl (by omega))
      · exact .inr (.inl (by omega))
      · exact .inr (.inr h)
    · intro h
      rcases h with h | h | h
      · exact .inl (.inl h)
      · rcases Nat.lt_or_ge m (w.beg + size) with hm | hm
        · exact .inl (.inr ⟨h.1, hm⟩)
        · exact .inr (.inl ⟨hm, h.2⟩)
      · exact .inr (.inr h)
  | @empty w ts hpc hle =>
    obtain ⟨hok, hkids⟩ := RoseTree.all_node.mp h
    refine ⟨?_, RoseTree.all_node.mpr
      ⟨⟨(RoseTree.all_node.mp heach).1, hok.res, hok.fin⟩,
      hkids⟩⟩
    rw [yields_node, yields_node]
  | @join w t ts rest hpc ht =>
    obtain ⟨hok, hkids⟩ := RoseTree.all_node.mp h
    have hthief := hkids _ List.mem_cons_self
    have hokt := (RoseTree.all_node.mp hthief).1
    obtain ⟨hempty, hnil⟩ := EachOk.finished (MinOk.all_each hthief) ht
    have hwempty := hok.each.worked (.inl hpc)
    subst hnil
    obtain ⟨hlt, hiff⟩ := minOf_eq_iff hl hok.res hokt.res
    refine ⟨?_, RoseTree.all_node.mpr
      ⟨⟨(RoseTree.all_node.mp heach).1, hlt, hokt.fin⟩,
      fun k hk => hkids k (List.mem_cons_of_mem _ hk)⟩⟩
    rw [yields_node, yields_node, List.nil_append, List.map_cons]
    simp only [List.mem_cons, exists_eq_or_imp, yields_node, List.map_nil,
      List.not_mem_nil, false_and, exists_false, or_false]
    show (minOf (predAt pred xs) w.res t.res = m ∨ _) = _
    rw [hiff]
    apply propext
    constructor
    · rintro ((h | h) | h | h)
      · exact .inl h
      · exact .inr (.inr (.inl (.inl h)))
      · omega
      · exact .inr (.inr (.inr h))
    · rintro (h | h | (h | h) | h)
      · exact .inl (.inl h)
      · omega
      · exact .inl (.inr h)
      · omega
      · exact .inr (.inr h)
  | @finish w hpc =>
    obtain ⟨hok, hkids⟩ := RoseTree.all_node.mp h
    refine ⟨?_, RoseTree.all_node.mpr
      ⟨⟨(RoseTree.all_node.mp heach).1, hok.res, hok.fin⟩,
      hkids⟩⟩
    rw [yields_node, yields_node]

theorem exists_chain_iff {lo hi : Nat} {ps : List (Nat × Nat)}
    (h : Chain lo ps hi) :
    (∃ q ∈ ps, q.1 ≤ m ∧ m < q.2) ↔ lo ≤ m ∧ m < hi := by
  induction ps generalizing lo with
  | nil =>
    have heq : lo = hi := h
    constructor
    · intro ⟨q, hq, _⟩
      cases hq
    · intro hm
      omega
  | cons q ps ih =>
    obtain ⟨h₁, h₂, h₃⟩ := h
    have hle := chain_le h₃
    rw [List.exists_mem_cons_iff, ih h₃]
    omega

/-- So does a split. -/
theorem split_min {seen count : Nat} {u u' : Task Nat}
    (h : RoseTree.All (MinOk xs.length) u)
    (hs : split s (minElementBody pred xs) seen count u = some u') :
    yields m u' = yields m u ∧ RoseTree.All (MinOk xs.length) u' := by
  have heach := split_all (MinOk.all_each h) hs
  cases u with
  | node w ts =>
    obtain ⟨hok, hkids⟩ := RoseTree.all_node.mp h
    obtain ⟨lo, ps, -, hbeg, hchain, rfl⟩ := split_eq_some hok.each.inInt hs
    have hle := chain_le hchain
    have hfin := hok.fin
    have hbounds := chain_bounds hchain
    obtain ⟨hroot, heachkids⟩ := RoseTree.all_node.mp heach
    refine ⟨?_, RoseTree.all_node.mpr ⟨⟨hroot, hok.res, Nat.le_trans hle hfin⟩,
      fun k hk => ?_⟩⟩
    · have hthief : ∀ q ∈ ps,
          (yields m (thief (minElementBody pred xs) q) ↔ q.1 ≤ m ∧ m < q.2) := by
        intro q hq
        have hq' := hbounds q hq
        unfold thief
        rw [yields_node]
        simp only [List.map_nil, List.not_mem_nil, false_and, exists_false,
          or_false]
        show q.1 = m ∨ _ ↔ _
        omega
      have hpieces : (∃ r ∈ (ps.reverse.map
        (thief (minElementBody pred xs))).map (yields m), r)
          ↔ lo ≤ m ∧ m < w.fin := by
        rw [← exists_chain_iff hchain]
        constructor
        · intro ⟨r, hr, hyields⟩
          rw [List.map_map, List.mem_map] at hr
          obtain ⟨q, hq, rfl⟩ := hr
          have hq := List.mem_reverse.mp hq
          exact ⟨q, hq, (hthief q hq).mp hyields⟩
        · intro ⟨q, hq, hm⟩
          refine ⟨_, List.mem_map.mpr ⟨_, List.mem_map.mpr
            ⟨q, List.mem_reverse.mpr hq, rfl⟩, rfl⟩, (hthief q hq).mpr hm⟩
      rw [yields_node, yields_node, List.map_append]
      simp only [List.mem_append, or_and_right, exists_or]
      rw [hpieces]
      apply propext
      constructor
      · intro h
        rcases h with h | h | h | h
        · exact .inl h
        · exact .inr (.inl (by omega))
        · exact .inr (.inl (by omega))
        · exact .inr (.inr h)
      · intro h
        rcases h with h | h | h
        · exact .inl h
        · rcases Nat.lt_or_ge m lo with hm | hm
          · exact .inr (.inl ⟨h.1, hm⟩)
          · exact .inr (.inr (.inl ⟨hm, h.2⟩))
        · exact .inr (.inr (.inr h))
    · rcases List.mem_append.mp hk with hk' | hk'
      · obtain ⟨q, hq, rfl⟩ := List.mem_map.mp hk'
        have hq' := hbounds q (List.mem_reverse.mp hq)
        have heachk := (RoseTree.all_node.mp (heachkids _ hk)).1
        refine RoseTree.all_node.mpr ⟨⟨heachk, ?_, ?_⟩, fun k hk => nomatch hk⟩
        · show q.1 < xs.length
          omega
        · show q.2 ≤ xs.length
          omega
      · exact hkids k hk'

/-- The loop returns the least element. -/
theorem reduces_min (hn : xs.length ≤ 2 ^ 31) (hl : Least (predAt pred xs) xs.length m) :
    Reduces s (minElementBody pred xs) xs.length 0 m fun _ => True := by
  intro as t hq hs
  have hm := hl.lt_length
  have hinv : yields m t ∧ RoseTree.All (MinOk xs.length) t := by
    refine hq.run_inv (P := fun t =>
      yields m t ∧ RoseTree.All (MinOk xs.length) t) ?_ ?_ hs
    · rintro ⟨path, op⟩ t t' - ⟨hy, hall⟩ hst
      cases op with
      | go =>
        have hst : t.modifyAt (foreachStep s (minElementBody pred xs)) path
          = some t' := hst
        obtain ⟨heq, hall'⟩ := RoseTree.modifyAt_inv (fun u u' _ hu huu =>
          (foreachStep_cases (MinOk.all_each hu) huu).min hl hu) hall hst
        exact ⟨(iff_of_eq heq).mpr hy, hall'⟩
      | split seen count =>
        have hst : t.modifyAt
          (split s (minElementBody pred xs) seen count) path = some t' :=
          hst
        obtain ⟨heq, hall'⟩ := RoseTree.modifyAt_inv (fun u u' _ hu huu =>
          split_min (m := m) hu huu) hall hst
        exact ⟨(iff_of_eq heq).mpr hy, hall'⟩
    · have heach := (RoseTree.all_node.mp (all_master hn 0)).1
      refine ⟨?_, RoseTree.all_node.mpr ⟨⟨heach, ?_, Nat.le_refl _⟩,
        fun k hk => nomatch hk⟩⟩
      case refine_2 => exact Nat.lt_of_le_of_lt (Nat.zero_le m) hm
      unfold master
      rw [yields_node]
      exact .inr (.inl ⟨Nat.zero_le m, hm⟩)
  obtain ⟨hy, hall⟩ := hinv
  refine ⟨fun hpc => ?_, exists_run_foreach (MinOk.all_each hall)⟩
  cases t with
  | node w ts =>
    obtain ⟨hempty, hnil⟩ := EachOk.finished (MinOk.all_each hall) hpc
    rw [hnil, yields_node] at hy
    rcases hy with h | h | ⟨r, hr, -⟩
    · exact h
    · omega
    · cases hr

end MinElement

/-- The loop on no position returns its result. -/
theorem reduces_nil (body : Body R) (res : R) :
    Reduces s body 0 res res fun _ => True := by
  intro as t hq hs
  have hinv : (t.val.res = res ∧ t.val.fin ≤ t.val.beg ∧ t.kids = [])
      ∧ RoseTree.All EachOk t := by
    refine hq.run_inv (P := fun t =>
      (t.val.res = res ∧ t.val.fin ≤ t.val.beg ∧ t.kids = [])
      ∧ RoseTree.All EachOk t) ?_ ⟨⟨rfl, Nat.le_refl 0, rfl⟩, all_master (Nat.zero_le _) res⟩ hs
    rintro ⟨path, op⟩ t t' - ⟨⟨hres, hempty, hnil⟩, hall⟩ hst
    cases t with
    | node w ts =>
      change ts = [] at hnil
      subst hnil
      have hpath : path = [] := by
        rcases path with _ | ⟨i, path⟩
        · rfl
        · cases op with
          | go => cases hst
          | split seen count => cases hst
      subst hpath
      cases op with
      | go =>
        have hst : foreachStep s body (.node w []) = some t' := hst
        have hcases := foreachStep_cases hall hst
        refine ⟨?_, hcases.all hall⟩
        cases hcases with
        | pop hpc hpos hsize =>
          change w.fin ≤ w.beg at hempty
          omega
        | empty hpc hle => exact ⟨hres, hempty, rfl⟩
        | finish hpc => exact ⟨hres, hempty, rfl⟩
      | split seen count =>
        have hst : split s body seen count (.node w []) = some t' := hst
        have hall' := split_all hall hst
        obtain ⟨lo, ps, -, hbeg, hchain, rfl⟩ :=
          split_eq_some (RoseTree.all_node.mp hall).1.inInt hst
        change w.fin ≤ w.beg at hempty
        have hps : ps = [] := chain_eq_nil hchain (by omega)
        refine ⟨⟨hres, Nat.le_trans (chain_le hchain) hempty, ?_⟩, hall'⟩
        rw [hps]
        rfl
  exact ⟨fun _ => hinv.1.1, exists_run_foreach hinv.2⟩

-- ======== results

/-- Whatever the sequences, the initial value, the operations, the grains
and the schedule: when the splits combine, accumulate and inner_product
return the fold from the left, and when the least element is there once
min_element returns it. -/
theorem reductions_return [Zero V] (s : Settings) (op : V → V → V) (op₁ : α → β → V)
    (init : V) (pred : α → α → Bool) (vs : List V) (xs : List α) (ys : List β)
    (hvs : vs.length ≤ 2 ^ 31) (hxs : xs.length ≤ 2 ^ 31) :
    Reduces s (accumulateBody op vs) vs.length init (vs.foldl op init)
        (Combines op vs)
      ∧ Reduces s (innerProductBody op op₁ xs ys) xs.length init
        ((xs.zip ys).foldl (fun r z => op r (op₁ z.1 z.2)) init)
        (Combines op (List.zipWith op₁ xs ys))
      ∧ (UniqueMin pred xs →
        Reduces s (minElementBody pred xs) xs.length 0 (stdMinElement pred xs)
          fun _ => True) := by
  refine ⟨?_, ?_, fun hmin => ?_⟩
  · have hall := reduces_of_combines (s := s) op vs hvs init
    rwa [List.take_length] at hall
  · have hall := reduces_of_combines (s := s) op (List.zipWith op₁ xs ys) hxs init
    have hlen : (List.zipWith op₁ xs ys).length ≤ xs.length := by
      rw [List.length_zipWith]
      exact Nat.min_le_left _ _
    have hfold : (List.zipWith op₁ xs ys).foldl op init
        = (xs.zip ys).foldl (fun r z => op r (op₁ z.1 z.2)) init := by
      rw [← List.map_uncurry_zip_eq_zipWith, List.foldl_map]
      rfl
    rw [List.take_of_length_le hlen, hfold] at hall
    rw [innerProductBody_eq]
    exact hall
  · rcases eq_or_ne xs [] with rfl | hne
    · exact reduces_nil _ 0
    · obtain ⟨m, hm⟩ := hmin hne
      rw [stdMinElement_eq hm]
      exact reduces_min hxs hm

/-- The sum of three elements, the inner product, and the least element of
three. -/
theorem reductions_return_three :
    UniqueMin (fun a b : Nat => decide (a < b)) [7, 3, 5]
      ∧ Reduces ⟨1, 1, Nat.one_pos, Nat.one_pos⟩
        (minElementBody (fun a b : Nat => decide (a < b)) [7, 3, 5]) 3 0
        (stdMinElement (fun a b : Nat => decide (a < b)) [7, 3, 5]) (fun _ => True)
      ∧ (∀ ps, Combines (fun a b : Nat => a + b) [7, 3, 5] ps)
      ∧ Reduces ⟨1, 1, Nat.one_pos, Nat.one_pos⟩
        (accumulateBody (fun a b : Nat => a + b) [7, 3, 5]) 3 1
        ([7, 3, 5].foldl (fun a b => a + b) 1)
        (Combines (fun a b : Nat => a + b) [7, 3, 5]) := by
  have hmin : UniqueMin (fun a b : Nat => decide (a < b)) [7, 3, 5] := by
    refine fun _ => ⟨1, ⟨by decide, by decide, ?_, ?_⟩⟩
    all_goals decide
  have hall := reductions_return ⟨1, 1, Nat.one_pos, Nat.one_pos⟩
    (fun a b : Nat => a + b)
    (fun a b : Nat => a * b) 1 (fun a b : Nat => decide (a < b)) [7, 3, 5]
      [7, 3, 5] [1, 2, 3] (by decide) (by decide)
  exact ⟨hmin, hall.2.2 hmin, fun ps =>
    combines_of_neutral Nat.add_assoc Nat.add_zero
    (.inr Nat.add_comm), hall.1⟩

/-- The product of two elements, one of them stolen, is 0; and the last of
two equal elements is their least. -/
theorem reductions_fail :
    (∃ as t, run (step ⟨1, 1, Nat.one_pos, Nat.one_pos⟩
        (accumulateBody (fun a b : Nat => a * b) [2, 3])
        (foreachStep ⟨1, 1, Nat.one_pos, Nat.one_pos⟩
          (accumulateBody (fun a b : Nat => a * b) [2, 3]))) as (master 2 1)
            = some t
      ∧ t.val.pc = .finished ∧ t.val.res ≠ [2, 3].foldl (fun a b => a * b) 1)
    ∧ ∃ as t, run (step ⟨1, 1, Nat.one_pos, Nat.one_pos⟩
        (minElementBody (fun a b : Nat => decide (a < b)) [1, 1])
        (foreachStep ⟨1, 1, Nat.one_pos, Nat.one_pos⟩
          (minElementBody (fun a b : Nat => decide (a < b)) [1, 1]))) as
            (master 2 0) = some t
      ∧ t.val.pc = .finished
      ∧ t.val.res ≠ stdMinElement (fun a b : Nat => decide (a < b)) [1, 1] := by
  have hprod : (run (step ⟨1, 1, Nat.one_pos, Nat.one_pos⟩
      (accumulateBody (fun a b : Nat => a * b) [2, 3])
      (foreachStep ⟨1, 1, Nat.one_pos, Nat.one_pos⟩
        (accumulateBody (fun a b : Nat => a * b) [2, 3])))
      [⟨[], .split 2 1⟩, ⟨[], .go⟩, ⟨[], .go⟩, ⟨[0], .go⟩, ⟨[0], .go⟩,
        ⟨[0], .go⟩, ⟨[], .go⟩,
        ⟨[], .go⟩] (master 2 1)).map (fun t => (t.val.pc, t.val.res))
      = some (.finished, 0) := by decide +kernel
  have hmin : (run (step ⟨1, 1, Nat.one_pos, Nat.one_pos⟩
      (minElementBody (fun a b : Nat => decide (a < b)) [1, 1])
      (foreachStep ⟨1, 1, Nat.one_pos, Nat.one_pos⟩
        (minElementBody (fun a b : Nat => decide (a < b)) [1, 1])))
      [⟨[], .go⟩, ⟨[], .go⟩, ⟨[], .go⟩, ⟨[], .go⟩] (master 2 0)).map
        (fun t => (t.val.pc, t.val.res))
      = some (.finished, 1) := by decide +kernel
  obtain ⟨t, ht, hproj⟩ := Option.map_eq_some_iff.mp hprod
  obtain ⟨t', ht', hproj'⟩ := Option.map_eq_some_iff.mp hmin
  simp only [Prod.mk.injEq] at hproj hproj'
  refine ⟨⟨_, t, ht, hproj.1, ?_⟩, ⟨_, t', ht', hproj'.1, ?_⟩⟩
  · rw [hproj.2]
    decide
  · rw [hproj'.2]
    decide

end XKaapi.Kastl
