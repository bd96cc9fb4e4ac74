/-
Runs over a ready task list: nothing is lost, nothing is duplicated.

`WellFormed s q` says that the eight lists of `s` are the queues `q`,
disjoint, each descriptor in the queue of its priority, with the sizes
and the count that the counters hold. A run logs what was pushed,
returned and refused; `Good` adds that the log accounts for what the
queues hold. `Right` is what a call has to answer.
-/
import XKaapi.TaskList.ReadyListLinks
import Mathlib.Algebra.BigOperators.Group.Finset.Piecewise
import Mathlib.Algebra.Order.BigOperators.Group.Finset

namespace XKaapi.ReadyList

open LinkedList
open Function (update update_of_ne update_self)

variable {ι : Type} [DecidableEq ι]

-- ======== runs

/-- The calls. `cur` is the type of the processor that steals, for the
order of the priorities; the thief's type is the one to serve. -/
inductive Op (ι : Type)
  | push (td : ι)
  | remotePush (td : ι)
  | pop (arch : Nat)
  | steal (affinity : StealAffinity) (cur : Nat) (thief : Thief ι)

inductive Event (ι : Type)
  | pushed (td : ι)
  | returned (td : ι)
  | refused
deriving DecidableEq

/-- The list, and what happened to it. -/
structure St (ι : Type) where
  list : Readytasklist ι
  log : List (Event ι)

/-- The event of an answer. -/
def Event.ofAnswer : Option ι → Event ι
  | some td => .returned td
  | none => .refused

/-- One call. -/
def step (op : Op ι) (s : St ι) : Option (St ι) :=
  match op with
  | .push td => (s.list.push td).map fun l => ⟨l, s.log ++ [.pushed td]⟩
  | .remotePush td =>
    (s.list.remotePush td).map fun l => ⟨l, s.log ++ [.pushed td]⟩
  | .pop arch =>
    (s.list.pop arch).map fun (r, l) => ⟨l, s.log ++ [.ofAnswer r]⟩
  | .steal affinity cur thief =>
    (s.list.steal affinity cur thief).map fun (r, l) =>
      ⟨l, s.log ++ [.ofAnswer r]⟩

/-- A descriptor is pushed only while it is in no list: it was returned
as often as it was pushed. -/
def Fresh : Op ι → St ι → Prop
  | .push td, s | .remotePush td, s =>
    (∃ n, s.list.heap td = some n ∧ n.val.priority < numPriority)
      ∧ s.log.count (.pushed td) = s.log.count (.returned td)
  | _, _ => True

-- ======== invariant

/-- The lists are the queues `q`. -/
structure WellFormed (s : Readytasklist ι) (q : Nat → List ι) : Prop where
  isList : ∀ p, IsList s.heap (s.prl p).ends (q p)
  size : ∀ p, (s.prl p).size = (q p).length
  priority : ∀ p, ∀ td ∈ q p,
    (s.heap td).isSome ∧ (descr s.heap td).priority = p
  range : ∀ p, numPriority ≤ p → q p = []
  cnt : s.cntTasks = ∑ p ∈ Finset.range numPriority, ((q p).length : Int)

/-- Every push of a descriptor has been answered, or it is in its queue. -/
def Ledger (s : St ι) (q : Nat → List ι) : Prop :=
  ∀ td, s.log.count (.pushed td)
    = s.log.count (.returned td)
      + if td ∈ q (descr s.list.heap td).priority then 1 else 0

def Good (s : St ι) : Prop := ∃ q, WellFormed s.list q ∧ Ledger s q

/-- Priority `p'` is higher than `p` on a processor of type `cur`: the
greater ones first, on a GPU the smaller ones. -/
def Higher (cur p' p : Nat) : Prop :=
  if cur = procTypeCuda then p' < p else p < p'

/-- What is owed to a processor of type `arch` that may take what
`accepts` says: a descriptor of the highest queue that has one eligible,
or of a higher one; no answer only if no queue has one. -/
def Serves (cur arch : Nat) (accepts : Taskdescr → Prop) (h : Heap ι Taskdescr)
    (q : Nat → List ι) : Option ι → Prop
  | some td => ∃ p < numPriority, td ∈ q p ∧ accepts (descr h td)
      ∧ ∀ p', Higher cur p' p → ∀ td' ∈ q p', (descr h td').eligible arch = false
  | none => ∀ p, ∀ td ∈ q p, (descr h td).eligible arch = false

/-- What a call does and answers, `q` being the queues before it. -/
def Right (op : Op ι) (s s' : St ι) : Prop :=
  ∃ q, WellFormed s.list q ∧ match op with
    | .push td =>
      s'.log = s.log ++ [.pushed td] ∧ WellFormed s'.list
        (update q (descr s.list.heap td).priority
          (td :: q (descr s.list.heap td).priority))
    | .remotePush td =>
      s'.log = s.log ++ [.pushed td] ∧ WellFormed s'.list
        (update q (descr s.list.heap td).priority
          (q (descr s.list.heap td).priority ++ [td]))
    | .pop arch =>
      ∃ r, s'.log = s.log ++ [.ofAnswer r]
        ∧ Serves arch arch (fun td => td.eligible arch = true) s.list.heap q r
        ∧ WellFormed s'.list fun p => (q p).filter (some · ≠ r)
    | .steal affinity cur thief =>
      ∃ r, s'.log = s.log ++ [.ofAnswer r]
        ∧ Serves cur thief.arch (affinity.Accepts thief.arch) s.list.heap q r
        ∧ WellFormed s'.list fun p => (q p).filter (some · ≠ r)

-- ======== one list

section one

variable {s : Readytasklist ι} {q : Nat → List ι} {p : Nat} {td : ι} {l : List ι}

omit [DecidableEq ι] in
/-- A descriptor is in one queue. -/
theorem WellFormed.not_mem {p' : Nat} (h : WellFormed s q) (hp : p ≠ p') (htd : td ∈ q p) :
    td ∉ q p' :=
  fun hmem => hp ((h.priority p td htd).2.symm.trans (h.priority p' td hmem).2)

omit [DecidableEq ι] in
/-- Its priority is in range. -/
theorem WellFormed.lt (h : WellFormed s q) (htd : td ∈ q p) : p < numPriority := by
  by_contra hge
  rw [h.range p (Nat.le_of_not_lt hge)] at htd
  exact List.not_mem_nil htd

omit [DecidableEq ι] in
/-- List `p` is replaced, its descriptors being the only ones touched. -/
theorem WellFormed.setOne (h : WellFormed s q) (hp : p < numPriority) (cnt : Int)
    {h' : Heap ι Taskdescr} {e' : Ends ι} {m : List ι} (hl : IsList h' e' l)
    (hv : SameVals s.heap h') (ha : AgreeOff m s.heap h')
    (hm : ∀ td ∈ m, (descr s.heap td).priority = p)
    (halloc : ∀ td ∈ l, (s.heap td).isSome ∧ (descr s.heap td).priority = p)
    (hcnt : cnt = s.cntTasks + l.length - (q p).length) :
    WellFormed { s.setOne p (h', ⟨e', l.length⟩) with cntTasks := cnt }
      (update q p l) := by
  refine ⟨fun p' => ?_, fun p' => ?_, fun p' td htd => ?_, fun p' hge => ?_, ?_⟩
  · show IsList h' (update s.prl p ⟨e', l.length⟩ p').ends _
    by_cases hpp : p' = p
    · subst hpp
      rw [update_self, update_self]
      exact hl
    · rw [update_of_ne hpp, update_of_ne hpp]
      refine (h.isList p').congr fun td htd => ha td fun hmem => hpp ?_
      exact (h.priority p' td htd).2.symm.trans (hm td hmem)
  · show (update s.prl p ⟨e', l.length⟩ p').size = _
    by_cases hpp : p' = p
    · subst hpp
      rw [update_self, update_self]
    · rw [update_of_ne hpp, update_of_ne hpp]
      exact h.size p'
  · show (h' td).isSome ∧ (descr h' td).priority = p'
    rw [hv.isSome_eq, descr_congr hv]
    by_cases hpp : p' = p
    · subst hpp
      rw [update_self] at htd
      exact halloc td htd
    · rw [update_of_ne hpp] at htd
      exact h.priority p' td htd
  · rw [update_of_ne (by omega)]
    exact h.range p' hge
  · show cnt = _
    have hsum := Finset.sum_update_of_mem (Finset.mem_range.mpr hp)
      (fun p => ((q p).length : Int)) (l.length : Int)
    have hq : (fun p' => ((update q p l p').length : Int))
        = update (fun p => ((q p).length : Int)) p (l.length : Int) := by
      funext p'
      by_cases hpp : p' = p
      · rw [hpp, update_self, update_self]
      · rw [update_of_ne hpp, update_of_ne hpp]
    have hold := Finset.sum_eq_add_sum_sdiff_singleton_of_mem
      (Finset.mem_range.mpr hp) fun p => ((q p).length : Int)
    rw [hq, hsum, hcnt, h.cnt, hold]
    omega

omit [DecidableEq ι] in
/-- The queue of an allocated descriptor `td` becomes `l`, that is the old
one with `td`, put there by `one`. -/
theorem WellFormed.pushBy (h : WellFormed s q) {one : OneSt ι → ι → Option (OneSt ι)}
    (halloc : (s.heap td).isSome) (hp : (descr s.heap td).priority < numPriority)
    (hone : ∀ e n, IsList s.heap e (q (descr s.heap td).priority) →
      ∃ h' e', one (s.heap, ⟨e, n⟩) td = some (h', ⟨e', n + 1⟩)
        ∧ IsList h' e' l ∧ SameVals s.heap h' ∧ AgreeOff l s.heap h')
    (hmem : ∀ i ∈ l, i = td ∨ i ∈ q (descr s.heap td).priority)
    (hlen : l.length = (q (descr s.heap td).priority).length + 1) :
    ∃ s', (do
        let n ← s.heap td
        if n.val.priority < numPriority then
          let one ← one (s.heap, s.prl n.val.priority) td
          return { s.setOne n.val.priority one with cntTasks := s.cntTasks + 1 }
        else none) = some s'
      ∧ SameVals s.heap s'.heap
      ∧ WellFormed s' (update q (descr s.heap td).priority l) := by
  obtain ⟨n, hn⟩ := Option.isSome_iff_exists.mp halloc
  have hprio : n.val.priority = (descr s.heap td).priority := by
    rw [descr_of_some hn]
  have hall : ∀ i ∈ l, (s.heap i).isSome
      ∧ (descr s.heap i).priority = (descr s.heap td).priority := by
    intro i hi
    rcases hmem i hi with rfl | hi
    · exact ⟨halloc, rfl⟩
    · exact h.priority _ i hi
  obtain ⟨h', e', hr, hl, hv, ha⟩ := hone _ (s.prl (descr s.heap td).priority).size
    (h.isList (descr s.heap td).priority)
  simp only [hn, Option.bind_eq_bind, Option.bind_some, hprio, if_pos hp]
  refine ⟨_, by rw [hr]; rfl, hv, ?_⟩
  have hset := h.setOne hp (s.cntTasks + 1) hl hv ha (fun i hi => (hall i hi).2) hall
    (by omega)
  rwa [hlen, Int.natCast_succ, ← h.size] at hset

/-- A push puts the descriptor first in the queue of its priority. -/
theorem WellFormed.push (h : WellFormed s q) (halloc : (s.heap td).isSome)
    (hp : (descr s.heap td).priority < numPriority)
    (htd : td ∉ q (descr s.heap td).priority) :
    ∃ s', s.push td = some s' ∧ SameVals s.heap s'.heap
      ∧ WellFormed s' (update q (descr s.heap td).priority
          (td :: q (descr s.heap td).priority)) :=
  h.pushBy halloc hp (fun _ _ hl => onereadytasklistPush_spec hl htd halloc)
    (fun _ => List.mem_cons.mp) List.length_cons

/-- A remote push puts it last. -/
theorem WellFormed.remotePush (h : WellFormed s q) (halloc : (s.heap td).isSome)
    (hp : (descr s.heap td).priority < numPriority)
    (htd : td ∉ q (descr s.heap td).priority) :
    ∃ s', s.remotePush td = some s' ∧ SameVals s.heap s'.heap
      ∧ WellFormed s' (update q (descr s.heap td).priority
          (q (descr s.heap td).priority ++ [td])) :=
  h.pushBy halloc hp (fun _ _ hl => onereadytasklistRemotePush_spec hl htd halloc)
    (fun i hi => by rwa [List.mem_append, List.mem_singleton, or_comm] at hi)
    (by rw [List.length_append, List.length_singleton])

/-- The pop, or the steal, of one list takes out what it chooses. -/
def OneTakes (one : OneSt ι → Option (Option ι × OneSt ι))
    (choose : (ι → Taskdescr) → List ι → Option ι) : Prop :=
  ∀ (h : Heap ι Taskdescr) (e : Ends ι) (l : List ι), IsList h e l →
    (choose (descr h) l = none ∧ ∃ s', one (h, ⟨e, l.length⟩) = some (none, s'))
    ∨ ∃ td l₁ l₂ h' e', choose (descr h) l = some td ∧ l = l₁ ++ td :: l₂
      ∧ one (h, ⟨e, l.length⟩) = some (some td, h', ⟨e', (l₁ ++ l₂).length⟩)
      ∧ IsList h' e' (l₁ ++ l₂) ∧ SameVals h h' ∧ AgreeOff l h h'

/-- A scan of one queue takes what its policy chooses. -/
theorem oneTakes_of_choose {one : OneSt ι → Option (Option ι × OneSt ι)}
    {choose : (ι → Taskdescr) → List ι → Option ι}
    (hmem : ∀ d l td, choose d l = some td → td ∈ l)
    (hone : ∀ (h : Heap ι Taskdescr) (e : Ends ι) (l : List ι), IsList h e l →
      l ≠ [] → one (h, ⟨e, l.length⟩) = match choose (descr h) l with
        | none => some (none, h, ⟨e, l.length⟩)
        | some td => (takeOut (h, ⟨e, l.length⟩) td).map fun s => (some td, s))
    (hnil : ∀ (h : Heap ι Taskdescr) (e : Ends ι),
      one (h, ⟨e, 0⟩) = some (none, h, ⟨e, 0⟩)) :
    OneTakes one choose := by
  intro h e l hl
  cases hc : choose (descr h) l with
  | none =>
    refine .inl ⟨rfl, ?_⟩
    by_cases hnil' : l = []
    · subst hnil'
      exact ⟨_, hnil h e⟩
    · refine ⟨(h, ⟨e, l.length⟩), (hone h e l hl hnil').trans ?_⟩
      rw [hc]
  | some td =>
    have htd := hmem _ _ _ hc
    have hr := hone h e l hl (List.ne_nil_of_mem htd)
    obtain ⟨l₁, l₂, rfl⟩ := List.append_of_mem htd
    obtain ⟨h', e', ht, hl', hv, ha⟩ :=
      takeOut_spec (n := ((l₁ ++ td :: l₂).length : Int)) hl
    have hlen : ((l₁ ++ td :: l₂).length : Int) - 1 = (l₁ ++ l₂).length := by
      rw [List.length_append, List.length_append, List.length_cons]
      omega
    rw [hlen] at ht
    refine .inr ⟨td, l₁, l₂, h', e', rfl, rfl, ?_, hl', hv, ha⟩
    rw [hr, hc]
    show (takeOut _ td).map _ = _
    rw [ht]
    rfl

/-- The first eligible one from the head. -/
def choosePop (arch : Nat) (d : ι → Taskdescr) (l : List ι) : Option ι :=
  l.find? fun i => (d i).eligible arch

omit [DecidableEq ι] in
/-- The pop finds the first eligible descriptor. -/
theorem choosePop_finds (arch : Nat) (d : ι → Taskdescr) (l : List ι) :
    Finds (fun td => td.eligible arch = true) arch d l (choosePop arch d l) := by
  cases hfind : choosePop arch d l with
  | none =>
    unfold choosePop at hfind
    rw [List.find?_eq_none] at hfind
    exact fun td htd => Bool.eq_false_iff.mpr (hfind td htd)
  | some td =>
    exact ⟨List.mem_of_find?_eq_some hfind,
      List.find?_some (p := fun i => (d i).eligible arch) hfind⟩

omit [DecidableEq ι] in
theorem mem_of_finds {accepts : Taskdescr → Prop} {arch : Nat}
    {choose : (ι → Taskdescr) → List ι → Option ι}
    (hfinds : ∀ d l, Finds accepts arch d l (choose d l)) (d : ι → Taskdescr)
    (l : List ι) (td : ι) (h : choose d l = some td) : td ∈ l := by
  have hf := hfinds d l
  rw [h] at hf
  exact hf.1

omit [DecidableEq ι] in
theorem length_ne_zero (h : l ≠ []) : (l.length : Int) ≠ 0 := by
  rw [Int.natCast_ne_zero]
  exact fun h0 => h (List.length_eq_zero_iff.mp h0)

/-- The pop of one queue takes it. -/
theorem onereadytasklistPop_takes (arch : Nat) :
    OneTakes (onereadytasklistPop (ι := ι) arch) (choosePop arch) := by
  refine oneTakes_of_choose (mem_of_finds (choosePop_finds arch))
    (fun h e l hl hne => ?_) fun h e => rfl
  have hscan := scan_spec (linked_next hl.seg)
    (fun (_ : ι) (td : Taskdescr) => td.eligible arch)
    (show l.length < (l.length : Int).toNat + 1 by
      rw [Int.toNat_natCast]; omega)
  rw [← hl.beg] at hscan
  unfold onereadytasklistPop
  simp only [if_neg (length_ne_zero hne), hscan, Option.bind_eq_bind,
    Option.bind_some]
  show _ = match l.find? fun i => (descr h i).eligible arch with
    | none => _
    | some td => _
  cases l.find? fun i => (descr h i).eligible arch with
  | none => rfl
  | some td =>
    simp only
    cases takeOut (h, ⟨e, l.length⟩) td with
    | none => rfl
    | some s => rfl

/-- The steal of one queue takes what the policy chooses. -/
theorem onereadytasklistSteal_takes (affinity : StealAffinity) (thief : Thief ι) :
    OneTakes (onereadytasklistSteal affinity thief) (affinity.choose thief) := by
  refine oneTakes_of_choose (mem_of_finds (choose_finds affinity thief))
    (fun h e l hl hne => ?_) fun h e => rfl
  have hr := stealByAffinity_eq affinity hl
    (show l.length < (l.length : Int).toNat + 1 by
      rw [Int.toNat_natCast]; omega) thief
  unfold onereadytasklistSteal
  simp only [if_neg (length_ne_zero hne), hr, Option.bind_eq_bind, Option.bind_some]
  cases affinity.choose thief (descr h) l with
  | none => rfl
  | some td =>
    simp only
    cases takeOut (h, ⟨e, l.length⟩) td with
    | none => rfl
    | some s => rfl

end one

-- ======== all lists

section all

variable {s : Readytasklist ι} {q : Nat → List ι} {p cur : Nat}
  {choose : (ι → Taskdescr) → List ι → Option ι}

/-- The loop over the priorities, as a loop over a list of them. -/
def serveFirst (one : OneSt ι → Option (Option ι × OneSt ι)) :
    List Nat → Readytasklist ι → Option (Option ι × Readytasklist ι)
  | [], s => some (none, s)
  | p :: ps, s => do
      let (r, s') ← one (s.heap, s.prl p)
      match r with
      | some td =>
        return (some td, { s.setOne p s' with cntTasks := s.cntTasks - 1 })
      | none => serveFirst one ps s

/-- The order of the priorities on a processor of type `cur`. -/
def priorities (cur : Nat) : List Nat :=
  if cur = procTypeCuda then [0, 1, 2, 3, 4, 5, 6, 7] else [7, 6, 5, 4, 3, 2, 1, 0]

omit [DecidableEq ι] in
/-- The loop on the priorities. -/
theorem prioLoop_eq (one : OneSt ι → Option (Option ι × OneSt ι)) (cur : Nat)
    (s : Readytasklist ι) :
    Readytasklist.prioLoop one (getPriorityRange cur).1 (getPriorityRange cur).2.2
      (numPriority + 1) (getPriorityRange cur).2.1 s
      = serveFirst one (priorities cur) s := by
  unfold getPriorityRange priorities
  split
  next => rfl
  next => rfl

/-- All priorities are visited. -/
theorem mem_priorities (hp : p < numPriority) : p ∈ priorities cur := by
  unfold numPriority at hp
  unfold priorities
  split
  next => simp; omega
  next => simp; omega

/-- They are visited from the highest on. -/
theorem priorities_pairwise (cur : Nat) :
    (priorities cur).Pairwise (Higher cur) := by
  unfold priorities Higher
  split
  next => decide
  next => decide

theorem priorities_lt (hp : p ∈ priorities cur) : p < numPriority := by
  unfold numPriority
  unfold priorities at hp
  split at hp
  next => simp at hp; omega
  next => simp at hp; omega

theorem Higher.asymm {p' : Nat} (h : Higher cur p p') : ¬ Higher cur p' p := by
  unfold Higher at *
  split at h
  next hc => rw [if_pos hc]; omega
  next hc => rw [if_neg hc]; omega

theorem WellFormed.filter_eq (h : WellFormed s q) {td : ι} {l₁ l₂ : List ι}
    (hq : q p = l₁ ++ td :: l₂) :
    (fun p' => (q p').filter (some · ≠ some td))
      = update q p (l₁ ++ l₂) := by
  have hnodup := (h.isList p).nodup
  rw [hq] at hnodup
  obtain ⟨htd, -⟩ := List.nodup_cons.mp ((List.perm_middle.nodup_iff).mp hnodup)
  have hkeep : ∀ l : List ι, td ∉ l → l.filter (some · ≠ some td) = l := by
    intro l hl
    rw [List.filter_eq_self]
    intro i hi
    exact decide_eq_true fun hit => hl (Option.some.inj hit ▸ hi)
  funext p'
  by_cases hpp : p' = p
  · rw [hpp, update_self, hq, List.filter_append, List.filter_cons_of_neg
      (by simp), ← List.filter_append]
    exact hkeep _ htd
  · rw [update_of_ne hpp]
    refine hkeep _ (h.not_mem (Ne.symm hpp) ?_)
    rw [hq]
    exact List.mem_append_right _ List.mem_cons_self

omit [DecidableEq ι] in
theorem filter_none : (fun p => (q p).filter (some · ≠ (none : Option ι))) = q := by
  funext p
  rw [List.filter_eq_self]
  intro i _
  rfl

/-- The pick of the whole list: of the first queue that has one. -/
def pick (cur : Nat) (choose : (ι → Taskdescr) → List ι → Option ι)
    (d : ι → Taskdescr) (q : Nat → List ι) : Option ι :=
  (priorities cur).findSome? fun p => choose d (q p)

omit [DecidableEq ι] in
/-- The scan serves the first queue with a descriptor. -/
theorem serves_pick {accepts : Taskdescr → Prop} {arch : Nat}
    (hfinds : ∀ d l, Finds accepts arch d l (choose d l)) (h : WellFormed s q) (cur : Nat) :
    Serves cur arch accepts s.heap q (pick cur choose (descr s.heap) q) := by
  cases hpick : pick cur choose (descr s.heap) q with
  | none =>
    unfold pick at hpick
    rw [List.findSome?_eq_none_iff] at hpick
    intro p td htd
    have hf := hfinds (descr s.heap) (q p)
    rw [hpick p (mem_priorities (h.lt htd))] at hf
    exact hf td htd
  | some td =>
    unfold pick at hpick
    rw [List.findSome?_eq_some_iff] at hpick
    obtain ⟨ps₁, p, ps₂, hps, hc, hbefore⟩ := hpick
    have hf := hfinds (descr s.heap) (q p)
    rw [hc] at hf
    refine ⟨p, h.lt hf.1, hf.1, hf.2, fun p' hp' td' htd' => ?_⟩
    have hmem : p' ∈ ps₁ ++ p :: ps₂ := hps ▸ mem_priorities (h.lt htd')
    have hpair := priorities_pairwise cur
    rw [hps, List.pairwise_append, List.pairwise_cons] at hpair
    rcases List.mem_append.mp hmem with hmem | hmem
    · have hf' := hfinds (descr s.heap) (q p')
      rw [hbefore p' hmem] at hf'
      exact hf' td' htd'
    · rcases List.mem_cons.mp hmem with rfl | hmem
      · exact absurd hp' hp'.asymm
      · exact absurd hp' (hpair.2.1.1 p' hmem).asymm

/-- What a pop or a steal leaves behind. -/
structure TookOut (s s' : Readytasklist ι) (q : Nat → List ι) (r : Option ι) :
    Prop where
  vals : SameVals s.heap s'.heap
  frame : ∀ i, (∀ p, i ∉ q p) → s'.heap i = s.heap i
  wellFormed : WellFormed s' fun p => (q p).filter (some · ≠ r)

theorem TookOut.refl (h : WellFormed s q) : TookOut s s q none := by
  refine ⟨SameVals.refl _, fun _ _ => rfl, ?_⟩
  rw [filter_none]
  exact h

/-- The loop takes the descriptor out of that queue. -/
theorem serveFirst_spec {one : OneSt ι → Option (Option ι × OneSt ι)}
    (hone : OneTakes one choose) (h : WellFormed s q) {ps : List Nat}
    (hps : ∀ p ∈ ps, p < numPriority) :
    ∃ r s', serveFirst one ps s = some (r, s')
      ∧ r = (ps.findSome? fun p => choose (descr s.heap) (q p))
      ∧ TookOut s s' q r := by
  induction ps with
  | nil => exact ⟨none, s, rfl, rfl, TookOut.refl h⟩
  | cons p ps ih =>
    have hprl : s.prl p = ⟨(s.prl p).ends, (q p).length⟩ := by
      rw [← h.size p]
    rcases hone s.heap (s.prl p).ends (q p) (h.isList p) with
      ⟨hc, s₁, hr⟩ | ⟨td, l₁, l₂, h', e', hc, hq, hr, hl', hv, ha⟩
    · obtain ⟨r, s', hserve, hres, htook⟩ :=
        ih fun p' hp' => hps p' (List.mem_cons_of_mem p hp')
      refine ⟨r, s', ?_, ?_, htook⟩
      · rw [serveFirst, hprl, hr]
        exact hserve
      · rw [List.findSome?_cons, hc]
        exact hres
    · have hset := h.setOne (hps p List.mem_cons_self) (s.cntTasks - 1) hl' hv ha
        (fun i hi => (h.priority p i hi).2) (fun i hi => h.priority p i (by
          rw [hq]
          rcases List.mem_append.mp hi with hi | hi
          · exact List.mem_append_left _ hi
          · exact List.mem_append_right _ (List.mem_cons_of_mem td hi)))
        (by
          rw [hq, List.length_append, List.length_append, List.length_cons]
          omega)
      refine ⟨some td, { s.setOne p (h', ⟨e', (l₁ ++ l₂).length⟩) with
          cntTasks := s.cntTasks - 1 }, ?_, ?_, hv, fun i hi => ha i (hi p), ?_⟩
      · rw [serveFirst, hprl, hr]
        rfl
      · rw [List.findSome?_cons, hc]
      · rw [h.filter_eq hq]
        exact hset

/-- The whole loop, behind its fast check of the count. -/
theorem serve_spec {one : OneSt ι → Option (Option ι × OneSt ι)}
    (hone : OneTakes one choose) (hmem : ∀ d l td, choose d l = some td → td ∈ l)
    (h : WellFormed s q) (cur : Nat) :
    ∃ s', (if s.cntTasks = 0 then some (none, s)
        else Readytasklist.prioLoop one (getPriorityRange cur).1
          (getPriorityRange cur).2.2 (numPriority + 1) (getPriorityRange cur).2.1 s)
        = some (pick cur choose (descr s.heap) q, s')
      ∧ TookOut s s' q (pick cur choose (descr s.heap) q) := by
  split
  next hcnt =>
    have hempty : ∀ p, q p = [] := by
      intro p
      by_cases hp : p < numPriority
      · have hsum := h.cnt
        rw [hcnt] at hsum
        have hzero := (Finset.sum_eq_zero_iff_of_nonneg
          (fun p _ => Int.natCast_nonneg (q p).length)).mp hsum.symm p
          (Finset.mem_range.mpr hp)
        exact List.length_eq_zero_iff.mp (Int.natCast_eq_zero.mp hzero)
      · exact h.range p (Nat.le_of_not_lt hp)
    have hpick : pick cur choose (descr s.heap) q = none := by
      unfold pick
      rw [List.findSome?_eq_none_iff]
      intro p _
      cases hc : choose (descr s.heap) (q p) with
      | none => rfl
      | some td =>
        have htd := hmem _ _ _ hc
        rw [hempty p] at htd
        exact absurd htd List.not_mem_nil
    rw [hpick]
    exact ⟨s, rfl, TookOut.refl h⟩
  next =>
    rw [prioLoop_eq]
    obtain ⟨r, s', hserve, rfl, htook⟩ :=
      serveFirst_spec hone h fun p (hp : p ∈ priorities cur) => priorities_lt hp
    exact ⟨s', hserve, htook⟩

/-- What kaapi_readylist_pop returns. -/
theorem pop_spec (h : WellFormed s q) (arch : Nat) :
    ∃ s', s.pop arch = some (pick arch (choosePop arch) (descr s.heap) q, s')
      ∧ TookOut s s' q (pick arch (choosePop arch) (descr s.heap) q) :=
  serve_spec (onereadytasklistPop_takes arch)
    (mem_of_finds (choosePop_finds arch)) h arch

/-- What kaapi_readylist_steal returns. -/
theorem steal_spec (h : WellFormed s q) (affinity : StealAffinity) (cur : Nat)
    (thief : Thief ι) :
    ∃ s', s.steal affinity cur thief
        = some (pick cur (affinity.choose thief) (descr s.heap) q, s')
      ∧ TookOut s s' q (pick cur (affinity.choose thief) (descr s.heap) q) :=
  serve_spec (onereadytasklistSteal_takes affinity thief)
    (mem_of_finds (choose_finds affinity thief)) h cur

end all

-- ======== ledger

section ledger

variable {s : St ι} {q : Nat → List ι} {l : Readytasklist ι}

/-- A descriptor that was returned is in no queue. -/
theorem Ledger.not_mem (h : Ledger s q) {td : ι}
    (hfresh : s.log.count (.pushed td) = s.log.count (.returned td)) :
    td ∉ q (descr s.list.heap td).priority := by
  intro hmem
  have htd := h td
  rw [if_pos hmem] at htd
  omega

/-- The log after a push. -/
theorem Ledger.pushed (h : Ledger s q) {td : ι} {q' : Nat → List ι}
    (hfresh : s.log.count (.pushed td) = s.log.count (.returned td))
    (hv : SameVals s.list.heap l.heap)
    (hq : ∀ i, i ∈ q' (descr s.list.heap i).priority
      ↔ i = td ∨ i ∈ q (descr s.list.heap i).priority) :
    Ledger ⟨l, s.log ++ [.pushed td]⟩ q' := by
  intro i
  show (s.log ++ [Event.pushed td]).count (.pushed i)
    = (s.log ++ [Event.pushed td]).count (.returned i)
      + if i ∈ q' (descr l.heap i).priority then 1 else 0
  have hi := h i
  rw [descr_congr hv, List.count_append, List.count_append,
    List.count_singleton, List.count_singleton]
  by_cases hit : i = td
  · subst hit
    rw [if_neg (h.not_mem hfresh)] at hi
    rw [if_pos (beq_self_eq_true _), if_pos ((hq i).mpr (.inl rfl))]
    simpa using hi
  · have hne : ¬ (Event.pushed td == Event.pushed i) = true := by
      rw [beq_iff_eq]
      exact fun he => hit (Event.pushed.inj he).symm
    have hiff : i ∈ q' (descr s.list.heap i).priority
        ↔ i ∈ q (descr s.list.heap i).priority :=
      (hq i).trans (or_iff_right hit)
    simp only [hne, hiff, hi]
    simp

/-- The log after an answer. -/
theorem Ledger.answered (h : Ledger s q) {r : Option ι}
    (hv : SameVals s.list.heap l.heap)
    (hr : ∀ td, r = some td → td ∈ q (descr s.list.heap td).priority) :
    Ledger ⟨l, s.log ++ [.ofAnswer r]⟩ (fun p => (q p).filter (some · ≠ r)) := by
  intro i
  show (s.log ++ [Event.ofAnswer r]).count (.pushed i)
    = (s.log ++ [Event.ofAnswer r]).count (.returned i)
      + if i ∈ (q (descr l.heap i).priority).filter (some · ≠ r) then 1 else 0
  have hi := h i
  rw [descr_congr hv, List.count_append, List.count_append,
    List.count_singleton, List.count_singleton]
  by_cases hir : r = some i
  · subst hir
    rw [if_pos (hr i rfl)] at hi
    have hnot : i ∉ (q (descr s.list.heap i).priority).filter
        (some · ≠ some i) := by
      rw [List.mem_filter]
      simp
    rw [if_neg hnot]
    simpa [Event.ofAnswer] using hi
  · have hiff : i ∈ (q (descr s.list.heap i).priority).filter (some · ≠ r)
        ↔ i ∈ q (descr s.list.heap i).priority := by
      rw [List.mem_filter]
      exact and_iff_left (decide_eq_true (Ne.symm hir))
    have hne : ¬ (Event.ofAnswer r == Event.returned i) = true := by
      rw [beq_iff_eq]
      intro he
      cases r with
      | none => cases he
      | some td => exact hir (congrArg some (Event.returned.inj he))
    have hne' : ¬ (Event.ofAnswer r == Event.pushed i) = true := by
      rw [beq_iff_eq]
      intro he
      cases r with
      | none => cases he
      | some td => cases he
    simp only [hne, hne', hiff, hi]
    simp

end ledger

-- ======== runs

omit [DecidableEq ι] in
theorem mem_update_iff {q : Nat → List ι} {h : Heap ι Taskdescr} {td : ι}
    {l : List ι} (hl : ∀ i, i ∈ l ↔ i = td ∨ i ∈ q (descr h td).priority) (i : ι) :
    i ∈ update q (descr h td).priority l (descr h i).priority
      ↔ i = td ∨ i ∈ q (descr h i).priority := by
  by_cases hp : (descr h i).priority = (descr h td).priority
  · rw [hp, update_self]
    exact hl i
  · rw [update_of_ne hp]
    refine (or_iff_right ?_).symm
    intro heq
    subst heq
    exact hp rfl

omit [DecidableEq ι] in
theorem Serves.mem {s : Readytasklist ι} {q : Nat → List ι}
    (hwf : WellFormed s q) {cur arch : Nat} {accepts : Taskdescr → Prop}
    {r : Option ι} (h : Serves cur arch accepts s.heap q r) (td : ι)
    (hr : r = some td) : td ∈ q (descr s.heap td).priority := by
  subst hr
  obtain ⟨p, -, htd, -⟩ := h
  rwa [(hwf.priority p td htd).2]

/-- Every operation does what it should. -/
theorem step_spec {op : Op ι} {s : St ι} (h : Good s) (hfresh : Fresh op s) :
    ∃ s', step op s = some s' ∧ Right op s s' ∧ Good s' := by
  obtain ⟨q, hwf, hledger⟩ := h
  cases op with
  | push td =>
    obtain ⟨⟨n, hn, hp⟩, hcount⟩ := hfresh
    rw [← descr_of_some hn] at hp
    have htd := hledger.not_mem hcount
    obtain ⟨l, hpush, hv, hwf'⟩ := hwf.push (by rw [hn]; rfl) hp htd
    refine ⟨⟨l, s.log ++ [.pushed td]⟩, ?_, ⟨q, hwf, rfl, hwf'⟩, _, hwf',
      hledger.pushed hcount hv (mem_update_iff fun i => List.mem_cons)⟩
    show (s.list.push td).map _ = _
    rw [hpush]
    rfl
  | remotePush td =>
    obtain ⟨⟨n, hn, hp⟩, hcount⟩ := hfresh
    rw [← descr_of_some hn] at hp
    have htd := hledger.not_mem hcount
    obtain ⟨l, hpush, hv, hwf'⟩ := hwf.remotePush (by rw [hn]; rfl) hp htd
    refine ⟨⟨l, s.log ++ [.pushed td]⟩, ?_, ⟨q, hwf, rfl, hwf'⟩, _, hwf',
      hledger.pushed hcount hv (mem_update_iff fun i => ?_)⟩
    · show (s.list.remotePush td).map _ = _
      rw [hpush]
      rfl
    · rw [List.mem_append, List.mem_singleton]
      exact or_comm
  | pop arch =>
    obtain ⟨l, hpop, htook⟩ := pop_spec hwf arch
    have hserves := serves_pick (choosePop_finds arch) hwf arch
    revert hpop htook hserves
    generalize pick arch (choosePop arch) (descr s.list.heap) q = r
    intro hpop htook hserves
    refine ⟨⟨l, s.log ++ [.ofAnswer r]⟩, ?_,
      ⟨q, hwf, r, rfl, hserves, htook.wellFormed⟩, _, htook.wellFormed,
      hledger.answered htook.vals (hserves.mem hwf)⟩
    show (s.list.pop arch).map _ = _
    rw [hpop]
    rfl
  | steal affinity cur thief =>
    obtain ⟨l, hsteal, htook⟩ := steal_spec hwf affinity cur thief
    have hserves := serves_pick (choose_finds affinity thief) hwf cur
    revert hsteal htook hserves
    generalize pick cur (affinity.choose thief) (descr s.list.heap) q = r
    intro hsteal htook hserves
    refine ⟨⟨l, s.log ++ [.ofAnswer r]⟩, ?_,
      ⟨q, hwf, r, rfl, hserves, htook.wellFormed⟩, _, htook.wellFormed,
      hledger.answered htook.vals (hserves.mem hwf)⟩
    show (s.list.steal affinity cur thief).map _ = _
    rw [hsteal]
    rfl

/-- A ready list as it is initialised. -/
def St.init (heap : Heap ι Taskdescr) : St ι := ⟨.init heap, []⟩

omit [DecidableEq ι] in
theorem wellFormed_init (heap : Heap ι Taskdescr) :
    WellFormed (.init heap) fun _ => [] := by
  refine ⟨fun _ => isList_nil heap, fun _ => rfl,
    fun p td htd => absurd htd List.not_mem_nil, fun _ _ => rfl, ?_⟩
  show (0 : Int) = _
  simp

/-- The empty lists. -/
theorem good_init (heap : Heap ι Taskdescr) : Good (St.init heap) :=
  ⟨fun _ => [], wellFormed_init heap, fun _ => rfl⟩

/-- Every run in which descriptors are pushed only while they are in no
list: it goes through, every call does and answers what it has to, and
no descriptor is lost or duplicated. -/
theorem ready_list_runs (heap : Heap ι Taskdescr) (ops : List (Op ι))
    (hfresh : StepMachine.Along step Fresh ops (St.init heap)) :
    StepMachine.Along step (fun op s => Good s ∧ ∃ s', step op s = some s'
        ∧ Right op s s') ops (St.init heap)
      ∧ ∃ s, StepMachine.run step ops (St.init heap) = some s ∧ Good s := by
  have hgood := good_init heap
  revert hgood hfresh
  generalize St.init heap = s
  induction ops generalizing s with
  | nil => exact fun _ hgood => ⟨trivial, s, rfl, hgood⟩
  | cons op ops ih =>
    rintro ⟨hfresh, hrest⟩ hgood
    obtain ⟨s', hstep, hright, hgood'⟩ := step_spec hgood hfresh
    obtain ⟨halong, s'', hrun, hgood''⟩ := ih s' (hrest s' hstep) hgood'
    refine ⟨⟨⟨hgood, s', hstep, hright⟩, fun t ht => ?_⟩, s'',
      (StepMachine.run_cons_eq_some).mpr ⟨s', hstep, hrun⟩, hgood''⟩
    rw [hstep] at ht
    cases ht
    exact halong

/-- Descriptor `i` has priority `i`; 1 is a static scheduling task for GPUs
only, the others have a body everywhere. -/
def someDescrs (i : Nat) : Option (Node Nat Taskdescr) :=
  some ⟨⟨i, true, if i = 1 then 4 else 0, fun _ => true, i == 1, 0⟩, none, none⟩

/-- A thief that knows nothing of the data. -/
def cpuThief : Thief Nat := ⟨1, fun _ => 0, fun _ => false⟩

theorem ready_list_runs_push :
    StepMachine.Along step (fun op s => Good s ∧ ∃ s', step op s = some s'
        ∧ Right op s s') [.push 3, .pop 1] (St.init someDescrs)
      ∧ ∃ s, StepMachine.run step [.push 3, .pop 1] (St.init someDescrs) = some s
        ∧ Good s :=
  ready_list_runs someDescrs [.push 3, .pop 1]
    ⟨⟨⟨_, rfl, by decide⟩, rfl⟩, fun _ _ => ⟨trivial, fun _ _ => trivial⟩⟩

/-- A GPU pops priority 0 before priority 7, and a CPU steals a static
scheduling task that is for GPUs only. -/
theorem low_first_and_static :
    ((StepMachine.run step [.push 0, .push 7, .pop procTypeCuda]
        (St.init someDescrs)).map St.log
      = some [.pushed 0, .pushed 7, .returned 0]
      ∧ (descr someDescrs 7).priority = 7
      ∧ (descr someDescrs 7).eligible procTypeCuda = true)
    ∧ (StepMachine.run step [.push 1, .steal .first 1 cpuThief]
        (St.init someDescrs)).map St.log
      = some [.pushed 1, .returned 1]
      ∧ (descr someDescrs 1).eligible cpuThief.arch = false := by
  refine ⟨⟨?_, rfl, by decide⟩, ?_, by decide⟩
  · rfl
  · rfl

end XKaapi.ReadyList
