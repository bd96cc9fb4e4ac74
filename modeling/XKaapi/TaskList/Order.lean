/-
Ordering of conflicting accesses in the graph of a task list.

A version remembers the last task that wrote its datum, and every access
gets an edge from that task alone. So the graph between tasks is exactly
the relation "`k` accesses a datum last written by `i`" (`edge_iff`):
readers leave no trace in a version, and a writer is not ordered after
the readers of the value it overwrites, although
`kaapi_thread_computeready_access` says it serialises WAR dependencies.
A write after a read is ordered only when some chain of other
dependencies happens to order it.

`ordered_iff` is the resulting characterisation: all conflicts of a frame
are ordered by the graph iff there are none, or no access is CW (which
the builder has no code for) and every reader of a datum is linked by
such a chain to every later writer of it.
-/
import XKaapi.TaskList.Graph

namespace XKaapi.TaskList

open Dfg Activation Relation

-- ======== statements

/-- Task `k` makes the shared access `p`. -/
def AccessOf (tasks : List Task) (k : Nat) (p : Param) : Prop :=
  ∃ t, tasks[k]? = some t ∧ p ∈ t.getD [] ∧ p.shared = true

/-- Task `k` writes datum `a`. -/
def WriteOf (tasks : List Task) (k : Nat) (a : Addr) : Prop :=
  ∃ p, AccessOf tasks k p ∧ p.data = a ∧ p.writes = true

/-- The tasks access one datum and one of them writes it, two CW apart. -/
def Conflict (tasks : List Task) (i j : Nat) : Prop :=
  ∃ p q, AccessOf tasks i p ∧ AccessOf tasks j q ∧ p.data = q.data
    ∧ (p.writes = true ∨ q.writes = true) ∧ ¬ (p.m = modeCW ∧ q.m = modeCW)

/-- One activation link. -/
def Edge (tl : FrameTasklist) (u v : TdId) : Prop := v ∈ (tl.td u).acl

/-- Any two conflicting tasks of the frame are linked by a path of the
graph that is built for it. -/
def Ordered (tasks : List Task) : Prop :=
  ∀ i j, i < j → Conflict tasks i j →
    ∃ tl, computereadylist tasks = some tl
      ∧ TransGen (Edge tl) (.task i) (.task j)

/-- Every parameter of every task has one of the five DFG modes. -/
def DfgModes (tasks : List Task) : Prop :=
  ∀ t ∈ tasks, ∀ p ∈ t.getD [], p.IsDfgMode

/-- No task makes a CW access. -/
def NoCW (tasks : List Task) : Prop :=
  ∀ k p, AccessOf tasks k p → p.m ≠ modeCW

/-- Task `k` accesses a datum that task `i` is the last to write before
it. -/
def Dep (tasks : List Task) (i k : Nat) : Prop :=
  i < k ∧ ∃ p, AccessOf tasks k p ∧ WriteOf tasks i p.data
    ∧ ∀ j, i < j → j < k → ¬ WriteOf tasks j p.data

/-- A task that only reads a datum is linked by dependencies to every
later task that writes it. -/
def ReadersCovered (tasks : List Task) : Prop :=
  ∀ i j p, i < j → AccessOf tasks i p → ¬ WriteOf tasks i p.data →
    WriteOf tasks j p.data → TransGen (Dep tasks) i j

-- ======== accesses, writes

variable {p : Param}

theorem accessOf_iff {tasks : List Task} {k : Nat} :
    AccessOf tasks k p ↔ (k, p) ∈ events 0 tasks := by
  rw [mem_events_iff]
  constructor
  · intro ⟨t, ht, hp⟩
    exact ⟨k, t, ht, (Nat.zero_add k).symm, hp⟩
  · intro ⟨j, t, ht, hj, hp⟩
    have hkj : k = j := by
      simp only at hj
      omega
    exact ⟨t, hkj ▸ ht, hp⟩

theorem setsWriter_eq (hp : p.IsDfgMode) (hcw : p.m ≠ modeCW) :
    accessSetsWriter p = p.writes := by
  rcases hp with h | h | h | h | h
  · rw [accessSetsWriter, Param.writes, h]
    decide
  · rw [accessSetsWriter, Param.writes, h]
    decide
  · rw [accessSetsWriter, Param.writes, h]
    decide
  · rw [accessSetsWriter, Param.writes, h]
    decide
  · exact absurd h hcw

theorem hasCode_iff (hp : p.IsDfgMode) (hs : p.shared = true) :
    accessHasCode p = true ↔ p.m ≠ modeCW := by
  rcases hp.cases_shared hs with h | h | h | h
    <;> rw [accessHasCode, h] <;> decide

section Frame

variable {tasks : List Task} (hmodes : DfgModes tasks)
include hmodes

theorem AccessOf.isDfgMode {k : Nat} {p : Param}
    (h : AccessOf tasks k p) : p.IsDfgMode := by
  obtain ⟨t, ht, hp, -⟩ := h
  exact hmodes t (List.mem_of_getElem? ht) p hp

theorem built_iff_noCW :
    (∃ tl, computereadylist tasks = some tl) ↔ NoCW tasks := by
  rw [computereadylist_isSome]
  constructor
  · intro h k p hp
    obtain ⟨-, -, -, hs⟩ := id hp
    exact (hasCode_iff (hp.isDfgMode hmodes) hs).mp
      (h (k, p) (accessOf_iff.mp hp))
  · intro h e he
    have hp : AccessOf tasks e.1 e.2 := accessOf_iff.mpr he
    obtain ⟨-, -, -, hs⟩ := id hp
    exact (hasCode_iff (hp.isDfgMode hmodes) hs).mpr (h e.1 e.2 hp)

theorem writeOf_iff (hcw : NoCW tasks) {k : Nat} {a : Addr} :
    WriteOf tasks k a ↔ ∃ e ∈ events 0 tasks, e.1 = k ∧ e.2.data = a
      ∧ accessSetsWriter e.2 = true := by
  constructor
  · intro ⟨p, hp, hdata, hw⟩
    refine ⟨(k, p), accessOf_iff.mp hp, rfl, hdata, ?_⟩
    rw [setsWriter_eq (hp.isDfgMode hmodes) (hcw k p hp)]
    exact hw
  · intro h
    obtain ⟨e, he, rfl, hdata, hw⟩ := h
    have hp : AccessOf tasks e.1 e.2 := accessOf_iff.mpr he
    refine ⟨e.2, hp, hdata, ?_⟩
    rwa [← setsWriter_eq (hp.isDfgMode hmodes) (hcw e.1 e.2 hp)]

end Frame

-- ======== the edges

theorem le_lastWriter {evs : List Event} (hsorted : Sorted evs) {a : Addr}
    {i : Nat} (h : lastWriter evs a = some i) {e : Event} (he : e ∈ evs)
    (hdata : e.2.data = a) (hw : accessSetsWriter e.2 = true) : e.1 ≤ i := by
  obtain ⟨e₁, he₁, rfl⟩ := Option.map_eq_some_iff.mp h
  obtain ⟨-, pre, post, heq, hpre⟩ := List.find?_eq_some_iff_append.mp he₁
  have hevs : evs = post.reverse ++ e₁ :: pre.reverse := by
    rw [← List.reverse_reverse evs, heq]
    simp
  rw [hevs, List.mem_append, List.mem_cons] at he
  rcases he with he | rfl | he
  · rw [hevs, Sorted] at hsorted
    exact (List.pairwise_append.mp hsorted).2.2 e he e₁ List.mem_cons_self
  · exact Nat.le_refl _
  · have := hpre e (List.mem_reverse.mp he)
    simp [hdata, hw] at this

theorem mem_prefix_of_lt {pre post : List Event} {e x : Event}
    (hsorted : Sorted (pre ++ e :: post)) (hx : x ∈ pre ++ e :: post)
    (hlt : x.1 < e.1) : x ∈ pre := by
  rcases List.mem_append.mp hx with hx | hx
  · exact hx
  · rcases List.mem_cons.mp hx with rfl | hx
    · exact absurd hlt (Nat.lt_irrefl _)
    · have hpost := (List.pairwise_append.mp hsorted).2.1
      have hle := (List.pairwise_cons.mp hpost).1 x hx
      exact absurd hlt (Nat.not_lt.mpr hle)

section Frame

variable {tasks : List Task} (hmodes : DfgModes tasks) {tl : FrameTasklist}
  (htl : computereadylist tasks = some tl)
include hmodes htl

/-- Between tasks, the graph is the dependency on the last writer. -/
theorem edge_iff {i k : Nat} :
    Edge tl (.task i) (.task k) ↔ Dep tasks i k := by
  obtain ⟨opened, h⟩ := computereadylist_spec htl
  have hsorted := events_sorted 0 tasks
  have hcw := (built_iff_noCW hmodes).mp ⟨tl, htl⟩
  have hwrite := fun k a => writeOf_iff hmodes hcw (k := k) (a := a)
  rw [Edge, h.edges]
  constructor
  · rintro ⟨pre, e, ⟨post, hpost⟩, hu, hv, hne⟩
    rw [List.append_assoc, List.singleton_append] at hpost
    cases hv
    have hmem : ∀ x ∈ pre, x ∈ events 0 tasks := fun x hx =>
      hpost ▸ List.mem_append_left _ hx
    have he : e ∈ events 0 tasks :=
      hpost ▸ List.mem_append_right _ List.mem_cons_self
    have hlast : lastWriter pre e.2.data = some i := by
      cases hl : lastWriter pre e.2.data with
      | none => simp [writerOf, hl] at hu
      | some i' =>
        rw [writerOf, hl] at hu
        injection hu with hu
        rw [hu]
    obtain ⟨e', he', rfl, hdata, hw⟩ := lastWriter_eq_some hlast
    rw [← hpost] at hsorted
    have hle : e'.1 ≤ e.1 :=
      (List.pairwise_append.mp hsorted).2.2 e' he' e List.mem_cons_self
    have hlt : e'.1 < e.1 := by
      refine lt_of_le_of_ne hle fun heq => hne ?_
      rw [heq]
    refine ⟨hlt, e.2, accessOf_iff.mpr he,
      (hwrite _ _).mpr ⟨e', hmem e' he', rfl, hdata, hw⟩, ?_⟩
    intro j hij hjk hj
    obtain ⟨x, hx, rfl, hxd, hxw⟩ := (hwrite _ _).mp hj
    have hxpre : x ∈ pre :=
      mem_prefix_of_lt hsorted (hpost.symm ▸ hx) hjk
    have hpre := (List.pairwise_append.mp hsorted).1
    have := le_lastWriter hpre hlast hxpre hxd hxw
    omega
  · rintro ⟨hik, p, hp, hw, hbetween⟩
    -- the task's first access to the datum is the one that links it
    have hsome : ((events 0 tasks).find? fun e =>
        e.1 == k && e.2.data == p.data).isSome := by
      rw [List.find?_isSome]
      exact ⟨(k, p), accessOf_iff.mp hp, by simp⟩
    obtain ⟨e, hfind⟩ := Option.isSome_iff_exists.mp hsome
    obtain ⟨he, pre, post, hpost, hpre⟩ :=
      List.find?_eq_some_iff_append.mp hfind
    simp only [Bool.and_eq_true, beq_iff_eq] at he
    have hfirst : ∀ x ∈ pre, x.2.data = p.data → x.1 ≠ k := by
      intro x hx hxd hxk
      have := hpre x hx
      simp [hxd, hxk] at this
    obtain ⟨x, hx, rfl, hxd, hxw⟩ := (hwrite _ _).mp hw
    have hxpre : x ∈ pre :=
      mem_prefix_of_lt (hpost ▸ hsorted) (hpost ▸ hx) (he.1 ▸ hik)
    have hlast : lastWriter pre p.data = some x.1 := by
      cases hl : lastWriter pre p.data with
      | none =>
        have := lastWriter_eq_none hl hxpre hxd
        rw [hxw] at this
        cases this
      | some i' =>
        obtain ⟨y, hy, rfl, hyd, hyw⟩ := lastWriter_eq_some hl
        rw [hpost] at hsorted
        have hpw := List.pairwise_append.mp hsorted
        have hle : x.1 ≤ y.1 := le_lastWriter hpw.1 hl hxpre hxd hxw
        have hyk : y.1 ≤ e.1 := hpw.2.2 y hy e List.mem_cons_self
        have hyne := hfirst y hy hyd
        by_contra hne
        have hlt : x.1 < y.1 :=
          lt_of_le_of_ne hle fun heq => hne (by rw [heq])
        refine hbetween y.1 hlt (by omega)
          ((hwrite _ _).mpr ⟨y, ?_, rfl, hyd, hyw⟩)
        exact hpost ▸ List.mem_append_left _ hy
    refine ⟨pre, e, ⟨post, by rw [hpost]; simp⟩, ?_, by rw [he.1], ?_⟩
    · rw [he.2, writerOf, hlast]
    · intro heq
      injection heq with heq
      omega

theorem path_iff {i k : Nat} :
    TransGen (Edge tl) (.task i) (.task k) ↔ TransGen (Dep tasks) i k := by
  constructor
  · intro hpath
    have hall : ∀ v, TransGen (Edge tl) (.task i) v →
        ∃ k, v = .task k ∧ TransGen (Dep tasks) i k := by
      intro v hv
      obtain ⟨opened, h⟩ := computereadylist_spec htl
      induction hv with
      | single hedge =>
        obtain ⟨pre, e, -, -, rfl, -⟩ := (h.edges _ _).mp hedge
        exact ⟨e.1, rfl, TransGen.single ((edge_iff hmodes htl).mp hedge)⟩
      | tail _ hedge ih =>
        obtain ⟨j, rfl, hj⟩ := ih
        obtain ⟨pre, e, -, -, rfl, -⟩ := (h.edges _ _).mp hedge
        exact ⟨e.1, rfl, hj.tail ((edge_iff hmodes htl).mp hedge)⟩
    obtain ⟨k', heq, hk'⟩ := hall _ hpath
    injection heq with heq
    exact heq ▸ hk'
  · intro hpath
    exact TransGen.lift TdId.task
      (fun _ _ hdep => (edge_iff hmodes htl).mpr hdep) _ _ hpath

end Frame

-- ======== the conflicts

theorem dep_of_writeOf {tasks : List Task} {n i j : Nat} (hn : j - i ≤ n) (hij : i < j)
    (hw : WriteOf tasks i p.data) (hp : ∃ q, AccessOf tasks j q ∧ q.data = p.data) :
    TransGen (Dep tasks) i j := by
  induction n generalizing i j with
  | zero => omega
  | succ n ih =>
    by_cases hmid : ∃ l, i < l ∧ l < j ∧ WriteOf tasks l p.data
    · obtain ⟨l, hil, hlj, hl⟩ := hmid
      have hlacc : ∃ q, AccessOf tasks l q ∧ q.data = p.data := by
        obtain ⟨q, hq, hqd, -⟩ := hl
        exact ⟨q, hq, hqd⟩
      exact (ih (by omega) hil hw hlacc).trans (ih (by omega) hlj hl hp)
    · obtain ⟨q, hq, hqd⟩ := hp
      refine TransGen.single ⟨hij, q, hq, by rwa [hqd], ?_⟩
      intro l hil hlj hl
      rw [hqd] at hl
      exact hmid ⟨l, hil, hlj, hl⟩

/-- The conflicts of a frame are ordered by its graph iff there are none,
or no access is CW and every reader is linked to every later writer of
its datum. -/
theorem ordered_iff (tasks : List Task) (hmodes : DfgModes tasks) :
    Ordered tasks ↔ (∀ i j, i < j → ¬ Conflict tasks i j)
      ∨ NoCW tasks ∧ ReadersCovered tasks := by
  constructor
  · intro hord
    by_cases hany : ∃ i j, i < j ∧ Conflict tasks i j
    · obtain ⟨i, j, hij, hconf⟩ := hany
      obtain ⟨tl, htl, -⟩ := hord i j hij hconf
      have hcw := (built_iff_noCW hmodes).mp ⟨tl, htl⟩
      refine .inr ⟨hcw, fun i j p hij hp _ hw => ?_⟩
      obtain ⟨q, hq, hqd, hqw⟩ := hw
      obtain ⟨tl', htl', hpath⟩ := hord i j hij
        ⟨p, q, hp, hq, hqd.symm, .inr hqw, fun h => hcw i p hp h.1⟩
      exact (path_iff hmodes htl').mp hpath
    · exact .inl fun i j hij hconf => hany ⟨i, j, hij, hconf⟩
  · rintro (hnone | ⟨hcw, hcovered⟩)
    · exact fun i j hij hconf => absurd hconf (hnone i j hij)
    · rintro i j hij ⟨p, q, hp, hq, hdata, hw, -⟩
      obtain ⟨tl, htl⟩ := (built_iff_noCW hmodes).mpr hcw
      refine ⟨tl, htl, (path_iff hmodes htl).mpr ?_⟩
      by_cases hwi : WriteOf tasks i p.data
      · exact dep_of_writeOf (Nat.le_refl _) hij hwi ⟨q, hq, hdata.symm⟩
      · -- the earlier task only reads, so the later one writes
        have hqw : q.writes = true := by
          refine hw.resolve_left fun hpw => hwi ⟨p, hp, rfl, hpw⟩
        exact hcovered i j p hij hp hwi ⟨q, hq, hdata.symm, hqw⟩

/-- A writer of datum 0, a reader of it, and a writer again. -/
def writeReadWrite : List Task :=
  [some [⟨modeW, 0⟩], some [⟨modeR, 0⟩], some [⟨modeW, 0⟩]]

theorem ordered_iff_writeReadWrite :
    Ordered writeReadWrite ↔ (∀ i j, i < j → ¬ Conflict writeReadWrite i j)
      ∨ NoCW writeReadWrite ∧ ReadersCovered writeReadWrite :=
  ordered_iff writeReadWrite (by unfold DfgModes; decide)

/-- A reader of datum 0 and, after it, a writer of datum 0. -/
def readThenWrite : List Task := [some [⟨modeR, 0⟩], some [⟨modeW, 0⟩]]

/-- The writer is not ordered after the reader it conflicts with. -/
theorem not_ordered_readThenWrite : ¬ Ordered readThenWrite := by
  intro hord
  obtain ⟨tl, htl, hpath⟩ := hord 0 1 (by decide)
    ⟨⟨modeR, 0⟩, ⟨modeW, 0⟩, ⟨_, rfl, by decide, by decide⟩,
      ⟨_, rfl, by decide, by decide⟩, rfl, by decide, by decide⟩
  have hacl : ∃ tl, computereadylist readThenWrite = some tl
      ∧ (tl.td (.task 0)).acl = [] := ⟨_, rfl, rfl⟩
  obtain ⟨tl', htl', hnil⟩ := hacl
  rw [htl] at htl'
  cases htl'
  -- no link leaves the reader
  obtain ⟨v, hfirst, -⟩ := TransGen.head'_iff.mp hpath
  rw [Edge, hnil] at hfirst
  cases hfirst

end XKaapi.TaskList
