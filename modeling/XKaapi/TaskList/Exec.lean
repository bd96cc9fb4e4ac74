/-
Execution of a task list (src/thread/kaapi_thread_execframe_tasklist.c):
a ready descriptor is popped, its body runs, its activation list is
signalled, and descriptors whose counter is complete become ready.

The ready list is pushed with the initial tasks by
`kaapi_thread_tasklistready_push_init`, and `kaapi_readylist_pop` takes
any descriptor of it (priorities, processor types and remote queues
choose which; a bag with an arbitrary pop covers every choice).

`execTd` is the counter-driven execution of `XKaapi.Lib.Activation` on the
graph of the task list (`execTd_step`), so `Built` is all there is to
check. It fails in one place: a descriptor with wait counter 0 that is
not an initial task is in no ready list. `kaapi_thread_computedep_task`
means to put it there but pushes the activation list of the descriptor
instead (`ExecutesAll` fails, exactly for tasks without a shared
parameter: `executesAll_iff`).
-/
import XKaapi.TaskList.Graph

namespace XKaapi.TaskList

open Dfg Activation StepMachine

-- ======== code

namespace FrameTasklist

variable (tl : FrameTasklist)

/-- `kaapi_thread_tasklistready_push_init`: push the initial ready list,
each descriptor at the head. -/
def tasklistreadyPushInit : FrameTasklist :=
  { tl with rtl := tl.readylist.reverse ++ tl.rtl }

end FrameTasklist

/-- One turn of the loop of `kaapi_thread_execframe_tasklist` that pops
descriptor `id`: run its body, then push what it activates. -/
def execTd (id : TdId) (tl : FrameTasklist) : Option FrameTasklist :=
  if id ∈ tl.rtl then
    FrameTasklist.pushactivated
      { tl with
        rtl := tl.rtl.erase id
        executed := tl.executed ++ [id]
        cntExec := tl.cntExec + 1 } id
  else none

/-- No descriptor of the list is lost or run twice: whatever is popped,
in whatever order, no body runs twice and no signal is undefined; the
execution comes to an end; and at the end every descriptor has run and
`cnt_exec` has reached `total_tasks`. -/
def ExecutesAll (tl : FrameTasklist) : Prop :=
  ∀ (ids : List TdId) (tl' : FrameTasklist),
    run execTd ids tl.tasklistreadyPushInit = some tl' →
      tl'.executed.Nodup
      ∧ (∀ id ∈ tl'.rtl, ∃ tl'', execTd id tl' = some tl'')
      ∧ (∃ more tl'', run execTd more tl' = some tl'' ∧ tl''.rtl = [])
      ∧ (tl'.rtl = [] → tl'.executed.Perm tl.tds ∧ tl'.cntExec = tl.totalTasks)

-- ======== the simulation

namespace FrameTasklist

variable (tl : FrameTasklist)

/-- The execution state, read as one of `XKaapi.Lib.Activation`. -/
def state : State TdId where
  ready := tl.rtl
  counter := fun u => (tl.td u).counter
  done := tl.executed

/-- What an execution never changes. -/
def Frame (tl' : FrameTasklist) : Prop :=
  tl'.graph = tl.graph ∧ tl'.totalTasks = tl.totalTasks
    ∧ tl'.cntExec + tl.executed.length = tl.cntExec + tl'.executed.length

theorem Frame.refl : tl.Frame tl := ⟨rfl, rfl, rfl⟩

variable {tl}

theorem Frame.trans {tl₁ tl₂ : FrameTasklist} (h : tl.Frame tl₁)
    (h' : tl₁.Frame tl₂) : tl.Frame tl₂ :=
  ⟨h'.1.trans h.1, h'.2.1.trans h.2.1, by
    have h₁ := h.2.2
    have h₂ := h'.2.2
    omega⟩

theorem graph_setCounter (tl : FrameTasklist) (id : TdId) (c : Nat) :
    (tl.setTd id { tl.td id with counter := c }).graph = tl.graph := by
  simp only [graph, setTd]
  congr 1
  · funext u
    by_cases hu : u = id
    · subst hu
      simp
    · simp [hu]
  · funext u
    by_cases hu : u = id
    · subst hu
      simp
    · simp [hu]

theorem pushIfActivated_eq (id : TdId) (tl : FrameTasklist) :
    (tl.pushIfActivated id).map state = signal tl.graph.wait id tl.state
      ∧ ∀ tl', tl.pushIfActivated id = some tl' → tl.Frame tl' := by
  by_cases hwc : (tl.td id).wc = 0
  · have hwait : tl.graph.wait id = 0 := hwc
    simp [pushIfActivated, signal, hwc, hwait]
  · have hwait : tl.graph.wait id ≠ 0 := hwc
    rw [signal, if_neg hwait]
    simp only [pushIfActivated, if_neg hwc]
    constructor
    · have hcounter : ∀ c, (fun u => ((tl.setTd id
          { tl.td id with counter := c }).td u).counter)
          = Function.update (fun u => (tl.td u).counter) id c := by
        intro c
        funext u
        by_cases hu : u = id
        · subst hu
          simp [setTd]
        · simp [setTd, hu]
      simp only [Option.map_some, state, graph, hcounter]
      rfl
    · intro tl' h
      cases h
      exact ⟨graph_setCounter tl id _, rfl, rfl⟩

theorem pushFromActivationlist_eq (ids : List TdId) (tl : FrameTasklist) :
    (pushFromActivationlist ids tl).map state
        = signals tl.graph.wait ids tl.state
      ∧ ∀ tl', pushFromActivationlist ids tl = some tl' → tl.Frame tl' := by
  induction ids generalizing tl with
  | nil =>
    refine ⟨rfl, fun tl' h => ?_⟩
    injection h with h
    exact h ▸ Frame.refl tl
  | cons id rest ih =>
    obtain ⟨h₁, h₂⟩ := pushIfActivated_eq id tl
    rw [pushFromActivationlist, signals, ← h₁]
    cases hstep : tl.pushIfActivated id with
    | none =>
      refine ⟨rfl, fun tl' h => ?_⟩
      cases h
    | some tl₁ =>
      have hframe := h₂ tl₁ hstep
      obtain ⟨h₃, h₄⟩ := ih tl₁
      rw [hframe.1] at h₃
      exact ⟨h₃, fun tl' h => hframe.trans (h₄ tl' h)⟩

end FrameTasklist

theorem execTd_step (id : TdId) (tl : FrameTasklist) :
    (execTd id tl).map FrameTasklist.state
        = Activation.step tl.graph id tl.state
      ∧ ∀ tl', execTd id tl = some tl' → tl.Frame tl' := by
  rw [execTd, Activation.step]
  by_cases hid : id ∈ tl.rtl
  · have hready : id ∈ tl.state.ready := hid
    rw [if_pos hid, if_pos hready]
    let tl₁ : FrameTasklist := { tl with
      rtl := tl.rtl.erase id
      executed := tl.executed ++ [id]
      cntExec := tl.cntExec + 1 }
    obtain ⟨h₁, h₂⟩ :=
      FrameTasklist.pushFromActivationlist_eq (tl₁.td id).acl tl₁
    have hframe : tl.Frame tl₁ := by
      refine ⟨rfl, rfl, ?_⟩
      simp only [tl₁, List.length_append, List.length_singleton]
      omega
    exact ⟨h₁, fun tl' h => hframe.trans (h₂ tl' h)⟩
  · have hready : id ∉ tl.state.ready := hid
    rw [if_neg hid, if_neg hready]
    refine ⟨rfl, fun tl' h => ?_⟩
    cases h

variable {ids : List TdId} {tl' tl : FrameTasklist} {tasks : List Task}

theorem run_execTd (hrun : run execTd ids tl = some tl') :
    run (Activation.step tl.graph) ids tl.state = some tl'.state
      ∧ tl.Frame tl' := by
  induction ids generalizing tl with
  | nil =>
    injection hrun with h
    subst h
    exact ⟨rfl, FrameTasklist.Frame.refl tl⟩
  | cons id ids ih =>
    obtain ⟨tl₁, hstep, hrest⟩ := run_cons_eq_some.mp hrun
    obtain ⟨h₁, h₂⟩ := execTd_step id tl
    have hframe := h₂ tl₁ hstep
    obtain ⟨h₃, h₄⟩ := ih hrest
    rw [hframe.1] at h₃
    refine ⟨run_cons_eq_some.mpr ⟨tl₁.state, ?_, h₃⟩, hframe.trans h₄⟩
    rw [← h₁, hstep]
    rfl

theorem run_execTd_of_run {s : State TdId}
    (hrun : run (Activation.step tl.graph) ids tl.state = some s) :
    ∃ tl', run execTd ids tl = some tl' ∧ tl'.state = s := by
  induction ids generalizing tl with
  | nil =>
    injection hrun with h
    exact ⟨tl, rfl, h⟩
  | cons id ids ih =>
    obtain ⟨s₁, hstep, hrest⟩ := run_cons_eq_some.mp hrun
    obtain ⟨h₁, h₂⟩ := execTd_step id tl
    rw [← h₁, Option.map_eq_some_iff] at hstep
    obtain ⟨tl₁, htl₁, rfl⟩ := hstep
    rw [← (h₂ tl₁ htl₁).1] at hrest
    obtain ⟨tl', htl', hs⟩ := ih hrest
    exact ⟨tl', run_cons_eq_some.mpr ⟨tl₁, htl₁, htl'⟩, hs⟩

-- ======== the graph is well formed

section Built

variable {ks : List Nat} {opened : Set Addr} {evs : List Event}
  {tl : FrameTasklist}

/-- Position of a descriptor along every edge: initial tasks first, then
the tasks in order. -/
def rank : TdId → Nat
  | .init _ => 0
  | .task k => k + 1

section

variable (h : Built ks opened evs tl)
include h

theorem Built.rank_lt (hsorted : Sorted evs) {u v : TdId} (huv : v ∈ (tl.td u).acl) :
    rank u < rank v := by
  obtain ⟨pre, e, hpre, hu, hv, hne⟩ := (h.edges u v).mp huv
  rcases writerOf_cases pre e.2.data with ⟨e', he', hw, -⟩ | hw
  · have hpw := hsorted.sublist hpre.sublist
    have hle : e'.1 ≤ e.1 :=
      (List.pairwise_append.mp hpw).2.2 e' he' e List.mem_cons_self
    have hnei : e'.1 ≠ e.1 := by
      intro heq
      apply hne
      rw [hu, hw, hv, heq]
    rw [hu, hw, hv, rank, rank]
    omega
  · rw [hu, hw, hv, rank, rank]
    omega

theorem Built.wc_init (a : Addr) : (tl.td (.init a)).wc = 0 := by
  have hwait := h.balanced.wait_eq (.init a)
  simp only [FrameTasklist.graph] at hwait
  rw [hwait, List.count_eq_zero, Graph.sent, List.mem_flatMap]
  rintro ⟨u, _, hu⟩
  obtain ⟨pre, e, -, -, hv, -⟩ := (h.edges u _).mp hu
  cases hv

/-- A task waits for something iff it makes an access. -/
theorem Built.wc_task_eq_zero {k : Nat} :
    (tl.td (.task k)).wc = 0 ↔ ∀ e ∈ evs, e.1 ≠ k := by
  have hwait := h.balanced.wait_eq (.task k)
  simp only [FrameTasklist.graph] at hwait
  rw [hwait, List.count_eq_zero, Graph.sent, List.mem_flatMap]
  constructor
  · intro hno e he hek
    -- the task's first access finds a writer that is not the task
    have hsome : (evs.find? fun e => e.1 == k).isSome := by
      rw [List.find?_isSome]
      exact ⟨e, he, by simpa using hek⟩
    obtain ⟨e₁, he₁⟩ := Option.isSome_iff_exists.mp hsome
    obtain ⟨hk₁, pre, post, heq, hpre⟩ :=
      List.find?_eq_some_iff_append.mp he₁
    rw [beq_iff_eq] at hk₁
    have hsub : ∀ x ∈ pre, x ∈ evs := fun x hx =>
      heq ▸ List.mem_append_left _ hx
    have hwriter : writerOf pre e₁.2.data ∈ tl.tds
        ∧ writerOf pre e₁.2.data ≠ .task k := by
      rcases writerOf_cases pre e₁.2.data with ⟨e', he', hw, -⟩ | hw
      · rw [hw]
        refine ⟨(h.task_mem _).mpr (h.ev_opened e' (hsub e' he')).1, ?_⟩
        have := hpre e' he'
        simpa using this
      · rw [hw]
        refine ⟨(h.init_mem _).mpr (h.ev_opened e₁ ?_).2, by simp⟩
        rw [heq]
        exact List.mem_append_right _ List.mem_cons_self
    refine hno ⟨writerOf pre e₁.2.data, hwriter.1, ?_⟩
    refine (h.edges _ _).mpr ⟨pre, e₁, ?_, rfl, by rw [hk₁], hwriter.2⟩
    rw [heq]
    exact ⟨post, by simp⟩
  · rintro hno ⟨u, -, hu⟩
    obtain ⟨pre, e, hpre, -, hv, -⟩ := (h.edges u _).mp hu
    injection hv with hv
    exact hno e (hpre.subset (List.mem_append_right _ List.mem_cons_self))
      hv.symm

theorem Built.wellFormed (hsorted : Sorted evs) :
    WellFormed tl.graph tl.readylist.reverse where
  balanced := h.balanced
  ranked := ⟨rank, fun _ _ _ huv => h.rank_lt hsorted huv⟩
  pool_nodup := List.nodup_reverse.mpr h.ready_nodup
  pool_nodes v hv := by
    obtain ⟨a, ha, rfl⟩ := (h.ready_mem v).mp (List.mem_reverse.mp hv)
    exact (h.init_mem a).mpr ha
  pool_wait v hv := by
    obtain ⟨a, -, rfl⟩ := (h.ready_mem v).mp (List.mem_reverse.mp hv)
    exact h.wc_init a

theorem Built.state_init :
    tl.tasklistreadyPushInit.state = start tl.readylist.reverse := by
  simp only [FrameTasklist.state, FrameTasklist.tasklistreadyPushInit,
    start, h.idle.1, h.idle.2.1, List.append_nil]
  congr 1
  funext u
  exact h.counter u

end

theorem Built.inv_execTd {tasks : List Task}
    (h : Built ks opened (events 0 tasks) tl) {ids : List TdId}
    {tl' : FrameTasklist}
    (hrun : run execTd ids tl.tasklistreadyPushInit = some tl') :
    Activation.Inv tl.graph tl.readylist.reverse tl'.state
      ∧ tl.tasklistreadyPushInit.Frame tl' ∧ tl'.executed = ids := by
  have hgraph : tl.tasklistreadyPushInit.graph = tl.graph := rfl
  obtain ⟨h₁, h₂⟩ := run_execTd hrun
  rw [hgraph, h.state_init] at h₁
  refine ⟨inv_run (h.wellFormed (events_sorted 0 tasks)) h₁, h₂, ?_⟩
  have hdone := run_done h₁
  rw [start, List.nil_append] at hdone
  exact hdone

end Built

-- ======== the execution

/-- What has been popped at some point of an execution: each descriptor
once, and only tasks with a format and a parameter that is not by value. -/
theorem popped_spec (htl : computereadylist tasks = some tl)
    (hrun : run execTd ids tl.tasklistreadyPushInit = some tl') :
    ids.Nodup ∧ (∀ id ∈ ids, id ∈ tl.tds) ∧ tl'.cntExec = ids.length
      ∧ tl'.totalTasks = tl.tds.length
      ∧ ∀ k, .task k ∈ ids → ∃ params, tasks[k]? = some (some params)
        ∧ ∃ p ∈ params, p.m ≠ modeV := by
  obtain ⟨opened, h⟩ := computereadylist_spec htl
  obtain ⟨hi, ⟨-, htotal, hcnt⟩, hids⟩ := h.inv_execTd hrun
  have hwf := h.wellFormed (events_sorted 0 tasks)
  have hdone : tl'.state.done = ids := hids
  have hmem : ∀ id ∈ ids, id ∈ tl'.state.done ++ tl'.state.ready := by
    intro id hid
    exact List.mem_append_left _ (hdone ▸ hid)
  refine ⟨?_, fun id hid => mem_nodes hwf hi (hmem id hid), ?_,
    htotal.trans h.total, fun k hk => ?_⟩
  · exact hdone ▸ (List.nodup_append.mp hi.nodup).1
  · simp only [FrameTasklist.tasklistreadyPushInit, h.idle.2.1, h.idle.2.2,
      List.length_nil] at hcnt
    rw [← hids]
    omega
  · obtain ⟨j, params, hj, hkj⟩ := mem_formatted_iff.mp
      ((h.task_mem k).mp (mem_nodes hwf hi (hmem _ hk)))
    rw [Nat.zero_add] at hkj
    subst hkj
    refine ⟨params, hj, ?_⟩
    -- the descriptor was signalled, so its task has an access
    have hwc : (tl.td (.task k)).wc ≠ 0 := by
      rcases (hi.mem_iff (.task k)).mp (hmem _ hk) with hpool | ⟨hpos, -⟩
      · obtain ⟨a, -, heq⟩ := (h.ready_mem _).mp (List.mem_reverse.mp hpool)
        cases heq
      · exact Nat.ne_of_gt hpos
    by_contra hv
    refine hwc (h.wc_task_eq_zero.mpr ?_)
    rintro e he hek
    obtain ⟨j, u, hu, hj', hp, hs⟩ := mem_events_iff.mp he
    have hjk : j = k := by omega
    subst hjk
    rw [hj] at hu
    cases hu
    exact hv ⟨e.2, hp, by simpa [Param.shared] using hs⟩

/-- Whatever has been popped, a descriptor of the ready list can be executed
next. -/
theorem exists_execTd (htl : computereadylist tasks = some tl)
    (hrun : run execTd ids tl.tasklistreadyPushInit = some tl') {id : TdId}
    (hid : id ∈ tl'.rtl) : ∃ tl'', execTd id tl' = some tl'' := by
  obtain ⟨opened, h⟩ := computereadylist_spec htl
  obtain ⟨hi, ⟨hg, -⟩, -⟩ := h.inv_execTd hrun
  have hgraph : tl'.graph = tl.graph := hg
  obtain ⟨s, hs, -, -⟩ := step_spec (h.wellFormed (events_sorted 0 tasks)) hi (u := id) hid
  obtain ⟨h₁, -⟩ := execTd_step id tl'
  rw [hgraph, hs, Option.map_eq_some_iff] at h₁
  obtain ⟨tl'', htl'', -⟩ := h₁
  exact ⟨tl'', htl''⟩

/-- When every task with a format has a parameter that is not by value,
a descriptor waits for something or is ready at the start. -/
theorem Built.ready_of_wait {opened : Set Addr}
    (h : Built (formatted 0 tasks) opened (events 0 tasks) tl)
    (hshared : ∀ t ∈ tasks, ∀ params, t = some params → ∃ p ∈ params, p.m ≠ modeV)
    {v : TdId} (hv : v ∈ tl.tds) (hw : (tl.td v).wc = 0) : v ∈ tl.readylist := by
  rw [h.ready_mem]
  cases v with
  | init a => exact ⟨a, (h.init_mem a).mp hv, rfl⟩
  | task k =>
    -- a task in the list has an access, hence waits
    exfalso
    obtain ⟨j, params, hj, hkj⟩ :=
      mem_formatted_iff.mp ((h.task_mem k).mp hv)
    rw [Nat.zero_add] at hkj
    subst hkj
    obtain ⟨p, hp, hpv⟩ := hshared _ (List.mem_of_getElem? hj) params rfl
    refine h.wc_task_eq_zero.mp hw (k, p) ?_ rfl
    rw [mem_events_iff]
    exact ⟨k, some params, hj, (Nat.zero_add k).symm, hp,
      by simpa [Param.shared] using hpv⟩

/-- No task of a task list is lost or run twice iff every task with a
format has a parameter that is not by value. -/
theorem executesAll_iff {tasks : List Task} {tl : FrameTasklist}
    (htl : computereadylist tasks = some tl) :
    ExecutesAll tl ↔ ∀ t ∈ tasks, ∀ params, t = some params →
      ∃ p ∈ params, p.m ≠ modeV := by
  obtain ⟨opened, h⟩ := computereadylist_spec htl
  have hwf := h.wellFormed (events_sorted 0 tasks)
  have hgraph : tl.tasklistreadyPushInit.graph = tl.graph := rfl
  have hinv : ∀ ids tl', run execTd ids tl.tasklistreadyPushInit = some tl' →
      Activation.Inv tl.graph tl.readylist.reverse tl'.state
        ∧ tl.tasklistreadyPushInit.Frame tl' := by
    intro ids tl' hrun
    obtain ⟨h₁, h₂, -⟩ := h.inv_execTd hrun
    exact ⟨h₁, h₂⟩
  have hdrain : ∀ tl', Activation.Inv tl.graph tl.readylist.reverse tl'.state →
      tl'.graph = tl.graph →
      ∃ more tl'', run execTd more tl' = some tl'' ∧ tl''.rtl = [] := by
    intro tl' hi hg
    obtain ⟨more, s, hrun, hempty⟩ := exists_drained hwf hi
    rw [← hg] at hrun
    obtain ⟨tl'', htl'', rfl⟩ := run_execTd_of_run hrun
    exact ⟨more, tl'', htl'', hempty⟩
  constructor
  · rintro hall t ht params rfl
    obtain ⟨k, hk⟩ := List.mem_iff_getElem?.mp ht
    have hmem : .task k ∈ tl.tds := by
      rw [h.task_mem, mem_formatted_iff]
      exact ⟨k, params, hk, (Nat.zero_add k).symm⟩
    obtain ⟨-, -, ⟨more, tl', hrun, hempty⟩, -⟩ := hall [] _ rfl
    obtain ⟨-, -, -, hend⟩ := hall more tl' hrun
    have hdone : .task k ∈ more := by
      rw [← (h.inv_execTd hrun).2.2]
      exact (hend hempty).1.mem_iff.mpr hmem
    obtain ⟨params', hk', hp⟩ := (popped_spec htl hrun).2.2.2.2 k hdone
    rw [hk] at hk'
    injection hk' with hk'
    injection hk' with hk'
    exact hk' ▸ hp
  · intro hshared ids tl' hrun
    obtain ⟨hi, hg, htotal, hcnt⟩ := hinv ids tl' hrun
    rw [hgraph] at hg
    refine ⟨(List.nodup_append.mp hi.nodup).1, fun id hid => ?_,
      hdrain tl' hi hg, fun hempty => ?_⟩
    · exact exists_execTd htl hrun hid
    · have hperm : tl'.executed.Perm tl.tds := by
        refine run_complete hwf hi hempty fun v hv hw => ?_
        exact List.mem_reverse.mpr (h.ready_of_wait hshared hv hw)
      refine ⟨hperm, ?_⟩
      have hlen := hperm.length_eq
      simp only [FrameTasklist.tasklistreadyPushInit, h.idle.2.1,
        h.idle.2.2, List.length_nil] at hcnt
      rw [h.total, ← hlen]
      omega

/-- A reader and a writer of datum 0. -/
def readWrite : List Task := [some [⟨modeR, 0⟩], some [⟨modeW, 0⟩]]

theorem executesAll_readWrite :
    ∃ tl, computereadylist readWrite = some tl ∧ ExecutesAll tl := by
  refine ⟨_, rfl, (executesAll_iff
    (rfl : computereadylist readWrite = some _)).mpr ?_⟩
  simp [readWrite, Param.m, getMode, modeR, modeW, modeV, maskMode]

/-- A task with no parameter at all gets a descriptor that never runs. -/
theorem not_executesAll_noParam :
    ∃ tl, computereadylist [some []] = some tl ∧ ¬ ExecutesAll tl := by
  refine ⟨_, rfl, fun hall => ?_⟩
  obtain ⟨-, -, -, hend⟩ := hall [] _ rfl
  have := (hend rfl).2
  cases this

end XKaapi.TaskList
