/-
The tasks pushed by the tasks of a task list.

The loop of `kaapi_thread_execframe_tasklist` copies its frame for the body
it runs, and is meant to execute what the body has pushed there before it
pops the copy and activates the successors. It decides by comparing `fp->sp`
with `stack->sfp->sp`, but `fp` is what `stack->sfp` was set to: the tasks
pushed are dropped with the copy (`childrenFirst_iff`). For the same
reason the execution of such tasks never blocks, so that no turn is left
between a body and the activation of its successors.
-/
import XKaapi.TaskList.StaticFrame

namespace XKaapi.TaskList.Static

open Dfg StepMachine

variable (stackExecframe : Thread → Option (Thread × Answer)) (a : Nat)

/-- A turn over the list at `a`, for tasks that only push tasks. -/
def childStep (id : TdId) (th : Thread) : Option Thread :=
  (turn stackExecframe userBody a id th).map Prod.fst

/-- The turn runs the task of the descriptor and all that is pushed below
it, does not block, and pushes the activation list of the descriptor
once. -/
def ChildrenFirst (id : TdId) (th : Thread) : Prop :=
  ∀ r, turn stackExecframe userBody a id th = some r →
    (∃ log, r.1.executed = th.executed ++ log
        ∧ log.Perm (namesOf th.frame.tasks id))
      ∧ r.2 = .done ∧ execTd id (th.lists a) = some (r.1.lists a)

/-- The task of the descriptor pushes no task. -/
def Leaf (id : TdId) (th : Thread) : Prop :=
  MeetsAt (fun t => t.kids = []) th.frame.tasks id

variable {stackExecframe : Thread → Option (Thread × Answer)} {a : Nat}
  {id : TdId} {th th' : Thread}

theorem turn_returns {r : Thread × Answer}
    (h : turn stackExecframe userBody a id th = some r) :
    r.1.returns = th.returns := by
  unfold turn at h
  split at h
  · obtain ⟨r₁, h₁, h₂⟩ := Option.bind_eq_some_iff.mp h
    rw [runTd_eq userBody_ran] at h₁
    split at h₁
    case isFalse => cases h₁
    obtain ⟨th₁, hrun, rfl⟩ := Option.map_eq_some_iff.mp h₁
    obtain ⟨tl, -, rfl⟩ := Option.map_eq_some_iff.mp h₂
    show th₁.returns = th.returns
    cases id with
    | init b =>
      cases hrun
      rfl
    | task k =>
      simp only [runBody] at hrun
      split at hrun
      · cases hrun
      · split at hrun
        case isFalse => cases hrun
        cases hrun
        rfl
  · cases h

theorem childrenFirst_iff (ha : a < th.brk)
    (h : childStep stackExecframe a id th = some th') :
    ChildrenFirst stackExecframe a id th ↔ Leaf id th := by
  obtain ⟨r, hr, -⟩ := Option.map_eq_some_iff.mp h
  obtain ⟨hdone, hexec, -, -, log, rs, hturn⟩ := turn_spec userBody_ran ha hr
  -- nothing has been run but the task of the descriptor
  constructor
  · intro hfirst
    obtain ⟨⟨log', hlog', hperm⟩, -⟩ := hfirst r hr
    have hlog : log' = log :=
      List.append_cancel_left (hlog'.symm.trans hturn.executed)
    have hrs : rs = [] := by
      have hsame := hturn.returns.symm.trans (turn_returns hr)
      exact List.append_right_eq_self.mp hsame
    refine hturn.of_full ?_ (fun r hr => ?_) id List.mem_cons_self
    · rw [List.flatMap_singleton, ← hperm.length_eq, hlog]
    · rw [hrs] at hr
      cases hr
  · intro hleaf r' hr'
    rw [hr] at hr'
    cases hr'
    obtain ⟨hperm, -⟩ := hturn.of_meets fun id' hid' =>
      List.mem_singleton.mp hid' ▸ hleaf
    rw [List.flatMap_singleton] at hperm
    exact ⟨⟨log, hturn.executed, hperm⟩, hdone, hexec⟩

/-- The children of every task of a run are executed before the frame made
for it is popped and before its successors are activated, and these are
activated once, iff no task of the run pushes one. -/
theorem along_childrenFirst_iff {ids : List TdId} (ha : a < th.brk)
    (hrun : run (childStep stackExecframe a) ids th = some th') :
    Along (childStep stackExecframe a) (ChildrenFirst stackExecframe a) ids th
      ↔ ∀ id ∈ ids, Leaf id th := by
  induction ids generalizing th with
  | nil => exact ⟨fun _ => List.forall_mem_nil _, fun _ => trivial⟩
  | cons id ids ih =>
    obtain ⟨th₁, hstep, hrest⟩ := (run_cons_eq_some).mp hrun
    obtain ⟨r, hr, hr₁⟩ := Option.map_eq_some_iff.mp hstep
    obtain ⟨-, -, -, -, log, rs, hturn⟩ := turn_spec userBody_ran ha hr
    rw [hr₁] at hturn
    have hframe : th₁.frame = th.frame := by
      rw [Thread.frame, hturn.sfp]
      exact hturn.frames _ (Nat.le_refl _)
    have hleaf : ∀ id', Leaf id' th₁ ↔ Leaf id' th := by
      intro id'
      rw [Leaf, Leaf, hframe]
    have ih := ih (ha.trans_le hturn.brk) hrest
    rw [List.forall_mem_cons, ← childrenFirst_iff ha hstep]
    constructor
    · rintro ⟨hfirst, halong⟩
      exact ⟨hfirst, fun id' hid' =>
        (hleaf id').mp (ih.mp (halong th₁ hstep) id' hid')⟩
    · rintro ⟨hfirst, hids⟩
      refine ⟨hfirst, fun th₂ hth₂ => ?_⟩
      rw [hstep] at hth₂
      injection hth₂ with hth₂
      exact hth₂ ▸ ih.mpr fun id' hid' => (hleaf id').mpr (hids id' hid')

-- ======== cases

/-- A frame of tasks whose list is about to be executed. -/
def oneFrame (ts : List Spawn) : Thread :=
  { idle with
    stackframe := fun _ => { pc := 0, tasks := ts, tasklist := some 0 }
    lists := fun _ =>
      ((computereadylist (ts.map fun t => t.val.params)).getD
        frameTasklistInit).tasklistreadyPushInit
    brk := 1 }

/-- A reader that pushes `kids`. -/
def reader (kids : List Spawn) : Spawn :=
  .node ⟨false, 1, some [⟨modeR, 0⟩], 0, true, true, true⟩ kids

/-- A reader that pushes nothing, after the task that allocates its
datum. -/
theorem along_childrenFirst_reader :
    Along (childStep (fun _ => none) 0) (ChildrenFirst (fun _ => none) 0)
        [.init 0, .task 0] (oneFrame [reader []]) := by
  refine (along_childrenFirst_iff
    (show 0 < (oneFrame [reader []]).brk from Nat.zero_lt_one)
    (show run (childStep (fun _ => none) 0) [.init 0, .task 0]
      (oneFrame [reader []]) = some _ from rfl)).mpr fun id _ k t _ ht => ?_
  have hmem : t ∈ [reader []] := List.mem_of_getElem? ht
  rw [List.mem_singleton.mp hmem]
  rfl

/-- A task pushed by a reader is never run. -/
theorem childrenFirst_fails :
    ∃ th₁ th₂, childStep (fun _ => none) 0 (.init 0)
          (oneFrame [reader [reader []]]) = some th₁
      ∧ childStep (fun _ => none) 0 (.task 0) th₁ = some th₂
      ∧ th₂.executed = [1] ∧ (th₂.lists 0).cntExec = (th₂.lists 0).totalTasks
      ∧ ¬ ChildrenFirst (fun _ => none) 0 (.task 0) th₁ := by
  refine ⟨_, _, rfl, rfl, rfl, rfl, fun hfirst => ?_⟩
  obtain ⟨⟨log, hlog, hperm⟩, -⟩ := hfirst _ rfl
  have hlen := congrArg List.length hlog
  rw [List.length_append, hperm.length_eq] at hlen
  exact absurd hlen (by decide)

end XKaapi.TaskList.Static
