/-
The sequences of QUARK and the frames of the master thread
(api/quark/quark_xkaapi.c).

`QUARK_Sequence_Create` pushes a frame and makes the thread unstealable,
each `QUARK_Sequence_Wait` (and `QUARK_Waitall` inside a sequence) builds the
task list of the top frame, executes it and pops the frame, and
`QUARK_Sequence_Destroy` does neither. So a sequence leaves the stack as it
was if and only if it waits exactly once, no task is inserted after that, and
every task has a dependency (`sequences_ok_iff`):

- without a wait the frame stays, and its tasks are not executed;
- a second wait pops a frame that was there before the sequence, the first
  one of the stack included;
- a task inserted after the wait is pushed into the frame below;
- a task whose arguments are all values, NODEP or SCRATCH gets a descriptor
  that no other one signals and that is in no ready list: `cnt_exec` does not
  reach `total_tasks`, and the wait does not return (`waitTasklist_isSome_iff`).

What is restored in any case is the stealable state.

The tasks are the cells of the task stack, counted in the direction it grows.
Their bodies push no tasks, and no function is registered with
`QUARK_Task_Set_Function_Params`, so that every task may run on a CPU. A
frame keeps its `tasklist` field when it is popped and pushed again. The ready
list is popped by any policy (`Scheduler`), which stands for the thieves too.
-/
import Mathlib.Data.List.Nodup
import Mathlib.Data.List.Range
import Mathlib.Tactic.IntervalCases
import XKaapi.Lib.Run
import XKaapi.Quark.Insert
import XKaapi.Task.Execframe
import XKaapi.TaskList.Sequential

namespace XKaapi.Quark

open Dfg (Addr Param getMode modeV)
open StepMachine (run run_append_eq_some run_cons_eq_some run_preserves)
open TaskList (FrameTasklist TdId computereadylist computereadylistFrom execTd
  frameTasklistInit)
open Function (update update_idem update_of_ne update_self)
open Task.Execframe (maxReccall)

-- ======== the tasks

/-- The arguments of a task that `QUARK_Insert_Task` accepts: at most as many
as its record has room for. -/
structure Args where
  args : List (Direction × Addr)
  bound : args.length ≤ MAX_PARAMQUARK
deriving DecidableEq, Repr

/-- The parameters in the record, as the format of QUARK gives them
(`Encoded.mode`, `Encoded.pointer`). -/
def Args.params (a : Args) : List Param := a.args.map fun p => ⟨p.1.mode, p.2⟩

/-- One of the arguments is an INPUT, an OUTPUT or an INOUT. -/
def Args.Depends (a : Args) : Prop :=
  ∃ p ∈ a.args, p.1 = .input ∨ p.1 = .output ∨ p.1 = .inout

/-- A task: the ones inserted are numbered, the others were there before, with
the parameters their format gives, if they have one. -/
inductive Task (α : Type*)
  | old (a : α) (params : TaskList.Task)
  | inserted (n : Nat) (args : Args)
deriving DecidableEq

/-- The number of an inserted task. -/
def Task.number {α : Type*} : Task α → Option Nat
  | .old _ _ => none
  | .inserted n _ => some n

/-- What the analysis is given of a task. -/
def Task.params {α : Type*} : Task α → TaskList.Task
  | .old _ params => params
  | .inserted _ args => some args.params

/-- The numbers of the inserted tasks of a list. -/
def numbers {α : Type*} (ts : List (Task α)) : List Nat := ts.filterMap Task.number

-- ======== the state

def QUARK_SEQUENCE_INIT : BitVec 32 := 0x1
def QUARK_SEQUENCE_FREE : BitVec 32 := 0x2
def QUARK_SEQUENCE_TASKLIST_INIT : BitVec 32 := 0x4

/-- `kaapi_frame_t`, `tasklist` telling the sequence it is the list of. -/
structure Frame where
  pc : Nat
  sp : Nat
  tasklist : Option Nat
deriving DecidableEq, Repr

/-- `kaapi_quark_sequence_t` -/
structure QuarkSequence where
  stateInit : BitVec 32
  saveState : Nat
  saveFp : Frame
  frameTasklist : FrameTasklist

/-- The thread of the master, its `XKaapi_Quark` and the sequences. -/
structure State (α : Type*) where
  stackframe : Nat → Frame
  sfp : Nat
  task : Nat → Task α
  unstealable : Nat
  -- `quark->sequence` and `last_qs_free`
  sequence : Option Nat
  lastQsFree : Option Nat
  seqs : Nat → QuarkSequence
  -- where `malloc` goes on, and the number of the next task
  brk : Nat
  next : Nat
  executed : List (Task α)

-- ======== the execution of a task list

/-- Which descriptor of a ready list is taken next. -/
structure Scheduler where
  pop : FrameTasklist → TdId
  pop_mem : ∀ tl, tl.rtl ≠ [] → pop tl ∈ tl.rtl

/-- The loop of `kaapi_thread_execframe_tasklist`, until nothing is ready. -/
def execTasklist (sched : Scheduler) : Nat → FrameTasklist → Option FrameTasklist
  | 0, _ => none
  | fuel + 1, tl =>
    if tl.rtl = [] then some tl
    else (execTd (sched.pop tl) tl).bind (execTasklist sched fuel)

/-- `kaapi_thread_execframe_tasklist` as `kaapi_sched_sync_` calls it: again
and again until every descriptor has been executed, for ever if one is not. -/
def waitTasklist (sched : Scheduler) (tl : FrameTasklist) : Option FrameTasklist :=
  (execTasklist sched (tl.tds.length + 1) tl).filter fun tl => tl.cntExec = tl.totalTasks

/-- The tasks of the descriptors of a list. -/
def tasksOf {α : Type*} (ts : List (Task α)) (ids : List TdId) : List (Task α) :=
  (ids.filterMap TdId.task?).filterMap (ts[·]?)

namespace State

variable {α : Type*} (s : State α)

def top : Frame := s.stackframe s.sfp

/-- The tasks of a frame. -/
def pending (f : Frame) : List (Task α) :=
  (List.range (f.sp - f.pc)).map fun i => s.task (f.pc + i)

def setTop (f : Frame) : State α :=
  { s with stackframe := update s.stackframe s.sfp f }

def setSeq (q : Nat) (qs : QuarkSequence) : State α :=
  { s with seqs := update s.seqs q qs }

-- ======== the calls

/-- `kaapi_thread_push_frame_` -/
def pushFrame : State α :=
  { s with
    stackframe := update s.stackframe (s.sfp + 1)
      { s.stackframe (s.sfp + 1) with
        pc := s.top.sp
        sp := s.top.sp }
    sfp := s.sfp + 1 }

/-- `kaapi_thread_pop_frame_`; undefined on the first frame. -/
def popFrame : Option (State α) :=
  if s.sfp = 0 then none else some { s with sfp := s.sfp - 1 }

/-- `kaapi_sched_sync_`, which executes the tasks of a frame without a list in
their order. -/
def schedSync (sched : Scheduler) : Option (State α) :=
  let f := s.top
  if f.tasklist = none ∧ f.pc = f.sp then some s
  else
    match f.tasklist with
    | none =>
      some { s.setTop { f with sp := f.pc } with executed := s.executed ++ s.pending f }
    | some q =>
      (waitTasklist sched (s.seqs q).frameTasklist).map fun tl =>
        { (s.setTop { f with sp := f.pc }).setSeq q { s.seqs q with frameTasklist := tl } with
          executed := s.executed ++ tasksOf (s.pending f) tl.executed }

/-- `QUARK_Insert_Task`: the task goes into the top frame. -/
def insertTask (args : Args) : State α :=
  { s.setTop { s.top with sp := s.top.sp + 1 } with
    task := update s.task s.top.sp (.inserted s.next args)
    next := s.next + 1 }

/-- The cached sequence, or a new one. -/
def takeSequence : Nat × QuarkSequence × State α :=
  match s.lastQsFree with
  | some q =>
    let qs := s.seqs q
    (q, { qs with stateInit := qs.stateInit &&& ~~~QUARK_SEQUENCE_FREE },
      { s with lastQsFree := none })
  | none => (s.brk, { s.seqs s.brk with stateInit := 0 }, { s with brk := s.brk + 1 })

/-- `QUARK_Sequence_Create` -/
def sequenceCreate : Nat × State α :=
  let (q, qs, s) := s.takeSequence
  let qs := { qs with
    saveState := s.unstealable
    saveFp := s.top
    stateInit := qs.stateInit ||| QUARK_SEQUENCE_INIT }
  (q, { (s.setSeq q qs).pushFrame with
    unstealable := 1
    sequence := some q })

/-- The first part of a wait: the list of the tasks of the top frame is built,
its ready list filled, and the thread gets its stealable state back. -/
def buildTasklist (q : Nat) : Option (State α) :=
  let qs := s.seqs q
  let tl :=
    if qs.stateInit &&& QUARK_SEQUENCE_TASKLIST_INIT = 0 then frameTasklistInit
    else qs.frameTasklist
  (computereadylistFrom 0 ((s.pending s.top).map Task.params) tl).map fun tl =>
    { s with
      seqs := update s.seqs q { qs with frameTasklist := tl.tasklistreadyPushInit }
      stackframe := update s.stackframe s.sfp { s.top with tasklist := some q }
      unstealable := qs.saveState }

/-- `QUARK_Sequence_Wait` -/
def sequenceWait (sched : Scheduler) (q : Nat) : Option (State α) :=
  (s.buildTasklist q).bind fun s =>
    (s.schedSync sched).bind fun s =>
      let s := s.setTop { s.top with tasklist := none }
      s.popFrame.map fun s => s.setSeq q { s.seqs q with frameTasklist := frameTasklistInit }

/-- `QUARK_Waitall` -/
def waitall (sched : Scheduler) : Option (State α) :=
  match s.sequence with
  | some q => s.sequenceWait sched q
  | none => s.schedSync sched

/-- `QUARK_Sequence_Destroy` -/
def sequenceDestroy (q : Nat) : State α :=
  let qs := s.seqs q
  let stateInit := (qs.stateInit &&& ~~~QUARK_SEQUENCE_INIT) ||| QUARK_SEQUENCE_FREE
  { s.setSeq q { qs with stateInit := stateInit } with
    unstealable := qs.saveState
    lastQsFree := if s.lastQsFree = none then some q else s.lastQsFree
    sequence := none }

end State

/-- The calls between the creation and the destruction of a sequence. -/
inductive Call
  | insertTask (args : Args)
  | sequenceWait
  | waitall
deriving DecidableEq, Repr

def Call.isWait : Call → Bool
  | .insertTask _ => false
  | _ => true

section Run

variable {α : Type*} (sched : Scheduler)

def call (q : Nat) (c : Call) (s : State α) : Option (State α) :=
  match c with
  | .insertTask args => some (s.insertTask args)
  | .sequenceWait => s.sequenceWait sched q
  | .waitall => s.waitall sched

/-- The calls of a sequence, after its creation. -/
def runCalls (s : State α) (calls : List Call) : Option (State α) :=
  run (call sched s.sequenceCreate.1) calls s.sequenceCreate.2

/-- A whole sequence. -/
def runSequence (s : State α) (calls : List Call) : Option (State α) :=
  (runCalls sched s calls).map fun s' => s'.sequenceDestroy s.sequenceCreate.1

/-- The stack pointer and the frames up to it are the same. -/
def SameStack (s s' : State α) : Prop :=
  s'.sfp = s.sfp ∧ ∀ i ≤ s.sfp, s'.stackframe i = s.stackframe i

/-- What a sequence is to do, from `s` to `s'`: a wait returns when every
task inserted so far has been executed, once; the frames and the stealable
state are in the end what they were. -/
structure SequenceOk (s : State α) (calls : List Call) (s' : State α) : Prop where
  runs : runSequence sched s calls = some s'
  stack : SameStack s s'
  unstealable : s'.unstealable = s.unstealable
  waits : ∀ front w back s₁, calls = front ++ w :: back → w.isWait = true →
    runCalls sched s (front ++ [w]) = some s₁ →
      ∀ n < s₁.next, (numbers s₁.executed).count n = 1

end Run

-- ======== the end of a task list

section Tasklist

variable {α : Type*} {sched : Scheduler} {tasks : List TaskList.Task} {tl tl' : FrameTasklist}

/-- The fuel of the loop is enough. -/
theorem exists_execTasklist (sched : Scheduler) (htl : computereadylist tasks = some tl)
    {ids : List TdId} (hrun : run execTd ids tl.tasklistreadyPushInit = some tl')
    {fuel : Nat} (hfuel : tl.tds.length < ids.length + fuel) :
    ∃ more tl'', execTasklist sched fuel tl' = some tl'' ∧ tl''.rtl = []
      ∧ run execTd (ids ++ more) tl.tasklistreadyPushInit = some tl'' := by
  induction fuel generalizing ids tl' with
  | zero =>
    -- a descriptor is executed at most once
    obtain ⟨hnodup, hmem, -⟩ := TaskList.popped_spec htl hrun
    have hlength := (List.subperm_of_subset hnodup hmem).length_le
    omega
  | succ fuel ih =>
    unfold execTasklist
    split
    case isTrue hempty => exact ⟨[], tl', rfl, hempty, by rwa [List.append_nil]⟩
    case isFalse hready =>
      obtain ⟨tl₁, hstep⟩ := TaskList.exists_execTd htl hrun (sched.pop_mem tl' hready)
      have hrun₁ : run execTd (ids ++ [sched.pop tl']) tl.tasklistreadyPushInit = some tl₁ :=
        run_append_eq_some.mpr ⟨tl', hrun, run_cons_eq_some.mpr ⟨tl₁, hstep, rfl⟩⟩
      obtain ⟨more, tl₂, hexec, hempty, hrun₂⟩ := ih hrun₁ (by
        rw [List.length_append, List.length_singleton]
        omega)
      refine ⟨sched.pop tl' :: more, tl₂, ?_, hempty, ?_⟩
      · rw [hstep]
        exact hexec
      · rwa [List.append_cons]

/-- Whatever the order of the pops, the loop ends: it executes the list to
its end. -/
theorem execTasklist_ends (sched : Scheduler) (htl : computereadylist tasks = some tl) :
    ∃ ids tl', execTasklist sched (tl.tds.length + 1) tl.tasklistreadyPushInit = some tl'
      ∧ tl'.rtl = [] ∧ run execTd ids tl.tasklistreadyPushInit = some tl' := by
  have hstart : run execTd [] tl.tasklistreadyPushInit = some tl.tasklistreadyPushInit := rfl
  refine exists_execTasklist sched htl hstart ?_
  rw [List.length_nil, Nat.zero_add]
  exact Nat.lt_succ_self _

/-- The wait for a list returns when all its descriptors have been executed. -/
theorem perm_of_waitTasklist (htl : computereadylist tasks = some tl)
    (hwait : waitTasklist sched tl.tasklistreadyPushInit = some tl') :
    tl'.executed.Perm tl.tds
      ∧ ∀ params, some params ∈ tasks → ∃ p ∈ params, p.m ≠ modeV := by
  obtain ⟨ids, tl₁, hexec, -, hrun⟩ := execTasklist_ends sched htl
  obtain ⟨hsome, hcnt⟩ := Option.filter_eq_some_iff.mp hwait
  cases hexec.symm.trans hsome
  obtain ⟨hnodup, hmem, hlength, htotal, hdeps⟩ := TaskList.popped_spec htl hrun
  obtain ⟨opened, hbuilt⟩ := TaskList.computereadylist_spec htl
  have hids : ids.Perm tl.tds := by
    refine (List.subperm_of_subset hnodup hmem).perm_of_length_le ?_
    have hcnt' : tl'.cntExec = tl'.totalTasks := of_decide_eq_true hcnt
    omega
  refine ⟨(hbuilt.inv_execTd hrun).2.2 ▸ hids, fun params hparams => ?_⟩
  obtain ⟨k, hk⟩ := List.mem_iff_getElem?.mp hparams
  have htask : TdId.task k ∈ tl.tds := (hbuilt.task_mem k).mpr
    (TaskList.mem_formatted_iff.mpr ⟨k, params, hk, (Nat.zero_add k).symm⟩)
  obtain ⟨params', hk', hp⟩ := hdeps k (hids.mem_iff.mpr htask)
  cases hk.symm.trans hk'
  exact hp

/-- The wait for a list returns if and only if each of its tasks has a
parameter that is not by value. -/
theorem waitTasklist_isSome_iff (sched : Scheduler) (htl : computereadylist tasks = some tl) :
    (∃ tl', waitTasklist sched tl.tasklistreadyPushInit = some tl')
      ↔ ∀ params, some params ∈ tasks → ∃ p ∈ params, p.m ≠ modeV := by
  constructor
  · exact fun ⟨_, hwait⟩ => (perm_of_waitTasklist htl hwait).2
  · intro hdeps
    obtain ⟨ids, tl₁, hexec, hempty, hrun⟩ := execTasklist_ends sched htl
    have hall := (TaskList.executesAll_iff htl).mpr
      fun t ht params hparams => hdeps params (hparams ▸ ht)
    obtain ⟨-, -, -, hend⟩ := hall ids tl₁ hrun
    obtain ⟨-, -, -, htotal, -⟩ := TaskList.popped_spec htl hrun
    obtain ⟨opened, hbuilt⟩ := TaskList.computereadylist_spec htl
    have hcnt : tl₁.cntExec = tl₁.totalTasks :=
      ((hend hempty).2.trans hbuilt.total).trans htotal.symm
    exact ⟨tl₁, Option.filter_eq_some_iff.mpr ⟨hexec, decide_eq_true hcnt⟩⟩

/-- With a format for every task, no task is left out of the list. -/
theorem formatted_of_forall (k : Nat) (h : none ∉ tasks) :
    TaskList.formatted k tasks = List.range' k tasks.length := by
  induction tasks generalizing k with
  | nil => rfl
  | cons t tasks ih =>
    rw [List.mem_cons, not_or] at h
    cases t with
    | none => exact absurd rfl h.1
    | some params => exact congrArg (k :: ·) (ih (k + 1) h.2)

/-- The tasks executed of a list that has a descriptor for each. -/
theorem tasksOf_perm {ts : List (Task α)}
    (htl : computereadylist (ts.map Task.params) = some tl)
    (hformat : ∀ t ∈ ts, t.params ≠ none) {ids : List TdId}
    (hperm : ids.Perm tl.tds) :
    (tasksOf ts ids).Perm ts := by
  have hnone : none ∉ ts.map Task.params := by
    intro hnone
    obtain ⟨t, ht, hparams⟩ := List.mem_map.mp hnone
    exact hformat t ht hparams
  have hindices := TaskList.tasks_perm htl hperm
  rw [formatted_of_forall 0 hnone, List.length_map, ← List.range_eq_range'] at hindices
  have hall : (List.range ts.length).map (ts[·]?) = ts.map some :=
    List.ext_getElem (by simp) fun i _ _ => by simp
  refine (hindices.filterMap _).trans (.of_eq ?_)
  calc (List.range ts.length).filterMap (ts[·]?)
      = ((List.range ts.length).map (ts[·]?)).filterMap id := by rw [List.filterMap_map]; rfl
    _ = (ts.map some).filterMap id := by rw [hall]
    _ = ts := List.filterMap_map.trans List.filterMap_some

end Tasklist

-- ======== what a call does

section Calls

variable {α : Type*} {sched : Scheduler} {q u : Nat} {s s' : State α}

/-- The tasklist of a sequence is to be initialised. -/
def Uninit (qs : QuarkSequence) : Prop :=
  qs.stateInit &&& QUARK_SEQUENCE_TASKLIST_INIT = 0

/-- A sequence that is not initialised has its bit 2 clear. -/
theorem uninit_iff {qs : QuarkSequence} : Uninit qs ↔ qs.stateInit.getLsbD 2 = false := by
  unfold Uninit QUARK_SEQUENCE_TASKLIST_INIT
  constructor
  · intro h
    have hbit := congrArg (BitVec.getLsbD · 2) h
    simpa using hbit
  · intro h
    refine BitVec.eq_of_getLsbD_eq fun i hi => ?_
    rw [BitVec.getLsbD_and]
    by_cases hi2 : i = 2
    · subst hi2
      rw [h, Bool.false_and]
      rfl
    · have hmask : (4#32).getLsbD i = false := by
        interval_cases i <;> first | rfl | exact absurd rfl hi2
      change (qs.stateInit.getLsbD i && (4#32).getLsbD i) = (0#32).getLsbD i
      rw [hmask, Bool.and_false, BitVec.getLsbD_zero]

/-- Between two sequences. -/
structure Outside (s : State α) : Prop where
  tasklist : ∀ i, (s.stackframe i).tasklist = none
  cached : ∀ q, s.lastQsFree = some q → Uninit (s.seqs q)

/-- Inside the sequence `q`, created in a thread whose stealable state was
`u`. -/
structure Inside (q u : Nat) (s : State α) : Prop where
  tasklist : ∀ i, (s.stackframe i).tasklist = none
  cached : ∀ q', s.lastQsFree = some q' → Uninit (s.seqs q')
  uninit : Uninit (s.seqs q)
  sequence : s.sequence = some q
  saveState : (s.seqs q).saveState = u

/-- QUARK_SEQUENCE_INIT leaves that bit clear. -/
theorem uninit_or_init {qs : QuarkSequence} (h : Uninit qs) :
    (qs.stateInit ||| QUARK_SEQUENCE_INIT).getLsbD 2 = false := by
  rw [BitVec.getLsbD_or, uninit_iff.mp h]
  rfl

/-- A sequence comes from the free list or from a new block, not
initialised. -/
theorem takeSequence_spec (h : Outside s) :
    ∃ q qs brk, s.takeSequence = (q, qs, { s with
      lastQsFree := none
      brk := brk }) ∧ Uninit qs := by
  unfold State.takeSequence
  split
  case h_2 hlast =>
    refine ⟨s.brk, { s.seqs s.brk with stateInit := 0 }, s.brk + 1, ?_, ?_⟩
    · rw [← hlast]
    · exact uninit_iff.mpr (by exact BitVec.getLsbD_zero)
  case h_1 q hlast =>
    refine ⟨q, _, s.brk, rfl, uninit_iff.mpr ?_⟩
    change (_ &&& ~~~QUARK_SEQUENCE_FREE).getLsbD 2 = false
    rw [BitVec.getLsbD_and, uninit_iff.mp (h.cached q hlast), Bool.false_and]

/-- The frames below a new one stay as they are. -/
theorem pushFrame_of_le (s : State α) {i : Nat} (hi : i ≤ s.sfp) :
    s.pushFrame.stackframe i = s.stackframe i :=
  update_of_ne (Nat.lt_succ_of_le hi).ne _ _

/-- A new frame begins empty, where the one below ends. -/
theorem pushFrame_top (s : State α) (h : ∀ i, (s.stackframe i).tasklist = none) :
    s.pushFrame.top = ⟨s.top.sp, s.top.sp, none⟩ := by
  change update s.stackframe (s.sfp + 1) _ (s.sfp + 1) = _
  rw [update_self, h]

/-- A frame without list may replace any other. -/
theorem tasklist_update {f : Nat → Frame} {i : Nat} {g : Frame}
    (h : ∀ j, (f j).tasklist = none) (hg : g.tasklist = none) (j : Nat) :
    (update f i g j).tasklist = none := by
  by_cases hj : j = i
  · subst hj
    rw [update_self]
    exact hg
  · rw [update_of_ne hj]
    exact h j

/-- What a creation does. -/
structure Created (s s' : State α) (q : Nat) : Prop where
  inside : Inside q s.unstealable s'
  sfp : s'.sfp = s.sfp + 1
  frames : ∀ i ≤ s.sfp, s'.stackframe i = s.stackframe i
  top : s'.top = ⟨s.top.sp, s.top.sp, none⟩
  next : s'.next = s.next
  executed : s'.executed = s.executed

/-- QUARK_Sequence_Create, called outside of a sequence, opens an empty one.
-/
theorem sequenceCreate_spec (h : Outside s) :
    Created s s.sequenceCreate.2 s.sequenceCreate.1 := by
  obtain ⟨q, qs, brk, htake, huninit⟩ := takeSequence_spec h
  unfold State.sequenceCreate
  rw [htake]
  refine ⟨⟨?_, nofun, ?_, rfl, ?_⟩, rfl, ?_, ?_, rfl, rfl⟩
  · intro i
    change (update s.stackframe _ _ i).tasklist = none
    exact tasklist_update h.tasklist (by exact h.tasklist _) i
  · refine uninit_iff.mpr ?_
    change (update s.seqs q _ q).stateInit.getLsbD 2 = false
    rw [update_self]
    exact uninit_or_init huninit
  · change (update s.seqs q _ q).saveState = _
    rw [update_self]
  · exact fun i hi => pushFrame_of_le s hi
  · exact pushFrame_top s h.tasklist

/-- QUARK_Sequence_Destroy leaves the sequence. -/
theorem sequenceDestroy_outside (h : Inside q u s) : Outside (s.sequenceDestroy q) where
  tasklist := h.tasklist
  cached := fun q' hq' => by
    change (if s.lastQsFree = none then some q else s.lastQsFree) = some q' at hq'
    change Uninit (update s.seqs q _ q')
    by_cases hqq : q' = q
    · subst hqq
      rw [update_self]
      refine uninit_iff.mpr ?_
      change ((_ &&& ~~~QUARK_SEQUENCE_INIT) ||| QUARK_SEQUENCE_FREE).getLsbD 2 = false
      rw [BitVec.getLsbD_or, BitVec.getLsbD_and, uninit_iff.mp h.uninit, Bool.false_and]
      rfl
    · rw [update_of_ne hqq]
      split at hq'
      case isTrue => exact absurd (Option.some.inj hq').symm hqq
      case isFalse => exact h.cached q' hq'

/-- An insertion stays inside of the sequence. -/
theorem insertTask_inside (h : Inside q u s) (args : Args) :
    Inside q u (s.insertTask args) where
  tasklist := fun i => by
    change (update s.stackframe _ _ i).tasklist = none
    exact tasklist_update h.tasklist (by exact h.tasklist _) i
  cached := h.cached
  uninit := h.uninit
  sequence := h.sequence
  saveState := h.saveState

/-- The analysis of the tasks of the top frame. -/
def State.computed (s : State α) : Option FrameTasklist :=
  computereadylist ((s.pending s.top).map Task.params)

/-- What a wait builds, for a sequence that is not initialised. -/
theorem buildTasklist_eq (h : Uninit (s.seqs q)) :
    s.buildTasklist q = s.computed.map fun tl =>
      { s with
        seqs := update s.seqs q { s.seqs q with frameTasklist := tl.tasklistreadyPushInit }
        stackframe := update s.stackframe s.sfp ⟨s.top.pc, s.top.sp, some q⟩
        unstealable := (s.seqs q).saveState } := by
  unfold State.buildTasklist
  dsimp only
  rw [if_pos (by exact h)]
  rfl

/-- kaapi_sched_sync_ executes the list of the frame. -/
theorem schedSync_of_tasklist (sched : Scheduler) (h : s.top.tasklist = some q) :
    s.schedSync sched = (waitTasklist sched (s.seqs q).frameTasklist).map fun tl =>
      { (s.setTop { s.top with sp := s.top.pc }).setSeq q
          { s.seqs q with frameTasklist := tl } with
        executed := s.executed ++ tasksOf (s.pending s.top) tl.executed } := by
  unfold State.schedSync
  dsimp only
  rw [if_neg (by rw [h]; rintro ⟨hne, -⟩; cases hne), h]

/-- A wait whose list is `tl`, and `tl'` when everything has been executed. -/
def State.waited (s : State α) (q : Nat) (tl' : FrameTasklist) : State α :=
  { s with
    sfp := s.sfp - 1
    seqs := update s.seqs q { s.seqs q with frameTasklist := frameTasklistInit }
    stackframe := update s.stackframe s.sfp ⟨s.top.pc, s.top.pc, none⟩
    unstealable := (s.seqs q).saveState
    executed := s.executed ++ tasksOf (s.pending s.top) tl'.executed }

/-- A wait as a whole: build the list, execute it, leave the frame. -/
theorem sequenceWait_eq (sched : Scheduler) (h : Uninit (s.seqs q)) :
    s.sequenceWait sched q = s.computed.bind fun tl =>
      (waitTasklist sched tl.tasklistreadyPushInit).bind fun tl' =>
        if s.sfp = 0 then none else some (s.waited q tl') := by
  unfold State.sequenceWait
  rw [buildTasklist_eq h, Option.bind_map]
  refine congrArg _ (funext fun tl => ?_)
  dsimp only [Function.comp_apply]
  rw [schedSync_of_tasklist sched (q := q) (by
    unfold State.top
    dsimp only
    rw [update_self]), Option.bind_map]
  dsimp only
  rw [update_self]
  refine congrArg _ (funext fun tl' => ?_)
  simp only [Function.comp_apply, State.setTop, State.setSeq, State.top, State.popFrame,
    State.pending, update_self, update_idem]
  split
  case isTrue => rfl
  case isFalse =>
    simp only [Option.map_some, update_self, update_idem]
    rfl

/-- What a wait does, when there is a frame below. -/
structure Waited (s s' : State α) : Prop where
  sfp : s'.sfp + 1 = s.sfp
  frames : ∀ i < s.sfp, s'.stackframe i = s.stackframe i
  next : s'.next = s.next
  executed : ∃ ts, s'.executed = s.executed ++ ts
    ∧ ((∀ t ∈ s.pending s.top, t.params ≠ none) → ts.Perm (s.pending s.top))
  depends : ∀ t ∈ s.pending s.top, ∀ params, t.params = some params →
    ∃ p ∈ params, p.m ≠ modeV

/-- A wait that returns has executed the pending tasks, once each. -/
theorem sequenceWait_spec (h : Inside q u s) (hrun : s.sequenceWait sched q = some s') :
    Waited s s' ∧ Inside q u s' := by
  rw [sequenceWait_eq sched h.uninit] at hrun
  obtain ⟨tl, htl, hrun⟩ := Option.bind_eq_some_iff.mp hrun
  obtain ⟨tl', hwait, hrun⟩ := Option.bind_eq_some_iff.mp hrun
  obtain ⟨hperm, hdeps⟩ := perm_of_waitTasklist htl hwait
  split at hrun
  case isTrue => cases hrun
  case isFalse hsfp =>
    cases hrun
    refine ⟨⟨Nat.succ_pred hsfp, ?_, rfl, ⟨_, rfl, ?_⟩, ?_⟩, ⟨?_, ?_, ?_, h.sequence, ?_⟩⟩
    · exact fun i hi => update_of_ne hi.ne ..
    · exact fun hformat => tasksOf_perm htl hformat hperm
    · exact fun t ht params hparams => hdeps params (List.mem_map.mpr ⟨t, ht, hparams⟩)
    · exact fun i => tasklist_update h.tasklist rfl i
    · intro q' hq'
      change Uninit (update s.seqs q _ q')
      by_cases hqq : q' = q
      · subst hqq
        rw [update_self]
        exact h.uninit
      · rw [update_of_ne hqq]
        exact h.cached q' hq'
    · change Uninit (update s.seqs q _ q)
      rw [update_self]
      exact h.uninit
    · change (update s.seqs q _ q).saveState = u
      rw [update_self]
      exact h.saveState

/-- A task has a dependency iff one of its parameters has an access mode. -/
theorem Args.depends_iff (a : Args) : a.Depends ↔ ∃ p ∈ a.params, p.m ≠ modeV := by
  have hmode : ∀ d : Direction, (d = .input ∨ d = .output ∨ d = .inout)
      ↔ getMode d.mode ≠ modeV := by
    intro d
    cases d <;> decide
  unfold Args.Depends Args.params
  constructor
  · rintro ⟨p, hp, hd⟩
    exact ⟨_, List.mem_map_of_mem hp, (hmode p.1).mp hd⟩
  · rintro ⟨p, hp, hm⟩
    obtain ⟨b, hb, rfl⟩ := List.mem_map.mp hp
    exact ⟨b, hb, (hmode b.1).mpr hm⟩

/-- The analysis has code for every direction. -/
theorem computed_isSome (h : ∀ t ∈ s.pending s.top, ∃ n args, t = .inserted n args) :
    ∃ tl, s.computed = some tl := by
  refine TaskList.computereadylist_isSome.mpr fun e he => ?_
  obtain ⟨k, t, ht, -, hp, hshared⟩ := TaskList.mem_events_iff.mp he
  obtain ⟨t', ht', rfl⟩ := List.mem_map.mp (List.mem_of_getElem? ht)
  obtain ⟨n, args, rfl⟩ := h t' ht'
  obtain ⟨a, -, hae⟩ := List.mem_map.mp hp
  have hcode : ∀ d : Direction, getMode d.mode ≠ modeV →
      (Dfg.accessIsRead (getMode d.mode) || Dfg.accessIsWrite (getMode d.mode)) = true := by
    intro d
    cases d <;> decide
  rw [← hae] at hshared ⊢
  exact hcode a.1 (bne_iff_ne.mp hshared)

/-- A wait returns when every pending task has a dependency. -/
theorem sequenceWait_isSome (sched : Scheduler) (h : Inside q u s) (hsfp : 0 < s.sfp)
    (hinserted : ∀ t ∈ s.pending s.top, ∃ n args, t = .inserted n args ∧ args.Depends) :
    ∃ s', s.sequenceWait sched q = some s' := by
  obtain ⟨tl, htl⟩ := computed_isSome fun t ht => by
    obtain ⟨n, args, rfl, -⟩ := hinserted t ht
    exact ⟨n, args, rfl⟩
  obtain ⟨tl', hwait⟩ := (waitTasklist_isSome_iff sched htl).mpr fun params hparams => by
    obtain ⟨t, ht, heq⟩ := List.mem_map.mp hparams
    obtain ⟨n, args, rfl, hdep⟩ := hinserted t ht
    cases heq
    exact args.depends_iff.mp hdep
  rw [sequenceWait_eq sched h.uninit, htl, Option.bind_some, hwait, Option.bind_some,
    if_neg hsfp.ne']
  exact ⟨_, rfl⟩

/-- QUARK_Sequence_Wait and QUARK_Waitall inside of a sequence do the same.
-/
theorem call_wait (h : Inside q u s) {w : Call} (hw : w.isWait = true) :
    call sched q w s = s.sequenceWait sched q := by
  cases w with
  | insertTask args => cases hw
  | sequenceWait => rfl
  | waitall =>
    change s.waitall sched = _
    unfold State.waitall
    rw [h.sequence]

/-- A call that returns leaves the program inside of its sequence. -/
theorem call_inside {c : Call} (h : Inside q u s) (hrun : call sched q c s = some s') :
    Inside q u s' := by
  cases hc : c.isWait with
  | true => exact (sequenceWait_spec h (call_wait h hc ▸ hrun)).2
  | false =>
    cases c with
    | insertTask args => exact Option.some.inj hrun ▸ insertTask_inside h args
    | sequenceWait => cases hc
    | waitall => cases hc

end Calls

-- ======== the calls in a row

section Calls

variable {α : Type*} {sched : Scheduler} {q u : Nat} {s s' : State α} {calls : List Call}
  {tasks : List Args}

/-- Every run of calls stays inside. -/
theorem run_inside (h : Inside q u s) (hrun : run (call sched q) calls s = some s') :
    Inside q u s' :=
  run_preserves (fun hs hstep => call_inside hs hstep) h hrun

/-- Every wait leaves one frame. -/
theorem calls_sfp (h : Inside q u s) (hrun : run (call sched q) calls s = some s') :
    s'.sfp + calls.countP Call.isWait = s.sfp := by
  induction calls generalizing s with
  | nil => exact Option.some.inj hrun ▸ rfl
  | cons c calls ih =>
    obtain ⟨s₁, hcall, hrest⟩ := run_cons_eq_some.mp hrun
    have hend := ih (call_inside h hcall) hrest
    cases hc : c.isWait with
    | true =>
      have hwait := (sequenceWait_spec h (call_wait h hc ▸ hcall)).1.sfp
      rw [List.countP_cons_of_pos hc]
      omega
    | false =>
      rw [List.countP_cons_of_neg (by rw [hc]; exact Bool.false_ne_true), hend]
      cases c with
      | insertTask args => exact Option.some.inj hcall ▸ rfl
      | sequenceWait => cases hc
      | waitall => cases hc

/-- What the insertion of tasks does. -/
structure Inserts (s : State α) (tasks : List Args) (s' : State α) : Prop where
  sfp : s'.sfp = s.sfp
  frames : ∀ i, i ≠ s.sfp → s'.stackframe i = s.stackframe i
  top : s'.top = { s.top with sp := s.top.sp + tasks.length }
  task : ∀ i args, tasks[i]? = some args →
    s'.task (s.top.sp + i) = .inserted (s.next + i) args
  next : s'.next = s.next + tasks.length
  executed : s'.executed = s.executed

/-- One more task inserted. -/
theorem Inserts.insertTask (h : Inserts s tasks s') (args : Args) :
    Inserts s (tasks ++ [args]) (s'.insertTask args) where
  sfp := h.sfp
  frames := fun i hi => by
    change update s'.stackframe s'.sfp _ i = _
    rw [h.sfp, update_of_ne hi]
    exact h.frames i hi
  top := by
    change update s'.stackframe s'.sfp _ s'.sfp = _
    rw [update_self, h.top, List.length_append]
    rfl
  task := fun i args' hi => by
    change update s'.task s'.top.sp _ _ = _
    rw [h.top]
    rcases lt_or_ge i tasks.length with hlt | hge
    · rw [update_of_ne (Nat.add_lt_add_left hlt _).ne]
      exact h.task i args' (List.getElem?_append_left hlt ▸ hi)
    · rw [List.getElem?_append_right hge, List.getElem?_singleton] at hi
      split at hi
      case isTrue h0 =>
        cases hi
        obtain rfl : i = tasks.length := by omega
        rw [update_self, h.next]
      case isFalse => cases hi
  next := by
    rw [List.length_append]
    exact congrArg (· + 1) h.next
  executed := h.executed

/-- Insertions never fail. -/
theorem exists_inserts (sched : Scheduler) (q : Nat) (s : State α) (tasks : List Args) :
    ∃ s', run (call sched q) (tasks.map Call.insertTask) s = some s'
      ∧ Inserts s tasks s' := by
  induction tasks using List.reverseRecOn with
  | nil => exact ⟨s, rfl, rfl, fun _ _ => rfl, rfl, nofun, rfl, rfl⟩
  | append_singleton tasks args ih =>
    obtain ⟨s₁, hrun, hins⟩ := ih
    refine ⟨s₁.insertTask args, ?_, hins.insertTask args⟩
    rw [List.map_append]
    exact run_append_eq_some.mpr ⟨s₁, hrun, run_cons_eq_some.mpr ⟨_, rfl, rfl⟩⟩

/-- What a run of insertions leaves. -/
theorem inserts_of_run (hrun : run (call sched q) (tasks.map Call.insertTask) s = some s') :
    Inserts s tasks s' := by
  obtain ⟨s₁, hrun', hins⟩ := exists_inserts sched q s tasks
  cases hrun.symm.trans hrun'
  exact hins

/-- The tasks inserted, from the number `m` on. -/
def insertedFrom (m : Nat) (tasks : List Args) : List (Task α) :=
  tasks.mapIdx fun i args => .inserted (m + i) args

/-- The tasks inserted carry the arguments given, in order. -/
theorem mem_insertedFrom {m : Nat} {t : Task α} (ht : t ∈ insertedFrom m tasks) :
    ∃ n, ∃ args ∈ tasks, t = .inserted n args := by
  obtain ⟨i, hi, rfl⟩ := List.mem_mapIdx.mp ht
  exact ⟨m + i, tasks[i], List.getElem_mem hi, rfl⟩

/-- What is pending after insertions in an empty frame. -/
theorem Inserts.pending (h : Inserts s tasks s') (hempty : s.top.pc = s.top.sp) :
    s'.pending s'.top = insertedFrom s.next tasks := by
  unfold State.pending insertedFrom
  rw [h.top]
  change (List.range (s.top.sp + tasks.length - s.top.pc)).map _ = _
  rw [hempty, Nat.add_sub_cancel_left]
  refine List.ext_getElem (by simp) fun i h₁ h₂ => ?_
  rw [List.getElem_map, List.getElem_range, List.getElem_mapIdx]
  have hi : i < tasks.length := by simpa using h₂
  exact h.task i _ (List.getElem?_eq_getElem hi)

/-- Calls without a wait are insertions. -/
theorem exists_map_insertTask (h : ∀ c ∈ calls, c.isWait = false) :
    ∃ tasks : List Args, calls = tasks.map Call.insertTask := by
  induction calls with
  | nil => exact ⟨[], rfl⟩
  | cons c calls ih =>
    obtain ⟨hc, hcalls⟩ := List.forall_mem_cons.mp h
    obtain ⟨tasks, rfl⟩ := ih hcalls
    cases c with
    | insertTask args => exact ⟨args :: tasks, rfl⟩
    | sequenceWait => cases hc
    | waitall => cases hc

end Calls

-- ======== the numbers

section Numbers

variable {α : Type*}

theorem numbers_append (ts ts' : List (Task α)) :
    numbers (ts ++ ts') = numbers ts ++ numbers ts' := List.filterMap_append

theorem numbers_perm {ts ts' : List (Task α)} (h : ts.Perm ts') :
    (numbers ts).Perm (numbers ts') := h.filterMap _

/-- The tasks inserted are numbered one after the other. -/
theorem numbers_insertedFrom (m : Nat) (tasks : List Args) :
    numbers (insertedFrom m tasks : List (Task α)) = List.range' m tasks.length := by
  have hsome : (insertedFrom m tasks : List (Task α)).map Task.number
      = (List.range' m tasks.length).map some :=
    List.ext_getElem (by simp [insertedFrom]) fun i _ _ => by
      simp [insertedFrom, Task.number]
  calc numbers (insertedFrom m tasks : List (Task α))
      = ((insertedFrom m tasks).map Task.number).filterMap id := by
        rw [List.filterMap_map]
        rfl
    _ = ((List.range' m tasks.length).map some).filterMap id := by rw [hsome]
    _ = List.range' m tasks.length := List.filterMap_map.trans List.filterMap_some

theorem count_range' (m n k : Nat) :
    (List.range' m n).count k = if m ≤ k ∧ k < m + n then 1 else 0 := by
  split
  case isTrue h =>
    exact List.count_eq_one_of_mem List.nodup_range' (List.mem_range'_1.mpr h)
  case isFalse h => exact List.count_eq_zero_of_not_mem fun hk => h (List.mem_range'_1.mp hk)

end Numbers

-- ======== one sequence

/-- Insertions of tasks with a dependency, then one wait. -/
def OneFinalWait (calls : List Call) : Prop :=
  ∃ (tasks : List Args) (w : Call), calls = tasks.map Call.insertTask ++ [w]
    ∧ w.isWait = true ∧ ∀ args ∈ tasks, args.Depends

/-- Between two sequences, with every task inserted so far executed once. -/
structure AllDone (s : State α) : Prop where
  outside : Outside s
  once : ∀ n, (numbers s.executed).count n = if n < s.next then 1 else 0

section Sequence

variable {α : Type*} {sched : Scheduler} {q u : Nat} {s s' : State α} {calls : List Call}

/-- After the wait every task inserted so far has been executed once. -/
theorem once_of_waited {s₁ s₂ s₃ : State α} {tasks : List Args} (h : AllDone s)
    (hcreate : Created s s₁ q) (hins : Inserts s₁ tasks s₂) (hwait : Waited s₂ s₃)
    (k : Nat) :
    (numbers s₃.executed).count k = if k < s₃.next then 1 else 0 := by
  have hpending := hins.pending (by rw [hcreate.top])
  obtain ⟨ts, hexecuted, hperm⟩ := hwait.executed
  rw [hpending] at hperm
  have hnew := numbers_perm (hperm fun t ht => by
    obtain ⟨n, args, -, rfl⟩ := mem_insertedFrom ht
    exact Option.some_ne_none _)
  rw [hexecuted, numbers_append, List.count_append, hnew.count_eq, numbers_insertedFrom,
    count_range', hins.executed, hcreate.executed, h.once, hwait.next, hins.next, hcreate.next]
  split <;> split <;> split <;> omega

/-- The calls determine their first wait. -/
theorem eq_of_oneFinalWait {front front' back : List Call} {w w' : Call}
    (h : front ++ [w] = front' ++ w' :: back) (hfront : ∀ c ∈ front, c.isWait = false)
    (hw' : w'.isWait = true) : front' = front ∧ w' = w := by
  rcases List.eq_nil_or_concat back with rfl | ⟨back, x, rfl⟩
  · obtain ⟨rfl, hcons⟩ := List.append_inj' h rfl
    cases hcons
    exact ⟨rfl, rfl⟩
  · rw [List.concat_eq_append, ← List.cons_append, ← List.append_assoc] at h
    obtain ⟨rfl, -⟩ := List.append_inj' h rfl
    have hmem := hfront w' (List.mem_append_right _ List.mem_cons_self)
    rw [hw'] at hmem
    cases hmem

/-- An insertion is no wait. -/
theorem isWait_of_mem_insertTask {tasks : List Args} {c : Call}
    (hc : c ∈ tasks.map Call.insertTask) : c.isWait = false := by
  obtain ⟨args, -, rfl⟩ := List.mem_map.mp hc
  rfl

/-- A sequence with one wait, its last call, is executed as it should. -/
theorem sequenceOk_of_oneFinalWait (sched : Scheduler) (h : AllDone s)
    (hcalls : OneFinalWait calls) : ∃ s', SequenceOk sched s calls s' ∧ AllDone s' := by
  obtain ⟨tasks, w, rfl, hw, hdeps⟩ := hcalls
  have hcreate := sequenceCreate_spec h.outside
  obtain ⟨s₂, hrun, hins⟩ :=
    exists_inserts sched s.sequenceCreate.1 s.sequenceCreate.2 tasks
  have hinside := run_inside hcreate.inside hrun
  obtain ⟨s₃, hwaitrun⟩ := sequenceWait_isSome sched hinside
    (by rw [hins.sfp, hcreate.sfp]; exact Nat.succ_pos _) (fun t ht => by
      rw [hins.pending (by rw [hcreate.top])] at ht
      obtain ⟨n, args, hargs, rfl⟩ := mem_insertedFrom ht
      exact ⟨n, args, rfl, hdeps args hargs⟩)
  obtain ⟨hwaited, hinside₃⟩ := sequenceWait_spec hinside hwaitrun
  have hruns : runCalls sched s (tasks.map Call.insertTask ++ [w]) = some s₃ :=
    run_append_eq_some.mpr ⟨s₂, hrun,
      run_cons_eq_some.mpr ⟨s₃, (call_wait hinside hw).trans hwaitrun, rfl⟩⟩
  have honce := once_of_waited h hcreate hins hwaited
  have hsfp : s₃.sfp = s.sfp := by
    have h₁ := hcreate.sfp
    have h₂ := hins.sfp
    have h₃ := hwaited.sfp
    omega
  refine ⟨s₃.sequenceDestroy s.sequenceCreate.1, ⟨?_, ⟨hsfp, fun i hi => ?_⟩, ?_, ?_⟩,
    sequenceDestroy_outside hinside₃, honce⟩
  · rw [runSequence, hruns]
    rfl
  · have hlt : i < s₂.sfp := by
      rw [hins.sfp, hcreate.sfp]
      exact Nat.lt_succ_of_le hi
    calc s₃.stackframe i = s₂.stackframe i := hwaited.frames i hlt
      _ = s.sequenceCreate.2.stackframe i := hins.frames i (hins.sfp ▸ hlt.ne)
      _ = s.stackframe i := hcreate.frames i hi
  · exact hinside₃.saveState
  · intro front' w' back s₁ heq hw' hrun' n hn
    obtain ⟨rfl, rfl⟩ := eq_of_oneFinalWait heq (fun _ => isWait_of_mem_insertTask) hw'
    cases hruns.symm.trans hrun'
    rw [honce, if_pos hn]

/-- Calls with one wait are cut there. -/
theorem exists_of_countP_eq_one (h : calls.countP Call.isWait = 1) :
    ∃ front w back, calls = front ++ w :: back ∧ w.isWait = true
      ∧ (∀ c ∈ front, c.isWait = false) ∧ ∀ c ∈ back, c.isWait = false := by
  induction calls with
  | nil => cases h
  | cons c calls ih =>
    cases hc : c.isWait with
    | true =>
      rw [List.countP_cons_of_pos hc] at h
      have hrest : ∀ c ∈ calls, c.isWait = false := by
        simpa using List.countP_eq_zero.mp (Nat.succ.inj h)
      exact ⟨[], c, calls, rfl, hc, nofun, hrest⟩
    | false =>
      rw [List.countP_cons_of_neg (by rw [hc]; exact Bool.false_ne_true)] at h
      obtain ⟨front, w, back, rfl, hw, hfront, hback⟩ := ih h
      exact ⟨c :: front, w, back, rfl, hw, List.forall_mem_cons.mpr ⟨hc, hfront⟩, hback⟩

/-- A sequence that returns on the stack it began on has one wait, at the
end. -/
theorem oneFinalWait_of_sameStack (h : Outside s) (hrun : runSequence sched s calls = some s')
    (hstack : SameStack s s') : OneFinalWait calls := by
  obtain ⟨s₃, hcalls, rfl⟩ := Option.map_eq_some_iff.mp hrun
  have hcreate := sequenceCreate_spec h
  -- as many waits as frames pushed
  have hcount : calls.countP Call.isWait = 1 := by
    have hsfp := calls_sfp hcreate.inside hcalls
    have hend : s₃.sfp = s.sfp := hstack.1
    rw [hcreate.sfp, hend] at hsfp
    omega
  obtain ⟨front, w, back, rfl, hw, hfront, hback⟩ := exists_of_countP_eq_one hcount
  obtain ⟨tasks, rfl⟩ := exists_map_insertTask hfront
  obtain ⟨later, rfl⟩ := exists_map_insertTask hback
  obtain ⟨s₁, hrun₁, hrest⟩ := run_append_eq_some.mp hcalls
  obtain ⟨s₂, hrun₂, hrun₃⟩ := run_cons_eq_some.mp hrest
  have hinside := run_inside hcreate.inside hrun₁
  have hins := inserts_of_run hrun₁
  obtain ⟨hwaited, -⟩ := sequenceWait_spec hinside (call_wait hinside hw ▸ hrun₂)
  have hins' := inserts_of_run hrun₃
  have hsfp : s₂.sfp = s.sfp := by
    have h₁ := hcreate.sfp
    have h₂ := hins.sfp
    have h₃ := hwaited.sfp
    omega
  -- the frame below, after the wait and in the end
  have htop : s₂.top = s.top := by
    have hlt : s.sfp < s₁.sfp := by
      rw [hins.sfp, hcreate.sfp]
      exact Nat.lt_succ_self _
    calc s₂.top = s₂.stackframe s.sfp := by rw [State.top, hsfp]
      _ = s₁.stackframe s.sfp := hwaited.frames _ hlt
      _ = s.sequenceCreate.2.stackframe s.sfp := hins.frames _ (hins.sfp ▸ hlt.ne)
      _ = s.top := hcreate.frames _ le_rfl
  have hend : s₃.top = s.top := by
    have hsfp₃ : s₃.sfp = s.sfp := hstack.1
    rw [State.top, hsfp₃]
    exact hstack.2 s.sfp le_rfl
  have hlength : later.length = 0 := by
    have hsp := congrArg Frame.sp (hins'.top.symm.trans hend)
    change s₂.top.sp + later.length = s.top.sp at hsp
    rw [htop] at hsp
    omega
  rw [List.length_eq_zero_iff.mp hlength]
  refine ⟨tasks, w, rfl, hw, fun args hargs => args.depends_iff.mpr ?_⟩
  obtain ⟨i, hi, rfl⟩ := List.mem_iff_getElem.mp hargs
  refine hwaited.depends (.inserted (s.sequenceCreate.2.next + i) tasks[i]) ?_ _ rfl
  rw [hins.pending (by rw [hcreate.top])]
  exact List.mem_mapIdx.mpr ⟨i, hi, rfl⟩

end Sequence

-- ======== the sequences

/-- Every sequence of a run does what it is to do. -/
def SequencesOk {α : Type*} (sched : Scheduler) : State α → List (List Call) → Prop
  | _, [] => True
  | s, calls :: rest => ∃ s', SequenceOk sched s calls s' ∧ SequencesOk sched s' rest

/-- The sequences of a program, one after the other. -/
theorem sequencesOk_iff_of_allDone {α : Type*} {sched : Scheduler}
    {s : State α} (h : AllDone s)
    (runs : List (List Call)) :
    SequencesOk sched s runs ↔ ∀ calls ∈ runs, OneFinalWait calls := by
  induction runs generalizing s with
  | nil => simp [SequencesOk]
  | cons calls runs ih =>
    rw [List.forall_mem_cons]
    constructor
    · rintro ⟨s', hok, hrest⟩
      have hcalls := oneFinalWait_of_sameStack h.outside hok.runs hok.stack
      obtain ⟨s'', hok', hdone⟩ := sequenceOk_of_oneFinalWait sched h hcalls
      cases hok.runs.symm.trans hok'.runs
      exact ⟨hcalls, (ih hdone).mp hrest⟩
    · rintro ⟨hcalls, hrest⟩
      obtain ⟨s', hok, hdone⟩ := sequenceOk_of_oneFinalWait sched h hcalls
      exact ⟨s', hok, (ih hdone).mpr hrest⟩

section Sequences

variable {α : Type*} (stackframe : Nat → Frame) (sfp : Fin (maxReccall - 2))
  (task : Nat → Task α) (unstealable : Nat) (garbage : Nat → QuarkSequence)

/-- The master before its first sequence: its frames, the tasks that are in
them and the stealable state are arbitrary, and there is room for two more
frames, the one of a sequence and the one of the task that runs. -/
def State.start : State α where
  stackframe := fun i => { stackframe i with tasklist := none }
  sfp := sfp
  task := task
  unstealable := unstealable
  sequence := none
  lastQsFree := none
  seqs := garbage
  brk := 0
  next := 0
  executed := []

/-- A thread that has executed nothing is ready for a sequence. -/
theorem start_allDone : AllDone (State.start stackframe sfp task unstealable garbage) where
  outside := ⟨fun _ => rfl, nofun⟩
  once := fun n => (if_neg (Nat.not_lt_zero n)).symm

/-- A run of sequences is as it is to be if and only if each of them waits
exactly once, in its last call, and each of its tasks has a dependency. -/
theorem sequences_ok_iff (sched : Scheduler) (runs : List (List Call)) :
    SequencesOk sched (.start stackframe sfp task unstealable garbage) runs
      ↔ ∀ calls ∈ runs, OneFinalWait calls :=
  sequencesOk_iff_of_allDone (start_allDone stackframe sfp task unstealable garbage) runs

end Sequences

/-- The descriptor that became ready last first. -/
def Scheduler.lifo : Scheduler where
  pop := fun tl => tl.rtl.headD (.task 0)
  pop_mem := fun tl h => by
    obtain ⟨id, rtl, hrtl⟩ := List.exists_cons_of_ne_nil h
    rw [hrtl]
    exact List.mem_cons_self

/-- A master with five frames below the top one. -/
def exampleStart : State Unit :=
  .start (fun _ => ⟨0, 0, none⟩) ⟨5, by decide⟩ (fun _ => .old () none) 0
    fun _ => ⟨0, 0, ⟨0, 0, none⟩, frameTasklistInit⟩

/-- A task with one argument. -/
def exampleTask (d : Direction) : Args := ⟨[(d, 0)], (by decide : 1 ≤ 32)⟩

/-- A sequence with two waits takes a frame off that was there before; one
without a wait leaves its frame and the task in it; the wait for a task
without a dependency does not return. -/
theorem sequences_not_ok :
    exampleStart.sfp = 5
      ∧ (runSequence .lifo exampleStart [.insertTask (exampleTask .inout), .waitall,
          .insertTask (exampleTask .inout), .waitall]).map State.sfp = some 4
      ∧ (runSequence .lifo exampleStart [.insertTask (exampleTask .inout)]).map
          (fun s => (s.sfp, numbers s.executed)) = some (6, [])
      ∧ (runSequence .lifo exampleStart [.insertTask (exampleTask .value), .waitall]).map
          State.sfp = none := by
  decide

end XKaapi.Quark
