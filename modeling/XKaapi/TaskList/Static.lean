/-
Statically scheduled tasks (src/static/kaapi_stsched_tasksetstatic.c):
the body of such a task pushes a frame, lets the user's body push its
tasks there, builds the task list of the frame, executes it under
`kaapi_sched_sync_` and pops the frame.

# The state

`Thread` is the part of `kaapi_thread_context_t` these functions read and
write. A frame is a piece of the stack of tasks: `tasks` are those between
`pc` and `sp`, the oldest first, and `sp` is as many below `pc`. What a
task pushes when it runs, and what its tasks push in their turn, is a tree
(`Spawn`). `executed` records the tasks whose bodies have been started and
`returns` what every statically scheduled task found and left.

The thread runs on one CPU processor (`Proc`), the same all along. `rtl`
of a list holds its ready descriptors wherever they are queued: one whose
task is bound to another processor by its site is in the remote ready list
of that one, and the thread does not pop it. What the other processors do
with it is not modelled (XKaapi.TaskList.Migrate), nor are their pushes to
the ready lists of this one while a list is executed.

Three things are parameters. `choose` picks the descriptor that
`kaapi_readylist_pop` answers; `stackExecframe` is `kaapi_stack_execframe`,
which the code calls where a task has pushed tasks of its own; and fuel
bounds nested bodies and turns of the loops. An execution that goes on for
ever, calls a body that is 0 or writes past the last frame answers `none`
whatever the fuel.
-/
import XKaapi.Lib.RoseTree
import XKaapi.Task.Execframe
import XKaapi.TaskList.Exec

namespace XKaapi.TaskList

open Dfg

/-- `kaapi_readylist_pop` and the count of the body it is popped for, as far
as they concern the list. -/
def FrameTasklist.popTd (tl : FrameTasklist) (id : TdId) : FrameTasklist :=
  { tl with
    rtl := tl.rtl.erase id
    executed := tl.executed ++ [id]
    cntExec := tl.cntExec + 1 }

theorem execTd_eq (id : TdId) (tl : FrameTasklist) :
    execTd id tl = if id ∈ tl.rtl then (tl.popTd id).pushactivated id else none :=
  rfl

namespace Static

open Task.Execframe (maxReccall)

-- ======== state

/-- A pushed task: whether its body is `kaapi_staticschedtask_body`, a
name for it, what the analysis of the frame knows of it, its site (0 for
none, else a processor plus 1), whether its architectures include the CPU,
and whether its format (that of the sub-task of a static one) has the two
bodies for the CPU. -/
structure PushedTask where
  isStatic : Bool
  id : Nat
  params : Task
  site : Nat
  hasArch : Bool
  entrypoint : Bool
  entrypointWh : Bool

/-- `kaapi_readytasklist_pushready_td` leaves the descriptor of the task to
processor `kid`, and `kaapi_readylist_pop` takes it there. -/
def PushedTask.runsOn (v : PushedTask) (kid : Nat) : Bool :=
  (v.site == 0 || v.site == kid + 1) && v.hasArch && v.entrypoint

/-- A pushed task and the tasks its body pushes, in order. -/
abbrev Spawn := RoseTree PushedTask

/-- The processor of the thread: its number, and the descriptors of other
lists in its two ready lists. -/
structure Proc where
  kid : Nat
  rtl : List (Nat × TdId)

/-- The thread pops the ready descriptor, in a frame of tasks. The internal
tasks have no format. -/
def Proc.takes (proc : Proc) (tasks : List Spawn) : TdId → Bool
  | .init _ => true
  | .task k => (tasks[k]?).all fun t => t.val.runsOn proc.kid

/-- `kaapi_frame_t`. -/
structure Frame where
  pc : Int
  tasks : List Spawn
  tasklist : Option Nat

/-- The first free slot of a frame; the stack grows down. -/
def Frame.sp (f : Frame) : Int := f.pc - f.tasks.length

/-- `kaapi_frame_isempty`. -/
def Frame.isEmpty (f : Frame) : Bool := decide (f.pc ≤ f.sp)

/-- The state of a thread that its static tasks have to leave alone. -/
structure Snapshot where
  sfp : Nat
  frame : Frame
  unstealable : Int

/-- `kaapi_thread_context_t`. -/
structure Thread where
  stackframe : Nat → Frame
  sfp : Nat
  esfp : Nat
  unstealable : Int
  /-- The task lists, by address. -/
  lists : Nat → FrameTasklist
  /-- The address of the next one. -/
  brk : Nat
  executed : List Nat
  returns : List (Snapshot × Snapshot)

namespace Thread

variable (th : Thread)

/-- The current frame. -/
def frame : Frame := th.stackframe th.sfp

def setFrame (i : Nat) (f : Frame) : Thread :=
  { th with stackframe := Function.update th.stackframe i f }

def snapshot : Snapshot where
  sfp := th.sfp
  frame := th.frame
  unstealable := th.unstealable

/-- `kaapi_thread_push_frame_`, which leaves the task list of the new
frame as it finds it. -/
def pushFrame : Thread :=
  { th.setFrame (th.sfp + 1)
      { th.stackframe (th.sfp + 1) with
        pc := th.frame.sp
        tasks := [] } with
    sfp := th.sfp + 1 }

/-- `kaapi_thread_pop_frame_`. -/
def popFrame : Thread := { th with sfp := th.sfp - 1 }

/-- `kaapi_thread_set_unstealable`. -/
def setUnstealable (b : Int) : Thread := { th with unstealable := b }

/-- A user body pushes its tasks. -/
def pushTasks (ts : List Spawn) : Thread :=
  th.setFrame th.sfp { th.frame with tasks := th.frame.tasks ++ ts }

/-- `stack.sfp->tasklist = a`. -/
def setTasklist (a : Option Nat) : Thread :=
  th.setFrame th.sfp { th.frame with tasklist := a }

/-- `malloc` of a task list, with its contents. -/
def malloc (tl : FrameTasklist) : Thread :=
  { th with
    lists := Function.update th.lists th.brk tl
    brk := th.brk + 1 }

def setList (a : Nat) (tl : FrameTasklist) : Thread :=
  { th with lists := Function.update th.lists a tl }

/-- The task at a return: what it found is `entry`. -/
def ret (entry : Snapshot) : Thread :=
  { th with returns := th.returns ++ [(entry, th.snapshot)] }

end Thread

-- ======== code

section Code

/-- What the two functions that execute a frame answer. -/
inductive Answer
  | done
  | ewouldblock
deriving DecidableEq, Repr

variable (proc : Proc) (choose : Thread → Nat)
  (stackExecframe : Thread → Option (Thread × Answer))

/-- `kaapi_readylist_pop`: no descriptor iff there is none to take. -/
def readylistPop (th : Thread) (rtl : List TdId) : Option TdId :=
  let mine := rtl.filter (proc.takes th.frame.tasks)
  mine[choose th % mine.length]?

section Body

variable (body : Spawn → Thread → Option Thread)

/-- The body of the task of a descriptor. The internal tasks only move
data. -/
def runBody (tasks : List Spawn) (id : TdId) (th : Thread) : Option Thread :=
  match id with
  | .init _ => some th
  | .task k =>
    match tasks[k]? with
    | none => none
    | some t =>
      if t.val.entrypointWh = true then
        body t { th with executed := th.executed ++ [t.val.id] }
      else none

/-- The part of the loop of `kaapi_thread_execframe_tasklist` that runs the
task of a descriptor, in a copy of the frame. A frame that would block is
not popped. -/
def runTd (id : TdId) (th : Thread) : Option (Thread × Answer) :=
  let fp := th.sfp + 1
  if fp < maxReccall then
    (runBody body th.frame.tasks id
      { th.setFrame fp th.frame with sfp := fp }).bind fun th =>
    -- new tasks created? `fp` is the frame `sfp` was set to
    (if (th.stackframe fp).sp > (th.stackframe th.sfp).sp then
      stackExecframe th
    else some (th, .done)).map fun r =>
    match r.2 with
    | .ewouldblock => r
    | .done => ({ r.1 with sfp := fp - 1 }, .done)
  else none

/-- A turn of the loop of `kaapi_thread_execframe_tasklist` on the list at
`a`, which pops descriptor `id`. -/
def turn (a : Nat) (id : TdId) (th : Thread) : Option (Thread × Answer) :=
  if id ∈ (th.lists a).rtl then
    (runTd stackExecframe body id (th.setList a ((th.lists a).popTd id))).bind
      fun r =>
    match r.2 with
    | .ewouldblock => some r
    | .done =>
      ((r.1.lists a).pushactivated id).map fun tl => (r.1.setList a tl, .done)
  else none

/-- `kaapi_thread_execframe_tasklist` on the list at `a`. Where the ready
lists of the processor hold a descriptor of another list, that one is
executed and counted in this list: its count passes the total, and the
thread waits for ever. -/
def execframeTasklist (a : Nat) : Nat → Thread → Option (Thread × Answer)
  | 0, _ => none
  | fuel + 1, th =>
    match readylistPop proc choose th (th.lists a).rtl with
    | none =>
      if proc.rtl ≠ [] then none
      else if (th.lists a).cntExec = (th.lists a).totalTasks then
        some (th, .done)
      else some (th, .ewouldblock)
    | some id =>
      (turn stackExecframe body a id th).bind fun r =>
      match r.2 with
      | .ewouldblock => some r
      | .done => execframeTasklist a fuel r.1

/-- The loop of `kaapi_sched_sync_`. A thread that would block is resumed
as it was. -/
def schedSyncRedo (fuel : Nat) : Nat → Thread → Option Thread
  | 0, _ => none
  | redo + 1, th =>
    (match th.frame.tasklist with
      | none => stackExecframe th
      | some a =>
        execframeTasklist proc choose stackExecframe body a fuel th).bind
      fun r =>
    match r.2 with
    | .done => some r.1
    | .ewouldblock => schedSyncRedo fuel redo r.1

/-- `kaapi_sched_sync_`. -/
def schedSync (fuel : Nat) (th : Thread) : Option Thread :=
  if th.frame.tasklist = none ∧ th.frame.isEmpty = true then some th
  else
    let savepc := th.frame.pc
    let saveEsfp := th.esfp
    (schedSyncRedo proc choose stackExecframe body fuel fuel
      { th with esfp := th.sfp }).map fun th =>
    -- flush the stack of tasks
    { th.setFrame th.sfp { th.frame with
        pc := savepc
        tasks := [] } with
      esfp := saveEsfp }

/-- The rest of `kaapi_staticschedtask_body_gen` when the user's body has
pushed tasks: `saveState` is the state to restore. -/
def execSpawned (entry : Snapshot) (saveState : Int) (fuel : Nat)
    (th : Thread) : Option Thread :=
  (computereadylist (th.frame.tasks.map fun t => t.val.params)).bind fun tl =>
  let a := th.brk
  let th := th.malloc tl.tasklistreadyPushInit
  -- restore state
  let th := th.setUnstealable saveState
  let th := th.setTasklist (some a)
  (schedSync proc choose stackExecframe body fuel th).map fun th =>
  -- pop and restore the frame
  ((th.setTasklist none).popFrame).ret entry

/-- `kaapi_staticschedtask_body_gen`. -/
def staticschedtaskBodyGen (fuel : Nat) (t : Spawn) (th : Thread) :
    Option Thread :=
  let entry := th.snapshot
  let saveState := th.unstealable
  if th.sfp + 1 < maxReccall then
    let th := th.pushFrame
    let th := th.setUnstealable 1
    let th := th.pushTasks t.kids
    -- do nothing if no task pushed
    if th.frame.isEmpty = true then some (th.ret entry)
    else execSpawned proc choose stackExecframe body entry saveState fuel th
  else none

end Body

/-- A user's body. -/
def userBody (t : Spawn) (th : Thread) : Option Thread :=
  some (th.pushTasks t.kids)

/-- The body of a task, `fuel` bounding the nest and the loops. -/
def taskBody : Nat → Spawn → Thread → Option Thread
  | 0, _, _ => none
  | fuel + 1, t, th =>
    if t.val.isStatic = true then
      staticschedtaskBodyGen proc choose stackExecframe (taskBody fuel) fuel t
        th
    else userBody t th

end Code

end Static

end XKaapi.TaskList
