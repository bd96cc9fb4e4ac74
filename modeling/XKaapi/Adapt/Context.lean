/-
An adaptive task and its thieves (src/adapt).

`kaapi_task_begin_adaptive` makes the block that follows splittable: a
thief that scans the stack of its thread calls the splitter, which
replies to the waiting requests with tasks. Each of these is counted in
the steal context of the block, the master context, and signals it when
it is over: an adaptive task by the merge task behind it, which is
splittable in turn and whose own thieves count for the same master, any
other task by a signal task. The merge task pushed by
`kaapi_task_end_adaptive` waits for the counter to be 0.

A context is carved out of the stack of the thread, whose memory keeps
what it held before.

# The machine

The task 0 is the block, the others are the tasks replied, in their
order. A thief holds the lock of the stack it scans
(`kaapi_sched_stealstack`); it reads the state of a task, then whether it
is splittable (`kaapi_sched_splittask`), and calls its splitter, which
replies as often as it likes. A step is one access to what two threads
share: this lock, the state and the flags of a visible task, the counter
and the status of a request. A task replied is in the frame of its
request until it is committed, where nobody else sees it: it is prepared
and counted in one step.

With preemption the thieves are in a list, which no access below reads;
its lock is the word of the counter (a union).
-/
import XKaapi.Lib.Run
import XKaapi.Task.State

namespace XKaapi.Adapt

open XKaapi.Task

-- ======== state

/-- `KAAPI_SC_PREEMPTION` -/
def scPreemption : BitVec 64 := 0x10
/-- `KAAPI_SC_NOPREEMPTION` -/
def scNopreemption : BitVec 64 := 0x20

/-- kaapi_stealcontext_t. `msc` is the task that the master context
belongs to, `ktr` says whether the pointer of this name is set. -/
structure StealContext where
  msc : Nat
  flag : BitVec 64
  ktr : Bool
  count : Int

/-- The body of a task: the block of a master, an adaptive task, or any
other task, followed by its signal task. -/
inductive Body
  | begend
  | adapt
  | other
deriving DecidableEq

/-- Where the execution of a task stands. `merge` and the positions after
it are those of its merge task, or of its signal task. -/
inductive Pc
  /-- prepared under the lock of the stack `x`, not committed -/
  | pushed (x : Nat)
  | init
  | running
  | merge
  | synced
  | waiting
  | signal
  | term
deriving DecidableEq

/-- A task: the stack it is in, its state and two of its flags, its steal
context. A task that is not adaptive has no context; `msc` is then the
argument of the signal task. -/
structure AdaptTask where
  thread : Nat
  body : Body
  state : StateWord
  splittable : Bool
  preemption : Bool
  sc : StealContext
  pc : Pc

def AdaptTask.addCount (t : AdaptTask) (d : Int) : AdaptTask :=
  { t with sc := { t.sc with count := t.sc.count + d } }

/-- What the thread that holds the lock of a stack does: it scans it, has
found a task in a state to be split, or runs its splitter. -/
inductive Scan
  | free
  | held
  | chosen (v : Nat)
  | splitting (v : Nat)
deriving DecidableEq

structure St where
  n : Nat
  task : Nat → AdaptTask
  scan : Nat → Scan

namespace St

def setTask (s : St) (v : Nat) (t : AdaptTask) : St :=
  { s with task := Function.update s.task v t }

def setScan (s : St) (x : Nat) (scan : Scan) : St :=
  { s with scan := Function.update s.scan x scan }

/-- The execution of task `v` goes to another position. -/
def goto (s : St) (v : Nat) (pc : Pc) : St :=
  s.setTask v { s.task v with pc := pc }

/-- A task is prepared in the frame of a request. -/
def prepare (s : St) (t : AdaptTask) : St :=
  { s with
    n := s.n + 1
    task := Function.update s.task s.n t }

/-- `KAAPI_ATOMIC_INCR`, or `KAAPI_ATOMIC_DECR`, of `thieves.count` in the
context of the task `m`. -/
def addCount (s : St) (m : Nat) (d : Int) : St :=
  s.setTask m ((s.task m).addCount d)

end St

-- ======== begin

/-- kaapi_task_begin_adaptive, in the thread `x`, where the memory of the
context holds `mem`. -/
def taskBeginAdaptive (mem : StealContext) (flag : BitVec 64) (x : Nat) :
    St where
  n := 1
  task _ :=
    { thread := x
      body := .begend
      state := taskStateExec
      splittable := true
      preemption := flag &&& scPreemption ≠ 0
      sc :=
        { mem with
          msc := 0
          ktr := false
          -- the counter, or the lock of the list of thieves
          count := 0 }
      pc := .running }
  scan _ := .free

-- ======== replies

/-- kaapi_request_pushtask_adaptive: an adaptive task, with or without a
splitter and the preemption flag, is pushed for the thread `r`, the task
`v` being split under the lock of the stack `x`. -/
def requestPushtaskAdaptive (s : St) (x v r : Nat)
    (splitter preemption : Bool) : St :=
  let victim := s.task v
  -- kaapi_thread_pushtask_adaptive
  let sc : StealContext :=
    ⟨s.n, if preemption then scPreemption else scNopreemption, false, 0⟩
  let sc := { sc with msc := victim.sc.msc }
  let toptask : AdaptTask :=
    ⟨r, .adapt, taskStateInit, splitter, preemption, sc, .pushed x⟩
  let toptask :=
    if victim.preemption && !preemption then
      { toptask with
        splittable := false
        preemption := true
        sc := { sc with flag := scPreemption } }
    else toptask
  if toptask.preemption then
    s.prepare { toptask with sc := { toptask.sc with ktr := true } }
  else (s.prepare toptask).addCount toptask.sc.msc 1

/-- kaapi_request_pushtask: a task that is not adaptive. -/
def requestPushtask (s : St) (x v r : Nat) (preemption : Bool) : St :=
  let victim := s.task v
  if victim.preemption then
    requestPushtaskAdaptive s x v r false preemption
  else
    (s.prepare ⟨r, .other, taskStateInit, false, preemption,
      ⟨victim.sc.msc, 0, false, 0⟩, .pushed x⟩).addCount victim.sc.msc 1

-- ======== steps

/-- The next access of the execution of task `v`. -/
def execStep (v : Nat) (s : St) : Option St :=
  let t := s.task v
  match t.pc with
  | .pushed _ | .term => none
  | .init =>
    let (state, old) := taskMarkexec t.state
    some (s.setTask v
      { t with
        state := state
        pc :=
          if old = 0 then .running
          -- its splitter marked it
          else if t.body = .other then .signal
          else .merge })
  | .running =>
    if t.body = .other then some (s.goto v .signal)
    -- kaapi_task_end_adaptive, or the end of kaapi_taskadapt_body
    else
      some (s.setTask v
        { t with
          splittable := false
          pc := .merge })
  -- kaapi_taskadaptmerge_body
  | .merge =>
    if s.scan t.thread = .free then some (s.goto v .synced) else none
  | .synced =>
    if t.sc.msc = v then
      if t.sc.flag &&& scPreemption ≠ 0 then some (s.goto v .term)
      else some (s.goto v .waiting)
    else if t.sc.flag = scPreemption then some (s.goto v .term)
    else some (s.goto v .signal)
  | .waiting => if t.sc.count = 0 then some (s.goto v .term) else none
  -- the end of the merge task, or kaapi_tasksignaladapt_body
  | .signal => some ((s.goto v .term).addCount t.sc.msc (-1))

/-- One access. -/
inductive Act
  /-- a thief takes the lock of the stack `x` -/
  | lock (x : Nat)
  /-- it reads the state of the task `v` -/
  | look (x v : Nat)
  /-- it reads whether the task found is splittable -/
  | test (x : Nat)
  /-- the splitter replies to the thread `r` with an adaptive task -/
  | pushAdaptive (x r : Nat) (splitter preemption : Bool)
  /-- or with another one -/
  | push (x r : Nat) (preemption : Bool)
  | commit (k : Nat)
  /-- the splitter returns, `ECHILD` or not -/
  | splitted (x : Nat) (echild : Bool)
  | unlock (x : Nat)
  | exec (v : Nat)

def step (a : Act) (s : St) : Option St :=
  match a with
  | .lock x =>
    if s.scan x = .free then some (s.setScan x .held) else none
  | .look x v =>
    match s.scan x, (s.task v).pc with
    | .held, .pushed _ => none
    | .held, _ =>
      if v < s.n ∧ (s.task v).thread = x
          ∧ ((s.task v).state = taskStateInit
            ∨ (s.task v).state = taskStateExec) then
        some (s.setScan x (.chosen v))
      else none
    | _, _ => none
  | .test x =>
    match s.scan x with
    | .chosen v =>
      some (s.setScan x (if (s.task v).splittable then .splitting v else .held))
    | _ => none
  | .pushAdaptive x r splitter preemption =>
    match s.scan x with
    | .splitting v =>
      some (requestPushtaskAdaptive s x v r splitter preemption)
    | _ => none
  | .push x r preemption =>
    match s.scan x with
    | .splitting v => some (requestPushtask s x v r preemption)
    | _ => none
  | .commit k =>
    match (s.task k).pc with
    | .pushed x =>
      if k < s.n ∧ s.scan x ≠ .free then some (s.goto k .init) else none
    | _ => none
  | .splitted x echild =>
    match s.scan x with
    | .splitting v =>
      let t := s.task v
      some ((if echild then
          s.setTask v { t with state := taskMarkterm t.state }
        else s).setScan x .held)
    | _ => none
  | .unlock x =>
    if s.scan x = .held then some (s.setScan x .free) else none
  | .exec v => if v < s.n then execStep v s else none

end XKaapi.Adapt
