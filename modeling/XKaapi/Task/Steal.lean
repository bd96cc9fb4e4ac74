/-
One stealable DFG task, its owner and its thieves, as a step machine.

The owner runs the task from `kaapi_stack_execframe`
(thread/kaapi_thread_execframe.c): `kaapi_task_markexec`, and on an
answer other than 0 the tests on TERM, MERGE and STEAL in that order,
the last of which leads to `__kaapi_try_preempt`. A thief comes through
`kaapi_sched_stealstack`, which holds the lock of the stack around the
whole scan, and `kaapi_sched_steal_task`: the test
`kaapi_task_isstealable`, then `kaapi_task_marksteal`, then the tasksteal
task is prepared in the stack of the requester, published in `reserved`
and handed over with the reply. The requester executes it
(`kaapi_tasksteal_body`) and at the end `kaapi_taskwrite_body` publishes
TERM or MERGE under the LOCKED bit.

One step is one access to the state word of the task, to the state word
of its tasksteal task, to `reserved` or to the lock of the stack. Two
steps belong to nobody in particular: a SIGNALED bit may land on the
task at any time, and the slot of a finished tasksteal task may be
reused for anything.
-/
import XKaapi.Lib.Run
import XKaapi.Atomic.Lock
import XKaapi.Task.State

namespace XKaapi.Task

-- ======== state

/-- Who called the body of the task. -/
inductive Runner
  | owner
  | requester (r : Nat)
deriving DecidableEq, Repr

/-- What a steal hands over: the request it answers, and whether
`kaapi_taskwrite_body` will find `war_param` or `cw_param` non-zero. -/
structure Handover where
  requester : Nat
  merge : Bool
deriving DecidableEq, Repr

/-- Where the owner stands. -/
inductive OwnerPc
  | markexec
  | running
  -- `__kaapi_try_preempt`
  | trylock
  | readState
  | waitReserved
  | signal (r : Nat)
  | unlock (eintr : Bool)
  -- `EWOULDBLOCK` was returned
  | suspended
  | aftersteal
  | passed
deriving DecidableEq, Repr

/-- Where a thief stands. In `held` it is inside the scan of
`kaapi_sched_stealframe`. -/
inductive ThiefPc
  | out
  | locking (pc : LockPc)
  | held
  | marksteal (h : Handover)
  | initTask (h : Handover)
  | setReserved (h : Handover)
  | reply (h : Handover)
  | unlocking (pc : UnlockPc)
deriving DecidableEq, Repr

/-- Where the execution of a tasksteal task stands: `markexec` by the
requester's own `kaapi_stack_execframe`, the body, then the three atomic
operations of `kaapi_taskwrite_body`. -/
inductive ExecPc
  | none
  | markexec (merge : Bool)
  | running (merge : Bool)
  | lock (merge : Bool)
  | mark (merge : Bool)
  | unlock (merge : Bool)
  | done (merge : Bool)
  -- the tasksteal task was found marked already
  | refused
deriving DecidableEq, Repr

/-- The shared words, every party's position, and what happened. -/
structure St where
  word : StateWord
  unstealable : Bool
  reserved : Option Nat
  lock : KaapiLock
  owner : OwnerPc
  thief : Nat → ThiefPc
  exec : Nat → ExecPc
  tasksteal : Nat → StateWord
  begun : List Runner
  ended : List Runner
  steals : List Handover
  aftersteals : Nat

/-- The task as `kaapi_task_init` and the push leave it. -/
def taskPushed (unstealable : Bool) : St where
  word := taskStateInit
  unstealable := unstealable
  reserved := none
  lock := atomicInitlock
  owner := .markexec
  thief := fun _ => .out
  exec := fun _ => .none
  tasksteal := fun _ => taskStateInit
  begun := []
  ended := []
  steals := []
  aftersteals := 0

/-- Move thief `n`. -/
def St.setThief (s : St) (n : Nat) (pc : ThiefPc) : St :=
  { s with thief := Function.update s.thief n pc }

/-- Move the execution by requester `r`. -/
def St.setExec (s : St) (r : Nat) (pc : ExecPc) : St :=
  { s with exec := Function.update s.exec r pc }

/-- Write the state word of the tasksteal task of requester `r`. -/
def St.setTasksteal (s : St) (r : Nat) (w : StateWord) : St :=
  { s with tasksteal := Function.update s.tasksteal r w }

-- ======== owner

/-- `kaapi_stack_execframe` after `kaapi_task_markexec` answered
`state`: run the body, or test TERM, MERGE and STEAL in this order.
The later test on SIGNALED never fires, `state` being masked with
`KAAPI_TASK_EXECUTION_STATE`, and both its outcomes pass the task. -/
def ownerMarked (s : St) (state : StateWord) : St :=
  if state = 0#32 then
    { s with owner := .running, begun := s.begun ++ [.owner] }
  else if Has state taskStateTerm then { s with owner := .passed }
  else if Has state taskStateMerge then { s with owner := .aftersteal }
  else if Has state taskStateSteal then { s with owner := .trylock }
  else { s with owner := .passed }

/-- The owner's next atomic access. -/
def ownerStep (s : St) : Option St :=
  match s.owner with
  | .markexec =>
    let (w, state) := taskMarkexec s.word
    some (ownerMarked { s with word := w } state)
  | .running =>
    some { s with owner := .passed, ended := s.ended ++ [.owner] }
  | .trylock =>
    let (w, ok) := taskTrylock s.word
    some { s with
      word := w
      owner := if ok then .waitReserved else .readState }
  | .readState =>
    if Has s.word taskStateTerm then some { s with owner := .passed }
    else if Has s.word taskStateMerge then
      some { s with owner := .aftersteal }
    else some { s with owner := .trylock }
  | .waitReserved =>
    match s.reserved with
    | none => some s
    | some r => some { s with owner := .signal r }
  | .signal r =>
    let (w, oldstate) := taskOrstate (s.tasksteal r) taskStateSignaled
    some { s.setTasksteal r w with
      owner := .unlock (decide (oldstate = taskStateExec)) }
  | .unlock eintr =>
    some { s with
      word := taskUnlock s.word
      owner := if eintr then .markexec else .suspended }
  | .suspended =>
    some { s with
      owner := if taskIsready s.word then .markexec else .suspended }
  | .aftersteal =>
    some { s with owner := .passed, aftersteals := s.aftersteals + 1 }
  | .passed => none

-- ======== thieves

/-- Thief `n`'s next atomic access. -/
def thiefStep (n : Nat) (s : St) : Option St :=
  match s.thief n with
  | .out => none
  | .held => none
  | .locking pc =>
    match atomicLock pc s.lock with
    | (l, some pc') => some ({ s with lock := l }.setThief n (.locking pc'))
    | (l, none) => some ({ s with lock := l }.setThief n .held)
  | .marksteal h =>
    let (w, won) := taskMarksteal s.word
    if won then
      some ({ s with
        word := w
        steals := s.steals ++ [h] }.setThief n (.initTask h))
    else some ({ s with word := w }.setThief n .held)
  | .initTask h =>
    some ((s.setTasksteal h.requester taskStateInit).setThief n
      (.setReserved h))
  | .setReserved h =>
    some ({ s with reserved := some h.requester }.setThief n (.reply h))
  | .reply h =>
    some ((s.setExec h.requester (.markexec h.merge)).setThief n .held)
  | .unlocking pc =>
    match atomicUnlock pc s.lock with
    | (l, some pc') =>
      some ({ s with lock := l }.setThief n (.unlocking pc'))
    | (l, none) => some ({ s with lock := l }.setThief n .out)

/-- The next atomic access of requester `r` for its tasksteal task. -/
def execStep (r : Nat) (s : St) : Option St :=
  match s.exec r with
  | .none => none
  | .markexec merge =>
    let (w, state) := taskMarkexec (s.tasksteal r)
    if state = 0#32 then
      some { (s.setTasksteal r w).setExec r (.running merge) with
        begun := s.begun ++ [.requester r] }
    else some ((s.setTasksteal r w).setExec r .refused)
  | .running merge =>
    some { s.setExec r (.lock merge) with
      ended := s.ended ++ [.requester r] }
  | .lock merge =>
    let (w, ok) := taskTrylock s.word
    some ({ s with word := w }.setExec r
      (if ok then .mark merge else .lock merge))
  | .mark merge =>
    let w := if merge then taskMarkaftersteal s.word else taskMarkterm s.word
    some ({ s with word := w }.setExec r (.unlock merge))
  | .unlock merge =>
    some ({ s with word := taskUnlock s.word }.setExec r (.done merge))
  | .done _ => none
  | .refused => none

-- ======== system

/-- A call, or one party's next atomic step. -/
inductive Act
  | owner
  | enter (n : Nat)
  | look (n : Nat) (h : Handover)
  | leave (n : Nat)
  | thief (n : Nat)
  | exec (r : Nat)
  | preempt
  | reuse (r : Nat) (w : StateWord)
deriving DecidableEq, Repr

/-- One step of the whole system. `look` is the visit of the task by a
scan for which `kaapi_task_computeready` found it ready; `reuse` is what
becomes of the slot of a tasksteal task once it is over. -/
def step (a : Act) (s : St) : Option St :=
  match a with
  | .owner => ownerStep s
  | .enter n =>
    if s.thief n = .out then some (s.setThief n (.locking .decr)) else none
  | .look n h =>
    if s.thief n = .held then
      some (s.setThief n
        (if taskIsstealable s.word s.unstealable then .marksteal h
         else .held))
    else none
  | .leave n =>
    if s.thief n = .held then
      some (s.setThief n (.unlocking .testSync))
    else none
  | .thief n => thiefStep n s
  | .exec r => execStep r s
  | .preempt => some { s with word := taskMarkpreempted s.word }
  | .reuse r w =>
    match s.exec r with
    | .done _ => some (s.setTasksteal r w)
    | _ => none

-- ======== frame facts

namespace St

variable (s : St) (n : Nat)

@[simp] theorem setThief_self (pc : ThiefPc) :
    (s.setThief n pc).thief n = pc := by
  simp [setThief]

@[simp] theorem setThief_ne (pc : ThiefPc) {m : Nat} (hne : m ≠ n) :
    (s.setThief n pc).thief m = s.thief m := by
  simp [setThief, hne]

@[simp] theorem setExec_self (pc : ExecPc) :
    (s.setExec n pc).exec n = pc := by
  simp [setExec]

@[simp] theorem setExec_ne (pc : ExecPc) {m : Nat} (hne : m ≠ n) :
    (s.setExec n pc).exec m = s.exec m := by
  simp [setExec, hne]

end St

end XKaapi.Task
