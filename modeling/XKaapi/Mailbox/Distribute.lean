/-
Tasks spawned with a kid (kaapi_thread_distribute_task,
kaapi_task_pushtaskdfg_queue.c) and the mailboxes they go through.

A thread pushes the tasks of its frame one by one. A task for another
processor is first marked STEAL, as a thief would mark it, then pushed in
the frame, and last a steal task on it is linked in the FIFO of that
processor, under the lock of the processor. The requests served there
(kaapi_sched_stealreadytasklist, called with the lock of the processor
held) copy the steal tasks into the threads of the requesters, which run
them (kaapi_tasksteal_body) and publish TERM in the task
(kaapi_taskwrite_body). When the thread comes to execute its frame
(kaapi_stack_execframe) it passes a task marked STEAL only once TERM is
there.

One step is one access to a state word, one push in a frame, or one
section under the lock of a processor. Every thread has a frame, so the
other threads that distribute tasks to the same mailbox are threads of
the same machine.
-/
import XKaapi.Lib.Fifo
import XKaapi.Lib.Run
import XKaapi.Dfg.Access
import XKaapi.Task.State

namespace XKaapi.Mailbox

open XKaapi.Task (StateWord Has taskStateInit taskStateExec taskStateTerm taskStateMerge
  taskStateSteal taskStateSignaled taskMarkexec taskMarksteal taskOrstate
    taskTrylock
  taskUnlock taskMarkterm taskIsready)
open Function (update)

-- ======== state

/-- A task by its thread and its place in the frame of the thread. -/
abbrev Id := Nat × Nat

/-- A task of a frame: its parameters, whether a steal task on it was
given to a mailbox (`reserved` points to it), and its state word. -/
structure LocalTask where
  params : List Dfg.Param
  remote : Bool
  word : StateWord
deriving DecidableEq, Repr

/-- Where a thread stands: in the body that spawns, inside
`kaapi_thread_distribute_task`, or executing the task its `pc` points to. -/
inductive OwnerPc
  | spawning
  | pushtask (params : List Dfg.Param) (kid : Nat)
  | mailbox (kid : Nat)
  | markexec
  | running
  -- `__kaapi_try_preempt`
  | trylock
  | readState
  | signal
  | unlock (eintr : Bool)
  -- `EWOULDBLOCK` was returned
  | suspended
deriving DecidableEq, Repr

/-- Where the execution of a steal task by a requester stands. -/
inductive JobPc
  | markexec
  | running
  | lock
  | mark
  | unlock
  | done
  | refused
deriving DecidableEq, Repr

/-- A steal task in the stack of a requester: the task it is on, its own
state word, and where its execution stands. -/
structure Job where
  origin : Id
  word : StateWord
  pc : JobPc
deriving DecidableEq, Repr

/-- The frames, the mailboxes with the links of the steal tasks in them,
the steal tasks answered to requests, and what happened so far. -/
structure St where
  tasks : Nat → List LocalTask
  pc : Nat → Nat
  owner : Nat → OwnerPc
  next : Id → Option Id
  mailbox : Nat → Fifo Id
  remoteTask : Id → StateWord
  jobs : List Job
  begun : List Id
  ended : List Id
  sent : Nat → List Id
  served : Nat → List Id

/-- Before anything was spawned. -/
def St.start : St where
  tasks := fun _ => []
  pc := fun _ => 0
  owner := fun _ => .spawning
  next := fun _ => none
  mailbox := fun _ => ⟨none, none⟩
  remoteTask := fun _ => taskStateInit
  jobs := []
  begun := []
  ended := []
  sent := fun _ => []
  served := fun _ => []

def St.setOwner (s : St) (t : Nat) (pc : OwnerPc) : St :=
  { s with owner := update s.owner t pc }

/-- `kaapi_thread_pushtask`. -/
def St.push (s : St) (t : Nat) (task : LocalTask) : St :=
  { s with tasks := update s.tasks t (s.tasks t ++ [task]) }

/-- The state word of a task. -/
def St.word (s : St) (x : Id) : StateWord :=
  match (s.tasks x.1)[x.2]? with
  | some task => task.word
  | none => taskStateInit

/-- Write the state word of a task. -/
def St.setWord (s : St) (x : Id) (w : StateWord) : St :=
  { s with tasks := update s.tasks x.1
            ((s.tasks x.1).modify x.2 fun task => { task with word := w }) }

/-- The thread goes to its next task. -/
def St.pass (s : St) (t : Nat) : St :=
  { s with
    pc := update s.pc t (s.pc t + 1)
    owner := update s.owner t .markexec }

-- ======== the steps

/-- Start of `kaapi_thread_distribute_task`: the kid is taken modulo the
number of processors; the own one just pushes, another one marks the task
that is not visible yet. -/
def distributeTask (concurrency t : Nat) (params : List Dfg.Param) (kid : Nat)
    (s : St) : St :=
  let kid := if concurrency ≤ kid then kid % concurrency else kid
  if t = kid then s.push t ⟨params, false, taskStateInit⟩
  else s.setOwner t (.pushtask params kid)

/-- The section under the lock of the processor `kid`: push in tail. -/
def mailboxPush (kid : Nat) (x : Id) (s : St) : St :=
  let (next, q) := Fifo.pushTail s.next (s.mailbox kid) x
  { s with
    next := next
    mailbox := update s.mailbox kid q
    sent := update s.sent kid (s.sent kid ++ [x]) }

/-- The thread's next access. -/
def ownerStep (t : Nat) (s : St) : Option St :=
  match s.owner t with
  | .spawning => none
  | .pushtask params kid =>
    some ((s.push t ⟨params, true, (taskMarksteal taskStateInit).1⟩).setOwner t
      (.mailbox kid))
  | .mailbox kid =>
    some ((mailboxPush kid (t, (s.tasks t).length - 1) s).setOwner t .spawning)
  | .markexec =>
    match (s.tasks t)[s.pc t]? with
    | none => some (s.setOwner t .spawning)
    | some task =>
      let (w, state) := taskMarkexec task.word
      let s' := s.setWord (t, s.pc t) w
      if state = 0#32 then
        some { s'.setOwner t .running with begun := s'.begun ++ [(t, s.pc t)] }
      else if Has state taskStateTerm then some (s'.pass t)
      else if Has state taskStateMerge then some (s'.pass t)
      else if Has state taskStateSteal then some (s'.setOwner t .trylock)
      else some (s'.pass t)
  | .running => some { s.pass t with ended := s.ended ++ [(t, s.pc t)] }
  | .trylock =>
    let (w, ok) := taskTrylock (s.word (t, s.pc t))
    some ((s.setWord (t, s.pc t) w).setOwner t (if ok then .signal else .readState))
  | .readState =>
    if Has (s.word (t, s.pc t)) taskStateTerm then some (s.pass t)
    else if Has (s.word (t, s.pc t)) taskStateMerge then some (s.pass t)
    else some (s.setOwner t .trylock)
  -- `reserved` was set before the task was pushed: there is no wait
  | .signal =>
    let (w, oldstate) := taskOrstate (s.remoteTask (t, s.pc t)) taskStateSignaled
    some ({ s with
      remoteTask := update s.remoteTask (t, s.pc t) w }.setOwner t
      (.unlock (decide (oldstate = taskStateExec))))
  | .unlock eintr =>
    some ((s.setWord (t, s.pc t) (taskUnlock (s.word (t, s.pc t)))).setOwner t
      (if eintr then .markexec else .suspended))
  | .suspended =>
    some (s.setOwner t
      (if taskIsready (s.word (t, s.pc t)) then .markexec else .suspended))

/-- One request served from the mailbox of `kid`, under its lock: the
steal task is copied, with its state word, into the requester's thread. -/
def serveRequest (kid : Nat) (s : St) : Option St :=
  match Fifo.popHead s.next (s.mailbox kid) with
  | none => none
  | some (x, q) =>
    some { s with
      mailbox := update s.mailbox kid q
      served := update s.served kid (s.served kid ++ [x])
      jobs := s.jobs ++ [⟨x, s.remoteTask x, .markexec⟩] }

def St.setJob (s : St) (n : Nat) (pc : JobPc) : St :=
  { s with jobs := s.jobs.modify n fun job => { job with pc := pc } }

/-- The next access of the requester that has the steal task `n`:
`kaapi_tasksteal_body` calls the body, `kaapi_taskwrite_body` publishes
TERM (`war_param` and `cw_param` are 0) once what it created is over. -/
def jobStep (n : Nat) (s : St) : Option St :=
  match s.jobs[n]? with
  | none => none
  | some job =>
    match job.pc with
    | .markexec =>
      let (w, state) := taskMarkexec job.word
      let s' := { s with jobs := s.jobs.modify n fun job => { job with word := w } }
      if state = 0#32 then
        some { s'.setJob n .running with begun := s.begun ++ [job.origin] }
      else some (s'.setJob n .refused)
    | .running => some { s.setJob n .lock with ended := s.ended ++ [job.origin] }
    | .lock =>
      let (w, ok) := taskTrylock (s.word job.origin)
      some ((s.setWord job.origin w).setJob n (if ok then .mark else .lock))
    | .mark => some ((s.setWord job.origin
      (taskMarkterm (s.word job.origin))).setJob n .unlock)
    | .unlock => some ((s.setWord job.origin
      (taskUnlock (s.word job.origin))).setJob n .done)
    | .done => none
    | .refused => none

/-- What the spawning body calls, or one party's next access. -/
inductive Act
  | push (t : Nat) (params : List Dfg.Param)
  | distribute (t : Nat) (params : List Dfg.Param) (kid : Nat)
  | execframe (t : Nat)
  | owner (t : Nat)
  | serve (kid : Nat)
  | job (n : Nat)
deriving DecidableEq, Repr

/-- One step of the machine of `concurrency` processors. -/
def step (concurrency : Nat) (a : Act) (s : St) : Option St :=
  match a with
  | .push t params =>
    if s.owner t = .spawning then some
      (s.push t ⟨params, false, taskStateInit⟩) else none
  | .distribute t params kid =>
    if s.owner t = .spawning then some
      (distributeTask concurrency t params kid s) else none
  | .execframe t =>
    if s.owner t = .spawning then some (s.setOwner t .markexec) else none
  | .owner t => ownerStep t s
  | .serve kid => serveRequest kid s
  | .job n => jobStep n s

end XKaapi.Mailbox
