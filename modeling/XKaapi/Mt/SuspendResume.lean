/-
Suspension and resumption of the worker threads
(machine/mt/kaapi_mt_suspendresume.c).

The main thread opens a round (`post`), may wait until every worker is
suspended (`wait`), and closes it (`resume`). A worker that finds the flag
set counts itself and waits for a condition. The flag and the round are
written by the main thread without the mutex under which the workers read
them, except at the resume; one read or write of a shared word is one
step here, the mutex and the condition variable are those of
kaapi_mt_condvar.c at their interface: a wait ends when the sequence
number has changed, or spuriously.

The `first` of `kaapi_mt_suspend_self` is never cleared, so a worker whose
wait ends spuriously while the flag is set is counted again when it has
the mutex: `suspendOk_of_meets` is about the runs where it does not get
it, `suspendOk_fails` a run where it does.

`entered` is not in the source: the last round the worker entered.
-/
import XKaapi.Lib.Run
import XKaapi.Lib.Tally

namespace XKaapi.Mt

open StepMachine (run Along)

/-- Where a worker is in `kaapi_mt_suspend_self`. -/
inductive WorkerPc where
  /-- Not in it. -/
  | running
  /-- Before kproc_mutex_lock. -/
  | locking
  /-- Before the test of the flag, with the mutex. -/
  | testing
  /-- Before the unlock of a worker that found the flag clear. -/
  | leaving
  /-- Before the read of the round. -/
  | reading
  /-- Before the increment, the round read. -/
  | counting (newround : Nat)
  /-- Before the read of the sequence number of the condition. -/
  | waiting
  /-- Before the unlock in kproc_condunlock_wait. -/
  | unlocking (seq : Nat)
  /-- In the wait on the futex. -/
  | asleep (seq : Nat)
  /-- Before the test of the flag that follows the wait. -/
  | awake
deriving DecidableEq, Repr

/-- Between the lock and the unlock of the mutex. -/
def WorkerPc.holds : WorkerPc → Bool
  | .testing => true
  | .leaving => true
  | .reading => true
  | .counting _ => true
  | .waiting => true
  | .unlocking _ => true
  | _ => false

/-- A worker, with its local variables `first` and `round`. -/
structure Worker where
  pc : WorkerPc
  first : Bool
  round : Nat
  entered : Nat
deriving DecidableEq, Repr

/-- Where the main thread is. -/
inductive MainPc where
  /-- No round is open. -/
  | idle
  /-- In post, the round incremented. -/
  | posting
  /-- The round is open. -/
  | posted
  /-- In the loop of wait. -/
  | spinning
  /-- In resume, before the lock. -/
  | locking
  /-- Before the clearing of the flag. -/
  | clearing
  /-- Before the reset of the counter. -/
  | zeroing
  /-- Before the broadcast. -/
  | waking
  /-- Before the unlock. -/
  | unlocking
deriving DecidableEq, Repr

/-- Between the write of 1 to the flag and that of 0. -/
def MainPc.isOpen : MainPc → Bool
  | .posted => true
  | .spinning => true
  | .locking => true
  | .clearing => true
  | _ => false

/-- Between the lock and the unlock of the mutex. -/
def MainPc.holds : MainPc → Bool
  | .clearing => true
  | .zeroing => true
  | .waking => true
  | .unlocking => true
  | _ => false

/-- Who holds the mutex. -/
inductive Party where
  | main
  | worker (w : Nat)
deriving DecidableEq, Repr

/-- The variables of the file, the condition (`bound` tells that its field
`m` is set) and the threads. Worker `w` is the kprocessor `w + 1`. -/
structure Team where
  nworkers : Nat
  suspendflag : Nat
  suspendRound : Nat
  suspendedthreads : Nat
  mutex : Option Party
  bound : Bool
  seq : Nat
  main : MainPc
  workers : Nat → Worker

/-- What moves: the main thread calls a function or goes on, a worker
enters or goes on, a wait ends without a broadcast. -/
inductive Act where
  | post
  | wait
  | resume
  | main
  | enter (w : Nat)
  | worker (w : Nat)
  | spurious (w : Nat)
deriving DecidableEq, Repr

namespace Team

-- ======== machine

/-- kaapi_mt_suspendresume_init. -/
def init (n : Nat) : Team where
  nworkers := n
  suspendflag := 0
  suspendRound := 0
  suspendedthreads := 0
  mutex := none
  bound := false
  seq := 0
  main := .idle
  workers := fun _ => ⟨.running, true, 0, 0⟩

def setWorker (w : Nat) (x : Worker) (s : Team) : Team :=
  { s with workers := Function.update s.workers w x }

def setMain (pc : MainPc) (s : Team) : Team := { s with main := pc }

def setMutex (m : Option Party) (s : Team) : Team := { s with mutex := m }

def setFlag (f : Nat) (s : Team) : Team := { s with suspendflag := f }

def setSuspended (k : Nat) (s : Team) : Team := { s with suspendedthreads := k }

/-- kproc_condunlock_broadcast. -/
def broadcast (s : Team) : Team :=
  if s.bound then { s with seq := s.seq + 1 } else s

/-- The main thread goes on. -/
def mainStep (s : Team) : Option Team :=
  match s.main with
  | .idle => none
  | .posting => some ((s.setFlag 1).setMain .posted)
  | .posted => none
  | .spinning =>
    if s.suspendedthreads = s.nworkers then some (s.setMain .posted) else none
  | .locking =>
    if s.mutex = none then
      some ((s.setMutex (some .main)).setMain .clearing)
    else none
  | .clearing => some ((s.setFlag 0).setMain .zeroing)
  | .zeroing => some ((s.setSuspended 0).setMain .waking)
  | .waking => some (s.broadcast.setMain .unlocking)
  | .unlocking => some ((s.setMutex none).setMain .idle)

/-- The worker `w` goes on in kaapi_mt_suspend_self. -/
def workerStep (w : Nat) (x : Worker) (s : Team) : Option Team :=
  match x.pc with
  | .running => none
  | .locking =>
    if s.mutex = none then
      some ((s.setMutex (some (.worker w))).setWorker w { x with pc := .testing })
    else none
  | .testing =>
    if s.suspendflag = 0 then some (s.setWorker w { x with pc := .leaving })
    else some (s.setWorker w { x with pc := .reading })
  | .leaving => some ((s.setMutex none).setWorker w { x with pc := .running })
  | .reading => some (s.setWorker w { x with pc := .counting s.suspendRound })
  | .counting newround =>
    let s := if x.first || x.round != newround then
      s.setSuspended (s.suspendedthreads + 1) else s
    some (s.setWorker w ⟨.waiting, x.first, newround, newround⟩)
  | .waiting =>
    some ({ s with bound := true }.setWorker w { x with pc := .unlocking s.seq })
  | .unlocking seq =>
    some ((s.setMutex none).setWorker w { x with pc := .asleep seq })
  | .asleep seq =>
    if s.seq ≠ seq then some (s.setWorker w { x with pc := .awake }) else none
  | .awake =>
    if s.suspendflag = 0 then some (s.setWorker w { x with pc := .running })
    else some (s.setWorker w { x with pc := .locking })

/-- One step of the team. -/
def step (a : Act) (s : Team) : Option Team :=
  match a with
  | .post =>
    if s.main = .idle then
      some { s with
        suspendRound := s.suspendRound + 1
        main := .posting }
    else none
  | .wait =>
    if s.main = .posted then some ((s.setFlag 2).setMain .spinning) else none
  | .resume => if s.main = .posted then some (s.setMain .locking) else none
  | .main => s.mainStep
  | .enter w =>
    if w < s.nworkers ∧ (s.workers w).pc = .running then
      some (s.setWorker w
        ⟨.locking, true, (s.workers w).round, (s.workers w).entered⟩)
    else none
  | .worker w =>
    if w < s.nworkers then s.workerStep w (s.workers w) else none
  | .spurious w =>
    if w < s.nworkers then
      match s.workers w with
      | ⟨.asleep _, first, round, entered⟩ =>
        some (s.setWorker w ⟨.awake, first, round, entered⟩)
      | _ => none
    else none

-- ======== properties

/-- The worker has entered the suspension in the current round, and has
not left it. -/
def Suspended (w : Nat) (s : Team) : Prop :=
  (s.workers w).entered = s.suspendRound
    ∧ (s.workers w).pc ≠ .running ∧ (s.workers w).pc ≠ .leaving

/-- The number of workers that have entered the current round. -/
def enteredNow (s : Team) : Nat :=
  ∑ w ∈ Finset.range s.nworkers,
    if (s.workers w).entered = s.suspendRound then 1 else 0

/-- What the counter is for. -/
structure SuspendOk (s : Team) : Prop where
  /-- While a round is open the counter is the number of workers that have
  entered it. -/
  counter : s.main.isOpen = true → s.suspendedthreads = s.enteredNow
  /-- A round starts with a counter of 0. -/
  closed : s.main = .idle → s.suspendedthreads = 0
  /-- wait returns only when every worker is suspended. -/
  returns : s.main = .spinning → ∀ s', step .main s = some s' →
    ∀ w < s.nworkers, Suspended w s
  /-- A worker whose wait is not over is counted in the open round. -/
  sleeps : s.main = .idle ∨ s.main.isOpen = true → ∀ w < s.nworkers, ∀ seq,
    (s.workers w).pc = .asleep seq → seq = s.seq →
    s.main.isOpen = true ∧ (s.workers w).entered = s.suspendRound

/-- A worker that has entered the open round does not take the mutex again
in this round: its wait has not ended before the resume, or the resume
has the mutex first. -/
def Meets (a : Act) (s : Team) : Prop :=
  match a with
  | .worker w =>
    (s.workers w).pc = .locking → s.suspendflag ≠ 0 →
      (s.workers w).entered ≠ s.suspendRound
  | _ => True

instance (a : Act) (s : Team) : Decidable (Meets a s) :=
  match a with
  | .worker _ => inferInstanceAs (Decidable (_ → _ → _))
  | .post => isTrue trivial
  | .wait => isTrue trivial
  | .resume => isTrue trivial
  | .main => isTrue trivial
  | .enter _ => isTrue trivial
  | .spurious _ => isTrue trivial

/-- A worker moves, as the condition allows. -/
def WorkerMeets (a : Act) (s : Team) : Prop :=
  (∃ w, a = .enter w ∨ a = .worker w) ∧ Meets a s

/-- The workers alone can bring a wait to its end. -/
def CanReturn (s : Team) : Prop :=
  s.main = .spinning → ∃ as s', Along step WorkerMeets as s
    ∧ run step as s = some s' ∧ step .main s' = some (s'.setMain .posted)

/-- After a resume every worker can leave. -/
def CanLeave (s : Team) : Prop :=
  s.main = .idle → ∀ w < s.nworkers, ∃ as s', Along step WorkerMeets as s
    ∧ run step as s = some s' ∧ (s'.workers w).pc = .running

end Team

end XKaapi.Mt
