/-
The barrier of the TAKNET device (network/taknet/kataknet_barrier.cpp).

Rank 0 counts itself and waits, on a condition variable, until the count
of all arrivals so far is a multiple of the number of processes; then it
sends an acknowledgement to every other rank. Another rank sends a
message to rank 0 and waits for the flag its acknowledgement sets. The
messages are active messages: a process executes the services of those it
receives one at a time, beside its own thread.

Taking or releasing a mutex, each access under it, each send and each
reception is one step, in any order between the threads; messages are
delivered once, in any order, and a wait may end at any moment. A count
does not reach 2^64. `entered`, `left`, `counted`, `released` and `ackOf`
are not in the source: the barriers each process has entered and returned
from, the arrivals counted for it, the barriers whose wait rank 0 has
ended, and the barrier of the last acknowledgement received.

The one counter and the one flag serve for all barriers: a process is at
most one barrier ahead of the arrivals being counted (`Rank`), so the
count is a multiple only when everybody is there (`barrierOk`).
-/
import XKaapi.Lib.Run
import XKaapi.Lib.Tally

namespace XKaapi.Taknet

open Function (update)

-- ======== state

/-- An active message, with the barrier it is for: `service_barrier` from
a rank, `service_ackbarrier`. -/
inductive Msg
  | barrier (source k : Nat)
  | ack (k : Nat)
deriving DecidableEq, Repr

/-- Who holds the mutex of a process. -/
inductive Holder
  | main
  | service
deriving DecidableEq, Repr

/-- Where the thread of a process is in `barrier`. -/
inductive MainPc
  | out
  | send
  | lock
  | incr
  | setWaiting
  | test
  -- in `pthread_cond_wait`
  | asleep
  | relock
  | clearWaiting
  | sendAck (i : Nat)
  | clearRecv
  | unlock
deriving DecidableEq, Repr

/-- Where the service of the message a process has received is. -/
inductive ServicePc
  | idle
  | lock (m : Msg)
  | body (m : Msg)
  | signal (m : Msg)
  | unlock
deriving DecidableEq, Repr

/-- The static members of the device in each process (only rank 0 uses
`count` and `waiting`, only the others `recv`), the messages in flight
with their destination, and where everybody is. -/
structure St where
  wcomSize : Nat
  count : Nat
  waiting : Nat
  recv : Nat → Bool
  mutex : Nat → Option Holder
  main : Nat → MainPc
  service : Nat → ServicePc
  flight : List (Nat × Msg)
  entered : Nat → Nat
  left : Nat → Nat
  counted : Nat → Nat
  released : Nat
  ackOf : Nat → Nat

namespace St

def init (n : Nat) : St where
  wcomSize := n
  count := 0
  waiting := 0
  recv := fun _ => false
  mutex := fun _ => none
  main := fun _ => .out
  service := fun _ => .idle
  flight := []
  entered := fun _ => 0
  left := fun _ => 0
  counted := fun _ => 0
  released := 0
  ackOf := fun _ => 0

def setMain (i : Nat) (pc : MainPc) (s : St) : St :=
  { s with main := update s.main i pc }

def setService (i : Nat) (pc : ServicePc) (s : St) : St :=
  { s with service := update s.service i pc }

def setMutex (i : Nat) (h : Option Holder) (s : St) : St :=
  { s with mutex := update s.mutex i h }

/-- `insert_am` and `sync`. -/
def post (dest : Nat) (m : Msg) (s : St) : St :=
  { s with flight := s.flight ++ [(dest, m)] }

/-- `++_count`, for the process `i`. -/
def countArrival (i : Nat) (s : St) : St :=
  { s with
    count := s.count + 1
    counted := update s.counted i (s.counted i + 1) }

/-- `pthread_cond_signal`. -/
def signal (i : Nat) (s : St) : St :=
  if s.main i = .asleep then s.setMain i .relock else s

-- ======== steps

/-- The process `i` calls `barrier`. -/
def enter (i : Nat) (s : St) : Option St :=
  if s.main i = .out then
    some ({ s with
      entered := update s.entered i (s.entered i + 1) }.setMain
      i (if i = 0 then .lock else .send))
  else none

/-- One step of the thread of process `i` inside `barrier`. -/
def mainStep (i : Nat) (s : St) : Option St :=
  match s.main i with
  | .out => none
  | .send => some ((s.post 0 (.barrier i (s.entered i))).setMain i .lock)
  | .lock =>
    if s.mutex i = none then
      some ((s.setMutex i (some .main)).setMain i
        (if i = 0 then .incr else .test))
    else none
  | .incr => some ((s.countArrival i).setMain i .setWaiting)
  | .setWaiting => some ({ s with waiting := s.wcomSize }.setMain i .test)
  | .test =>
    if i = 0 then
      if s.count % s.wcomSize ≠ 0 then
        some ((s.setMutex i none).setMain i .asleep)
      else some ({ s with released := s.released + 1 }.setMain i .clearWaiting)
    else
      if s.recv i = false then some ((s.setMutex i none).setMain i .asleep)
      else some (s.setMain i .clearRecv)
  | .asleep => none
  | .relock =>
    if s.mutex i = none then
      some ((s.setMutex i (some .main)).setMain i .test)
    else none
  | .clearWaiting => some ({ s with waiting := 0 }.setMain i (.sendAck 1))
  | .sendAck j =>
    if j < s.wcomSize then
      some ((s.post j (.ack (s.entered i))).setMain i (.sendAck (j + 1)))
    else some (s.setMain i .unlock)
  | .clearRecv =>
    some ({ s with recv := update s.recv i false }.setMain i .unlock)
  | .unlock =>
    some ({ s.setMutex i none with
      left := update s.left i (s.left i + 1) }.setMain i .out)

/-- A message in flight reaches its process, which has no other one. -/
def deliver (i : Nat) (m : Msg) (s : St) : Option St :=
  if (i, m) ∈ s.flight ∧ s.service i = .idle then
    some ({ s with flight := s.flight.erase (i, m) }.setService i (.lock m))
  else none

/-- One step of the service process `i` executes. -/
def serviceStep (i : Nat) (s : St) : Option St :=
  match s.service i with
  | .idle => none
  | .lock m =>
    if s.mutex i = none then
      some ((s.setMutex i (some .service)).setService i (.body m))
    else none
  | .body (.barrier source k) =>
    some ((s.countArrival source).setService i (.signal (.barrier source k)))
  | .body (.ack k) =>
    some ({ s with
      recv := update s.recv i true
      ackOf := update s.ackOf i k }.setService i (.signal (.ack k)))
  | .signal (.barrier _ _) =>
    let s' := s.setService i .unlock
    if s.waiting ≠ 0 ∧ s.count % s.waiting = 0 then some (s'.signal i)
    else some s'
  | .signal (.ack _) => some ((s.setService i .unlock).signal i)
  | .unlock => some ((s.setMutex i none).setService i .idle)

/-- A wait ends without a signal. -/
def spurious (i : Nat) (s : St) : Option St :=
  if s.main i = .asleep then some (s.setMain i .relock) else none

end St

inductive Act
  | enter (i : Nat)
  | main (i : Nat)
  | deliver (i : Nat) (m : Msg)
  | service (i : Nat)
  | spurious (i : Nat)
deriving DecidableEq, Repr

/-- One step of a process, one of the `wcomSize`. -/
def step (a : Act) (s : St) : Option St :=
  match a with
  | .enter i => if i < s.wcomSize then s.enter i else none
  | .main i => if i < s.wcomSize then s.mainStep i else none
  | .deliver i m => if i < s.wcomSize then s.deliver i m else none
  | .service i => if i < s.wcomSize then s.serviceStep i else none
  | .spurious i => if i < s.wcomSize then s.spurious i else none

-- ======== the statement

/-- All processes are inside their `k`-th barrier. -/
def St.AllInside (s : St) (k : Nat) : Prop :=
  ∀ i < s.wcomSize, s.entered i = k ∧ s.left i + 1 = k

/-- No message is in flight or being served. -/
def St.NoMessage (s : St) : Prop :=
  s.flight = [] ∧ ∀ i < s.wcomSize, s.service i = .idle

/-- A place of rank 0 awake, before the acknowledgement of rank `i`. -/
def MainPc.Owes : MainPc → Nat → Prop
  | .lock, _ | .incr, _ | .setWaiting, _ | .test, _ | .relock, _ => True
  | .clearWaiting, _ => True
  | .sendAck j, i => j ≤ i
  | _, _ => False

/-- What the barrier promises in a state: who returned from a barrier did
so after all entered it; the flag a process clears was set by the
acknowledgement of the barrier it is in; and when all are inside the same
barrier and no message is left, some process can go on by itself, and one
that sleeps waits for the message another has not sent yet, or for rank 0,
which is awake and has not acknowledged it yet. -/
structure BarrierOk (s : St) : Prop where
  together : ∀ i < s.wcomSize, ∀ j < s.wcomSize, s.left i ≤ s.entered j
  own : ∀ i < s.wcomSize, s.main i = .clearRecv →
    s.recv i = true ∧ s.ackOf i = s.entered i
  goesOn : ∀ k, s.AllInside k → s.NoMessage →
    ∃ i < s.wcomSize, ∃ s', step (.main i) s = some s'
  sleeps : ∀ k, s.AllInside k → s.NoMessage →
    ∀ i < s.wcomSize, s.main i = .asleep →
      (∃ j < s.wcomSize, s.main j = .send) ∨ 0 < i ∧ (s.main 0).Owes i

end XKaapi.Taknet
