/-
Double-buffered instruction streams (network/kanet_instr.h,
kanet_instr.cpp).

A producer tests whether the buffer is full, and switches the buffers if
it is; then it reserves a slot by an increment, fills it, and publishes it
by writing its type. `switch_buffer` and `sync` exchange the buffer with
the one to send under the lock, flush the latter without the lock, and
reset it under the lock. `sync` keeps the write position and starts to
read from it, `switch_buffer` starts again from 0.

A section under the lock is one step. What is passed to `flush` is what
the slots say at that moment. `initialize` writes every position but the read
position of the buffer to send, which is taken as the zero of new memory.

Nothing holds a producer and an exchange apart: `streamOk_of_meets` is
about the runs where no slot is reserved past the end of the buffer and no
buffers are exchanged between a reservation and its publication,
`streamOk_fails` a run where two producers reserve the last slot.

Not in the source: the reservations in their order (`reserved`), the
instructions each thread has been asked to insert (`calls`), and how many
were reserved when a thread called `sync` (`since`).
-/
import XKaapi.Lib.Run

namespace XKaapi.Network

-- ======== instructions

/-- The callback of an instruction. -/
structure Callback where
  cbk : Nat
  arg : Nat
deriving DecidableEq, Repr

structure RWInstruction where
  dptr : Nat
  size : Nat
  lptr : Nat
deriving DecidableEq, Repr

structure AMInstruction where
  handler : Nat
  size : Nat
  lptr : Nat
deriving DecidableEq, Repr

/-- Instruction::Type -/
inductive InstType where
  | void
  | nop
  | rwdma
  | am
  | wb
deriving DecidableEq, Repr

/-- The union of an instruction slot. -/
inductive Body where
  | none
  | rw (i : RWInstruction)
  | am (i : AMInstruction)
deriving DecidableEq, Repr

/-- `Instruction`, a slot of a buffer. -/
structure Slot where
  type : InstType
  body : Body
  cbk : Callback
deriving DecidableEq, Repr

/-- What a producer inserts. -/
inductive Instruction where
  | nop (c : Callback)
  | rwdma (i : RWInstruction) (c : Callback)
  | am (i : AMInstruction) (c : Callback)
  | wb (c : Callback)
deriving DecidableEq, Repr

/-- The writes of the fields before the barrier. -/
def Instruction.fill (i : Instruction) (s : Slot) : Slot :=
  match i with
  | .nop c => ⟨s.type, s.body, c⟩
  | .rwdma r c => ⟨s.type, .rw r, c⟩
  | .am r c => ⟨s.type, .am r, c⟩
  | .wb c => ⟨s.type, s.body, c⟩

def Instruction.type (i : Instruction) : InstType :=
  match i with
  | .nop _ => .nop
  | .rwdma _ _ => .rwdma
  | .am _ _ => .am
  | .wb _ => .wb

/-- The write of the type. -/
def Instruction.publish (i : Instruction) (s : Slot) : Slot :=
    ⟨i.type, s.body, s.cbk⟩

/-- The instruction a slot holds, by its type. -/
def Slot.read (s : Slot) : Option Instruction :=
  match s.type, s.body with
  | .nop, _ => some (.nop s.cbk)
  | .wb, _ => some (.wb s.cbk)
  | .rwdma, .rw r => some (.rwdma r s.cbk)
  | .am, .am r => some (.am r s.cbk)
  | _, _ => none

theorem Instruction.read_publish_fill (i : Instruction) (s : Slot) :
    (i.publish (i.fill s)).read = some i := by
  cases i with
  | nop c => rfl
  | rwdma r c => rfl
  | am r c => rfl
  | wb c => rfl

-- ======== machine

/-- Where a thread is. -/
inductive StreamPc where
  | idle
  /-- Before the test of isfull in an insert. -/
  | testing (i : Instruction)
  /-- Before the lock in switch_buffer. -/
  | switching (i : Instruction)
  /-- In the wait of switch_buffer. -/
  | waiting (i : Instruction)
  /-- Before flush, in switch_buffer of an insert or in sync. -/
  | flushing (i : Option Instruction)
  /-- Before the lock that follows flush. -/
  | resetting (i : Option Instruction)
  /-- Before the increment. -/
  | reserving (i : Instruction)
  | filling (i : Instruction) (posw : Nat)
  | publishing (i : Instruction) (posw : Nat)
  /-- In the wait of sync. -/
  | syncWaiting
  /-- Before the lock in sync. -/
  | syncing
  /-- The assertion on the position has failed. -/
  | aborted
deriving DecidableEq, Repr

/-- Between the exchange of the buffers and the reset. -/
def StreamPc.sends : StreamPc → Bool
  | .flushing _ => true
  | .resetting _ => true
  | _ => false

/-- The slot between its reservation and its publication. -/
def StreamPc.slot : StreamPc → Option Nat
  | .filling _ posw => some posw
  | .publishing _ posw => some posw
  | _ => none

/-- The instruction of the insert, as long as it has no slot. -/
def StreamPc.pending : StreamPc → List Instruction
  | .testing i => [i]
  | .switching i => [i]
  | .waiting i => [i]
  | .flushing (some i) => [i]
  | .resetting (some i) => [i]
  | .reserving i => [i]
  | _ => []

inductive StateBuffer where
  | free
  | posted
deriving DecidableEq, Repr

/-- FlipFlopBloc; `buf` is the buffer `_start` points to. -/
structure FlipFlopBloc where
  state : StateBuffer
  buf : Nat → Slot
  posW : Nat
  posR : Nat

structure Stream where
  nthreads : Nat
  capacity : Nat
  tosend : FlipFlopBloc
  buf : Nat → Slot
  posW : Nat
  posR : Nat
  threads : Nat → StreamPc
  flushed : List (Option Instruction)
  reserved : List (Nat × Instruction)
  calls : Nat → List Instruction
  since : Nat → Nat

inductive Act where
  | insert (t : Nat) (i : Instruction)
  | sync (t : Nat)
  | step (t : Nat)
deriving DecidableEq, Repr

/-- The slots of a buffer from `lo` to `hi`, as flush reads them. -/
def slice (buf : Nat → Slot) (lo hi : Nat) : List (Option Instruction) :=
  (List.range' lo (hi - lo)).map fun k => (buf k).read

namespace Stream

/-- A new slot: Instruction() sets the type only. -/
def emptySlot : Slot := ⟨.nop, .none, ⟨0, 0⟩⟩

/-- InstructionStream::initialize. -/
def init (n capacity : Nat) : Stream where
  nthreads := n
  capacity := capacity
  tosend := ⟨.free, fun _ => emptySlot, 0, 0⟩
  buf := fun _ => emptySlot
  posW := 0
  posR := 0
  threads := fun _ => .idle
  flushed := []
  reserved := []
  calls := fun _ => []
  since := fun _ => 0

def setThread (t : Nat) (pc : StreamPc) (s : Stream) : Stream :=
  { s with threads := Function.update s.threads t pc }

def setSlot (k : Nat) (v : Slot) (s : Stream) : Stream :=
  { s with buf := Function.update s.buf k v }

def isfull (s : Stream) : Bool := s.posW == s.capacity

/-- FlipFlopBloc::swap, the state aside. -/
def swap (b : FlipFlopBloc) (s : Stream) : Stream :=
  { s with
    tosend := ⟨b.state, s.buf, s.posW, s.posR⟩
    buf := b.buf
    posW := b.posW
    posR := b.posR }

/-- The exchange of switch_buffer. -/
def exchange (s : Stream) : Stream :=
  s.swap ⟨.posted, s.tosend.buf, s.tosend.posW, s.tosend.posR⟩

/-- The exchange of sync: the position is kept, and read from. -/
def exchangeSync (s : Stream) : Stream :=
  { s.swap ⟨.posted, s.tosend.buf, s.posW, s.tosend.posR⟩ with posR := s.posW }

/-- A thread goes on. -/
def threadStep (t : Nat) (s : Stream) : Option Stream :=
  match s.threads t with
  | .idle => none
  | .aborted => none
  | .testing i =>
    if s.isfull then some (s.setThread t (.switching i))
    else some (s.setThread t (.reserving i))
  | .switching i =>
    if s.isfull then
      if s.tosend.state = .free then some
        (s.exchange.setThread t (.flushing (some i)))
      else some (s.setThread t (.waiting i))
    else some (s.setThread t (.reserving i))
  | .waiting i =>
    if s.tosend.state = .free then some (s.setThread t (.switching i)) else none
  | .flushing k =>
    let sent := slice s.tosend.buf s.tosend.posR s.tosend.posW
    some ({ s with flushed := s.flushed ++ sent }.setThread t (.resetting k))
  | .resetting k =>
    let s := { s with tosend := ⟨.free, s.tosend.buf, 0, 0⟩ }
    match k with
    | some i => some (s.setThread t (.reserving i))
    | none => some (s.setThread t .idle)
  | .reserving i =>
    let posw := s.posW
    let s := { s with posW := posw + 1 }
    if posw < s.capacity then
      some ({ s with reserved := s.reserved ++ [(t, i)] }.setThread t
        (.filling i posw))
    else some (s.setThread t .aborted)
  | .filling i posw =>
    some ((s.setSlot posw (i.fill (s.buf posw))).setThread t (.publishing i posw))
  | .publishing i posw =>
    some ((s.setSlot posw (i.publish (s.buf posw))).setThread t .idle)
  | .syncWaiting =>
    if s.tosend.state = .free then some (s.setThread t .syncing) else none
  | .syncing =>
    if s.tosend.state = .free then
      some (s.exchangeSync.setThread t (.flushing none))
    else some (s.setThread t .syncWaiting)

/-- One step: a thread calls insert or sync, or goes on. -/
def step (a : Act) (s : Stream) : Option Stream :=
  match a with
  | .insert t i =>
    if t < s.nthreads ∧ s.threads t = .idle then
      some ({ s with
        calls := Function.update s.calls t (s.calls t ++ [i]) }.setThread t
        (.testing i))
    else none
  | .sync t =>
    if t < s.nthreads ∧ s.threads t = .idle then
      some ({ s with since := Function.update s.since t s.reserved.length
        }.setThread t
        .syncWaiting)
    else none
  | .step t => if t < s.nthreads then s.threadStep t else none

-- ======== properties

/-- The instructions of a thread, in the order of their reservations. -/
def reservedBy (s : Stream) (t : Nat) : List Instruction :=
  (s.reserved.filter fun r => r.1 = t).map Prod.snd

/-- What the stream promises: the flushed instructions are the reserved
ones, each once, in the order of their reservations, which for one thread
is that of its insertions; no position is past the end of the buffer; and
when a sync has returned, what was reserved before its call is flushed. -/
structure StreamOk (s : Stream) : Prop where
  flushed : ∃ done, s.flushed = done.map some ∧ done <+: s.reserved.map Prod.snd
  calls : ∀ t, s.calls t = s.reservedBy t ++ (s.threads t).pending
  assertion : ∀ t, s.threads t ≠ .aborted
  synced : ∀ t, s.threads t = .idle → s.since t ≤ s.flushed.length

/-- No thread is between a reservation and its publication. -/
def Settled (s : Stream) : Prop := ∀ t < s.nthreads, (s.threads t).slot = none

instance (s : Stream) : Decidable s.Settled :=
  inferInstanceAs (Decidable (∀ t < s.nthreads, _))

/-- A slot is reserved in a buffer that is not full, and the buffers are
exchanged when every reserved slot is published. -/
def MeetsAt (s : Stream) : StreamPc → Prop
  | .reserving _ => s.posW < s.capacity
  | .switching _ => s.isfull = true → s.tosend.state = .free → s.Settled
  | .syncing => s.tosend.state = .free → s.Settled
  | _ => True

def Meets (a : Act) (s : Stream) : Prop :=
  match a with
  | .step t => s.MeetsAt (s.threads t)
  | _ => True

instance (s : Stream) : ∀ pc, Decidable (s.MeetsAt pc)
  | .reserving _ => inferInstanceAs (Decidable (_ < _))
  | .switching _ => inferInstanceAs (Decidable (_ → _ → _))
  | .syncing => inferInstanceAs (Decidable (_ → _))
  | .idle => isTrue trivial
  | .testing _ => isTrue trivial
  | .waiting _ => isTrue trivial
  | .flushing _ => isTrue trivial
  | .resetting _ => isTrue trivial
  | .filling _ _ => isTrue trivial
  | .publishing _ _ => isTrue trivial
  | .syncWaiting => isTrue trivial
  | .aborted => isTrue trivial

instance (a : Act) (s : Stream) : Decidable (Meets a s) :=
  match a with
  | .step t => inferInstanceAs (Decidable (s.MeetsAt (s.threads t)))
  | .insert _ _ => isTrue trivial
  | .sync _ => isTrue trivial

end Stream

end XKaapi.Network
