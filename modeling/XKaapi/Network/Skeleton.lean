/-
The MPI wire protocol (network/mpinet/kampinet_channel.cpp,
kampinet_skel.cpp).

`flush` sends a header of two words with the tag 1 (AM) or 2 (RWDMA), then
the payload with the tag 3 when the size is not 0. The skeleton receives a
header from any source with any tag, then the payload from the source of
the header with the tag 3, in a buffer that only grows.

A message of one source is received in the order it was sent; `recv src`
is a reception from `src`, so a run fixes the order of the sources. The
machine is one receiver with the peers that send to it. Callbacks of the
instructions and the bodies of the services do not touch the wires and are
left out, as is a failing malloc.

The service is called with the size of the buffer, not with that of the
message: `mpiOk_of_meets` is about the runs where these are the same,
`mpiOk_fails` a run of two messages of sizes 2 and 1.

Not in the source: the instructions of each peer (`prog`), and the service
calls and the remote writes in their order (`log`).
-/
import Mathlib.Algebra.Group.Nat.Defs
import XKaapi.Network.InstructionStream

namespace XKaapi.Network

-- ======== messages

/-- A message by its tag: 1, 2 and 3. -/
inductive Msg where
  | am (handler size : Nat)
  | rw (dptr size : Nat)
  | data (bytes : List UInt8)
deriving DecidableEq, Repr

/-- What the receiver does for a source. -/
inductive Event where
  | call (handler : Nat) (payload : List UInt8) (size : Nat)
  | write (dptr : Nat) (payload : List UInt8)
deriving DecidableEq, Repr

/-- (int)size -/
def toInt (size : Nat) : Int := Int.bmod size (2 ^ 32)

/-- The bytes at an address. -/
def bytesAt (mem : Nat → UInt8) (lptr size : Nat) : List UInt8 :=
  (List.range size).map fun k => mem (lptr + k)

theorem length_bytesAt (mem : Nat → UInt8) (lptr size : Nat) :
    (bytesAt mem lptr size).length = size := by
  unfold bytesAt
  rw [List.length_map, List.length_range]

theorem toInt_of_lt {size : Nat} (h : size < 2 ^ 31) : toInt size = size := by
  unfold toInt
  rw [Int.bmod_def]
  split
  all_goals omega

/-- What an instruction asks the receiver to do. -/
def Instruction.event (mem : Nat → UInt8) : Instruction → List Event
  | .nop _ => []
  | .wb _ => []
  | .am i _ => [.call i.handler (bytesAt mem i.lptr i.size) i.size]
  | .rwdma i _ => [.write i.dptr (bytesAt mem i.lptr i.size)]

-- ======== machine

/-- OutChannel::flush of a peer: the instructions to go, and the address
and the size of the payload of the header just sent. -/
structure Peer where
  todo : List Instruction
  half : Option (Nat × Nat)
deriving DecidableEq, Repr

/-- Where the skeleton is. -/
inductive Stage where
  | header
  | payloadAm (src handler size : Nat)
  | payloadRw (src dptr size : Nat)
  | finished
deriving DecidableEq, Repr

structure Mpi where
  n : Nat
  serviceTerm : Nat
  localGid : Nat
  wcomSize : Int
  mem : Nat → Nat → UInt8
  peers : Nat → Peer
  wire : Nat → List Msg
  stage : Stage
  heap : Nat → UInt8
  bufferAm : List UInt8
  szBufferAm : Nat
  ackTerm : Int
  failed : Bool
  prog : Nat → List Instruction
  log : List (Nat × Event)

inductive MpiAct where
  | send (src : Nat)
  | recv (src : Nat)
deriving DecidableEq, Repr

/-- The first message with the tag 3, and the others. -/
def takeData : List Msg → Option (List UInt8 × List Msg)
  | [] => none
  | .data bytes :: rest => some (bytes, rest)
  | m :: rest => (takeData rest).map fun r => (r.1, m :: r.2)

namespace Mpi

/-- Before the first message; `heap` is what malloc finds in memory. -/
def init (n serviceTerm localGid : Nat) (wcomSize : Int) (mem : Nat → Nat → UInt8)
    (heap : Nat → UInt8) (prog : Nat → List Instruction) : Mpi where
  n := n
  serviceTerm := serviceTerm
  localGid := localGid
  wcomSize := wcomSize
  mem := mem
  peers := fun src => ⟨prog src, none⟩
  wire := fun _ => []
  stage := .header
  heap := heap
  bufferAm := []
  szBufferAm := 0
  ackTerm := 0
  failed := false
  prog := prog
  log := []

def setPeer (src : Nat) (p : Peer) (s : Mpi) : Mpi :=
  { s with peers := Function.update s.peers src p }

def setWire (src : Nat) (w : List Msg) (s : Mpi) : Mpi :=
  { s with wire := Function.update s.wire src w }

/-- MPI_Send -/
def post (src : Nat) (m : Msg) (s : Mpi) : Mpi := s.setWire src (s.wire src ++ [m])

def halfOf (lptr size : Nat) : Option (Nat × Nat) :=
  if 0 < size then some (lptr, size) else none

/-- OutChannel::flush goes on. -/
def flush (src : Nat) (s : Mpi) : Option Mpi :=
  match s.peers src with
  | ⟨todo, some (lptr, size)⟩ =>
    if toInt size < 0 then some { s with failed := true }
    else some ((s.setPeer src ⟨todo, none⟩).post src
      (.data (bytesAt (s.mem src) lptr (toInt size).toNat)))
  | ⟨[], none⟩ => none
  | ⟨.nop _ :: todo, none⟩ => some (s.setPeer src ⟨todo, none⟩)
  | ⟨.wb _ :: todo, none⟩ => some (s.setPeer src ⟨todo, none⟩)
  | ⟨.am i _ :: todo, none⟩ =>
    some ((s.setPeer src ⟨todo, halfOf i.lptr i.size⟩).post src
      (.am i.handler i.size))
  | ⟨.rwdma i _ :: todo, none⟩ =>
    some ((s.setPeer src ⟨todo, halfOf i.lptr i.size⟩).post src
      (.rw i.dptr i.size))

/-- The skeleton has done what a message asks for. -/
def emit (src : Nat) (e : Event) (s : Mpi) : Mpi :=
  { s with
    log := s.log ++ [(src, e)]
    stage := .header }

/-- The end of the case of an AM: the call, unless the service ends the
skeleton. -/
def service (src handler : Nat) (s : Mpi) : Mpi :=
  let call (s : Mpi) := s.emit src (.call handler s.bufferAm s.szBufferAm)
  if handler = s.serviceTerm then
    if s.localGid = 0 then
      let s := { s with ackTerm := s.ackTerm + 1 }
      if s.ackTerm = s.wcomSize - 1 then { s with stage := .finished } else call s
    else { s with stage := .finished }
  else call s

/-- The buffer of the active messages grows. -/
def grow (size : Nat) (s : Mpi) : Mpi :=
  if s.szBufferAm < size then
    { s with
      bufferAm := bytesAt s.heap 0 size
      szBufferAm := size }
  else s

/-- MPI_Recv in a buffer: what is not received stays. -/
def store (bytes : List UInt8) (s : Mpi) : Mpi :=
  { s with bufferAm := bytes ++ s.bufferAm.drop bytes.length }

/-- MPI_Recv of a payload of `src`. -/
def recvData (src size : Nat) (s : Mpi) (k : List UInt8 → Mpi → Mpi) : Option Mpi :=
  if toInt size < 0 then some { s with failed := true }
  else
    match takeData (s.wire src) with
    | none => none
    | some (bytes, rest) =>
      if bytes.length ≤ toInt size then some (k bytes (s.setWire src rest))
      else some { s with failed := true }

/-- The skeleton receives from `src`. -/
def skel (src : Nat) (s : Mpi) : Option Mpi :=
  match s.stage with
  | .header =>
    match s.wire src with
    | [] => none
    | .am handler size :: rest =>
      if 0 < size then
        some { (s.setWire src rest).grow size with
          stage := .payloadAm src handler size }
      else some ((s.setWire src rest).service src handler)
    | .rw dptr size :: rest =>
      if 0 < size then
        some { s.setWire src rest with stage := .payloadRw src dptr size }
      else some ((s.setWire src rest).emit src (.write dptr []))
    | .data _ :: _ => some { s with failed := true }
  | .payloadAm source handler size =>
    if src = source then
      s.recvData src size fun bytes s => (s.store bytes).service src handler
    else none
  | .payloadRw source dptr size =>
    if src = source then
      s.recvData src size fun bytes s => s.emit src (.write dptr bytes)
    else none
  | .finished => none

def step (a : MpiAct) (s : Mpi) : Option Mpi :=
  if s.failed then none
  else
    match a with
    | .send src => if src < s.n then s.flush src else none
    | .recv src => if src < s.n then s.skel src else none

-- ======== properties

/-- What has been done for a source. -/
def logOf (s : Mpi) (src : Nat) : List Event :=
  (s.log.filter fun e => e.1 = src).map Prod.snd

/-- What a source asks for. -/
def expected (s : Mpi) (src : Nat) : List Event :=
  (s.prog src).flatMap (Instruction.event (s.mem src))

/-- What is done for a source is what it asked for, with the payloads and
the sizes it sent and in its order; no assertion fails, so no payload is
taken for a header; and when nothing can go on, everything is done. -/
structure MpiOk (s : Mpi) : Prop where
  delivered : ∀ src, s.logOf src <+: s.expected src
  assertion : s.failed = false
  complete : (∀ a, step a s = none) → ∀ src < s.n, s.logOf src = s.expected src

/-- A service that ends the skeleton. -/
def Ends (s : Mpi) (handler : Nat) : Prop :=
  handler = s.serviceTerm ∧ (s.localGid = 0 → s.ackTerm + 1 = s.wcomSize - 1)

instance (s : Mpi) (handler : Nat) : Decidable (s.Ends handler) :=
  inferInstanceAs (Decidable (_ ∧ (_ → _)))

/-- An active message is not smaller than the buffer, and its service does
not end the skeleton. -/
def MeetsHeader (s : Mpi) : List Msg → Prop
  | .am handler size :: _ => s.szBufferAm ≤ size ∧ (size = 0 → ¬ s.Ends handler)
  | .rw _ _ :: _ => True
  | .data _ :: _ => True
  | [] => True

instance (s : Mpi) : ∀ w, Decidable (s.MeetsHeader w)
  | .am _ _ :: _ => inferInstanceAs (Decidable (_ ∧ (_ → _)))
  | .rw _ _ :: _ => isTrue trivial
  | .data _ :: _ => isTrue trivial
  | [] => isTrue trivial

/-- The same at each stage; the sizes fit in an int. -/
def MeetsAt (s : Mpi) (src : Nat) : Stage → Prop
  | .header => s.MeetsHeader (s.wire src)
  | .payloadAm _ handler size => size < 2 ^ 31 ∧ ¬ s.Ends handler
  | .payloadRw _ _ size => size < 2 ^ 31
  | .finished => True

instance (s : Mpi) (src : Nat) : ∀ st, Decidable (s.MeetsAt src st)
  | .header => inferInstanceAs (Decidable (s.MeetsHeader _))
  | .payloadAm _ _ _ => inferInstanceAs (Decidable (_ ∧ ¬ _))
  | .payloadRw _ _ _ => inferInstanceAs (Decidable (_ < _))
  | .finished => isTrue trivial

def Meets (a : MpiAct) (s : Mpi) : Prop :=
  match a with
  | .send src => ∀ h ∈ (s.peers src).half, h.2 < 2 ^ 31
  | .recv src => s.MeetsAt src s.stage

instance (a : MpiAct) (s : Mpi) : Decidable (Meets a s) :=
  match a with
  | .send src => inferInstanceAs
    (Decidable (∀ h ∈ (s.peers src).half, h.2 < 2 ^ 31))
  | .recv src => inferInstanceAs (Decidable (s.MeetsAt src s.stage))

end Mpi

end XKaapi.Network
