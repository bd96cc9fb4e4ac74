/-
The TAKNET wire protocol (network/taknet/kataknet_channel.cpp,
kataknet_skel.cpp, kataknet_alloc.cpp).

`flush` sends an active message as one TakTuk message, header and payload,
and a remote write as two, the header and the data. The skeleton reads a
message of any source in a buffer of 1024 bytes; after the header of a
remote write it receives the next message, again of any source, directly
at the address to write.

The process with the global id `g` has the TakTuk rank `g + 1`: `flush`
adds the 1, `initialize` takes it off its own rank, the skeleton does not.
A message of one source is received in the order it was sent; `recv src`
receives from `src`, so a run fixes the order of the sources. The
arithmetic on addresses is that of 64-bit words. Callbacks and the bodies
of the services do not touch the wires and are left out; `flush` sends no
'T', which only ends the skeleton.

Not in the source: the instructions each peer has flushed (`sent`), the
blocks `allocate` has returned, and the service calls and remote writes in
their order (`log`).
-/
import XKaapi.Network.Skeleton

namespace XKaapi.Taknet.Wire

open Network (Instruction bytesAt)

-- ======== messages

/-- `header.opcode`: 'A', 'D' or 'T'. -/
inductive Opcode where
  | am
  | rdma
  | term
deriving DecidableEq, Repr

/-- Header, 24 bytes. The fields `flush` does not fill are 0 here. -/
structure Header where
  opcode : Opcode
  sid : Nat
  size : Nat
  ptr : Nat
deriving DecidableEq, Repr

def sizeofHeader : Nat := 24

/-- A TakTuk message: a header with what follows it, or data. -/
inductive Msg where
  | header (h : Header) (payload : List UInt8)
  | data (bytes : List UInt8)
deriving DecidableEq, Repr

/-- `msg_size` -/
def Msg.size : Msg → Nat
  | .header _ payload => sizeofHeader + payload.length
  | .data bytes => bytes.length

/-- What the receiver does for a source; `stray` is a copy of a message
that is not data. -/
inductive Event where
  | call (sid source : Nat) (payload : List UInt8) (size : Nat)
  | write (dptr : Nat) (bytes : List UInt8)
  | stray (dptr size : Nat)
deriving DecidableEq, Repr

/-- A message copied at an address. -/
def Msg.copied (ptr : Nat) : Msg → Event
  | .header h payload => .stray ptr (Msg.header h payload).size
  | .data bytes => .write ptr bytes

def headerAm (sid size : Nat) : Header := ⟨.am, sid, size, 0⟩

def headerRw (dptr size : Nat) : Header := ⟨.rdma, 0, size, dptr⟩

-- ======== machine

/-- Where the skeleton is: before `taktuk_wait_message`, or before the
`taktuk_recv` of the data of a remote write. -/
inductive Stage where
  | header
  | data (source ptr size : Nat)
deriving DecidableEq, Repr

structure Tak where
  n : Nat
  segaddr : Nat
  segsize : Nat
  segsp : Nat
  mem : Nat → Nat → UInt8
  -- the data a peer still owes after a header
  half : Nat → Option (List UInt8)
  wire : Nat → List Msg
  stage : Stage
  ackTerm : Bool
  overrun : Bool
  failed : Bool
  sent : Nat → List Instruction
  blocks : List (Nat × Nat)
  log : List (Nat × Event)

inductive TakAct where
  | alloc (size : Nat)
  | flush (src : Nat) (i : Instruction)
  | data (src : Nat)
  | recv (src : Nat)
deriving DecidableEq, Repr

namespace Tak

def init (n segaddr segsize : Nat) (mem : Nat → Nat → UInt8) : Tak where
  n := n
  segaddr := segaddr
  segsize := segsize
  segsp := 0
  mem := mem
  half := fun _ => none
  wire := fun _ => []
  stage := .header
  ackTerm := false
  overrun := false
  failed := false
  sent := fun _ => []
  blocks := []
  log := []

/-- Device::allocate -/
def allocate (size : Nat) (s : Tak) : Tak :=
  let sp := s.segsp
  if s.segsize ≤ (sp + size) % 2 ^ 64 then s
  else
    { s with
      segsp := (sp + size + 8) % 2 ^ 64 / 8 * 8
      blocks := s.blocks ++ [(s.segaddr + sp, size)] }

/-- The bytes to write lie in a block of the receiver. -/
def InBlock (dptr size : Nat) (s : Tak) : Prop :=
  ∃ b ∈ s.blocks, b.1 ≤ dptr ∧ dptr + size ≤ b.1 + b.2

instance (dptr size : Nat) (s : Tak) : Decidable (s.InBlock dptr size) :=
  inferInstanceAs (Decidable (∃ b ∈ s.blocks, _))

/-- What the types of the fields promise, and the destination. -/
def Allowed (s : Tak) : Instruction → Prop
  | .am i _ => i.handler < 2 ^ 8
  | .rwdma i _ => s.InBlock i.dptr i.size
  | .nop _ => True
  | .wb _ => True

instance (s : Tak) : ∀ i, Decidable (s.Allowed i)
  | .am _ _ => inferInstanceAs (Decidable (_ < _))
  | .rwdma _ _ => inferInstanceAs (Decidable (s.InBlock _ _))
  | .nop _ => isTrue trivial
  | .wb _ => isTrue trivial

/-- taktuk_send, taktuk_sendv -/
def post (src : Nat) (m : Msg) (s : Tak) : Tak :=
  { s with wire := Function.update s.wire src (s.wire src ++ [m]) }

/-- OutChannel::flush of a peer sends its next instruction; for a remote
write, the header. -/
def flush (src : Nat) (i : Instruction) (s : Tak) : Tak :=
  let s := { s with sent := Function.update s.sent src (s.sent src ++ [i]) }
  match i with
  | .nop _ => s
  | .wb _ => s
  | .am a _ => s.post src
      (.header (headerAm a.handler a.size) (bytesAt (s.mem src) a.lptr a.size))
  | .rwdma r _ =>
    { s.post src (.header (headerRw r.dptr r.size) []) with
      half := Function.update s.half src
        (some (bytesAt (s.mem src) r.lptr r.size)) }

/-- The second send of a remote write. -/
def sendData (src : Nat) (bytes : List UInt8) (s : Tak) : Tak :=
  { s.post src (.data bytes) with half := Function.update s.half src none }

/-- The test of the address of a remote write. -/
def OutOfBound (ptr size : Nat) (s : Tak) : Prop :=
  ptr < s.segaddr ∨ (s.segaddr + s.segsize) % 2 ^ 64 ≤ (ptr + size) % 2 ^ 64

instance (ptr size : Nat) (s : Tak) : Decidable (s.OutOfBound ptr size) :=
  inferInstanceAs (Decidable (_ ∨ _))

/-- A message of `src` is in the buffer. -/
def dispatch (src : Nat) (h : Header) (payload : List UInt8) (s : Tak) : Tak :=
  match h.opcode with
  | .am =>
    if h.size < 512 then
      { s with log := s.log ++ [(src,
          .call (h.sid % 2 ^ 8) (src + 1) (payload.take h.size) h.size)] }
    else { s with failed := true }
  | .rdma =>
    if s.OutOfBound h.ptr h.size then { s with failed := true }
    else { s with stage := .data src h.ptr h.size }
  | .term => { s with ackTerm := true }

/-- Device::skel receives a message of `src`, the others being `rest`. -/
def skel (src : Nat) (m : Msg) (rest : List Msg) (s : Tak) : Tak :=
  let s := { s with wire := Function.update s.wire src rest }
  match s.stage with
  | .header =>
    match m with
    | .header h payload =>
      if 1024 < m.size then
        { s with
          overrun := true
          failed := true }
      else s.dispatch src h payload
    -- a message of data would be read as a header
    | .data bytes => if bytes = [] then s else { s with failed := true }
  | .data source ptr size =>
    { s with
      stage := .header
      failed := ¬ (src = source ∧ m.size = size)
      log := s.log ++ [(src, m.copied ptr)] }

def step (a : TakAct) (s : Tak) : Option Tak :=
  if s.failed ∨ s.ackTerm then none
  else
    match a with
    | .alloc size => some (s.allocate size)
    | .flush src i =>
      if src < s.n ∧ s.half src = none ∧ s.Allowed i then some (s.flush src i)
      else none
    | .data src =>
      if src < s.n then (s.half src).map fun bytes => s.sendData src bytes
      else none
    | .recv src =>
      if src < s.n then
        match s.wire src with
        | [] => none
        | m :: rest => some (s.skel src m rest)
      else none

-- ======== properties

/-- What has been done for a source. -/
def logOf (s : Tak) (src : Nat) : List Event :=
  (s.log.filter fun e => e.1 = src).map Prod.snd

/-- What an instruction asks for, on behalf of the process `gid`. -/
def event (mem : Nat → UInt8) (gid : Nat) : Instruction → List Event
  | .nop _ => []
  | .wb _ => []
  | .am i _ => [.call i.handler gid (bytesAt mem i.lptr i.size) i.size]
  | .rwdma i _ => [.write i.dptr (bytesAt mem i.lptr i.size)]

/-- What a source has asked for. -/
def expected (s : Tak) (src : Nat) : List Event :=
  (s.sent src).flatMap (event (s.mem src) src)

/-- The bytes an event writes are in the segment. -/
def InSegment (s : Tak) : Event → Prop
  | .call _ _ _ _ => True
  | .write dptr bytes =>
    s.segaddr ≤ dptr ∧ dptr + bytes.length ≤ s.segaddr + s.segsize
  | .stray dptr size =>
    s.segaddr ≤ dptr ∧ dptr + size ≤ s.segaddr + s.segsize

/-- What is done for a source is what it asked for, in its order; no
assertion fails, so no data is matched with the header of another source;
the buffer is large enough; the writes and the blocks are in the segment,
each block after those before it; and when nothing is left to send or
receive, everything is done. -/
structure TakOk (s : Tak) : Prop where
  delivered : ∀ src, s.logOf src <+: s.expected src
  assertion : s.failed = false
  buffer : s.overrun = false
  writes : ∀ e ∈ s.log, s.InSegment e.2
  inside : ∀ b ∈ s.blocks, s.segaddr ≤ b.1 ∧ b.1 + b.2 ≤ s.segaddr + s.segsize
  disjoint : s.blocks.Pairwise fun a b => a.1 + a.2 ≤ b.1
  complete : (∀ src, step (.data src) s = none ∧ step (.recv src) s = none) →
    ∀ src < s.n, s.logOf src = s.expected src

/-- What the skeleton reads is not an active message, and the message after
the header of a remote write is of the same source. -/
def MeetsRecv (src : Nat) : Stage → List Msg → Prop
  | .header, .header h _ :: _ => h.opcode ≠ .am
  | .header, _ => True
  | .data source _ _, _ => src = source

instance (src : Nat) : ∀ st w, Decidable (MeetsRecv src st w)
  | .header, .header _ _ :: _ => inferInstanceAs (Decidable (_ ≠ _))
  | .header, .data _ :: _ => isTrue trivial
  | .header, [] => isTrue trivial
  | .data _ _ _, _ => inferInstanceAs (Decidable (_ = _))

/-- The same, and a block is not given for a size that wraps. -/
def Meets (a : TakAct) (s : Tak) : Prop :=
  match a with
  | .alloc size => s.segsp + size < 2 ^ 64
      ∨ s.segsize ≤ (s.segsp + size) % 2 ^ 64
  | .flush _ _ => True
  | .data _ => True
  | .recv src => MeetsRecv src s.stage (s.wire src)

instance (a : TakAct) (s : Tak) : Decidable (Meets a s) :=
  match a with
  | .alloc _ => inferInstanceAs (Decidable (_ ∨ _))
  | .flush _ _ => isTrue trivial
  | .data _ => isTrue trivial
  | .recv src => inferInstanceAs (Decidable (MeetsRecv src s.stage (s.wire src)))

end Tak

end XKaapi.Taknet.Wire
