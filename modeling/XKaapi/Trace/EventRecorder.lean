/-
The event recorder (misc/kaapi_eventrecorder.c, kaapi_event_recorder.h).

A kprocessor pushes its events in a buffer. A full buffer, and the last
one, goes to a FIFO (`listevt`); a writer takes it from there, writes it to
the file of its kprocessor without holding the lock of the list, and puts
it in the free list, where producers take their next buffers. The writers
are the collector thread (number 0), the finalisation, which drains the
list after it has joined the collector (number 1), and the threads that
call `kaapi_event_fencebuffers` (numbers from 2 on).

A section under one of the two mutexes is one step, and so is each system
call of `_kaapi_write_evb`. The FIFO is a list; only buffers, and what
they hold, are in the heap.

Two writers may hold two buffers of one kprocessor, and a fence returns
when the list is empty, although another writer may hold a buffer:
`traces_of_meets` is about the runs where neither happens,
`traces_fail` a run where a fence returns too early.

Not in the source: what has been pushed (`pushed`), the number of a buffer
in the order of the FIFO (`stamp`), which numbers are written (`written`),
and the number the next fence starts from (`since`).
-/
import XKaapi.Lib.Run

namespace XKaapi.Trace

open Function (update)

/-- KAAPI_EVENT_BUFFER_SIZE -/
def eventBufferSize : Nat := 8190

/-- `kaapi_event_buffer_t`: the events up to `pos`, and the kprocessor. -/
structure Buffer (α : Type) where
  events : List α
  kid : Nat

/-- What a trace file holds. -/
inductive Record (α : Type) where
  | header
  | event (e : α)
deriving DecidableEq

/-- Where a kprocessor is. -/
inductive ProducerPc where
  /-- It has no buffer: not opened, or closed. -/
  | closed
  | ready (b : Nat)
  /-- In kaapi_event_flushbuffer, before the push in the FIFO. -/
  | flushing (b : Nat)
  /-- Before the test of the free list without its lock. -/
  | allocating
  /-- With the lock of the free list. -/
  | popping
deriving DecidableEq, Repr

/-- The buffer of the kprocessor. -/
def ProducerPc.buf : ProducerPc → Option Nat
  | .ready b => some b
  | .flushing b => some b
  | _ => none

/-- Where a writer is. -/
inductive WriterPc where
  | idle
  /-- In kaapi_eventrecorder_fini, before the join. -/
  | joining
  /-- Before the lock of the FIFO. -/
  | scanning
  /-- In _kaapi_write_evb, before the test of the file descriptor. -/
  | testing (b : Nat)
  /-- Before open. -/
  | opening (b : Nat)
  /-- Before the write of the header. -/
  | heading (b : Nat)
  /-- Before the write of the events. -/
  | writing (b : Nat)
  /-- Before the lock of the free list. -/
  | freeing (b : Nat)
  | exited
deriving DecidableEq, Repr

/-- The buffer of the writer. -/
def WriterPc.buf : WriterPc → Option Nat
  | .testing b => some b
  | .opening b => some b
  | .heading b => some b
  | .writing b => some b
  | .freeing b => some b
  | _ => none

/-- The buffer of the writer, as long as it is not written. -/
def WriterPc.unwritten : WriterPc → Option Nat
  | .testing b => some b
  | .opening b => some b
  | .heading b => some b
  | .writing b => some b
  | _ => none

structure Recorder (α : Type) where
  nkprocs : Nat
  nwriters : Nat
  heap : Nat → Buffer α
  next : Nat
  fifo : List Nat
  free : List Nat
  held : Bool
  finalize : Bool
  file : Nat → Option (List (Record α))
  producers : Nat → ProducerPc
  writers : Nat → WriterPc
  opened : Nat → Bool
  pushed : Nat → List α
  flushed : Nat
  stamp : Nat → Nat
  written : List Nat
  since : Nat → Nat

inductive Act (α : Type) where
  | openbuffer (k : Nat)
  | push (k : Nat) (e : α)
  | producer (k : Nat)
  | closebuffer (k : Nat)
  | fencebuffers (x : Nat)
  | fini
  | writer (x : Nat)

variable {α : Type}

namespace Recorder

-- ======== machine

/-- kaapi_eventrecorder_init: the collector runs. -/
def init (α : Type) (n nw : Nat) : Recorder α where
  nkprocs := n
  nwriters := nw + 2
  heap := fun _ => ⟨[], 0⟩
  next := 0
  fifo := []
  free := []
  held := false
  finalize := false
  file := fun _ => none
  producers := fun _ => .closed
  writers := fun x => if x = 0 then .scanning else .idle
  opened := fun _ => false
  pushed := fun _ => []
  flushed := 0
  stamp := fun _ => 0
  written := []
  since := fun _ => 0

def setProducer (k : Nat) (pc : ProducerPc) (s : Recorder α) : Recorder α :=
  { s with producers := update s.producers k pc }

def setWriter (x : Nat) (pc : WriterPc) (s : Recorder α) : Recorder α :=
  { s with writers := update s.writers x pc }

def setBuffer (b : Nat) (v : Buffer α) (s : Recorder α) : Recorder α :=
  { s with heap := update s.heap b v }

def setFile (k : Nat) (f : List (Record α)) (s : Recorder α) : Recorder α :=
  { s with file := update s.file k (some f) }

/-- malloc, and the initialisation of the buffer. -/
def malloc (k : Nat) (s : Recorder α) : Recorder α :=
  (({ s with next := s.next + 1 }).setBuffer s.next ⟨[], k⟩).setProducer k
    (.ready s.next)

/-- The buffer goes to the tail of the FIFO. -/
def enqueue (b : Nat) (s : Recorder α) : Recorder α :=
  { s with
    fifo := s.fifo ++ [b]
    stamp := update s.stamp b s.flushed
    flushed := s.flushed + 1 }

/-- kaapi_event_push0 up to the test of `pos`. -/
def push (k : Nat) (e : α) (b : Nat) (s : Recorder α) : Recorder α :=
  let events := (s.heap b).events ++ [e]
  let s := { s with pushed := update s.pushed k (s.pushed k ++ [e]) }
  (s.setBuffer b ⟨events, (s.heap b).kid⟩).setProducer k
    (if events.length = eventBufferSize then .flushing b else .ready b)

/-- The kprocessor `k` goes on in kaapi_event_flushbuffer. -/
def producerStep (k : Nat) (s : Recorder α) : Option (Recorder α) :=
  match s.producers k with
  | .closed => none
  | .ready _ => none
  | .flushing b =>
    if s.held then none else some ((s.enqueue b).setProducer k .allocating)
  | .allocating =>
    match s.free with
    | [] => some (s.malloc k)
    | _ :: _ => some (s.setProducer k .popping)
  | .popping =>
    match s.free with
    | [] => some (s.malloc k)
    | b :: rest =>
      some (({ s with free := rest }.setBuffer b ⟨[], k⟩).setProducer k
        (.ready b))

/-- A writer finds the FIFO empty: the collector waits unless it is to
end, the finalisation ends and releases the lock, a fence returns. -/
def emptyStep (x : Nat) (s : Recorder α) : Option (Recorder α) :=
  if x = 0 then
    if s.finalize then some (s.setWriter x .exited) else none
  else if x = 1 then some ({ s with held := false }.setWriter x .exited)
  else some (s.setWriter x .idle)

/-- A writer goes on. The finalisation keeps the lock of the FIFO while it
writes, and frees its buffers. -/
def writerStep (x : Nat) (s : Recorder α) : Option (Recorder α) :=
  match s.writers x with
  | .idle => none
  | .exited => none
  | .joining =>
    if s.writers 0 = .exited then
      some ({ s with held := true }.setWriter x .scanning)
    else none
  | .scanning =>
    if s.held = true ∧ x ≠ 1 then none
    else match s.fifo with
      | [] => s.emptyStep x
      | b :: rest => some ({ s with fifo := rest }.setWriter x (.testing b))
  | .testing b =>
    match s.file (s.heap b).kid with
    | none => some (s.setWriter x (.opening b))
    | some _ => some (s.setWriter x (.writing b))
  | .opening b => some ((s.setFile (s.heap b).kid []).setWriter x (.heading b))
  | .heading b =>
    let f := (s.file (s.heap b).kid).getD []
    some ((s.setFile (s.heap b).kid (f ++ [.header])).setWriter x (.writing b))
  | .writing b =>
    let f := (s.file (s.heap b).kid).getD []
    let s' := { s with written := s.stamp b :: s.written }
    some (((s'.setFile (s.heap b).kid
      (f ++ (s.heap b).events.map .event)).setBuffer b
      ⟨[], (s.heap b).kid⟩).setWriter x (.freeing b))
  | .freeing b =>
    if x = 1 then some (s.setWriter x .scanning)
    else some ({ s with free := b :: s.free }.setWriter x .scanning)

/-- One step. A kprocessor opens its buffer once, before the finalisation,
which is called when all of them have closed theirs. -/
def step (a : Act α) (s : Recorder α) : Option (Recorder α) :=
  match a with
  | .openbuffer k =>
    if k < s.nkprocs ∧ s.opened k = false ∧ s.writers 1 = .idle then
      some ({ s with opened := update s.opened k true }.malloc k)
    else none
  | .push k e =>
    if k < s.nkprocs then
      match s.producers k with
      | .ready b => some (s.push k e b)
      | _ => none
    else none
  | .producer k => if k < s.nkprocs then s.producerStep k else none
  | .closebuffer k =>
    if k < s.nkprocs ∧ s.held = false then
      match s.producers k with
      | .ready b => some ((s.enqueue b).setProducer k .closed)
      | _ => none
    else none
  | .fencebuffers x =>
    if 1 < x ∧ x < s.nwriters ∧ s.writers x = .idle ∧ s.writers 1 ≠ .exited then
      some ({ s with since := update s.since x s.flushed }.setWriter x
        .scanning)
    else none
  | .fini =>
    if s.writers 1 = .idle ∧ ∀ k < s.nkprocs, s.producers k = .closed then
      some ({ s with finalize := true }.setWriter 1 .joining)
    else none
  | .writer x => if x < s.nwriters then s.writerStep x else none

-- ======== properties

/-- Who may touch a buffer. -/
inductive Owner where
  | nobody
  | producer (k : Nat)
  | queued
  | writer (x : Nat)
  | free
deriving DecidableEq

/-- Every buffer is in one place. -/
structure Owned (owner : Nat → Owner) (s : Recorder α) : Prop where
  producers : ∀ k b, (s.producers k).buf = some b → owner b = .producer k
  queued : ∀ b ∈ s.fifo, owner b = .queued
  queuedOnce : s.fifo.Nodup
  writers : ∀ x b, (s.writers x).buf = some b → owner b = .writer x
  free : ∀ b ∈ s.free, owner b = .free
  freeOnce : s.free.Nodup
  fresh : ∀ b, s.next ≤ b → owner b = .nobody

/-- What the recorder promises. -/
structure TracesOk (s : Recorder α) : Prop where
  /-- A buffer is never touched by two threads. -/
  owned : ∃ owner, Owned owner s
  /-- A buffer is free when it has been written. -/
  reuse : ∀ b ∈ s.free, s.stamp b ∈ s.written
  /-- In the end a file holds its header and the events of its kprocessor
  in the order of their pushes. -/
  complete : s.writers 1 = .exited → ∀ k, s.file k
    = if s.opened k then some (.header :: (s.pushed k).map .event) else none
  /-- A fence that has returned has seen all the buffers flushed before its
  call written. -/
  fence : ∀ x, 1 < x → s.writers x = .idle → ∀ n < s.since x, n ∈ s.written

/-- Another writer holds the buffer `c` while `x` looks at the FIFO: it is
not of the kprocessor of the buffer `x` takes; if there is none and `x`
returns from a fence, it was flushed after the call; and the finalisation
does not end. -/
def MayGo (x c : Nat) (s : Recorder α) : List Nat → Prop
  | b :: _ => (s.heap c).kid ≠ (s.heap b).kid
  | [] => (1 < x → s.since x ≤ s.stamp c) ∧ x ≠ 1

/-- A writer takes a buffer when no other one holds a buffer of the same
kprocessor; a fence returns when no other writer holds a buffer flushed
before its call; the finalisation ends when none holds a buffer. -/
def Meets (a : Act α) (s : Recorder α) : Prop :=
  match a with
  | .writer x =>
    s.writers x = .scanning → ∀ y < s.nwriters, y ≠ x →
      ∀ c ∈ (s.writers y).unwritten, MayGo x c s s.fifo
  | _ => True

instance (x c : Nat) (s : Recorder α) : ∀ l, Decidable (MayGo x c s l)
  | _ :: _ => inferInstanceAs (Decidable (_ ≠ _))
  | [] => inferInstanceAs (Decidable (_ ∧ _))

instance (a : Act α) (s : Recorder α) : Decidable (Meets a s) :=
  match a with
  | .writer _ => inferInstanceAs (Decidable (_ → _))
  | .openbuffer _ => isTrue trivial
  | .push _ _ => isTrue trivial
  | .producer _ => isTrue trivial
  | .closebuffer _ => isTrue trivial
  | .fencebuffers _ => isTrue trivial
  | .fini => isTrue trivial

end Recorder

end XKaapi.Trace
