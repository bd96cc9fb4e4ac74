/-
The reader of the event files (kaapi_trace_reader.cpp): all the files are
mapped, the date of the next event of each is in a priority queue, and the
file of the least date goes on by one event.

A file is empty, or a header and its events. `OpenFiles` skips the empty
files and reads the first and the last event of the others, and so does not
see that a file may have none: what it reads then lies outside of the events
(`outside`), and the file enters the queue.

The queue is the list of its entries; which of several entries of the least
date is on top is up to the heap (`EventQueue`).
-/
import Mathlib.Algebra.Group.Nat.Defs
import Mathlib.Logic.Function.Basic

namespace XKaapi.Trace

-- ======== files

/-- An event: its date, on 64 bits, and the rest of the record. -/
structure Event (π : Type) where
  date : Nat
  data : π
  date_lt : date < 2 ^ 64
deriving DecidableEq, Repr

/-- An empty file, or the events that follow the header. -/
abbrev EventFile (π : Type) := Option (List (Event π))

/-- `file_event`: the events from `base` on, the next position, and `end`. -/
structure FileEvent (π : Type) where
  base : Int → Event π
  rpos : Nat
  stop : Nat

/-- `next_event_t` -/
structure NextEvent where
  date : Nat
  fds : Nat
deriving DecidableEq, Repr

/-- `std::priority_queue` with `compare_event`: after `n` pops, an entry of
the least date is on top. -/
structure EventQueue where
  top : Nat → List NextEvent → NextEvent
  top_mem : ∀ n q, q ≠ [] → top n q ∈ q
  top_le : ∀ n q x, x ∈ q → (top n q).date ≤ x.date

/-- The files opened, `size` of them. Not in the source: the number of pops
from the queue. -/
structure FileSet (π : Type) where
  tmax : Nat
  tmin : Nat
  fds : Nat → FileEvent π
  size : Nat
  eventqueue : List NextEvent
  pops : Nat

variable {π : Type}

/-- What stands at a position of a mapped file. -/
def memory (outside : Int → Event π) (evs : List (Event π)) : Int → Event π
  | .ofNat k => evs[k]?.getD (outside k)
  | i => outside i

def mapFile (outside : Int → Event π) (evs : List (Event π)) : FileEvent π where
  base := memory outside evs
  rpos := 0
  stop := evs.length

/-- One round of `OpenFiles`. -/
def openFile (outside : Nat → Int → Event π) (fs : FileSet π) :
    EventFile π → FileSet π
  | none => fs
  | some evs =>
    let c := fs.size
    let fe := mapFile (outside c) evs
    let first := (fe.base 0).date
    let last := (fe.base (fe.stop - 1)).date
    { tmin := if first < fs.tmin then first else fs.tmin
      tmax := if fs.tmax < last then last else fs.tmax
      fds := Function.update fs.fds c fe
      size := c + 1
      eventqueue := ⟨first, c⟩ :: fs.eventqueue
      pops := 0 }

/-- `OpenFiles`, every file being there and mapped. -/
def openFiles (outside : Nat → Int → Event π) (files : List (EventFile π)) : FileSet π :=
  files.foldl (openFile outside)
    { tmin := 2 ^ 64 - 1
      tmax := 0
      fds := fun c => mapFile (outside c) []
      size := 0
      eventqueue := []
      pops := 0 }

-- ======== reading

namespace FileSet

/-- The entry on top is popped, the position of its file goes on, and the
date of the next event is pushed if there is one. -/
def advance (fs : FileSet π) (ne : NextEvent) : FileSet π :=
  let fe := { fs.fds ne.fds with rpos := (fs.fds ne.fds).rpos + 1 }
  let rest := fs.eventqueue.erase ne
  { fs with
    fds := Function.update fs.fds ne.fds fe
    eventqueue := if fe.rpos < fe.stop then ⟨(fe.base fe.rpos).date, ne.fds⟩ :: rest else rest
    pops := fs.pops + 1 }

/-- `ReadFiles`: the calls of the callback, the file and the event. The loop
is cut after `fuel` rounds. -/
def readFiles (pq : EventQueue) : Nat → FileSet π → Option (List (Nat × Event π))
  | 0, _ => none
  | fuel + 1, fs =>
    if fs.eventqueue = [] then some []
    else
      let ne := pq.top fs.pops fs.eventqueue
      let fe := fs.fds ne.fds
      (readFiles pq fuel (fs.advance ne)).map ((ne.fds, fe.base fe.rpos) :: ·)

/-- `TopEvent` -/
def topEvent (pq : EventQueue) (fs : FileSet π) : Option (Event π) :=
  if fs.eventqueue = [] then none
  else
    let fe := fs.fds (pq.top fs.pops fs.eventqueue).fds
    some (fe.base fe.rpos)

/-- `NextEvent` -/
def nextEvent (pq : EventQueue) (fs : FileSet π) : FileSet π :=
  if fs.eventqueue = [] then fs else fs.advance (pq.top fs.pops fs.eventqueue)

/-- What a caller of `TopEvent` and `NextEvent` sees, up to a null event. -/
def enumerate (pq : EventQueue) : Nat → FileSet π → Option (List (Event π))
  | 0, _ => none
  | fuel + 1, fs =>
    match fs.topEvent pq with
    | none => some []
    | some e => (enumerate pq fuel (fs.nextEvent pq)).map (e :: ·)

/-- `GetInterval`: nothing for a set without files. -/
def getInterval (fs : FileSet π) : Option (Nat × Nat) :=
  if fs.size = 0 then none else some (fs.tmin, fs.tmax)

end FileSet

end XKaapi.Trace
