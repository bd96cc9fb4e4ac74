/-
The queue of suspended contexts of a processor
(src/workstealing/kaapi_sched_wsqueue.c and kaapi_sched_wakeup.c).

A context that blocks is put in a cell at the head of a doubly linked
list. It comes out in one of three ways: the owner finds the condition
true that the context waits for, the owner's scan finds it ready, or a
thief takes it by `kaapi_wsqueuectxt_steal_cell`. In all three the cell
stays linked and the state of the cell tells that it is empty; the next
scan unlinks it and appends it to the list of free cells, which is
linked by `prev`.

One action is one call: the scan is the owner's, and a thief may do
anything between two calls of the owner, also between its two calls on a
cell. `kaapi_malloc_align` hands out blocks it has not handed out before,
with any content; when it fails, `kaapi_wsqueuectxt_push` writes through
the null pointer, and there is no such step here. A thief knows the cells
that were once in the list, and a context is pushed by the processor that
was running it, so it is in no cell then.

A wake-up for a suspended context is called with the condition that the
context waits for: `_kaapi_condition_task_isready` of the context itself
for one suspended by `kaapi_sched_sync_`, or another function, such as
`_komp_condition_barrier_isready` for one that waits in a barrier. When
the condition holds, the context is returned without a look at its task.
-/
import Mathlib.Algebra.GroupWithZero.Nat
import XKaapi.Lib.LinkedList
import XKaapi.Lib.Fifo
import XKaapi.Lib.Run
import XKaapi.Task.State

namespace XKaapi.Suspended

open LinkedList StepMachine

-- ======== data

/-- `kaapi_cpuset_t` -/
structure Cpuset where
  bits64 : Fin 4 → BitVec 64

-- the words of a set are named by numerals
instance words_neZero : NeZero 4 := ⟨by decide⟩

/-- `kaapi_cpuset_empty` -/
def Cpuset.empty (s : Cpuset) : Bool :=
  s.bits64 0 == 0 && s.bits64 1 == 0 && s.bits64 2 == 0 && s.bits64 3 == 0

/-- `kaapi_cpuset_has`, of a number below 256. -/
def Cpuset.has (s : Cpuset) (i : Nat) : Bool :=
  if i < 64 then s.bits64 0 &&& 1#64 <<< i != 0
  else if i < 128 then s.bits64 1 &&& 1#64 <<< (i - 64) != 0
  else if i < 192 then s.bits64 2 &&& 1#64 <<< (i - 128) != 0
  else s.bits64 3 &&& 1#64 <<< (i - 192) != 0

/-- The states of a cell, KAAPI_WSQUEUECELL_INLIST and so on. Memory that
was never written may hold anything. -/
inductive CellState
  | inlist
  | ready
  | outlist
  | steallist
  | other (w : Int)
deriving DecidableEq, Repr

/-- A cell is `data[i]` of a block. -/
structure CellId where
  bloc : Nat
  i : Nat
deriving DecidableEq, Repr

/-- `kaapi_tasklist_t`, as far as it tells that the list is executed. -/
structure Tasklist where
  master : Bool
  cntExec : Int
  totalTasks : Int

/-- The top frame of a stack: its task list, and the state of the task
its `pc` points to. -/
structure Frame where
  tasklist : Option Tasklist
  pc : Task.StateWord

/-- `kaapi_thread_context_t`, as far as the queue reads it. -/
structure ThreadContext where
  wcs : Option CellId
  affinity : Cpuset
  sfp : Frame

/-- `kaapi_wsqueuectxt_cell_t` without its links. -/
structure Cell (τ : Type) where
  state : CellState
  affinity : Cpuset
  thread : Option τ

/-- KAAPI_BLOCENTRIES_SIZE -/
def blocentriesSize : Nat := 2048

/-- `kaapi_wsqueuectxt_t` of a processor, its cells, and the contexts. -/
structure Kproc (τ : Type) where
  cells : Heap CellId (Cell τ)
  lsuspend : Ends CellId
  free : Fifo CellId
  allocatedbloc : List Nat
  thread : τ → ThreadContext

variable {τ : Type} [DecidableEq τ]

-- ======== operations

/-- `kaapi_stack_isready`, hence `kaapi_thread_isready`. -/
def threadIsready (t : ThreadContext) : Bool :=
  match t.sfp.tasklist with
  | some tl => if tl.master then true else tl.cntExec == tl.totalTasks
  | none => Task.taskIsready t.sfp.pc

/-- `_kaapi_condition_task_isready` -/
def conditionTaskIsready (t : ThreadContext) : Bool :=
  match t.sfp.tasklist with
  | some _ => if threadIsready t then true else false
  | none => if Task.taskIsready t.sfp.pc then true else false

/-- `kaapi_wsqueuectxt_init`; the contexts are as they are. -/
def wsqueuectxtInit (thread : τ → ThreadContext) : Kproc τ where
  cells := fun _ => none
  lsuspend := ⟨none, none⟩
  free := ⟨none, none⟩
  allocatedbloc := []
  thread := thread

/-- The links of the free list. -/
def prevOf {α : Type} (cells : Heap CellId α) (c : CellId) : Option CellId :=
  (cells c).bind Node.prev

/-- The loop over a new block, which leaves its first cell as it is. -/
def initBloc (bloc : Nat) (raw : Nat → Node CellId (Cell τ))
    (cells : Heap CellId (Cell τ)) : Heap CellId (Cell τ) := fun c =>
  if c.bloc = bloc ∧ c.i < blocentriesSize then
    if c.i = 0 then some (raw 0)
    else some {
      val := { (raw c.i).val with thread := none }
      next := none
      prev := if c.i = 1 then none else some ⟨bloc, c.i - 1⟩ }
  else cells c

/-- `kaapi_wsqueuectxt_alloccell`; `bloc` and `raw` are what
`kaapi_malloc_align` returns. -/
def alloccell (bloc : Nat) (raw : Nat → Node CellId (Cell τ))
    (q : Kproc τ) : Kproc τ × CellId :=
  match Fifo.popHead (prevOf q.cells) q.free with
  | some (cell, free) => ({ q with free := free }, cell)
  | none =>
    ({ q with
        cells := initBloc bloc raw q.cells
        free := ⟨some ⟨bloc, blocentriesSize - 1⟩, some ⟨bloc, 1⟩⟩
        allocatedbloc := bloc :: q.allocatedbloc },
      ⟨bloc, 0⟩)

/-- Write the cell, not its links. -/
def Kproc.setCell (q : Kproc τ) (c : CellId) (v : Cell τ) :
    Option (Kproc τ) :=
  (setVal q.cells c v).map fun cells => { q with cells := cells }

/-- `thread->wcs = wcs` -/
def Kproc.setWcs (q : Kproc τ) (t : τ) (wcs : Option CellId) : Kproc τ :=
  { q with
    thread := Function.update q.thread t { q.thread t with wcs := wcs } }

/-- `kaapi_wsqueuectxt_push`, and the cell it has used. -/
def wsqueuectxtPush (t : τ) (bloc : Nat) (raw : Nat → Node CellId (Cell τ))
    (q : Kproc τ) : Option (Kproc τ × CellId) := do
  let (q, cell) := alloccell bloc raw q
  let q ← q.setCell cell ⟨.inlist, (q.thread t).affinity, some t⟩
  let q := q.setWcs t (some cell)
  let (cells, ends) ← insertFirst q.cells q.lsuspend cell
  return ({ q with cells := cells, lsuspend := ends }, cell)

/-- `kaapi_wsqueuectxt_steal_cell` -/
def stealCell (c : CellId) (q : Kproc τ) : Option (Kproc τ × Option τ) := do
  let n ← q.cells c
  if !n.val.affinity.empty && n.val.state == .inlist then do
    let t ← n.val.thread
    let q ← q.setCell c
      { n.val with
        state := .steallist
        thread := none }
    return (q.setWcs t none, some t)
  else return (q, none)

/-- `kaapi_wsqueuectxt_finish_steal_cell`, with its assertion. -/
def finishStealCell (c : CellId) (q : Kproc τ) : Option (Kproc τ) := do
  let n ← q.cells c
  if n.val.state = .steallist then
    q.setCell c { n.val with state := .outlist }
  else none

/-- The cell is unlinked and appended to the free list. -/
def recycle (c : CellId) (q : Kproc τ) : Option (Kproc τ) := do
  let (cells, ends) ← bypass q.cells q.lsuspend c
  let n ← cells c
  let cells := Function.update cells c
    (some ⟨{ n.val with thread := none }, none, none⟩)
  match q.free.tail with
  | none =>
    some { q with
      cells := cells
      lsuspend := ends
      free := ⟨some c, some c⟩ }
  | some tailfreecell => do
      let cells ← setPrev cells tailfreecell (some c)
      return { q with
        cells := cells
        lsuspend := ends
        free := ⟨q.free.head, some c⟩ }

/-- The test of a scanned cell that holds `thread`: the context, if it
was taken. -/
def takeReady (kid : Nat) (c : CellId) (thread : Option τ) (q : Kproc τ) :
    Option (Kproc τ × Option τ) :=
  match thread with
  | none => some (q, none)
  | some t =>
    if (q.thread t).affinity.has kid && threadIsready (q.thread t) then do
      let (q, r) ← stealCell c q
      if r = some t then do
        let q ← finishStealCell c q
        return (q, some t)
      else return (q, none)
    else some (q, none)

/-- The scan of `kaapi_sched_wakeup` from a cell on, with a bound on its
turns. -/
def scan (kid : Nat) : Nat → Option CellId → Kproc τ →
    Option (Kproc τ × Option τ)
  | _, none, q => some (q, none)
  | 0, some _, _ => none
  | fuel + 1, some c, q => do
      let n ← q.cells c
      let (q, r) ← takeReady kid c n.val.thread q
      match r with
      | some t => some (q, some t)
      | none => do
          let q ← if n.val.state = .outlist then recycle c q else some q
          scan kid fuel n.next q

/-- A scan visits each cell once at most. -/
def Kproc.scanAll (q : Kproc τ) (kid : Nat) : Option (Kproc τ × Option τ) :=
  scan kid (blocentriesSize * q.allocatedbloc.length) q.lsuspend.beg q

/-- `kaapi_sched_wakeup`; `fcondition` is what the condition answers, if
there is one. -/
def schedWakeup (kid : Nat) (cond : Option τ) (fcondition : Option Bool)
    (q : Kproc τ) : Option (Kproc τ × Option τ) :=
  match cond, fcondition with
  | some t, some true =>
    match (q.thread t).wcs with
    | some c => do
        let n ← q.cells c
        let q ← q.setCell c
          { n.val with
            state := .outlist
            thread := none }
        return (q.setWcs t none, some t)
    | none => q.scanAll kid
  | _, _ => q.scanAll kid

-- ======== machine

/-- What a context is suspended on: `_kaapi_condition_task_isready` of
itself, or a function of something else, with what it answers. -/
inductive Condition
  | taskIsready
  | other (answer : Bool)
deriving DecidableEq, Repr

def Condition.answer (t : ThreadContext) : Condition → Bool
  | .taskIsready => conditionTaskIsready t
  | .other answer => answer

/-- What has come of the contexts so far; a wake-up tells whether the
context was ready, and the condition the wake-up was called with when it
was called for this context. -/
inductive Event (τ : Type)
  | pushed (t : τ) (c : CellId)
  | woken (t : τ) (ready : Bool) (cond : Option Condition)
  | stolen (t : τ)
deriving DecidableEq, Repr

/-- The processor, the cells whose thief has not called
`kaapi_wsqueuectxt_finish_steal_cell` yet, and what has happened. -/
structure State (τ : Type) where
  q : Kproc τ
  stealing : List CellId
  log : List (Event τ)

inductive Action (τ : Type)
  | push (t : τ) (bloc : Nat) (raw : Nat → Node CellId (Cell τ))
  | wakeup (kid : Nat)
  | wakeupCond (kid : Nat) (t : τ) (cond : Condition)
  | stealCell (c : CellId)
  | finishStealCell (c : CellId)
  | threadRuns (t : τ) (affinity : Cpuset) (sfp : Frame)

/-- The cell of a push. -/
def Event.cell : Event τ → Option CellId
  | .pushed _ c => some c
  | _ => none

/-- The cells that were in the list at some time. -/
def State.known (s : State τ) : List CellId := s.log.filterMap Event.cell

/-- Who may act. -/
def Enabled (a : Action τ) (s : State τ) : Prop :=
  match a with
  | .push t bloc _ => (s.q.thread t).wcs = none ∧ bloc ∉ s.q.allocatedbloc
  | .stealCell c => c ∈ s.known
  | .finishStealCell c => c ∈ s.stealing
  | _ => True

instance : ∀ (a : Action τ) (s : State τ), Decidable (Enabled a s)
  | .push t bloc _, s => inferInstanceAs (Decidable
      ((s.q.thread t).wcs = none ∧ bloc ∉ s.q.allocatedbloc))
  | .stealCell c, s => inferInstanceAs (Decidable (c ∈ s.known))
  | .finishStealCell c, s => inferInstanceAs (Decidable (c ∈ s.stealing))
  | .wakeup _, _ => isTrue trivial
  | .wakeupCond _ _ _, _ => isTrue trivial
  | .threadRuns _ _ _, _ => isTrue trivial

/-- What a wake-up has returned, `cond` being the context it was called for
and its condition. -/
def State.woken (s : State τ) (cond : Option (τ × Condition))
    (r : Option τ) : List (Event τ) :=
  match r with
  | some t =>
    [.woken t (threadIsready (s.q.thread t))
      ((cond.filter fun c => c.1 = t).map Prod.snd)]
  | none => []

/-- The effect of a call; `none` where a null pointer is dereferenced or
the assertion fails. -/
def effect (a : Action τ) (s : State τ) : Option (State τ) :=
  match a with
  | .push t bloc raw => do
      let (q, c) ← wsqueuectxtPush t bloc raw s.q
      return { s with q := q, log := s.log ++ [.pushed t c] }
  | .wakeup kid => do
      let (q, r) ← schedWakeup kid none none s.q
      return { s with q := q, log := s.log ++ s.woken none r }
  | .wakeupCond kid t cond => do
      let fcondition := cond.answer (s.q.thread t)
      let (q, r) ← schedWakeup kid (some t) (some fcondition) s.q
      return { s with q := q, log := s.log ++ s.woken (some (t, cond)) r }
  | .stealCell c => do
      let (q, r) ← stealCell c s.q
      match r with
      | some t =>
        some { s with
          q := q
          stealing := c :: s.stealing
          log := s.log ++ [.stolen t] }
      | none => some { s with q := q }
  | .finishStealCell c => do
      let q ← finishStealCell c s.q
      return { s with q := q, stealing := s.stealing.erase c }
  | .threadRuns t affinity sfp =>
    some { s with
      q := { s.q with
        thread := Function.update s.q.thread t
          ⟨(s.q.thread t).wcs, affinity, sfp⟩ } }

/-- No context is suspended at the start. -/
def start (thread : τ → ThreadContext) : State τ where
  q := wsqueuectxtInit fun t => { thread t with wcs := none }
  stealing := []
  log := []

/-- One call. -/
def step (a : Action τ) (s : State τ) : Option (State τ) :=
  if Enabled a s then effect a s else none

end XKaapi.Suspended
