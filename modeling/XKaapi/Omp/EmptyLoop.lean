/-
The end of a loop, and the loops that have no iteration
(libgomp_loop_dynamic.c and libgomp_loop.c).

A loop is started in one of two ways. In a parallel region every thread
calls `GOMP_loop_dynamic_start`, and at the end `GOMP_loop_end` or
`GOMP_loop_end_nowait`. `GOMP_parallel_loop_dynamic_start` opens the
region too: the master starts the loop and pushes a task for each other
thread of the team; the master and the tasks then execute the function
that the compiler has made, which ends with `GOMP_loop_end_nowait`.

The loops of a team are numbered; `Lwork.ofLoop k` is a work descriptor
that was initialised for the loop `k`. A call is one step, and so are the
arrival at the barrier, what follows it, and each range that is executed.
The barrier is its counter: a thread that waits goes on when all threads
it expects have arrived.
-/
import XKaapi.Lib.Run
import XKaapi.Omp.LoopNormal

namespace XKaapi.Omp

open StepMachine

-- ======== data

/-- A pointer to a `kaapic_local_work_t`: whatever the memory held, or the
descriptor that was initialised for a loop. -/
inductive Lwork
  | raw (content : Nat)
  | ofLoop (k : Nat)
deriving DecidableEq, Repr

/-- `komp_workshare_t` -/
structure Workshare where
  lwork : Lwork
  start : Int
  incr : Int
  serial : Nat
deriving DecidableEq, Repr

/-- How the loop is started; a region may end it without waiting. -/
inductive Form
  | parallel
  | region (nowait : Bool)
deriving DecidableEq, Repr

/-- The call of the loop, the `number`th one of its team. -/
structure LoopCall where
  form : Form
  numthreads : Nat
  number : Nat
  start : Long
  stop : Long
  incr : Long

/-- The loop has no iteration. -/
def LoopCall.NoIteration (c : LoopCall) : Prop :=
  Loop.noIteration c.start.val c.stop.val c.incr.val = true

/-- The thread calls `komp_barrier_wait`; the others call
`komp_barrier_wait_start`. -/
def LoopCall.waits (c : LoopCall) (t : Nat) : Bool :=
  t == 0 || c.form == .region false

/-- Where a thread is: not created, created, before the call, in the loop,
before the barrier, in the barrier, past the end. -/
inductive LoopPc
  | absent
  | spawned
  | entry
  | loop
  | atEnd
  | waiting
  | done
deriving DecidableEq, Repr

structure LoopThread where
  pc : LoopPc
  workshare : Option Workshare
deriving DecidableEq, Repr

/-- The team: `remain` are the iterations that the kaapic loop has not
handed out, `arrived` the threads counted by the barrier, `used` the
descriptors that the end of the loop has used. -/
structure LoopTeam where
  serial : Nat
  gwork : Option Nat
  remain : Nat
  arrived : List Nat
  used : List Lwork
  threads : Nat → LoopThread

namespace LoopTeam

def setThread (t : Nat) (th : LoopThread) (s : LoopTeam) : LoopTeam :=
  { s with threads := Function.update s.threads t th }

def setPc (t : Nat) (pc : LoopPc) (s : LoopTeam) : LoopTeam :=
  s.setThread t { s.threads t with pc := pc }

/-- Before the call: in a region every thread is there, with the workshare
it may have from earlier loops; else only the master. -/
def init (c : LoopCall) (past : Nat → Option Workshare) : LoopTeam where
  serial := 0
  gwork := none
  remain := 0
  arrived := []
  used := []
  threads t :=
    match c.form with
    | .parallel => if t = 0 then ⟨.entry, none⟩ else ⟨.absent, none⟩
    | .region _ => if t < c.numthreads then ⟨.entry, past t⟩
        else ⟨.absent, none⟩

-- ======== functions

/-- `komp_loop_dynamic_start_init`; `raw` is what new memory holds. -/
def startInit (c : LoopCall) (raw : Nat) (ws : Option Workshare)
    (s : LoopTeam) : Workshare × LoopTeam :=
  let workshare : Workshare :=
    { lwork :=
        match ws with
        | some w => w.lwork
        | none => .raw raw
      start := c.start.val
      incr := c.incr.val
      serial := s.serial + 1 }
  (workshare, { s with serial := s.serial + 1 })

/-- `komp_loop_dynamic_start_master`: the kaapic loop has as many
iterations as were counted. -/
def startMaster (c : LoopCall) (ws : Workshare) (s : LoopTeam) :
    Option (Workshare × LoopTeam) := do
  let kaEnd ← Loop.kaEnd c.start.val c.stop.val c.incr.val
  if 0 < kaEnd then
    some ({ ws with lwork := .ofLoop c.number },
      { s with
        gwork := some c.number
        remain := kaEnd.toNat })
  else none

/-- The workshare of a loop without iterations. -/
def emptyWorkshare (ws : Workshare) : Workshare :=
  { ws with
    start := 0
    incr := 0 }

/-- `GOMP_loop_dynamic_start` -/
def loopDynamicStart (c : LoopCall) (t raw : Nat) (s : LoopTeam) :
    Option LoopTeam :=
  let (ws, s) := startInit c raw (s.threads t).workshare s
  if Loop.noIteration c.start.val c.stop.val c.incr.val then
    some (s.setThread t ⟨.atEnd, some (emptyWorkshare ws)⟩)
  else if t = 0 then
    (startMaster c ws s).map fun (ws, s) => s.setThread t ⟨.loop, some ws⟩
  else
    s.gwork.map fun k => s.setThread t ⟨.loop, some { ws with lwork := .ofLoop k }⟩

/-- `GOMP_parallel_loop_dynamic_start` -/
def parallelLoopDynamicStart (c : LoopCall) (raw : Nat) (s : LoopTeam) :
    Option LoopTeam :=
  let (ws, s) := startInit c raw none s
  if Loop.noIteration c.start.val c.stop.val c.incr.val then
    some (s.setThread 0 ⟨.loop, some (emptyWorkshare ws)⟩)
  else
    (startMaster c ws s).map fun (ws, s) =>
      { s with
        threads := fun t =>
          if t = 0 then ⟨.loop, some ws⟩
          else if t < c.numthreads then ⟨.spawned, none⟩
          else s.threads t }

/-- The beginning of `komp_trampoline_task_parallelfor`. -/
def trampoline (c : LoopCall) (t raw : Nat) (s : LoopTeam) : Option LoopTeam :=
  let (ws, s) := startInit c raw none s
  s.gwork.map fun k => s.setThread t ⟨.loop, some { ws with lwork := .ofLoop k }⟩

/-- `GOMP_loop_dynamic_next`: a range of `take` iterations, or the end. -/
def loopDynamicNext (t take : Nat) (s : LoopTeam) : Option LoopTeam :=
  match (s.threads t).workshare with
  | none => some (s.setPc t .atEnd)
  | some ws =>
    if ws.incr = 0 ∨ s.remain = 0 then some (s.setPc t .atEnd)
    else if 0 < take ∧ take ≤ s.remain then
      some { s with remain := s.remain - take }
    else none

/-- The arrival at the barrier, in `GOMP_loop_end` or
`GOMP_loop_end_nowait`. -/
def arrive (c : LoopCall) (t : Nat) (s : LoopTeam) : LoopTeam :=
  { s with arrived := t :: s.arrived }.setPc t
    (if c.waits t then .waiting else .done)

/-- The rest of `GOMP_loop_end`, once the barrier lets the thread go. -/
def loopEnd (c : LoopCall) (t : Nat) (s : LoopTeam) : Option LoopTeam :=
  if s.arrived.length = c.numthreads then
    (s.threads t).workshare.map fun ws =>
      { s with
        gwork := none
        used := ws.lwork :: s.used }.setPc t .done
  else none

/-- One step of the thread `t`. -/
structure LoopAct where
  t : Nat
  raw : Nat
  take : Nat
deriving DecidableEq, Repr

def step (c : LoopCall) (a : LoopAct) (s : LoopTeam) : Option LoopTeam :=
  match (s.threads a.t).pc with
  | .absent => none
  | .spawned => trampoline c a.t a.raw s
  | .entry =>
    match c.form with
    | .parallel => parallelLoopDynamicStart c a.raw s
    | .region _ => loopDynamicStart c a.t a.raw s
  | .loop => loopDynamicNext a.t a.take s
  | .atEnd => some (arrive c a.t s)
  | .waiting => loopEnd c a.t s
  | .done => none

/-- Nobody can go on. -/
def Complete (c : LoopCall) (s : LoopTeam) : Prop := ∀ a, step c a s = none

/-- The threads that have arrived are as many as the barrier expects, and
the end of the loop has used the descriptors of this loop only. -/
def EndsWell (c : LoopCall) (s : LoopTeam) : Prop :=
  s.arrived.length = c.numthreads ∧ ∀ w ∈ s.used, w = .ofLoop c.number

end LoopTeam

/-- The workshares that earlier loops have left. -/
def Past (c : LoopCall) (past : Nat → Option Workshare) : Prop :=
  ∀ t ws, past t = some ws → ws.lwork ≠ .ofLoop c.number

end XKaapi.Omp
