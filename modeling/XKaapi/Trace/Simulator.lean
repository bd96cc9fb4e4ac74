/-
The trace simulator (kaapi_event_reader/kaapi_trace_simulator.cpp): for each
processor the time it has been active and the time it has been idle, sampled
with a period.

The events of all processors are given merged by date, as the reader of the
event files gives them. A failed assertion and an access outside of the
vector of processors are `none`.

Dates are on 64 bits, and so is the next sampling date, which may overflow.
No sum of times exceeds a date (each is asserted not to), so these are plain
numbers. The efficiency of a processor is the quotient of two differences;
both are kept.
-/
import XKaapi.Lib.Run
import XKaapi.Lib.Occupation

namespace XKaapi.Trace.Simulator

open StepMachine

-- ======== events

/-- The event numbers that the simulator does something with. `other` are the
rest, unknown ones included. -/
inductive Evt where
  | kprocStart
  | kprocStop
  | idleBeg
  | idleEnd
  | suspendBeg
  | suspendEnd
  | suspwaitBeg
  | suspwaitEnd
  | staticTaskBeg
  | recvReply (d2 : Int)
  | other
deriving DecidableEq, Repr

/-- `kaapi_event_t` -/
structure Event where
  date : Nat
  kid : Nat
  evtno : Evt
deriving DecidableEq, Repr

-- ======== processors

/-- `ProcessorState` -/
structure ProcessorState where
  active : Int
  taskcount : Nat
  stealcount : Nat
  tactive : Nat
  tidle : Nat
  lastdate : Nat
  lasttactive : Nat
  lasttidle : Nat
deriving DecidableEq, Repr

/-- The state that `OpenSimulator` sets. -/
def ProcessorState.init : ProcessorState where
  active := 0
  taskcount := 0
  stealcount := 0
  tactive := 0
  tidle := 0
  lastdate := 0
  lasttactive := 0
  lasttidle := 0

namespace ProcessorState

/-- `assert( event->date >= p.lastdate); p.tactive += ...;
assert( p.tactive <= event->date); p.lastdate = event->date;` -/
def addActive (p : ProcessorState) (date : Nat) : Option ProcessorState :=
  if p.lastdate ≤ date then
    let tactive := p.tactive + (date - p.lastdate)
    if tactive ≤ date then
      some { p with
        tactive := tactive
        lastdate := date }
    else none
  else none

/-- The same, for `p.tidle`. -/
def addIdle (p : ProcessorState) (date : Nat) : Option ProcessorState :=
  if p.lastdate ≤ date then
    let tidle := p.tidle + (date - p.lastdate)
    if tidle ≤ date then
      some { p with
        tidle := tidle
        lastdate := date }
    else none
  else none

end ProcessorState

/-- `processor_simulate_event` -/
def processorSimulateEvent (p : ProcessorState) (event : Event) :
    Option ProcessorState :=
  match event.evtno with
  | .kprocStart =>
    some { p with
      active := 1
      lastdate := event.date
      tidle := 0
      tactive := 0 }
  | .kprocStop => (p.addActive event.date).map fun p => { p with active := 0 }
  | .idleBeg =>
    if p.active = 1 then
      (p.addActive event.date).map fun p => { p with active := p.active - 1 }
    else none
  | .idleEnd =>
    if p.active = 0 then
      (p.addIdle event.date).map fun p => { p with active := p.active + 1 }
    else none
  | .suspendBeg =>
    let p : ProcessorState := { p with active := p.active - 1 }
    if p.active = 0 then p.addActive event.date else p.addIdle event.date
  | .suspendEnd => (p.addIdle event.date).map fun p => { p with active := p.active + 1 }
  | .suspwaitBeg =>
    (p.addActive event.date).map fun p => { p with active := p.active - 1 }
  | .suspwaitEnd => (p.addIdle event.date).map fun p => { p with active := p.active + 1 }
  | .staticTaskBeg => some { p with taskcount := p.taskcount + 1 }
  | .recvReply d2 => some (if d2 ≠ 0 then { p with stealcount := p.stealcount + 1 } else p)
  | .other => some p

/-- `ProcessorEfficiencyAt`: the state, and the two differences. -/
def processorEfficiencyAt (proc : ProcessorState) (tsim : Nat) :
    Option (ProcessorState × Nat × Nat) :=
  if proc.lastdate = 0 then some (proc, 0, 0)
  else if proc.lastdate ≤ tsim then
    let tactive :=
      if proc.active = 1 then proc.tactive + (tsim - proc.lastdate) else proc.tactive
    let tidle :=
      if proc.active = 1 then proc.tidle else proc.tidle + (tsim - proc.lastdate)
    if proc.tactive ≤ tactive ∧ proc.tidle ≤ tidle ∧ tactive ≤ tsim ∧ tidle ≤ tsim
        ∧ proc.lasttidle ≤ tidle ∧ proc.lasttactive ≤ tactive then
      some ({ proc with
        lasttactive := tactive
        lasttidle := tidle }, tactive - proc.lasttactive,
          tidle - proc.lasttidle)
    else none
  else none

-- ======== simulator

/-- `Simulator`: the events left, the period, the last sampling date and the
processors. -/
structure Sim where
  events : List Event
  hres : Nat
  tsim : Nat
  procs : List ProcessorState
deriving DecidableEq, Repr

/-- `uint64_t next_tsim = sim->tsim + sim->hres` -/
def Sim.nextTsim (sim : Sim) : Nat := (sim.tsim + sim.hres) % 2 ^ 64

/-- `OpenSimulator`, for `count` processors. -/
def openSimulator (events : List Event) (hres count : Nat) : Sim where
  events := events
  hres := hres
  tsim := 0
  procs := List.replicate count .init

/-- One event, on the processor of its `kid`. -/
def procStep (event : Event) (procs : List ProcessorState) :
    Option (List ProcessorState) := do
  let p ← procs[event.kid]?
  let p ← processorSimulateEvent p event
  some (procs.set event.kid p)

/-- `while (!EmptyEvent(sim->fds))`: `retval`, the events left and the
processors. -/
def eventLoop (nextTsim : Nat) :
    List Event → List ProcessorState → Option (Bool × List Event × List ProcessorState)
  | [], procs => some (false, [], procs)
  | event :: events, procs =>
    if nextTsim ≤ event.date then some (true, event :: events, procs)
    else do
      let procs ← procStep event procs
      eventLoop nextTsim events procs

/-- What `OneStepSimulator` returns: the date, `retval`, and for each
processor the two differences of its efficiency, `stealcount` and
`taskcount`. -/
structure Sample where
  date : Nat
  retval : Bool
  efficiencies : List (Nat × Nat)
  countStealok : List Nat
  countTask : List Nat
deriving DecidableEq, Repr

/-- `OneStepSimulator`. Without an event there is nothing to do. -/
def oneStepSimulator (sim : Sim) : Option (Sim × Option Sample) :=
  if sim.events = [] then some (sim, none)
  else do
    let (retval, events, procs) ← eventLoop sim.nextTsim sim.events sim.procs
    let sampled ← procs.mapM fun p => processorEfficiencyAt p sim.nextTsim
    let procs := sampled.map Prod.fst
    some ({ sim with
      events := events
      tsim := sim.nextTsim
      procs := procs }, some {
        date := sim.nextTsim
        retval := retval
        efficiencies := sampled.map Prod.snd
        countStealok := procs.map ProcessorState.stealcount
        countTask := procs.map ProcessorState.taskcount })

/-- A call of `OneStepSimulator`. -/
def step (_ : Unit) (sim : Sim) : Option Sim := (oneStepSimulator sim).map Prod.fst

-- ======== traces

/-- The intervals of a processor. -/
inductive Interval where
  | idle
  | suspend
  | suspwait
deriving DecidableEq, Repr

/-- Where a processor is in its events: the intervals open, the innermost
first. -/
inductive Phase where
  | before
  | running (opened : List Interval)
  | stopped
deriving DecidableEq, Repr

/-- A start, well-nested intervals, a stop. -/
def Phase.next (event : Event) : Phase → Option Phase
  | .before => if event.evtno = .kprocStart then some (.running []) else none
  | .running opened =>
    match event.evtno, opened with
    | .kprocStart, _ => none
    | .kprocStop, _ => some .stopped
    | .idleBeg, _ => some (.running (.idle :: opened))
    | .suspendBeg, _ => some (.running (.suspend :: opened))
    | .suspwaitBeg, _ => some (.running (.suspwait :: opened))
    | .idleEnd, .idle :: opened => some (.running opened)
    | .suspendEnd, .suspend :: opened => some (.running opened)
    | .suspwaitEnd, .suspwait :: opened => some (.running opened)
    | .idleEnd, _ => none
    | .suspendEnd, _ => none
    | .suspwaitEnd, _ => none
    | .staticTaskBeg, _ => some (.running opened)
    | .recvReply _, _ => some (.running opened)
    | .other, _ => some (.running opened)
  | .stopped => none

/-- The events of processor `k`. -/
def eventsOf (k : Nat) (trace : List Event) : List Event :=
  trace.filter fun e => e.kid == k

/-- A trace merged by date, in which the events of each processor are a
start, well-nested intervals possibly still open, and a stop, or begin so. -/
structure WellFormed (trace : List Event) : Prop where
  sorted : trace.Pairwise fun e e' => e.date ≤ e'.date
  phases : ∀ k, (run Phase.next (eventsOf k trace) .before).isSome = true

/-- The change of the number of intervals open. -/
def delta (e : Event) : Int :=
  match e.evtno with
  | .idleBeg => 1
  | .suspendBeg => 1
  | .suspwaitBeg => 1
  | .idleEnd => -1
  | .suspendEnd => -1
  | .suspwaitEnd => -1
  | _ => 0

/-- The event changes whether a processor is active. -/
def changes (e : Event) : Bool :=
  match e.evtno with
  | .staticTaskBeg => false
  | .recvReply _ => false
  | .other => false
  | _ => true

/-- The account of a processor after the events `evs`: once it has started,
its times add up to the time since then, and it has been idle for the time
spent inside intervals. -/
def Accounts (evs : List Event) (p : ProcessorState) : Prop :=
  ∀ s ∈ evs, s.evtno = .kprocStart →
    (∃ e ∈ evs, changes e = true ∧ e.date = p.lastdate)
      ∧ (∀ e ∈ evs, changes e = true → e.date ≤ p.lastdate)
      ∧ p.tactive + p.tidle + s.date = p.lastdate
      ∧ p.tidle = Occupation.time Event.date delta evs p.lastdate

/-- When an event is accounted for as it is meant: the processor is there, it
does not begin to be idle inside an interval, and it does not stop, or begin
to wait, inside one that it has spent time in since its last event. -/
def EventOk (event : Event) (procs : List ProcessorState) : Prop :=
  ∃ p, procs[event.kid]? = some p
    ∧ (event.evtno = .idleBeg → p.active = 1)
    ∧ (event.evtno = .suspwaitBeg ∨ event.evtno = .kprocStop →
      p.active = 1 ∨ event.date = p.lastdate)

instance EventOk.decidable (event : Event) (procs : List ProcessorState) :
    Decidable (EventOk event procs) :=
  match h : procs[event.kid]? with
  | none => isFalse fun ⟨p, hp, _⟩ => by rw [h] at hp; cases hp
  | some p =>
    decidable_of_iff ((event.evtno = .idleBeg → p.active = 1)
        ∧ (event.evtno = .suspwaitBeg ∨ event.evtno = .kprocStop →
          p.active = 1 ∨ event.date = p.lastdate))
      ⟨fun hp => ⟨p, h, hp⟩, fun ⟨q, hq, hp⟩ => by
        rw [h] at hq; exact Option.some.inj hq ▸ hp⟩

/-- When a call is: the sampling date does not go back, by an overflow, once
a processor has a last date, and the events before it are accounted for. -/
def StepOk (_ : Unit) (sim : Sim) : Prop :=
  sim.events ≠ [] →
    (sim.tsim ≤ sim.nextTsim ∨ ∀ p ∈ sim.procs, p.lastdate = 0)
      ∧ Along procStep EventOk (sim.events.takeWhile fun e => e.date < sim.nextTsim)
        sim.procs

instance StepOk.decidable (u : Unit) (sim : Sim) : Decidable (StepOk u sim) :=
  inferInstanceAs (Decidable (_ → _))

end XKaapi.Trace.Simulator
