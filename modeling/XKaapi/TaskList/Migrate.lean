/-
Execution of several task lists at once
(src/thread/kaapi_thread_execframe_tasklist.c,
src/task/kaapi_task_stealready_body.c,
src/workstealing/kaapi_sched_stealtasklist.c and
kaapi_sched_stealreadytasklist.c, src/thread/kaapi_thread_startexectd.c).

A master list is the task list of a frame, as the builder leaves it; a
stolen list is the list a thief makes around one descriptor, and it names
the master list that it works for. Every list is executed by one loop, on
one processor, and descriptors migrate: a thief takes one from the ready
list of another list, or from one of the two ready lists of a processor,
and a descriptor with a site is pushed to the remote ready list of the
processor it names.

# The machine

The lists are numbered, the master lists first. `cntExec` is the counter
of the list and `cnt` the local variable of the loop that will be added to
it. A ready list is a bag, as in `XKaapi.TaskList.Exec`: its operations
are atomic under its lock, and processor types, priorities and affinity
choose which descriptor is popped or stolen. `executed` records the
bodies run.

A body may create tasks and one of these may block: the loop then returns
in the middle (`blocked`). The loop of the CUDA processors is left out; it
adds 1 to the counter of `td->tasklist` after each kernel.
-/
import XKaapi.TaskList.Exec
import Mathlib.Algebra.BigOperators.Group.Finset.Basic

namespace XKaapi.TaskList

open Dfg Activation
open Function (update)

-- ======== frames

/-- A descriptor and the number of its list, `td->tasklist`. -/
abbrev Td := Nat × TdId

/-- The master lists, the processors, and where tasks are bound. -/
structure Frames where
  nproc : Nat
  nmaster : Nat
  frame : Nat → FrameTasklist
  /-- the processor that executes each master list -/
  proc : Nat → Nat
  /-- `kaapi_task_get_site`, of the descriptors that have a format -/
  site : Td → Option Nat
  built : ∀ m, ∃ tasks, computereadylist tasks = some (frame m)
  proc_lt : ∀ m, proc m < nproc
  site_lt : ∀ td p, site td = some p → p < nproc

namespace Frames

variable (W : Frames)

def td (v : Td) : Taskdescr := (W.frame v.1).td v.2

/-- The activation list of a descriptor. -/
def acl (v : Td) : List Td := (W.td v).acl.map fun id => (v.1, id)

def total (m : Nat) : Nat := (W.frame m).totalTasks

end Frames

-- ======== state

/-- Where the execution of a list stands. -/
inductive LoopPc
  /-- `kaapi_taskstealready_body` is to push the stolen descriptor -/
  | start (td : Td)
  | loop
  | body (td : Td)
  | pushactivated (rest : List Td)
  | popRtl
  | popRemote
  | add
  | addBlocked
  | test
  | suspended
  /-- the count of a stolen list goes to its master list -/
  | report
  | finished
deriving DecidableEq

/-- A task list and the loop that executes it. -/
structure Loop where
  master : Option Nat
  proc : Nat
  rtl : List Td
  cntExec : Nat
  cnt : Nat
  pc : LoopPc
deriving DecidableEq

/-- The lists, the ready lists of the processors, and the counters of the
descriptors. -/
structure Lists where
  n : Nat
  loop : Nat → Loop
  rtl : Nat → List Td
  rtlRemote : Nat → List Td
  counter : Td → Nat
  executed : List Td

namespace Lists

def setLoop (s : Lists) (i : Nat) (l : Loop) : Lists :=
  { s with loop := update s.loop i l }

/-- A thief makes a list of one descriptor, for the master list `m`. -/
def addStolen (s : Lists) (m q : Nat) (td : Td) : Lists :=
  { s with
    n := s.n + 1
    loop := update s.loop s.n ⟨some m, q, [], 0, 0, .start td⟩ }

/-- The list that the count of list `i` is for. -/
def owner (s : Lists) (i : Nat) : Nat := (s.loop i).master.getD i

end Lists

/-- Every master list is ready to be executed. -/
def Frames.initial (W : Frames) : Lists where
  n := W.nmaster
  loop := fun m =>
    ⟨none, W.proc m, (W.frame m).tasklistreadyPushInit.rtl.map fun id => (m, id),
      0, 0, .loop⟩
  rtl := fun _ => []
  rtlRemote := fun _ => []
  counter := fun v => (W.td v).counter
  executed := []

-- ======== steps

/-- What a loop finds: the descriptor that a pop returns, and whether a
task created by a body blocks. -/
inductive PopChoice
  | no
  | pop (td : Td)
  | blocked
deriving DecidableEq

inductive ListAct
  | thread (i : Nat) (c : PopChoice)
  /-- `kaapi_sched_stealtasklist`: processor `q` steals from list `i` -/
  | stealtasklist (i : Nat) (td : Td) (q : Nat)
  /-- `kaapi_sched_stealreadytasklist` or `kaapi_thread_startexecwithtd`:
  processor `q` takes from a ready list of processor `p` -/
  | stealreadytasklist (p : Nat) (remote : Bool) (td : Td) (q : Nat)
deriving DecidableEq

/-- `kaapi_readytasklist_pushready_td` by the loop of list `i`. -/
def pushreadyTd (W : Frames) (i : Nat) (td : Td) (s : Lists) : Lists :=
  let l := s.loop i
  let own := s.setLoop i { l with rtl := td :: l.rtl }
  match W.site td with
  | none => own
  | some p =>
    if p ≠ l.proc then
      { s with
        rtlRemote := update s.rtlRemote p (s.rtlRemote p ++ [td]) }
    else own

/-- One activation of `kaapi_readytasklist_push_from_activationlist`; the
remainder by 0 is undefined. -/
def pushIfActivated (W : Frames) (i : Nat) (v : Td) (s : Lists) :
    Option Lists :=
  let c := s.counter v + 1
  if (W.td v).wc = 0 then none
  else
    let s := { s with counter := update s.counter v c }
    some (if c % (W.td v).wc = 0 then pushreadyTd W i v s else s)

/-- One step of the loop of list `i` (`kaapi_thread_execframe_tasklist`, and
what calls it). -/
def loopStep (W : Frames) (i : Nat) (c : PopChoice) (s : Lists) :
    Option Lists :=
  let l := s.loop i
  match l.pc with
  | .start td => some (pushreadyTd W i td (s.setLoop i { l with pc := .loop }))
  | .loop =>
    if l.rtl = [] then some (s.setLoop i { l with pc := .popRtl })
    else
      match c with
      | .pop td =>
        if td ∈ l.rtl then
          some (s.setLoop i { l with
            rtl := l.rtl.erase td
            pc := .body td })
        else none
      | _ => some s
  | .body td =>
    some { s.setLoop i { l with
        cnt := l.cnt + 1
        pc := if c = .blocked then .addBlocked
          else .pushactivated (W.acl td) } with
      executed := s.executed ++ [td] }
  | .pushactivated [] => some (s.setLoop i { l with pc := .loop })
  | .pushactivated (v :: rest) =>
    pushIfActivated W i v (s.setLoop i { l with pc := .pushactivated rest })
  | .popRtl =>
    match c with
    | .pop td =>
      if td ∈ s.rtl l.proc then
        some { s.setLoop i { l with pc := .body td } with
          rtl := update s.rtl l.proc ((s.rtl l.proc).erase td) }
      else none
    | _ => some (s.setLoop i { l with pc := .popRemote })
  | .popRemote =>
    match c with
    | .pop td =>
      if td ∈ s.rtlRemote l.proc then
        some { s.setLoop i { l with pc := .body td } with
          rtlRemote := update s.rtlRemote l.proc
            ((s.rtlRemote l.proc).erase td) }
      else none
    | _ => some (s.setLoop i { l with pc := .add })
  | .add =>
    some (s.setLoop i { l with
      cntExec := l.cntExec + l.cnt
      cnt := 0
      pc := .test })
  | .addBlocked =>
    some (s.setLoop i { l with
      cntExec := l.cntExec + l.cnt
      cnt := 0
      pc := .suspended })
  | .test =>
    some (s.setLoop i { l with
      pc :=
        if l.master = none then
          if l.cntExec ≠ W.total i then .suspended else .finished
        else .report })
  | .suspended =>
    -- kaapi_stack_isready
    if l.master = none ∧ l.cntExec ≠ W.total i then none
    else some (s.setLoop i { l with pc := .loop })
  | .report =>
    let m := s.owner i
    let lm := s.loop m
    some ((s.setLoop m { lm with cntExec := lm.cntExec + l.cntExec }).setLoop
      i { l with pc := .finished })
  | .finished => none

def listStep (W : Frames) (a : ListAct) (s : Lists) : Option Lists :=
  match a with
  | .thread i c => if i < s.n then loopStep W i c s else none
  | .stealtasklist i td q =>
    let l := s.loop i
    if i < s.n ∧ q < W.nproc ∧ td ∈ l.rtl then
      some ((s.setLoop i { l with rtl := l.rtl.erase td }).addStolen
        (s.owner i) q td)
    else none
  | .stealreadytasklist p false td q =>
    if p < W.nproc ∧ q < W.nproc ∧ td ∈ s.rtl p then
      some ({ s with
        rtl := update s.rtl p ((s.rtl p).erase td) }.addStolen
          td.1 q td)
    else none
  | .stealreadytasklist p true td q =>
    if p < W.nproc ∧ q < W.nproc ∧ td ∈ s.rtlRemote p then
      some ({ s with
        rtlRemote := update s.rtlRemote p
          ((s.rtlRemote p).erase td) }.addStolen td.1 q td)
    else none

/-- A loop takes from the ready lists of its processor only descriptors of
the list it counts for. -/
def OwnPop (a : ListAct) (s : Lists) : Prop :=
  match a with
  | .thread i (.pop td) =>
    (s.loop i).pc = .popRtl ∨ (s.loop i).pc = .popRemote → td.1 = s.owner i
  | _ => True

instance (a : ListAct) (s : Lists) : Decidable (OwnPop a s) := by
  unfold OwnPop
  split <;> infer_instance

/-- A step that meets `OwnPop`. -/
def ownStep (W : Frames) (a : ListAct) (s : Lists) : Option Lists :=
  if OwnPop a s then listStep W a s else none

-- ======== accounting

/-- What a loop has executed and not reported yet. -/
def Loop.unreported (l : Loop) : Nat :=
  l.cnt + if l.master = none ∨ l.pc = .finished then 0 else l.cntExec

namespace Lists

/-- The executions for master list `m` that are not in its counter yet. -/
def unreported (s : Lists) (m : Nat) : Nat :=
  ∑ i ∈ Finset.range s.n, if s.owner i = m then (s.loop i).unreported else 0

/-- The descriptors of list `m` that were executed. -/
def executedOf (s : Lists) (m : Nat) : List TdId :=
  (s.executed.filter fun v => v.1 = m).map Prod.snd

/-- All the descriptors of the list were executed. -/
def AllExecuted (W : Frames) (s : Lists) (m : Nat) : Prop :=
  ∀ id ∈ (W.frame m).tds, (m, id) ∈ s.executed

end Lists

/-- The counters of the master lists are right: each counts the executed
descriptors of its own list, less those not reported yet, and it is
complete iff all of them were executed and reported; a list that ends is
complete, and one whose descriptors were all executed can end. -/
structure Accounted (W : Frames) (s : Lists) : Prop where
  once : s.executed.Nodup
  own : ∀ v ∈ s.executed, v.2 ∈ (W.frame v.1).tds
  count : ∀ m < W.nmaster,
    (s.loop m).cntExec + s.unreported m = (s.executedOf m).length
  complete : ∀ m < W.nmaster, (s.loop m).cntExec = W.total m
    ↔ s.AllExecuted W m ∧ s.unreported m = 0
  finished : ∀ m < W.nmaster, (s.loop m).pc = .finished → s.AllExecuted W m
  ends : ∀ m < W.nmaster, s.AllExecuted W m →
    ∃ s', StepMachine.Reachable (listStep W) s s' ∧ s'.executed = s.executed
      ∧ (s'.loop m).cntExec = W.total m

end XKaapi.TaskList
