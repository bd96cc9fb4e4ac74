/-
Nested parallel regions, parallel loops and tasks (libgomp_parallel.c,
libgomp_loop_dynamic.c, libgomp_task.c): the contexts, and the queries of
libomprt.c that read them.

Each entry point pushes a context on the stack of the caller and fills a
part of it. What it leaves is whatever the memory held, so the block comes
with the event. Any kprocessor may execute a task, at any time; that the
end of a region waits for its tasks is left out, and only adds runs.

The regions that enclose the code, and what the context of a task should
hold, are recorded beside the state. No step reads them.
-/
import Mathlib.Algebra.Group.Int.Defs
import XKaapi.Lib.Run

namespace XKaapi.Omp

-- ======== data

/-- `omp_sched_t` -/
inductive OmpSched
  | static
  | dynamic
  | guided
  | auto
deriving DecidableEq, Repr

/-- `komp_icv_t` -/
@[ext] structure Icv where
  threadId : Int
  nextNumthreads : Int
  nestedLevel : Int
  nestedParallel : Int
  activeLevel : Int
  dynamicNumthreads : Int
  runSched : OmpSched
  chunkSize : Int
deriving DecidableEq, Repr

/-- A `komp_teaminfo_t *`, with the fields that `komp_init_parallel_start`
sets once. A `wild` pointer is the content of a memory that was not set. -/
inductive TeamRef
  | null
  | wild
  | team (previousTeam : TeamRef) (fatherId numthreads : Int)
deriving DecidableEq, Repr

/-- The address of a context: the kprocessor in whose stack it is, the
number of constructs around it there, and how many contexts came before,
since the memory is used again. -/
structure CtxtId where
  kproc : Nat
  depth : Nat
  serial : Nat
deriving DecidableEq, Repr

/-- `kompctxt_t` -/
structure Ctxt where
  teaminfo : TeamRef
  icv : Icv
  saveCtxt : Option CtxtId
deriving DecidableEq, Repr

/-- What the environment and the machine fix. -/
structure OmpConfig where
  concurrency : Nat
  envNthreads : Nat
  maxActiveLevels : Nat

/-- The fields of the first context that nothing sets. -/
structure FirstMem where
  previousTeam : TeamRef
  fatherId : Int
  saveCtxt : Option CtxtId

-- ======== the queries

namespace TeamRef

/-- A read through the pointer; `none` is a fault. -/
def previousTeam? : TeamRef → Option TeamRef
  | team previousTeam _ _ => some previousTeam
  | _ => none

def fatherId? : TeamRef → Option Int
  | team _ fatherId _ => some fatherId
  | _ => none

def numthreads? : TeamRef → Option Int
  | team _ _ numthreads => some numthreads
  | _ => none

/-- The loop of `omp_get_ancestor_thread_num` -/
def ancestorLoop : Nat → TeamRef → TeamRef → Option Int
  | 0, _, prevTeam => prevTeam.fatherId?
  | hops + 1, teaminfo, _ =>
    match teaminfo.previousTeam? with
    | none => none
    | some null => some (-1)
    | some previous => ancestorLoop hops previous teaminfo

/-- The loop of `omp_get_team_size` -/
def teamSizeLoop : Nat → TeamRef → Option Int
  | 0, teaminfo => teaminfo.numthreads?
  | hops + 1, teaminfo =>
    match teaminfo.previousTeam? with
    | none => none
    | some null => some (-1)
    | some previous => teamSizeLoop hops previous

end TeamRef

/-- `omp_get_level` -/
def ompGetLevel (ctxt : Ctxt) : Int := ctxt.icv.nestedLevel

/-- `omp_get_ancestor_thread_num`; `prev_team` is not set before the loop. -/
def ompGetAncestorThreadNum (ctxt : Ctxt) (level : Int) : Option Int :=
  let hops := ompGetLevel ctxt - level
  if level = 0 then some 0
  else if hops = 0 then some ctxt.icv.threadId
  else if level < 0 ∨ hops < 0 ∨ ctxt.teaminfo = .null then some (-1)
  else ctxt.teaminfo.ancestorLoop hops.toNat .wild

/-- `omp_get_team_size` -/
def ompGetTeamSize (ctxt : Ctxt) (level : Int) : Option Int :=
  let hops := ompGetLevel ctxt - level
  if level < 0 ∨ hops < 0 then some (-1)
  else if level = 0 then some 1
  else if hops = 0 then ctxt.teaminfo.numthreads?
  else ctxt.teaminfo.teamSizeLoop hops.toNat

/-- `omp_set_num_threads`, `omp_set_dynamic`, `omp_set_nested` and
`omp_set_schedule` -/
inductive Setter
  | numThreads (n : Int)
  | dynamic (dynamicThreads : Int)
  | nested (nested : Int)
  | schedule (kind : OmpSched) (modifier : Int)
deriving DecidableEq, Repr

def Setter.apply : Setter → Icv → Icv
  | .numThreads n, icv => { icv with nextNumthreads := if 0 < n then n else 1 }
  | .dynamic n, icv => { icv with dynamicNumthreads := n }
  | .nested n, icv => { icv with nestedParallel := if n ≠ 0 then 1 else 0 }
  | .schedule kind modifier, icv =>
    { icv with
      runSched := kind
      chunkSize := if kind = .auto then 0 else modifier }

-- ======== the state

/-- A region that encloses some code: which of its threads executes it. -/
structure Region where
  threadNum : Int
  teamSize : Int
deriving DecidableEq, Repr

/-- A task of a team, or one of the program. -/
inductive TaskKind
  | implicit
  | explicit
deriving DecidableEq, Repr

/-- How a construct gives its context back: a trampoline and an undeferred
task keep the old one in a local variable; a region has it in `save_ctxt`,
until its end has read it. -/
inductive Construct.Saved
  | local (ctxt : CtxtId)
  | region
  | ending (oldCtxt : Option CtxtId)
deriving DecidableEq, Repr

/-- A construct that a kprocessor is in, with the regions around its code
and the context that was current when it started. -/
structure Frame where
  saved : Construct.Saved
  enclosing : List Region
  entry : CtxtId

/-- `komp_parallel_task_arg_t` -/
structure ParallelArg where
  threadid : Int
  teaminfo : TeamRef
  nextnumthreads : Int
  nestedlevel : Int
  nestedparallel : Int
  activeLevel : Int

/-- `komp_parallelfor_task_arg_t` -/
structure ParallelForArg where
  threadid : Int
  teaminfo : TeamRef
  nextnumthreads : Int

/-- The argument of a task tells its body. -/
inductive TaskArg
  | parallel (arg : ParallelArg)
  | parallelFor (arg : ParallelForArg)
  | explicit (parentctxt : CtxtId)

def TaskArg.kind : TaskArg → TaskKind
  | .explicit _ => .explicit
  | _ => .implicit

/-- A task that was pushed, with the regions around its code and the
control variables it inherits. -/
structure PushedTask where
  arg : TaskArg
  enclosing : List Region
  icv : Icv

/-- What a task should start with, and what it started with. -/
structure Started where
  kind : TaskKind
  inherited : Icv
  got : Icv
deriving DecidableEq, Repr

/-- `libkomp_tls`, and the constructs that the kprocessor is in. -/
structure OmpKproc where
  tls : Option CtxtId
  frames : List Frame

structure Nest where
  heap : CtxtId → Ctxt
  serial : Nat
  kprocs : Nat → OmpKproc
  tasks : List PushedTask
  started : List Started
  ended : List (CtxtId × Option CtxtId)

/-- The regions around the running code. -/
def OmpKproc.enclosing (p : OmpKproc) : List Region :=
  (p.frames.head?.map Frame.enclosing).getD []

/-- A kprocessor runs code of the program unless it waits for the end of a
region. -/
def OmpKproc.running (p : OmpKproc) : Bool :=
  match p.frames with
  | [] => true
  | f :: _ => match f.saved with
    | .ending _ => false
    | _ => true

namespace Nest

/-- No context yet. -/
def init (heap : CtxtId → Ctxt) : Nest where
  heap := heap
  serial := 0
  kprocs _ := ⟨none, []⟩
  tasks := []
  started := []
  ended := []

def setKproc (k : Nat) (p : OmpKproc) (s : Nest) : Nest :=
  { s with kprocs := Function.update s.kprocs k p }

def setCtxt (id : CtxtId) (ctxt : Ctxt) (s : Nest) : Nest :=
  { s with heap := Function.update s.heap id ctxt }

/-- The context that `komp_get_ctxtkproc` allocates at the first call. -/
def firstCtxt (cfg : OmpConfig) (mem : FirstMem) : Ctxt where
  teaminfo := .team mem.previousTeam mem.fatherId (-1)
  icv :=
    { threadId := 0
      nextNumthreads := cfg.concurrency
      nestedLevel := 0
      nestedParallel := 0
      activeLevel := 0
      dynamicNumthreads := 0
      runSched := .dynamic
      chunkSize := 0 }
  saveCtxt := mem.saveCtxt

/-- `komp_get_ctxtkproc` -/
def kompGetCtxtkproc (cfg : OmpConfig) (k : Nat) (mem : FirstMem) (s : Nest) :
    Nest × CtxtId :=
  match (s.kprocs k).tls with
  | some id => (s, id)
  | none =>
    let id : CtxtId := ⟨k, 0, s.serial⟩
    ({ s with serial := s.serial + 1 }.setCtxt id (firstCtxt cfg mem)
      |>.setKproc k ⟨some id, (s.kprocs k).frames⟩, id)

/-- The context that a query of the kprocessor reads. -/
def kompGetCtxt (cfg : OmpConfig) (k : Nat) (mem : FirstMem) (s : Nest) : Ctxt :=
  let (s, id) := s.kompGetCtxtkproc cfg k mem
  s.heap id

/-- A context is pushed and becomes current, for the construct `f`. -/
def pushCtxt (k : Nat) (ctxt : Ctxt) (f : Frame) (s : Nest) : Nest :=
  let id : CtxtId := ⟨k, (s.kprocs k).frames.length + 1, s.serial⟩
  { s with serial := s.serial + 1 }.setCtxt id ctxt
    |>.setKproc k ⟨some id, f :: (s.kprocs k).frames⟩

-- ======== parallel regions

/-- The number of threads of a new team. `nested_level` is compared as an
`unsigned long`. -/
def numThreads (cfg : OmpConfig) (icv : Icv) (num : Nat) : Nat :=
  if (icv.nestedParallel = 0 ∧ 0 < icv.nestedLevel)
      ∨ cfg.maxActiveLevels ≤ (icv.nestedLevel % 2 ^ 64).toNat then 1
  else if num = 0 then
    if cfg.envNthreads ≠ 0 then cfg.envNthreads else icv.nextNumthreads.toNat
  else num

def teamOf (ctxt : Ctxt) (n : Nat) : TeamRef :=
  .team ctxt.teaminfo ctxt.icv.threadId n

/-- The master's context after `komp_init_parallel_start`, in the block
`mem`. -/
def masterCtxt (mem ctxt : Ctxt) (id : CtxtId) (n : Nat) : Ctxt where
  teaminfo := teamOf ctxt n
  icv :=
    { mem.icv with
      threadId := 0
      nextNumthreads := ctxt.icv.nextNumthreads
      nestedLevel := 1 + ctxt.icv.nestedLevel
      nestedParallel := ctxt.icv.nestedParallel
      activeLevel :=
        if n = 1 then ctxt.icv.activeLevel else ctxt.icv.activeLevel + 1 }
  saveCtxt := some id

/-- What the thread `i` of a team of `n` inherits. -/
def inherits (icv : Icv) (n : Nat) (i : Nat) : Icv :=
  { icv with
    threadId := i
    nestedLevel := icv.nestedLevel + 1
    activeLevel := if n = 1 then icv.activeLevel else icv.activeLevel + 1 }

/-- `komp_task_prepare`; `ctxt` is the master's context. -/
def kompTaskPrepare (ctxt : Ctxt) (i : Nat) : TaskArg :=
  .parallel
    { threadid := i
      teaminfo := ctxt.teaminfo
      nextnumthreads := ctxt.icv.nextNumthreads
      nestedlevel := ctxt.icv.nestedLevel
      nestedparallel := ctxt.icv.nestedParallel
      activeLevel := ctxt.icv.activeLevel }

/-- The argument that `GOMP_parallel_loop_dynamic_start` fills. -/
def parallelForArg (ctxt : Ctxt) (i : Nat) : TaskArg :=
  .parallelFor
    { threadid := i
      teaminfo := ctxt.teaminfo
      nextnumthreads := ctxt.icv.nextNumthreads }

/-- The start of a region: the master's context, and the tasks of the
threads `i` of `slaves`. Which kprocessor's queue they go to makes no
difference here. -/
def startRegion (cfg : OmpConfig) (k num : Nat) (mem : Ctxt)
    (arg : Ctxt → Nat → TaskArg) (slaves : Nat → List Nat) (id : CtxtId)
    (s : Nest) : Nest :=
  let ctxt := s.heap id
  let n := numThreads cfg ctxt.icv num
  let master := masterCtxt mem ctxt id n
  let outer := (s.kprocs k).enclosing
  let new := slaves n |>.map fun i =>
    { arg := arg master i
      enclosing := ⟨i, n⟩ :: outer
      icv := inherits ctxt.icv n i }
  { s with
    tasks := s.tasks ++ new
    started := ⟨.implicit, inherits ctxt.icv n 0, master.icv⟩ :: s.started }
  |>.pushCtxt k master ⟨.region, ⟨0, n⟩ :: outer, id⟩

/-- `komp_parallel_start` -/
def kompParallelStart (cfg : OmpConfig) (k num : Nat) (mem : Ctxt)
    (id : CtxtId) (s : Nest) : Nest :=
  s.startRegion cfg k num mem kompTaskPrepare (fun n => List.range' 1 (n - 1)) id

/-- `GOMP_parallel_loop_dynamic_start`; it pushes no task for a range
without iterations. -/
def gompParallelLoopDynamicStart (cfg : OmpConfig) (k num : Nat)
    (start stop incr : Int) (mem : Ctxt) (id : CtxtId) (s : Nest) : Nest :=
  s.startRegion cfg k num mem parallelForArg (fun n =>
    if (0 < incr ∧ stop ≤ start) ∨ (incr < 0 ∧ start ≤ stop) then []
    else List.range' 1 (n - 1)) id

/-- `GOMP_parallel_end`, up to its wait. -/
def gompParallelEnd (k : Nat) (id : CtxtId) (s : Nest) : Option Nest :=
  match (s.kprocs k).frames with
  | ⟨.region, enclosing, entry⟩ :: frames =>
    let ctxt := s.heap id
    s.setCtxt id { ctxt with teaminfo := .null }
      |>.setKproc k ⟨some id, ⟨.ending ctxt.saveCtxt, enclosing, entry⟩ :: frames⟩
      |> some
  | _ => none

-- ======== tasks

/-- `GOMP_task` -/
def gompTask (k : Nat) (ifClause : Bool) (id : CtxtId) (s : Nest) : Nest :=
  let ctxt := s.heap id
  let enclosing := (s.kprocs k).enclosing
  if ifClause then
    { s with tasks := s.tasks ++ [⟨.explicit id, enclosing, ctxt.icv⟩] }
  else
    { s with started := ⟨.explicit, ctxt.icv, ctxt.icv⟩ :: s.started }
    |>.pushCtxt k { ctxt with saveCtxt := some id } ⟨.local id, enclosing, id⟩

/-- The context of a task after its trampoline, in the block `mem`:
`komp_trampoline_task_parallel`, `komp_trampoline_task_parallelfor` or
`GOMP_trampoline_task`, which reads the context of the parent. -/
def taskCtxt (heap : CtxtId → Ctxt) (mem : Ctxt) (id : CtxtId) : TaskArg → Ctxt
  | .parallel arg =>
    { teaminfo := arg.teaminfo
      icv :=
        { mem.icv with
          threadId := arg.threadid
          nextNumthreads := arg.nextnumthreads
          nestedLevel := arg.nestedlevel
          nestedParallel := arg.nestedparallel
          activeLevel := arg.activeLevel
          runSched := .dynamic
          chunkSize := 0 }
      saveCtxt := some id }
  | .parallelFor arg =>
    { teaminfo := arg.teaminfo
      icv :=
        { mem.icv with
          threadId := arg.threadid
          nextNumthreads := arg.nextnumthreads }
      saveCtxt := some id }
  | .explicit parentctxt =>
    { teaminfo := (heap parentctxt).teaminfo
      icv :=
        { mem.icv with
          threadId := (heap parentctxt).icv.threadId
          nextNumthreads := (heap parentctxt).icv.nextNumthreads }
      saveCtxt := some id }

/-- The trampoline of the task `j`, up to the call of its function. -/
def execute (k j : Nat) (mem : Ctxt) (id : CtxtId) (s : Nest) : Option Nest :=
  match s.tasks[j]? with
  | none => none
  | some t =>
    let ctxt := taskCtxt s.heap mem id t.arg
    { s with
      tasks := s.tasks.eraseIdx j
      started := ⟨t.arg.kind, t.icv, ctxt.icv⟩ :: s.started }
    |>.pushCtxt k ctxt ⟨.local id, t.enclosing, id⟩
    |> some

/-- The end of a construct: the old context is current again. -/
def leave (k : Nat) (s : Nest) : Option Nest :=
  let done (f : Frame) (frames : List Frame) (old : Option CtxtId) :=
    some <| { s with ended := (f.entry, old) :: s.ended }.setKproc k ⟨old, frames⟩
  match (s.kprocs k).frames with
  | f :: frames =>
    match f.saved with
    | .local ctxt => done f frames (some ctxt)
    | .ending oldCtxt => done f frames oldCtxt
    | .region => none
  | [] => none

-- ======== steps

/-- What a kprocessor does, with what the memory it is given holds. -/
inductive Event
  | parallel (num : Nat) (mem : Ctxt)
  | parallelLoop (num : Nat) (start stop incr : Int) (mem : Ctxt)
  | parallelEnd
  | task (ifClause : Bool)
  | set (setter : Setter)
  | execute (j : Nat) (mem : Ctxt)
  | leave

/-- The kprocessor, its event and what its first context would hold. -/
structure Action where
  kproc : Nat
  first : FirstMem
  event : Event

/-- The code of the program calls `komp_get_ctxtkproc`, which returns
`id`. It does not run in the wait at the end of a region. -/
def call (cfg : OmpConfig) (k : Nat) (e : Event) (id : CtxtId) (s : Nest) :
    Option Nest :=
  if (s.kprocs k).running then
    match e with
    | .parallel num mem => some (s.kompParallelStart cfg k num mem id)
    | .parallelLoop num start stop incr mem =>
      some (s.gompParallelLoopDynamicStart cfg k num start stop incr mem id)
    | .parallelEnd => s.gompParallelEnd k id
    | .task ifClause => some (s.gompTask k ifClause id)
    | .set setter =>
      let ctxt := s.heap id
      some (s.setCtxt id { ctxt with icv := setter.apply ctxt.icv })
    | _ => none
  else none

def step (cfg : OmpConfig) (a : Action) (s : Nest) : Option Nest :=
  match a.event with
  | .leave => s.leave a.kproc
  | .execute j mem =>
    let (s, id) := s.kompGetCtxtkproc cfg a.kproc a.first
    s.execute a.kproc j mem id
  | e =>
    let (s, id) := s.kompGetCtxtkproc cfg a.kproc a.first
    s.call cfg a.kproc e id

end Nest

-- ======== the property

/-- The thread number and the size at a level; level 0 is the sequential
part, -1 says that there is no such level. -/
def threadNumAt (enclosing : List Region) (level : Int) : Int :=
  if level = 0 then 0
  else if level < 0 then -1
  else (enclosing.reverse[level.toNat - 1]?.map Region.threadNum).getD (-1)

def teamSizeAt (enclosing : List Region) (level : Int) : Int :=
  if level = 0 then 1
  else if level < 0 then -1
  else (enclosing.reverse[level.toNat - 1]?.map Region.teamSize).getD (-1)

/-- The queries say which regions enclose the code that makes them. -/
def Answers (ctxt : Ctxt) (enclosing : List Region) : Prop :=
  ompGetLevel ctxt = enclosing.length
    ∧ ∀ level, ompGetAncestorThreadNum ctxt level = some (threadNumAt enclosing level)
      ∧ ompGetTeamSize ctxt level = some (teamSizeAt enclosing level)

-- ======== the condition

/-- The variables that a region's start does not set: those of the master
are in the block. -/
def Icv.SameSched (icv icv' : Icv) : Prop :=
  icv.dynamicNumthreads = icv'.dynamicNumthreads ∧ icv.runSched = icv'.runSched
    ∧ icv.chunkSize = icv'.chunkSize

/-- The variables that the trampolines of loops and of deferred tasks do
not set, the level apart. -/
def Icv.SameUnset (icv icv' : Icv) : Prop :=
  icv.nestedParallel = icv'.nestedParallel ∧ icv.activeLevel = icv'.activeLevel
    ∧ icv.SameSched icv'

/-- What a task must find to start right. A thread of a region: the
default schedule was to be inherited, and the block holds the rest. A
thread of a loop: the block holds all it is not given. A deferred task:
also its parent has not begun to end its region, and has not changed the
number of threads of the next one. -/
def PushedTask.Meets (scope : TaskKind → Prop) (heap : CtxtId → Ctxt)
    (mem : Ctxt) (t : PushedTask) : Prop :=
  match t.arg with
  | .parallel _ => scope .implicit →
    mem.icv.dynamicNumthreads = t.icv.dynamicNumthreads
      ∧ t.icv.runSched = .dynamic ∧ t.icv.chunkSize = 0
  | .parallelFor _ => mem.icv.nestedLevel = t.enclosing.length
    ∧ (scope .implicit → mem.icv.SameUnset t.icv)
  | .explicit parentctxt => mem.icv.nestedLevel = t.enclosing.length
    ∧ (t.enclosing ≠ [] → (heap parentctxt).teaminfo ≠ .null)
    ∧ (scope .explicit → mem.icv.SameUnset t.icv
      ∧ (heap parentctxt).icv.nextNumthreads = t.icv.nextNumthreads)

namespace Nest

/-- The queries of any running code are right, the tasks of the kinds of
`scope` started with the control variables of the context that created
them, and the constructs that have ended gave the context back. -/
structure Reflects (cfg : OmpConfig) (scope : TaskKind → Prop) (s : Nest) :
    Prop where
  answers : ∀ k first, (s.kprocs k).running →
    Answers (s.kompGetCtxt cfg k first) (s.kprocs k).enclosing
  inherited : ∀ t ∈ s.started, scope t.kind → t.got = t.inherited
  restored : ∀ e ∈ s.ended, e.2 = some e.1

/-- The condition on an event, in the state before it. -/
def Meets (cfg : OmpConfig) (scope : TaskKind → Prop) (a : Action) (s : Nest) :
    Prop :=
  match a.event with
  | .parallel _ mem | .parallelLoop _ _ _ _ mem =>
    scope .implicit → mem.icv.SameSched (s.kompGetCtxt cfg a.kproc a.first).icv
  | .execute j mem => ∀ t, s.tasks[j]? = some t → t.Meets scope s.heap mem
  | _ => True

end Nest

end XKaapi.Omp
