/-
What becomes of a task that is stolen
(src/task/kaapi_task_steal_body.c, src/task/kaapi_task_aftersteal.c).

Three functions share the work. `kaapi_tasksteal_body`, run by the
requester, executes the body on the original argument record when no
mask bit is set, and else on a copy of it in which every W or CW
parameter with a mask bit points to fresh storage. `kaapi_taskwrite_body`
then stores the pointers of the copy in the `version` fields of the
original record and publishes TERM, or MERGE if a mask is not zero. Upon
MERGE the owner runs `kaapi_aftersteal_body`, which copies back or
reduces every W or CW parameter whose `version` is not its `data`.

A run that a C program could not continue (an undefined shift, a null or
dangling pointer, `kaapi_assert(0)`) is `none`.

Memory is told apart by what a pointer can point to (`Loc`): the data of
the program, the fields of the two argument records that hold V
parameters, and the storage `malloc` answers, which no datum has. The
body of a task is what the access modes allow it to be: it reads its V,
R and RW parameters, then gives each W and RW parameter a value and
accumulates into each CW parameter.
-/
import XKaapi.Lib.ForLoop
import XKaapi.Dfg.Readiness

namespace XKaapi.Dfg

open ForLoop
open Function (update)

-- ======== memory

/-- `KAAPI_ACCESS_MODE_IP`. -/
def modeIP : AccessMode := 128

/-- What a pointer points to. -/
inductive Loc
  | datum (a : Addr)
  -- V parameter `i` of the original record, and of the copy
  | field (i : Nat)
  | copyField (i : Nat)
  -- what was allocated for parameter `i`
  | fresh (i : Nat)
deriving DecidableEq, Repr

/-- Memory. A V field of the copy may be unconstructed, and fresh storage
not allocated, or allocated and not initialised. -/
structure Mem (V : Type*) where
  datum : Addr → V
  field : Nat → V
  copyField : Nat → Option V
  fresh : Nat → Option (Option V)

namespace Mem

variable {V : Type*}

/-- Read through a pointer. -/
def load (m : Mem V) : Loc → Option V
  | .datum a => some (m.datum a)
  | .field i => some (m.field i)
  | .copyField i => m.copyField i
  | .fresh i => (m.fresh i).join

/-- Write through a pointer. -/
def store (m : Mem V) (l : Loc) (v : V) : Option (Mem V) :=
  match l with
  | .datum a => some { m with datum := update m.datum a v }
  | .field i => some { m with field := update m.field i v }
  | .copyField i =>
    some { m with copyField := update m.copyField i (some v) }
  | .fresh i =>
    (m.fresh i).map fun _ =>
      { m with fresh := update m.fresh i (some (some v)) }

/-- `malloc` for parameter `i`, then `cstor` if the format has one. -/
def malloc (m : Mem V) (i : Nat) (cstor : Option V) : Mem V :=
  { m with fresh := update m.fresh i (some cstor) }

/-- `free`: only what `malloc` answered can be freed, once. -/
def free (m : Mem V) : Loc → Option (Mem V)
  | .fresh i =>
    (m.fresh i).map fun _ =>
      { m with fresh := update m.fresh i none }
  | _ => none

/-- `dstor` of a V field of the copy. -/
def destroy (m : Mem V) : Loc → Option (Mem V)
  | .copyField i =>
    (m.copyField i).map fun _ =>
      { m with copyField := update m.copyField i none }
  | _ => none

/-- No copy and no fresh storage yet. -/
def init (datum : Addr → V) (field : Nat → V) : Mem V where
  datum := datum
  field := field
  copyField := fun _ => none
  fresh := fun _ => none

end Mem

-- ======== formats

/-- The reduction of a CW parameter (`reducor`) and what fresh storage
starts with (`redinit`). -/
structure Reduction (V : Type*) where
  reduce : V → V → V
  neutral : V

/-- What the access mode CW asks of a reduction. -/
structure Reduction.Lawful {V : Type*} (red : Reduction V) : Prop where
  assoc : ∀ a b c, red.reduce (red.reduce a b) c = red.reduce a (red.reduce b c)
  reduce_neutral : ∀ a, red.reduce a red.neutral = a

/-- `kaapi_format_t::flag`. -/
inductive FormatFlag
  | staticField
  | dynamicField
deriving DecidableEq, Repr

/-- What the three functions use of a task format besides the modes: for
each parameter the constructor of its format, if there is one, its
reduction, and whether the callbacks `get_off_param` and `set_view_param`
return when they are asked about it: they are the program's, and some
abort. -/
structure TaskFormat (V : Type*) where
  flag : FormatFlag
  cstor : Nat → Option V
  reduction : Nat → Reduction V
  getOffParam : Nat → Option Unit
  setViewParam : Nat → Option Unit

/-- `kaapi_access_t`. -/
structure Access where
  data : Loc
  version : Option Loc
deriving DecidableEq, Repr

/-- An argument record: the access of each parameter. For a V parameter
`data` is where the record holds the value. -/
abbrev Args := Nat → Access

/-- `kaapi_format_get_data_param`: an offset in a static format. -/
def formatGetDataParam {V : Type*} (fmt : TaskFormat V) (i : Nat) : Option Unit :=
  if fmt.flag = .staticField then some () else fmt.getOffParam i

/-- `kaapi_format_set_view_param`: not for static formats. -/
def formatSetViewParam {V : Type*} (fmt : TaskFormat V) (i : Nat) : Option Unit :=
  if fmt.flag = .staticField then none else fmt.setViewParam i

/-- The body of a task, by what its access modes let it do: from the
values read, the value given to each W or RW parameter and what is
accumulated into each CW parameter. -/
structure Body (V : Type*) where
  out : List (Option V) → Nat → V
  contrib : List (Option V) → Nat → List V

-- ======== the body

section Code

variable {V : Type*} (fmt : TaskFormat V) (body : Body V)
  (params : List Param)

/-- What the body reads through parameter `i`. -/
def readInput (m : Mem V) (args : Args) (i : Nat) (p : Param) :
    Option (Option V) :=
  if p.m = modeV || accessIsRead p.m then
    (m.load (args i).data).map some
  else some none

/-- The values read by the body. -/
def readInputs (m : Mem V) (args : Args) : Option (List (Option V)) :=
  forIdx (fun i p ins => (readInput m args i p).map (ins ++ [·])) 0 params []

/-- What the body does to parameter `i`. -/
def writeOutput (args : Args) (ins : List (Option V)) (i : Nat) (p : Param)
    (m : Mem V) : Option (Mem V) :=
  if accessIsWrite p.m then m.store (args i).data (body.out ins i)
  else if accessIsCumulwrite p.m then
    (m.load (args i).data).bind fun v =>
      m.store (args i).data
        ((body.contrib ins i).foldl (fmt.reduction i).reduce v)
  else some m

/-- The call `body(args, thread)`. -/
def callBody (args : Args) (m : Mem V) : Option (Mem V) :=
  (readInputs params m args).bind fun ins =>
    forIdx (writeOutput fmt body args ins) 0 params m

-- ======== kaapi_tasksteal_body

/-- The test `(mask & (1<<i)) != 0`. -/
def maskHas (mask : BitVec 32) (i : Nat) : Option Bool :=
  if i < 32 then some (mask.getLsbD i) else none

/-- The test for fresh storage, on `war_param` first. -/
def takesFresh (war cw : BitVec 32) (i : Nat) : Option Bool :=
  (maskHas war i).bind fun w => if w then some true else maskHas cw i

/-- Fresh storage for parameter `i`, a neutral element in it if `cw_param`
has the bit. -/
def freshParam (cw : BitVec 32) (i : Nat) (st : Mem V × Args) :
    Option (Mem V × Args) :=
  (maskHas cw i).bind fun c =>
    let start := if c then some (fmt.reduction i).neutral else fmt.cstor i
    let copy := update st.2 i ⟨.fresh i, none⟩
    (formatSetViewParam fmt i).map fun _ => (st.1.malloc i start, copy)

/-- A stack parameter: fresh storage with the value of the original. -/
def stackParam (orig : Args) (i : Nat) (st : Mem V × Args) :
    Option (Mem V × Args) :=
  (st.1.load (orig i).data).bind fun v =>
    let copy := update st.2 i ⟨.fresh i, none⟩
    (formatSetViewParam fmt i).map fun _ => (st.1.malloc i (some v), copy)

/-- The parameter is one the copy may have to rename: W, or CW and not in
place. -/
def mayRename (p : Param) : Bool :=
  accessIsOnlywrite p.m
    || (accessIsCumulwrite p.m && p.mode &&& modeIP == 0)

/-- One turn of the loop of `kaapi_tasksteal_body` over the copy. -/
def stealParam (war cw : BitVec 32) (orig : Args) (i : Nat) (p : Param)
    (st : Mem V × Args) : Option (Mem V × Args) :=
  if p.m = modeV then
    -- both records are asked where the value is, then cstorcopy
    (formatGetDataParam fmt i).bind fun _ =>
      (st.1.load (orig i).data).bind fun v =>
        (st.1.store (st.2 i).data v).map fun m => (m, st.2)
  else if accessIsStack p.m then stackParam fmt orig i st
  else if mayRename p then
    (takesFresh war cw i).bind fun b =>
      if b then freshParam fmt cw i st else some st
  else some st

/-- `kaapi_format_task_copy`: the V fields of the copy are its own. -/
def formatTaskCopy (orig : Args) : Args := fun i =>
  match params[i]? with
  | some p =>
    if p.m = modeV then { orig i with data := .copyField i } else orig i
  | none => orig i

/-- `kaapi_tasksteal_body` up to the push of the write task; the copy is
`arg->copy_task_args`. -/
def taskstealBody (war cw : BitVec 32) (orig : Args) (m : Mem V) :
    Option (Mem V × Option Args) :=
  if war = 0 ∧ cw = 0 then
    (callBody fmt body params orig m).map fun m => (m, none)
  else
    (forIdx (stealParam fmt war cw orig) 0 params
        (m, formatTaskCopy params orig)).bind fun st =>
      (callBody fmt body params st.2 st.1).map fun m => (m, some st.2)

-- ======== kaapi_taskwrite_body

/-- The final state of the original task. -/
inductive Published
  | term
  | merge
deriving DecidableEq, Repr

/-- The state of the loop of `kaapi_taskwrite_body`. -/
structure Writeback (V : Type*) where
  mem : Mem V
  orig : Args
  war : BitVec 32

/-- One turn of the loop of `kaapi_taskwrite_body`. -/
def writebackParam (copy : Args) (i : Nat) (p : Param) (st : Writeback V) :
    Option (Writeback V) :=
  if p.m = modeV then
    (formatGetDataParam fmt i).bind fun _ =>
      (st.mem.destroy (copy i).data).map fun m => { st with mem := m }
  else if mayRename p then
    let access := { st.orig i with version := some (copy i).data }
    some { st with orig := update st.orig i access }
  else if accessIsStack p.m then
    -- never merged: its bit is dropped
    (maskHas st.war i).map fun _ => { st with war := st.war &&& ~~~(1#32 <<< i) }
  else some st

/-- `kaapi_taskwrite_body`: the original record and what is published. -/
def taskwriteBody (war cw : BitVec 32) (orig : Args) (copy : Option Args)
    (m : Mem V) : Option (Writeback V × Published) :=
  let loop : Option (Writeback V) :=
    match copy with
    | none => some ⟨m, orig, war⟩
    | some copy => forIdx (writebackParam fmt copy) 0 params ⟨m, orig, war⟩
  loop.map fun st =>
    (st, if st.war = 0 ∧ cw = 0 then .term else .merge)

-- ======== kaapi_aftersteal_body

/-- What the merge does to the memory of the program. -/
inductive MergeOp
  | assign (dst src : Loc)
  | reduce (dst src : Loc)
  | free (l : Loc)
deriving DecidableEq, Repr

/-- The copy or the reduction of a version into its datum. -/
def mergeVersion (i : Nat) (p : Param) (dst src : Loc)
    (st : Mem V × List MergeOp) : Option (Mem V × List MergeOp) :=
  (st.1.load src).bind fun v =>
    if !accessIsCumulwrite p.m then
      (st.1.store dst v).map fun m => (m, st.2 ++ [.assign dst src])
    else if p.mode &&& modeIP == 0 then
      (st.1.load dst).bind fun d =>
        (st.1.store dst ((fmt.reduction i).reduce d v)).map fun m =>
          (m, st.2 ++ [.reduce dst src])
    else some st

/-- The release of a merged version. -/
def freeVersion (p : Param) (src : Loc) (st : Mem V × List MergeOp) :
    Option (Mem V × List MergeOp) :=
  if p.mode &&& modeIP == 0 then
    (st.1.free src).map fun m => (m, st.2 ++ [.free src])
  else some st

/-- One turn of the loop of `kaapi_aftersteal_body`. -/
def afterstealParam (orig : Args) (i : Nat) (p : Param)
    (st : Mem V × List MergeOp) : Option (Mem V × List MergeOp) :=
  if p.m = modeV then some st
  else if accessIsOnlywrite p.m || accessIsCumulwrite p.m then
    if some (orig i).data = (orig i).version then some st
    else
      (orig i).version.bind fun src =>
        (mergeVersion fmt i p (orig i).data src st).bind (freeVersion p src)
  else some st

/-- `kaapi_aftersteal_body`. -/
def afterstealBody (orig : Args) (m : Mem V) :
    Option (Mem V × List MergeOp) :=
  forIdx (afterstealParam fmt orig) 0 params (m, [])

-- ======== the whole life

/-- The record as the program pushed it. `kaapi_access_init` sets
`version` in debug builds only. -/
def origArgs (version : Nat → Option Loc) : Args := fun i =>
  match params[i]? with
  | some p =>
    if p.m = modeV then ⟨.field i, none⟩ else ⟨.datum p.data, version i⟩
  | none => ⟨.field i, none⟩

/-- What a stolen task has done when its owner passes it. -/
structure Outcome (V : Type*) where
  mem : Mem V
  published : Published
  log : List MergeOp

/-- The owner's part: nothing after TERM, the merge after MERGE. -/
def ownerPass (st : Writeback V × Published) : Option (Outcome V) :=
  match st.2 with
  | .term => some ⟨st.1.mem, .term, []⟩
  | .merge =>
    (afterstealBody fmt params st.1.orig st.1.mem).map fun r =>
      ⟨r.1, .merge, r.2⟩

/-- A stolen task from its theft to the moment its owner passes it.
`earlier` is what the tasks before it in program order, which had not
run at the theft, do to the data in the meantime. -/
def stolenRun (war cw : BitVec 32) (version : Nat → Option Loc)
    (earlier : (Addr → V) → Addr → V) (m : Mem V) : Option (Outcome V) :=
  let orig := origArgs params version
  (taskstealBody fmt body params war cw orig m).bind fun st =>
    (taskwriteBody fmt params war cw orig st.2 st.1).bind fun w =>
      let mem := { w.1.mem with datum := earlier w.1.mem.datum }
      ownerPass fmt params ({ w.1 with mem := mem }, w.2)

end Code

end XKaapi.Dfg
