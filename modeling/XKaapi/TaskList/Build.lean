/-
The task list: descriptors, their activation lists and wait counters, as
`kaapi_thread_computedep_task` builds them one task at a time
(src/thread/kaapi_thread_checkdeps.c, kaapi_version_addaccess.c,
kaapi_thread_computeready_access.c, src/kaapi_tasklist.h).

# The state

`FrameTasklist` is `kaapi_frame_tasklist_t` with its inner
`kaapi_tasklist_t`: descriptors are named by what they were allocated for
(`TdId`), the broadcast list of a descriptor is left out (nothing ever
fills it), and so are handles, views and priorities, which neither
ordering nor activation reads. `executed` records the bodies run.

# What is built

`events` is the sequence of shared accesses, tasks in order and
parameters in order. `Built` says what the builder has made of such a
sequence: the writer of a datum is the last task that wrote it, or the
task that inserts its initial value, and each access adds one edge from
the writer it found, unless that is its own task (`computereadylist_spec`).

An access with neither the R nor the W bit, CW above all, has no
implementation: the first access to a datum aborts in
`kaapi_version_add_initialaccess`, a later one gets a null handle. Both
are `none`.
-/
import XKaapi.Dfg.Access
import XKaapi.Lib.Activation

namespace XKaapi.TaskList

open Dfg Activation

-- ======== state

/-- A task descriptor: of the `k`-th task, or of the internal task that
inserts the initial value of a datum. -/
inductive TdId
  | task (k : Nat)
  | init (a : Addr)
deriving DecidableEq, Repr

/-- The body of a descriptor's task, as far as the analysis looks at it. -/
inductive TdBody
  | user
  | taskmove
  | taskalloc
deriving DecidableEq, Repr

/-- `kaapi_taskdescr_t`: the activation list from front to back. -/
structure Taskdescr where
  body : TdBody
  wc : Nat
  counter : Nat
  acl : List TdId
deriving DecidableEq, Repr

/-- `kaapi_version_t`, without its handle. -/
structure Version where
  lastMode : AccessMode
  writerTask : Option TdId
deriving DecidableEq, Repr

/-- `kaapi_frame_tasklist_t`. -/
structure FrameTasklist where
  td : TdId → Taskdescr
  tds : List TdId
  totalTasks : Nat
  version : Addr → Version
  readylist : List TdId
  rtl : List TdId
  executed : List TdId
  cntExec : Nat

/-- `kaapi_allocator_init_td`. -/
def allocatorInitTd (body : TdBody) : Taskdescr where
  body := body
  wc := 0
  counter := 0
  acl := []

/-- `kaapi_frame_tasklist_init`, and an empty version table. -/
def frameTasklistInit : FrameTasklist where
  td := fun _ => allocatorInitTd .user
  tds := []
  totalTasks := 0
  version := fun _ => { lastMode := modeVoid, writerTask := none }
  readylist := []
  rtl := []
  executed := []
  cntExec := 0

-- ======== the builder

namespace FrameTasklist

variable (tl : FrameTasklist)

/-- Write one descriptor. -/
def setTd (id : TdId) (t : Taskdescr) : FrameTasklist :=
  { tl with td := Function.update tl.td id t }

/-- `kaapi_tasklist_allocate_td`. -/
def allocateTd (id : TdId) (body : TdBody) : FrameTasklist :=
  { tl.setTd id (allocatorInitTd body) with
    tds := tl.tds ++ [id]
    totalTasks := tl.totalTasks + 1 }

/-- `kaapi_tasklist_push_successor`: a link at the back of the activation
list, and one more synchronisation for the successor. -/
def pushSuccessor (id succ : TdId) : FrameTasklist :=
  let t := tl.td id
  let tl := tl.setTd id { t with acl := t.acl ++ [succ] }
  let t := tl.td succ
  tl.setTd succ { t with wc := t.wc + 1 }

/-- `kaapi_frame_tasklist_pushback_ready`, which pushes at the front. -/
def pushbackReady (id : TdId) : FrameTasklist :=
  { tl with readylist := id :: tl.readylist }

/-- Write the version of one datum. -/
def setVersion (a : Addr) (v : Version) : FrameTasklist :=
  { tl with version := Function.update tl.version a v }

/-- `version->writer_task = td`. -/
def setWriterTask (a : Addr) (id : TdId) : FrameTasklist :=
  tl.setVersion a { tl.version a with writerTask := some id }

/-- `version->last_mode = m`. -/
def setLastMode (a : Addr) (m : AccessMode) : FrameTasklist :=
  tl.setVersion a { tl.version a with lastMode := m }

/-- `kaapi_version_add_initialaccess`: a move task for a reader, an
allocation task for a writer, and no code for CW. -/
def versionAddInitialaccess (m : AccessMode) (a : Addr) :
    Option FrameTasklist :=
  if accessIsRead m then
    let tl := tl.allocateTd (.init a) .taskmove
    let tl := (tl.setWriterTask a (.init a)).pushbackReady (.init a)
    some (tl.setLastMode a modeW)
  else if accessIsWrite m then
    let tl := tl.allocateTd (.init a) .taskalloc
    let tl := (tl.setWriterTask a (.init a)).pushbackReady (.init a)
    some (tl.setLastMode a modeW)
  else none

/-- `kaapi_thread_computeready_access` on a version whose writer is `w`.
The second answer tells whether the returned handle is not null. -/
def threadComputereadyAccess (a : Addr) (w task : TdId) (m : AccessMode) :
    FrameTasklist × Bool :=
  if accessIsReadwrite m then
    let tl :=
      if w ≠ task then (tl.pushSuccessor w task).setWriterTask a task else tl
    (tl.setLastMode a m, true)
  else if accessIsRead m then
    (if w ≠ task then tl.pushSuccessor w task else tl, true)
  else if accessIsWrite m then
    -- the initial allocation is no WAR or WAW dependency
    if (tl.td w).body = .taskalloc then
      (((tl.pushSuccessor w task).setWriterTask a task).setLastMode a m, true)
    else
      let tl :=
        if w ≠ task then (tl.pushSuccessor w task).setWriterTask a task
        else tl
      (tl.setLastMode a m, true)
  else (tl, false)

/-- The body of the loop of `kaapi_thread_computedep_task` for task `k`. -/
def computedepParam (k : Nat) (tl : FrameTasklist) (p : Param) :
    Option FrameTasklist :=
  if p.m = modeV then some tl
  else
    (if (tl.version p.data).lastMode = modeVoid then
        tl.versionAddInitialaccess p.m p.data
      else some tl).bind fun tl =>
    (tl.version p.data).writerTask.bind fun w =>
    let r := tl.threadComputereadyAccess p.data w (.task k) p.m
    -- the handle is dereferenced at once
    if r.2 then some r.1 else none

-- ======== activation

/-- The body of the loop of `kaapi_readytasklist_push_from_activationlist`:
`kaapi_taskdescr_activated` counts the signal, and the descriptor is
pushed when the count is a multiple of `wc`. The remainder by 0 is
undefined. -/
def pushIfActivated (id : TdId) : Option FrameTasklist :=
  let t := tl.td id
  let c := t.counter + 1
  if t.wc = 0 then none
  else
    let tl := tl.setTd id { t with counter := c }
    some { tl with rtl := if c % t.wc = 0 then id :: tl.rtl else tl.rtl }

/-- `kaapi_readytasklist_push_from_activationlist`. -/
def pushFromActivationlist : List TdId → FrameTasklist →
    Option FrameTasklist
  | [], tl => some tl
  | id :: rest, tl => (tl.pushIfActivated id).bind (pushFromActivationlist rest)

/-- `kaapi_readytasklist_pushactivated`. -/
def pushactivated (id : TdId) : Option FrameTasklist :=
  pushFromActivationlist (tl.td id).acl tl

end FrameTasklist

/-- A task given to the analysis: its parameters, if its body has a
format. -/
abbrev Task := Option (List Param)

/-- `kaapi_thread_computedep_task` on task `k`. Without a format it
answers `EINVAL` and leaves the list alone. -/
def computedepTask (k : Nat) (t : Task) (tl : FrameTasklist) :
    Option FrameTasklist :=
  match t with
  | none => some tl
  | some params =>
    (params.foldlM (FrameTasklist.computedepParam k)
      (tl.allocateTd (.task k) .user)).bind fun tl =>
    if (tl.td (.task k)).wc = 0 then tl.pushactivated (.task k)
    else some tl

/-- The loop of `kaapi_thread_computereadylist`, from task `k` on. -/
def computereadylistFrom (k : Nat) : List Task → FrameTasklist →
    Option FrameTasklist
  | [], tl => some tl
  | t :: ts, tl => (computedepTask k t tl).bind (computereadylistFrom (k + 1) ts)

/-- `kaapi_thread_computereadylist` on the tasks of a frame. -/
def computereadylist (tasks : List Task) : Option FrameTasklist :=
  computereadylistFrom 0 tasks frameTasklistInit

end XKaapi.TaskList
