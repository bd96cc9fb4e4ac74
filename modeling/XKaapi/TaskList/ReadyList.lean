/-
Ready task lists (tasklist/kaapi_readytasklist_{push,rpush,pop,steal,
prio}.c and affinity/kaapi_affinity_steal.c).

A ready list is one doubly linked list of task descriptors for each
priority, the links being fields of the descriptors, with a size each and
a count for all. A processor pushes and pops at the head, others push at
the tail, and thieves scan from the tail with one of four policies.

The loops follow the links of the heap, one at a time, and so take fuel;
the functions run one after the other, each list under its lock.
-/
import XKaapi.Lib.LinkedList
import XKaapi.Lib.Run

namespace XKaapi.ReadyList

open LinkedList

variable {ι : Type} [DecidableEq ι]

-- ======== descriptors

/-- kaapi_taskdescr_t, what the ready lists read of it. -/
structure Taskdescr where
  /-- `td->priority` -/
  priority : Nat
  /-- `td->fmt != 0`; 0 means internal task -/
  fmt : Bool
  /-- `td->task->u.s.arch`: bitmap of authorized archs, 0 is all archs -/
  arch : Nat
  /-- `kaapi_get_task_body_by_arch(td, arch) != 0` -/
  body : Nat → Bool
  /-- `kaapi_task_getbody(td->task) == kaapi_staticschedtask_body` -/
  staticsched : Bool
  /-- `td->u.acl.date` -/
  date : Nat

/-- kaapi_task_has_arch -/
def Taskdescr.hasArch (td : Taskdescr) (arch : Nat) : Bool :=
  td.arch == 0 || td.arch.testBit arch

/-- The right processor arch: what is left of the condition by which the
scans skip a descriptor. -/
def Taskdescr.eligible (td : Taskdescr) (arch : Nat) : Bool :=
  !(!td.hasArch arch || (td.fmt && !td.body arch))

/-- The condition of the other two scans: internal, or for this arch. -/
def Taskdescr.valid (td : Taskdescr) (arch : Nat) : Bool :=
  !td.fmt || (td.hasArch arch && td.body arch)

/-- KAAPI_PROC_TYPE_CUDA -/
def procTypeCuda : Nat := 2

-- ======== scans

/-- `while (td != 0 && !stop(td)) td = td->link` -/
def scan (h : Heap ι Taskdescr) (link : Node ι Taskdescr → Option ι)
    (stop : ι → Taskdescr → Bool) : Nat → Option ι → Option (Option ι)
  | 0, _ => none
  | _ + 1, none => some none
  | fuel + 1, some i =>
    match h i with
    | none => none
    | some n =>
      if stop i n.val then some (some i)
      else scan h link stop fuel (link n)

/-- `while (td != 0) { acc = f(acc, td); td = td->link; }` -/
def fold {β : Type} (h : Heap ι Taskdescr) (link : Node ι Taskdescr → Option ι)
    (f : β → ι → Taskdescr → β) : Nat → Option ι → β → Option β
  | 0, _, _ => none
  | _ + 1, none, acc => some acc
  | fuel + 1, some i, acc =>
    match h i with
    | none => none
    | some n => fold h link f fuel (link n) (f acc i n.val)

/-- KAAPI_STEAL_AFFINITY -/
inductive StealAffinity
  | first | maxctpath | maxhit | writer
deriving DecidableEq, Repr

/-- A thief: its processor type, and what the memory tells it about a
descriptor (kaapi_data_get_affinity_hit_size and
kaapi_memory_taskdescr_has_valid_writer). -/
structure Thief (ι : Type) where
  arch : Nat
  hit : ι → Nat
  hasValidWriter : ι → Bool

/-- kaapi_steal_by_affinity_first -/
def stealByAffinityFirst (h : Heap ι Taskdescr) (fuel : Nat) (thief : Thief ι)
    (td : Option ι) : Option (Option ι) :=
  scan h Node.prev (fun _ td => td.staticsched || td.eligible thief.arch) fuel td

/-- kaapi_steal_by_affinity_maxctpath -/
def stealByAffinityMaxctpath (h : Heap ι Taskdescr) (fuel : Nat) (thief : Thief ι)
    (td : Option ι) : Option (Option ι) := do
  match ← stealByAffinityFirst h fuel thief td with
  | none => return none
  | some i => do
      let n ← h i
      let best ← fold h Node.prev
        (fun (best : ι × Nat) i td =>
          if td.valid thief.arch && best.2 < td.date then (i, td.date) else best)
        fuel td (i, n.val.date)
      return some best.1

/-- The loop of maxhit: `tdhitmax` and `hitmax` after one descriptor. -/
def maxhitBody (thief : Thief ι) (best : Option (ι × Nat)) (i : ι)
    (td : Taskdescr) : Option (ι × Nat) :=
  if !td.fmt then
    match best with
    | none => some (i, 0)
    | some _ => best
  else if td.hasArch thief.arch && td.body thief.arch then
    match best with
    | none => some (i, thief.hit i)
    | some (_, hitmax) =>
      if hitmax < thief.hit i then some (i, thief.hit i) else best
  else best

/-- kaapi_steal_by_affinity_maxhit -/
def stealByAffinityMaxhit (h : Heap ι Taskdescr) (fuel : Nat) (thief : Thief ι)
    (td : Option ι) : Option (Option ι) := do
  let best ← fold h Node.prev (maxhitBody thief) fuel td none
  return best.map Prod.fst

/-- kaapi_steal_by_affinity_writer -/
def stealByAffinityWriter (h : Heap ι Taskdescr) (fuel : Nat) (thief : Thief ι)
    (td : Option ι) : Option (Option ι) := do
  match ← stealByAffinityFirst h fuel thief td with
  | none => return none
  | some i =>
    match ← scan h Node.prev
        (fun j td => td.fmt && td.hasArch thief.arch && td.body thief.arch
          && thief.hasValidWriter j) fuel td with
    | some j => return some j
    | none => return some i

/-- `kaapi_default_param.steal_by_affinity` -/
def stealByAffinity : StealAffinity → Heap ι Taskdescr → Nat → Thief ι →
    Option ι → Option (Option ι)
  | .first => stealByAffinityFirst
  | .maxctpath => stealByAffinityMaxctpath
  | .maxhit => stealByAffinityMaxhit
  | .writer => stealByAffinityWriter

-- ======== one list

/-- kaapi_onereadytasklist_t: head, tail and size. -/
structure Onereadytasklist (ι : Type) where
  ends : Ends ι
  size : Int

/-- The nodes, and one list of them. -/
abbrev OneSt (ι : Type) := Heap ι Taskdescr × Onereadytasklist ι

/-- kaapi_onereadytasklist_push -/
def onereadytasklistPush (s : OneSt ι) (td : ι) : Option (OneSt ι) := do
  let (h, ortl) := s
  let h ← setPrev h td none
  let h ← setNext h td none
  let h ← setNext h td ortl.ends.beg
  match ortl.ends.beg with
  | some a => do
      let h ← setPrev h a (some td)
      return (h, ⟨⟨some td, ortl.ends.last⟩, ortl.size + 1⟩)
  | none => return (h, ⟨⟨some td, some td⟩, ortl.size + 1⟩)

/-- kaapi_onereadytasklist_remote_push -/
def onereadytasklistRemotePush (s : OneSt ι) (td : ι) : Option (OneSt ι) := do
  let (h, ortl) := s
  let h ← setPrev h td none
  let h ← setNext h td none
  let h ← setPrev h td ortl.ends.last
  match ortl.ends.last with
  | some z => do
      let h ← setNext h z (some td)
      return (h, ⟨⟨ortl.ends.beg, some td⟩, ortl.size + 1⟩)
  | none => return (h, ⟨⟨some td, some td⟩, ortl.size + 1⟩)

/-- `curr->prev->next = curr->next`, or the head. -/
def unlinkPrev (h : Heap ι Taskdescr) (e : Ends ι) (n : Node ι Taskdescr) :
    Option (Heap ι Taskdescr × Ends ι) :=
  match n.prev with
  | some a => do
      let h ← setNext h a n.next
      return (h, e)
  | none => some (h, { e with beg := n.next })

/-- `curr->next->prev = curr->prev`, or the tail. -/
def unlinkNext (h : Heap ι Taskdescr) (e : Ends ι) (n : Node ι Taskdescr) :
    Option (Heap ι Taskdescr × Ends ι) :=
  match n.next with
  | some c => do
      let h ← setPrev h c n.prev
      return (h, e)
  | none => some (h, { e with last := n.prev })

/-- Take `curr` out and clear its links. -/
def takeOut (s : OneSt ι) (curr : ι) : Option (OneSt ι) := do
  let (h, ortl) := s
  let n ← h curr
  let (h, e) ← unlinkPrev h ortl.ends n
  let n ← h curr
  let (h, e) ← unlinkNext h e n
  let h ← setNext h curr none
  let h ← setPrev h curr none
  return (h, ⟨e, ortl.size - 1⟩)

/-- kaapi_onereadytasklist_pop by a processor of type `arch`: the
descriptor, or none for EBUSY. -/
def onereadytasklistPop (arch : Nat) (s : OneSt ι) :
    Option (Option ι × OneSt ι) := do
  let (h, ortl) := s
  if ortl.size = 0 then return (none, s)
  match ← scan h Node.next (fun _ td => td.eligible arch)
      (ortl.size.toNat + 1) ortl.ends.beg with
  | none => return (none, s)
  | some curr => do
      let s ← takeOut s curr
      return (some curr, s)

/-- kaapi_onereadytasklist_steal -/
def onereadytasklistSteal (affinity : StealAffinity) (thief : Thief ι)
    (s : OneSt ι) : Option (Option ι × OneSt ι) := do
  let (h, ortl) := s
  if ortl.size = 0 then return (none, s)
  match ← stealByAffinity affinity h (ortl.size.toNat + 1) thief
      ortl.ends.last with
  | none => return (none, s)
  | some curr => do
      let s ← takeOut s curr
      return (some curr, s)

-- ======== all lists

/-- KAAPI_TASKLIST_NUM_PRIORITY, from KAAPI_TASKLIST_MIN_PRIORITY = 0. -/
def numPriority : Nat := 8

/-- kaapi_readytasklist_t, and the nodes. -/
structure Readytasklist (ι : Type) where
  heap : Heap ι Taskdescr
  prl : Nat → Onereadytasklist ι
  cntTasks : Int

/-- kaapi_readytasklist_init -/
def Readytasklist.init (heap : Heap ι Taskdescr) : Readytasklist ι where
  heap := heap
  prl _ := ⟨⟨none, none⟩, 0⟩
  cntTasks := 0

/-- kaapi_readylist_get_priority_range on a processor of type `cur`:
`min_prio`, `max_prio` and `inc_prio`. -/
def getPriorityRange (cur : Nat) : Int × Int × Int :=
  if cur = procTypeCuda then (8, 0, 1) else (-1, 7, -1)

namespace Readytasklist

/-- List `p` and the nodes, replaced. -/
def setOne (s : Readytasklist ι) (p : Nat) (one : OneSt ι) : Readytasklist ι where
  heap := one.1
  prl := Function.update s.prl p one.2
  cntTasks := s.cntTasks

/-- kaapi_readylist_push; none for a priority out of its range. -/
def push (s : Readytasklist ι) (td : ι) : Option (Readytasklist ι) := do
  let n ← s.heap td
  if n.val.priority < numPriority then
    let one ← onereadytasklistPush (s.heap, s.prl n.val.priority) td
    return { s.setOne n.val.priority one with cntTasks := s.cntTasks + 1 }
  else none

/-- kaapi_readylist_remote_push -/
def remotePush (s : Readytasklist ι) (td : ι) : Option (Readytasklist ι) := do
  let n ← s.heap td
  if n.val.priority < numPriority then
    let one ← onereadytasklistRemotePush (s.heap, s.prl n.val.priority) td
    return { s.setOne n.val.priority one with cntTasks := s.cntTasks + 1 }
  else none

/-- `for (prio = max_prio; prio != min_prio; prio += inc_prio)` with the
pop, or the steal, of one list as its body. -/
def prioLoop (one : OneSt ι → Option (Option ι × OneSt ι)) (minPrio incPrio : Int) :
    Nat → Int → Readytasklist ι → Option (Option ι × Readytasklist ι)
  | 0, _, _ => none
  | fuel + 1, prio, s =>
    if prio = minPrio then some (none, s)
    else do
      let (r, s') ← one (s.heap, s.prl prio.toNat)
      match r with
      | some td =>
        return (some td,
          { s.setOne prio.toNat s' with cntTasks := s.cntTasks - 1 })
      | none => prioLoop one minPrio incPrio fuel (prio + incPrio) s

/-- kaapi_readylist_pop, by a processor of type `arch`. -/
def pop (arch : Nat) (s : Readytasklist ι) : Option (Option ι × Readytasklist ι) :=
  if s.cntTasks = 0 then some (none, s)
  else
    let (minPrio, maxPrio, incPrio) := getPriorityRange arch
    prioLoop (onereadytasklistPop arch) minPrio incPrio (numPriority + 1) maxPrio s

/-- kaapi_readylist_steal, called on a processor of type `cur`. -/
def steal (affinity : StealAffinity) (cur : Nat) (thief : Thief ι)
    (s : Readytasklist ι) : Option (Option ι × Readytasklist ι) :=
  if s.cntTasks = 0 then some (none, s)
  else
    let (minPrio, maxPrio, incPrio) := getPriorityRange cur
    prioLoop (onereadytasklistSteal affinity thief) minPrio incPrio
      (numPriority + 1) maxPrio s

end Readytasklist

end XKaapi.ReadyList
