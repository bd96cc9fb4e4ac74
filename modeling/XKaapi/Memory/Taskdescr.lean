/-
The entry points that move a datum between address spaces: the prologue
and the epilogue of a task (memory/kaapi_memory_taskdescr.c), the
eviction of a block and the synchronisation of two spaces
(memory/kaapi_memory_synchronize.c), over the copies of
memory/kaapi_memory_copy.c.

Everything is about the metadata of one datum; an access of a task to
another datum is a step of that datum's metadata. A function answers
`none` where the program stops: a transfer from or to a device through a
null pointer aborts, a task body faults on one.
-/
import XKaapi.Memory.Metadata
import XKaapi.Dfg.Access

namespace XKaapi.Memory

open Dfg

variable {V : Type}

namespace MetadataInfo

-- ======== copies

/-- A transfer by the CUDA library, one end at least on a device. Every
failure is an abort. -/
def cudaMemcpy (dest src : Lid) (d : MetadataInfo V) :
    Option (MetadataInfo V) :=
  match d.data dest, d.data src with
  | .block _, .block c => some (d.setContent dest c)
  | _, _ => none

/-- kaapi_memory_copy_cpu2cpu: EINVAL, which no caller looks at, on a
null pointer. -/
def copyCpu2cpu (dest src : Lid) (d : MetadataInfo V) : MetadataInfo V :=
  match d.data dest, d.data src with
  | .block _, .block c => d.setContent dest c
  | _, _ => d

/-- kaapi_memory_copy_cuda2cuda: from the host when it is valid, else by
way of the host block, which is then marked valid. That the host has a
block is not checked. -/
def copyCuda2cuda (dest src : Lid) (d : MetadataInfo V) :
    Option (MetadataInfo V) :=
  if d.isValid hostLid then d.cudaMemcpy dest hostLid
  else do
    let d ← d.cudaMemcpy hostLid src
    let d ← d.cudaMemcpy dest hostLid
    return d.clearDirty hostLid

/-- kaapi_memory_copy: the table `the_good_choice_is`, local copies. -/
def memoryCopy (dest src : Lid) (d : MetadataInfo V) :
    Option (MetadataInfo V) :=
  match isCuda dest, isCuda src with
  | false, false => some (d.copyCpu2cpu dest src)
  | false, true => d.cudaMemcpy dest src
  | true, false => d.cudaMemcpy dest src
  | true, true => d.copyCuda2cuda dest src

-- ======== prologue and epilogue

/-- kaapi_memory_allocate_view: a block of a device. The host identifier
has no type, so nothing is allocated for it and the pointer is null. -/
def allocateView (k : Lid) : Data V :=
  if isCuda k then .block none else .null

/-- kaapi_memory_taskdescr_prologue_alloc. The new block of a device has
one user. -/
def prologueAlloc (k : Lid) (d : MetadataInfo V) : MetadataInfo V :=
  ((d.bindData k (allocateView k)).setUsers k
    (if isCuda k then 1 else d.users k)).setDirty k

/-- kaapi_memory_increase_access_view -/
def increaseAccessView (k : Lid) (d : MetadataInfo V) : MetadataInfo V :=
  d.setUsers k (if isCuda k then d.users k + 1 else d.users k)

/-- kaapi_memory_decrease_access_view -/
def decreaseAccessView (k : Lid) (d : MetadataInfo V) : MetadataInfo V :=
  d.setUsers k (if isCuda k then d.users k - 1 else d.users k)

/-- The space kaapi_memory_taskdescr_prologue_transfer copies from: the
one the handle of the task points to, or else the first valid one. -/
def transferSource (dest src : Lid) (d : MetadataInfo V) : Option Lid :=
  if dest = src ∨ d.isValid src = false then getDataByLid d.firstValid
  else some src

/-- kaapi_memory_taskdescr_prologue_transfer -/
def prologueTransfer (dest src : Lid) (d : MetadataInfo V) :
    Option (MetadataInfo V) :=
  if d.isValid dest then some d
  else do
    let l ← d.transferSource dest src
    let d ← d.memoryCopy dest l
    return d.clearDirty dest

/-- The block the task is given, at the start of
kaapi_memory_taskdescr_prologue_validate. -/
def prologueBlock (k : Lid) (d : MetadataInfo V) : MetadataInfo V :=
  if d.hasData k then d.increaseAccessView k else d.prologueAlloc k

/-- kaapi_memory_taskdescr_prologue_validate, for a task run in the space
`k` whose handle points to the block of the space `src`. -/
def prologueValidate (k src : Lid) (m : AccessMode) (d : MetadataInfo V) :
    Option (MetadataInfo V) := do
  let d := d.prologueBlock k
  let d ← if accessIsRead m then d.prologueTransfer k src else some d
  return if accessIsWrite m then d.setAllDirtyExcept k else d

/-- kaapi_memory_taskdescr_prologue: nothing to do for a value. -/
def taskdescrPrologue (k src : Lid) (m : AccessMode) (d : MetadataInfo V) :
    Option (MetadataInfo V) :=
  if getMode m = modeV then some d
  else d.prologueValidate k src (getMode m)

/-- kaapi_memory_taskdescr_epilogue -/
def taskdescrEpilogue (k : Lid) (m : AccessMode) (d : MetadataInfo V) :
    MetadataInfo V :=
  if getMode m = modeV then d else d.decreaseAccessView k

-- ======== eviction, synchronisation

/-- kaapi_memory_evict_pointer, called by the device `k` for its block. -/
def evictPointer (k : Lid) (d : MetadataInfo V) :
    Option (MetadataInfo V) :=
  if d.hasData k = false ∨ d.isValid k = false then some (d.clearData k)
  else if d.hasData hostLid = false ∨ d.isValid hostLid = true then
    some (d.clearData k)
  else do
    let d ← d.memoryCopy hostLid k
    return (d.clearDirty hostLid).clearData k

/-- kaapi_memory_address_space_synchronize_peer2peer, for this datum of
the current map. `dest` is marked before the copy, and whether it has a
block is not checked. -/
def synchronizePeer2peer (dest src : Lid) (d : MetadataInfo V) :
    Option (MetadataInfo V) :=
  if d.hasData src && d.isValid src && !d.isValid dest then
    match d.clearDirtyAndCheck dest with
    | (true, d) => d.memoryCopy dest src
    | (false, d) => some d
  else some d

-- ======== tasks

/-- The task changes the datum: W, or CW, which is no W. -/
def changes (m : AccessMode) : Bool :=
  accessIsWrite (getMode m) || accessIsCumulwrite (getMode m)

/-- What the task finds matters to it: R, or CW, which adds to it. -/
def uses (m : AccessMode) : Bool :=
  accessIsRead (getMode m) || accessIsCumulwrite (getMode m)

/-- The body of a task, in the block of its space. `upd` is the value it
leaves there, from the one it finds if it looks at it. -/
def taskBody (k : Lid) (m : AccessMode) (upd : Option V → V)
    (d : MetadataInfo V) : Option (MetadataInfo V) :=
  if changes m then
    match d.data k with
    | .null => none
    | .block c => some (d.setContent k (some (upd (if uses m then c else none))))
  else some d

end MetadataInfo

end XKaapi.Memory
