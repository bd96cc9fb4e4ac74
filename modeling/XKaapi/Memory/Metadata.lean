/-
The metadata of a datum replicated over address spaces
(memory/kaapi_memory_metadata.h, memory/kaapi_memory_bind.c).

A `kaapi_metadata_info_t` has one `kaapi_data_t` for each address space
and two bitmaps over the spaces: `addr_bits`, the spaces that have a
block for the datum, and `valid_bits`, the spaces whose block holds its
current value. The two are independent words: no operation of this file
but `bindData` touches both.

A space is named by its local index. Index 0 is the host,
KAAPI_EMPTY_ADDRESS_SPACE_ID, which every CPU processor is mapped to
(kaapi_memory_map_create); the others are CUDA devices.
-/
import XKaapi.Foreach.Bitmap

namespace XKaapi.Memory

open Bitmap
open Function (update)

-- ======== address spaces

/-- KAAPI_MAX_ADDRESS_SPACE -/
def maxAddressSpace : Nat := 32

/-- The local index of an address space. -/
abbrev Lid := Fin maxAddressSpace

/-- The host, KAAPI_EMPTY_ADDRESS_SPACE_ID. -/
def hostLid : Lid := ⟨0, by decide⟩

/-- The space is a device: its type is KAAPI_MEM_TYPE_CUDA. -/
def isCuda (k : Lid) : Bool := k ≠ hostLid

/-- The host is no device. -/
@[simp] theorem isCuda_hostLid : isCuda hostLid = false := rfl

/-- The host is the only space that is no device. -/
theorem isCuda_eq_false_iff {k : Lid} : isCuda k = false ↔ k = hostLid := by
  unfold isCuda
  simp

/-- All the other spaces are devices. -/
theorem isCuda_eq_true_iff {k : Lid} : isCuda k = true ↔ k ≠ hostLid := by
  unfold isCuda
  simp

/-- What a pointer leads to: no memory (null, or a block that was given
back), or a block and its content, `none` until the first write. -/
inductive Data (V : Type) where
  | null
  | block (content : Option V)
deriving DecidableEq, Repr

/-- `kaapi_metadata_info_t`. `users` is the count of tasks the block of a
device is used by, which the cache of the device keeps beside it. -/
structure MetadataInfo (V : Type) where
  data : Lid → Data V
  users : Lid → BitVec 64
  validBits : BitVec 64
  addrBits : BitVec 64

namespace MetadataInfo

variable {V : Type}

-- ======== operations

/-- kaapi_metadata_info_alloc -/
def alloc : MetadataInfo V where
  data := fun _ => .null
  users := fun _ => 0
  validBits := 0
  addrBits := 0

/-- kaapi_metadata_info_has_data -/
def hasData (d : MetadataInfo V) (k : Lid) : Bool := d.addrBits.getLsbD k

/-- kaapi_metadata_info_is_valid -/
def isValid (d : MetadataInfo V) (k : Lid) : Bool := d.validBits.getLsbD k

/-- kaapi_metadata_info_clear_data: the space has no block any more. Its
valid bit stays as it is. -/
def clearData (d : MetadataInfo V) (k : Lid) : MetadataInfo V :=
  { d with addrBits := clearBit d.addrBits k }

/-- kaapi_metadata_info_set_data -/
def setData (d : MetadataInfo V) (k : Lid) (p : Data V) : MetadataInfo V :=
  { d with
    data := update d.data k p
    addrBits := valueSet d.addrBits k }

/-- kaapi_metadata_info_clear_dirty: the block is valid. -/
def clearDirty (d : MetadataInfo V) (k : Lid) : MetadataInfo V :=
  { d with validBits := valueSet d.validBits k }

/-- kaapi_metadata_info_set_dirty: the block is not valid. -/
def setDirty (d : MetadataInfo V) (k : Lid) : MetadataInfo V :=
  { d with validBits := clearBit d.validBits k }

/-- kaapi_metadata_info_set_all_dirty_except -/
def setAllDirtyExcept (d : MetadataInfo V) (k : Lid) : MetadataInfo V :=
  { d with validBits := valueSet 0 k }

/-- kaapi_metadata_info_clear_dirty_and_check: true iff this call set the
bit. -/
def clearDirtyAndCheck (d : MetadataInfo V) (k : Lid) :
    Bool × MetadataInfo V :=
  (!d.isValid k, d.clearDirty k)

/-- kaapi_metadata_info_first_valid: a `uint16_t`, so 65535 when no space
is valid. -/
def firstValid (d : MetadataInfo V) : Nat :=
  (BitVec.ofNat 16 (valueFirst1 d.validBits) - 1).toNat

/-- The entry of `data` that kaapi_metadata_info_get_data_by_lid returns;
`none` past the end of the array. -/
def getDataByLid (lid : Nat) : Option Lid :=
  if h : lid < maxAddressSpace then some ⟨lid, h⟩ else none

/-- kaapi_metadata_info_bind_data -/
def bindData (d : MetadataInfo V) (k : Lid) (p : Data V) : MetadataInfo V :=
  (d.setData k p).clearDirty k

/-- The block of the space gets a new content, through its pointer. -/
def setContent (d : MetadataInfo V) (k : Lid) (c : Option V) :
    MetadataInfo V :=
  { d with data := update d.data k (.block c) }

/-- The block of the space is freed, or recycled for another datum. -/
def dropBlock (d : MetadataInfo V) (k : Lid) : MetadataInfo V :=
  { d with data := update d.data k .null }

/-- The count of users of the block of a device. -/
def setUsers (d : MetadataInfo V) (k : Lid) (n : BitVec 64) :
    MetadataInfo V :=
  { d with users := update d.users k n }

-- ======== bits

section bits

variable (d : MetadataInfo V) (k j : Lid) (p : Data V) (c : Option V)
variable (n : BitVec 64)

/-- Each space has a bit in the words. -/
private theorem lid_lt (k : Lid) : (k : Nat) < 64 :=
  Nat.lt_of_lt_of_le k.isLt (by decide)

/-- The bits of a word after one is set. -/
private theorem getLsbD_set (b : BitVec 64) :
    (valueSet b k).getLsbD j = (b.getLsbD j || decide (j = k)) := by
  rw [getLsbD_valueSet, decide_eq_true (lid_lt k), Bool.true_and]
  congr 1
  rw [Bool.eq_iff_iff, decide_eq_true_eq, decide_eq_true_eq, Fin.ext_iff,
    eq_comm]

/-- The bits of a word after one is cleared. -/
private theorem getLsbD_unset (b : BitVec 64) :
    (clearBit b k).getLsbD j = (b.getLsbD j && decide (j ≠ k)) := by
  rw [getLsbD_clearBit]
  congr 1
  rw [Bool.eq_iff_iff, decide_eq_true_eq, decide_eq_true_eq, ne_comm, ne_eq,
    ne_eq, Fin.ext_iff]

/-- The space, and it alone, has no block any more. -/
@[simp] theorem hasData_clearData :
    (d.clearData k).hasData j = (d.hasData j && decide (j ≠ k)) :=
  getLsbD_unset k j d.addrBits

/-- The valid bits stay: a space without a block may be valid. -/
@[simp] theorem isValid_clearData :
    (d.clearData k).isValid j = d.isValid j := rfl

@[simp] theorem data_clearData : (d.clearData k).data = d.data := rfl

/-- The space has a block, and the others what they had. -/
@[simp] theorem hasData_setData :
    (d.setData k p).hasData j = (d.hasData j || decide (j = k)) :=
  getLsbD_set k j d.addrBits

/-- A new block does not become valid. -/
@[simp] theorem isValid_setData : (d.setData k p).isValid j = d.isValid j := rfl

/-- Only the pointer of the space changes. -/
@[simp] theorem data_setData :
    (d.setData k p).data = update d.data k p := rfl

@[simp] theorem hasData_clearDirty :
    (d.clearDirty k).hasData j = d.hasData j := rfl

/-- The block becomes valid, and the others stay as they are. -/
@[simp] theorem isValid_clearDirty :
    (d.clearDirty k).isValid j = (d.isValid j || decide (j = k)) :=
  getLsbD_set k j d.validBits

@[simp] theorem data_clearDirty : (d.clearDirty k).data = d.data := rfl

@[simp] theorem hasData_setDirty : (d.setDirty k).hasData j = d.hasData j := rfl

/-- The block, and it alone, becomes invalid. -/
@[simp] theorem isValid_setDirty :
    (d.setDirty k).isValid j = (d.isValid j && decide (j ≠ k)) :=
  getLsbD_unset k j d.validBits

@[simp] theorem data_setDirty : (d.setDirty k).data = d.data := rfl

@[simp] theorem hasData_setAllDirtyExcept :
    (d.setAllDirtyExcept k).hasData j = d.hasData j := rfl

/-- One block stays valid, or becomes so. -/
@[simp] theorem isValid_setAllDirtyExcept :
    (d.setAllDirtyExcept k).isValid j = decide (j = k) := by
  show (valueSet 0 k).getLsbD j = _
  rw [getLsbD_set, show (0 : BitVec 64).getLsbD j = false from
    BitVec.getLsbD_zero, Bool.false_or]

@[simp] theorem data_setAllDirtyExcept :
    (d.setAllDirtyExcept k).data = d.data := rfl

@[simp] theorem hasData_setContent :
    (d.setContent k c).hasData j = d.hasData j := rfl

@[simp] theorem isValid_setContent :
    (d.setContent k c).isValid j = d.isValid j := rfl

/-- Only the content of the block changes. -/
@[simp] theorem data_setContent :
    (d.setContent k c).data = update d.data k (.block c) := rfl

@[simp] theorem hasData_dropBlock :
    (d.dropBlock k).hasData j = d.hasData j := rfl

@[simp] theorem isValid_dropBlock :
    (d.dropBlock k).isValid j = d.isValid j := rfl

/-- The block of the space, and it alone, is given back. -/
@[simp] theorem data_dropBlock :
    (d.dropBlock k).data = update d.data k .null := rfl

@[simp] theorem hasData_setUsers :
    (d.setUsers k n).hasData j = d.hasData j := rfl

@[simp] theorem isValid_setUsers :
    (d.setUsers k n).isValid j = d.isValid j := rfl

@[simp] theorem data_setUsers : (d.setUsers k n).data = d.data := rfl

/-- A new datum has no block. -/
@[simp] theorem hasData_alloc : (alloc : MetadataInfo V).hasData j = false :=
  BitVec.getLsbD_zero

/-- A new datum is valid nowhere. -/
@[simp] theorem isValid_alloc : (alloc : MetadataInfo V).isValid j = false :=
  BitVec.getLsbD_zero

/-- The space of the binding has a block. -/
@[simp] theorem hasData_bindData :
    (d.bindData k p).hasData j = (d.hasData j || decide (j = k)) :=
  hasData_setData d k j p

/-- The block of the binding is valid. -/
@[simp] theorem isValid_bindData :
    (d.bindData k p).isValid j = (d.isValid j || decide (j = k)) :=
  isValid_clearDirty (d.setData k p) k j

/-- Only the pointer of the space of the binding changes. -/
@[simp] theorem data_bindData :
    (d.bindData k p).data = update d.data k p := rfl

end bits

-- ======== first valid

/-- When a space is valid, kaapi_metadata_info_first_valid finds a valid
one. -/
theorem exists_getDataByLid_firstValid {d : MetadataInfo V} {k : Lid}
    (h : d.isValid k = true) :
    ∃ l, getDataByLid d.firstValid = some l ∧ d.isValid l = true := by
  have hle : valueFirst1 d.validBits ≤ k + 1 := valueFirst1_le h
  have hpos : valueFirst1 d.validBits ≠ 0 := by
    intro h0
    rw [valueFirst1_eq_zero_iff] at h0
    have := eq_zero_iff.mp h0 k
    rw [show d.validBits.getLsbD k = true from h] at this
    cases this
  obtain ⟨i, hi⟩ := Nat.exists_eq_succ_of_ne_zero hpos
  have hik : i < maxAddressSpace := by have := k.isLt; omega
  have hfirst : d.firstValid = i := by
    unfold firstValid
    have hi32 : i < 32 := hik
    have hone : (1 : BitVec 16).toNat = 1 := rfl
    rw [hi, BitVec.toNat_sub, BitVec.toNat_ofNat, hone]
    omega
  refine ⟨⟨i, hik⟩, ?_, getLsbD_of_valueFirst1 hi⟩
  unfold getDataByLid
  rw [hfirst, dif_pos hik]

end MetadataInfo

end XKaapi.Memory
