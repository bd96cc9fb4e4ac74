/-
The two hash maps (src/kaapi_hashmap.h and src/misc/kaapi_hashmap*.c):
`kaapi_hashmap_t` with 64 buckets, whose heads count only where a bit of
`entry_map` says so, and `kaapi_big_hashmap_t` with 65536 buckets and no
bitmap.

A bucket is a chain of entries, and an entry is a cell of a block of 2048.
The map takes the cells of its current block in order, and a new block
from `malloc` when it has none; the block that `init` is given, and the
one in use when the map is cleared, are used again from the first cell on,
with what is left in them.

The functions of the two maps differ in how the heads are kept, and in
nothing else (`Buckets`). Only the small map has a `clear`.
-/
import XKaapi.Lib.Chains
import XKaapi.Lib.Run

namespace XKaapi.Hashmaps

open StepMachine
open Function (update update_apply update_of_ne update_self)

-- ======== entries

/-- `sizeof(kaapi_gd_t)`: a mode, padded, and a pointer. -/
abbrev sizeofGd : Nat := 16

/-- The size of the union `u`, whose largest member is
`kaapi_pair_ptrint_t`: a pointer, an integer and a mode, padded. -/
abbrev sizeofU : Nat := 24

/-- The bytes of the union `u`. Its member `value` is the first
`sizeofGd` of them. -/
abbrev Value := Fin sizeofU → BitVec 8

/-- `KAAPI_BLOCENTRIES_SIZE` -/
abbrev blocentriesSize : Nat := 2048

/-- The address of an entry: `&bloc->data[i]`. -/
structure EntryId where
  bloc : Nat
  i : Nat
deriving DecidableEq, Repr

/-- `kaapi_hashentries_t` -/
structure Entry where
  u : Value
  key : BitVec 64
  next : Option EntryId

/-- `kaapi_hashentries_bloc_t` -/
structure Bloc where
  data : Nat → Entry
  pos : Nat
  next : Option Nat

/-- The blocks of the memory, whoever they belong to. -/
abbrev Mem := Nat → Bloc

namespace Mem

def entry (m : Mem) (e : EntryId) : Entry := (m e.bloc).data e.i

def setEntry (m : Mem) (e : EntryId) (x : Entry) : Mem :=
  update m e.bloc
    { m e.bloc with data := update (m e.bloc).data e.i x }

def setPos (m : Mem) (b : Nat) (pos : Nat) : Mem :=
  update m b { m b with pos := pos }

/-- `b->next = next; b->pos = 0` -/
def linkBloc (m : Mem) (b : Nat) (next : Option Nat) : Mem :=
  update m b
    { m b with
      next := next
      pos := 0 }

end Mem

/-- `memset(&entry->u.value, 0, sizeof(entry->u.value))` -/
def zeroGd (u : Value) : Value := fun i => if i.val < sizeofGd then 0 else u i

/-- `memset(&entry->u, 0, sizeof(entry->u))` -/
def zeroU (_ : Value) : Value := fun _ => 0

-- ======== buckets

/-- How a map keeps the heads of its buckets: the bucket of a key, a head
read and written, and the heads made empty. -/
structure Buckets (H : Type) where
  size : Nat
  hkey : BitVec 64 → Fin size
  get : H → Fin size → Option EntryId
  set : H → Fin size → Option EntryId → H
  reset : H → H
  hasClear : Bool
  get_set : ∀ (h : H) (k : Fin size) (e : Option EntryId) (k' : Fin size),
    get (set h k e) k' = if k' = k then e else get h k'
  get_reset : ∀ (h : H) (k : Fin size), get (reset h) k = none

/-- `kaapi_hash_ulong7` -/
def hashUlong7 (v : BitVec 64) : BitVec 32 :=
  let v := v ^^^ (v >>> 32)
  let v := v ^^^ (v >>> 16)
  let v := v ^^^ (v >>> 8)
  let v := if v &&& 0x80#64 ≠ 0 then v ^^^ 0x09#64 else v
  (v &&& 0x7F#64).setWidth 32

/-- `kaapi_hash_ulong` -/
def hashUlong (v : BitVec 64) : BitVec 32 :=
  let v := v ^^^ (v >>> 32)
  let v := v ^^^ (v >>> 16)
  let v := v ^^^ (v >>> 8)
  (v &&& 0xFFFF#64).setWidth 32

/-- `KAAPI_HASHMAP_SIZE` -/
abbrev hashmapSize : Nat := 64

/-- `KAAPI_HASHMAP_BIG_SIZE` -/
abbrev hashmapBigSize : Nat := 65536

/-- The heads of `kaapi_hashmap_t`, and the bitmap of those in use. -/
structure SmallHeads where
  entries : Fin hashmapSize → Option EntryId
  entry_map : BitVec 64

/-- `_key_to_mask` -/
def keyToMask (k : Fin hashmapSize) : BitVec 64 := 1#64 <<< k.val

/-- `_get_hashmap_entry` -/
def getHashmapEntry (h : SmallHeads) (k : Fin hashmapSize) : Option EntryId :=
  if h.entry_map &&& keyToMask k ≠ 0 then h.entries k else none

/-- `_set_hashmap_entry` -/
def setHashmapEntry (h : SmallHeads) (k : Fin hashmapSize) (e : Option EntryId) :
    SmallHeads :=
  { entries := update h.entries k e
    entry_map := h.entry_map ||| keyToMask k }

theorem and_keyToMask_ne_zero (w : BitVec 64) (k : Fin hashmapSize) :
    w &&& keyToMask k ≠ 0 ↔ w.getLsbD k = true := by
  have hbit : ∀ i, (w &&& keyToMask k).getLsbD i
      = (w.getLsbD i && decide (i < 64 ∧ i = k.val)) := by
    intro i
    unfold keyToMask
    rw [BitVec.getLsbD_and, BitVec.getLsbD_shiftLeft, BitVec.getLsbD_one]
    grind
  constructor
  · intro hne
    by_contra hk
    refine hne (BitVec.eq_of_getLsbD_eq fun i _ => ?_)
    rw [hbit i]
    by_cases hi : i = k.val
    · rw [hi, Bool.eq_false_iff.mpr hk]
      simp
    · simp [hi]
  · intro hk hz
    have h := hbit k
    rw [hz, hk] at h
    simp [k.isLt] at h

theorem getHashmapEntry_set (h : SmallHeads) (k : Fin hashmapSize)
    (e : Option EntryId) (k' : Fin hashmapSize) :
    getHashmapEntry (setHashmapEntry h k e) k'
      = if k' = k then e else getHashmapEntry h k' := by
  have hmask : (keyToMask k).getLsbD k' = decide (k' = k) := by
    unfold keyToMask
    rw [BitVec.getLsbD_shiftLeft, BitVec.getLsbD_one]
    grind
  unfold getHashmapEntry setHashmapEntry
  dsimp only
  by_cases hk : k' = k
  · subst hk
    rw [if_pos rfl, if_pos, update_self]
    rw [and_keyToMask_ne_zero, BitVec.getLsbD_or, hmask]
    simp
  · rw [if_neg hk, update_of_ne hk]
    refine if_congr ?_ rfl rfl
    rw [and_keyToMask_ne_zero, and_keyToMask_ne_zero, BitVec.getLsbD_or, hmask]
    simp [hk]

/-- The buckets of `kaapi_hashmap_t`: an empty bitmap empties them all. -/
def smallMap : Buckets SmallHeads where
  size := hashmapSize
  hkey ptr := ⟨(hashUlong7 ptr).toNat % hashmapSize, Nat.mod_lt _ (by decide)⟩
  get := getHashmapEntry
  set := setHashmapEntry
  reset h := { h with entry_map := 0 }
  hasClear := true
  get_set := getHashmapEntry_set
  get_reset h k := if_neg (not_not.mpr (BitVec.zero_and))

/-- The buckets of `kaapi_big_hashmap_t`. -/
def bigMap : Buckets (Fin hashmapBigSize → Option EntryId) where
  size := hashmapBigSize
  hkey ptr :=
    ⟨(hashUlong ptr).toNat % hashmapBigSize, Nat.mod_lt _ (by decide)⟩
  get h := h
  set := update
  reset _ := fun _ => none
  hasClear := false
  get_set h k e k' := by
    rw [update_apply]
  get_reset _ _ := rfl

-- ======== the maps

/-- `kaapi_hashmap_t` and `kaapi_big_hashmap_t` -/
structure Hashmap (H : Type) where
  heads : H
  currentbloc : Option Nat
  allallocatedbloc : Option Nat

section functions

variable {H : Type} (B : Buckets H)

/-- The `init` functions. -/
def init (khm : Hashmap H) (m : Mem) (initbloc : Option Nat) :
    Hashmap H × Mem :=
  ({ heads := B.reset khm.heads
     allallocatedbloc := none
     currentbloc := initbloc },
   match initbloc with
   | none => m
   | some b => m.setPos b 0)

/-- `kaapi_hashmap_clear` -/
def clear (khm : Hashmap H) (m : Mem) : Hashmap H × Mem :=
  ({ khm with heads := B.reset khm.heads }, match khm.currentbloc with
   | none => m
   | some b => m.setPos b 0)

/-- The loop of the searches, from `entry` on. -/
def findFrom (m : Mem) (ptr : BitVec 64) (turns : Nat)
    (entry : Option EntryId) : Option (Option EntryId) :=
  Chains.search (fun e => (m.entry e).next)
    (fun e => decide ((m.entry e).key = ptr)) turns entry

/-- The `find` functions. -/
def find (turns : Nat) (khm : Hashmap H) (m : Mem) (ptr : BitVec 64) :
    Option (Option EntryId) :=
  findFrom m ptr turns (B.get khm.heads (B.hkey ptr))

/-- The block with the next free cell; where there is none, `malloc` gives
the block `b`. -/
def takeBloc (khm : Hashmap H) (m : Mem) (b : Nat) : Nat × Hashmap H × Mem :=
  match khm.currentbloc with
  | some c => (c, khm, m)
  | none =>
    (b, { khm with
          currentbloc := some b
          allallocatedbloc := some b },
     m.linkBloc b khm.allallocatedbloc)

/-- The second half of `insert` and `findinsert`: a new entry in front of
its bucket, of which `memset` wipes some bytes. -/
def newEntry (memset : Value → Value) (khm : Hashmap H) (m : Mem)
    (ptr : BitVec 64) (b : Nat) : EntryId × Hashmap H × Mem :=
  let list_hash := B.get khm.heads (B.hkey ptr)
  let (c, khm, m) := takeBloc khm m b
  let entry : EntryId := ⟨c, (m c).pos⟩
  let m := m.setEntry entry
    { u := memset (m.entry entry).u
      key := ptr
      next := list_hash }
  let m := m.setPos c ((m c).pos + 1)
  (entry,
   { khm with
     currentbloc :=
       if (m c).pos = blocentriesSize then none else khm.currentbloc
     heads := B.set khm.heads (B.hkey ptr) (some entry) },
   m)

/-- The `insert` functions. -/
def insert (khm : Hashmap H) (m : Mem) (ptr : BitVec 64) (b : Nat) :
    EntryId × Hashmap H × Mem :=
  newEntry B zeroU khm m ptr b

/-- The `findinsert` functions. -/
def findinsert (turns : Nat) (khm : Hashmap H) (m : Mem) (ptr : BitVec 64)
    (b : Nat) : Option (EntryId × Hashmap H × Mem) :=
  match findFrom m ptr turns (B.get khm.heads (B.hkey ptr)) with
  | none => none
  | some (some entry) => some (entry, khm, m)
  | some none => some (newEntry B zeroGd khm m ptr b)

end functions

/-- The functions of `kaapi_hashmap_t`. -/
def hashmapInit := init smallMap
def hashmapClear := clear smallMap
def hashmapFind := find smallMap
def hashmapInsert := insert smallMap
def hashmapFindinsert := findinsert smallMap

/-- The functions of `kaapi_big_hashmap_t`. -/
def bigHashmapInit := init bigMap
def bigHashmapFind := find bigMap
def bigHashmapInsert := insert bigMap
def bigHashmapFindinsert := findinsert bigMap

-- ======== the machine

/-- An entry of the finite map that a hash map stands for. -/
structure Live where
  key : BitVec 64
  addr : EntryId
  u : Value

/-- The value of the entry at `e` becomes `u`. -/
def Live.write (e : EntryId) (u : Value) (l : Live) : Live :=
  { l with u := if l.addr = e then u else l.u }

/-- The most recent entry of a key. -/
def lookup (live : List Live) (ptr : BitVec 64) : Option Live :=
  live.find? fun e => decide (e.key = ptr)

/-- A map and the memory. `handed` are the blocks that the map was given
since it was last initialised; `live` is the finite map, the entries
created since the last `init` or `clear`, the most recent one first. -/
structure State (H : Type) where
  khm : Hashmap H
  mem : Mem
  handed : List Nat
  live : List Live

/-- One call on the map; a write of its owner into the value of an entry
of the finite map; or anything that happens to a block that the map was
not given. -/
inductive Action
  | init (initbloc : Option Nat)
  | clear
  | find (ptr : BitVec 64)
  | insert (ptr : BitVec 64) (b : Nat)
  | findinsert (ptr : BitVec 64) (b : Nat)
  | store (e : EntryId) (u : Value)
  | scribble (b : Nat) (c : Bloc)

section machine

variable {H : Type} (B : Buckets H)

/-- The state after `init`, whatever was before. -/
def State.init (s : State H) (initbloc : Option Nat) : State H :=
  let (khm, mem) := Hashmaps.init B s.khm s.mem initbloc
  { khm := khm
    mem := mem
    handed := initbloc.toList
    live := [] }

/-- `malloc` gives a block that the map does not have. -/
def State.MallocOk (s : State H) (b : Nat) : Prop :=
  s.khm.currentbloc = none → b ∉ s.handed

instance (s : State H) (b : Nat) : Decidable (s.MallocOk b) := by
  unfold State.MallocOk
  exact inferInstance

/-- The state after a call that has created an entry. -/
def State.created (s : State H) (ptr : BitVec 64) (b : Nat)
    (r : EntryId × Hashmap H × Mem) : Option (State H) :=
  if s.MallocOk b then some
    { khm := r.2.1
      mem := r.2.2
      handed := if s.khm.currentbloc = none then b :: s.handed else s.handed
      live := ⟨ptr, r.1, fun _ => 0⟩ :: s.live }
  else none

/-- The state after a write of `u` to the entry `e`. -/
def State.store (s : State H) (e : EntryId) (u : Value) : State H :=
  { s with
    mem := s.mem.setEntry e { s.mem.entry e with u := u }
    live := s.live.map (Live.write e u) }

/-- One step. A search that is not through after as many turns as the
finite map has entries counts as one that does not come back. -/
def step : Action → State H → Option (State H)
  | .init initbloc, s => some (s.init B initbloc)
  | .clear, s =>
    if B.hasClear then
      let (khm, mem) := clear B s.khm s.mem
      some { s with
        khm := khm
        mem := mem
        live := [] }
    else none
  | .find ptr, s => (find B s.live.length s.khm s.mem ptr).map fun _ => s
  | .insert ptr b, s => s.created ptr b (insert B s.khm s.mem ptr b)
  | .findinsert ptr b, s =>
    match findinsert B s.live.length s.khm s.mem ptr b with
    | none => none
    | some r =>
      match lookup s.live ptr with
      | some _ => some { s with
          khm := r.2.1
          mem := r.2.2 }
      | none => s.created ptr b r
  | .store e u, s =>
    if e ∈ s.live.map Live.addr then some (s.store e u) else none
  | .scribble b c, s =>
    if b ∈ s.handed then none
    else some { s with mem := update s.mem b c }

-- ======== the statement

/-- The map is the finite map, up to the bytes of the values past
`u.value`: every search comes back, with the most recent entry of exactly
the key if there is one; `findinsert` gives that entry too, and otherwise
creates one; and every entry has an address of its own, in a block of the
map, that holds its key and its value. -/
structure Refines (s : State H) : Prop where
  find : ∀ ptr, find B s.live.length s.khm s.mem ptr
    = some ((lookup s.live ptr).map Live.addr)
  found : ∀ ptr b e, lookup s.live ptr = some e →
    findinsert B s.live.length s.khm s.mem ptr b = some (e.addr, s.khm, s.mem)
  enabled : ∀ ptr b, s.MallocOk b →
    (step B (.insert ptr b) s).isSome ∧ (step B (.findinsert ptr b) s).isSome
  distinct : (s.live.map Live.addr).Nodup
  place : ∀ e ∈ s.live, e.addr.bloc ∈ s.handed ∧ e.addr.i < blocentriesSize
  key : ∀ e ∈ s.live, (s.mem.entry e.addr).key = e.key
  value : ∀ e ∈ s.live, ∀ i : Fin sizeofU, i.val < sizeofGd →
    (s.mem.entry e.addr).u i = e.u i

/-- Every entry holds its value, to the last byte: zero from its creation
until its owner writes to it. -/
def ValuesOk (s : State H) : Prop :=
  ∀ e ∈ s.live, (s.mem.entry e.addr).u = e.u

/-- The call is neither `init` nor `clear`. -/
def Action.keeps : Action → Bool
  | .init _ | .clear => false
  | _ => true

/-- The entries of `s` are entries of `t`, at the same addresses. -/
def State.Stays (s t : State H) : Prop :=
  ∀ e ∈ s.live, ∃ e' ∈ t.live, e'.addr = e.addr ∧ e'.key = e.key

/-- The cell of the next entry; `malloc` gives the block `b` if it is
called. -/
def State.nextCell (s : State H) (b : Nat) : EntryId :=
  match s.khm.currentbloc with
  | some c => ⟨c, (s.mem c).pos⟩
  | none => ⟨b, 0⟩

/-- A `findinsert` that creates an entry finds the bytes past `u.value`
zero in its cell. -/
def TailZero (a : Action) (s : State H) : Prop :=
  match a with
  | .findinsert ptr b =>
    lookup s.live ptr = none → ∀ i : Fin sizeofU, sizeofGd ≤ i.val →
      (s.mem.entry (s.nextCell b)).u i = 0
  | _ => True

end machine

/-- The two maps. -/
inductive Kind
  | small
  | big

def Kind.Heads : Kind → Type
  | .small => SmallHeads
  | .big => Fin hashmapBigSize → Option EntryId

def Kind.buckets : (k : Kind) → Buckets k.Heads
  | .small => smallMap
  | .big => bigMap

end XKaapi.Hashmaps
