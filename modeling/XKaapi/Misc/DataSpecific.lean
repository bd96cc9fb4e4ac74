/-
The temporary data of a processor (src/misc/kaapi_dataspecific.c).

A processor has sixteen of them. `gettemporaryData` answers the one of a
number, which it replaces by a larger one when the size asked for is more
than its size. What is kept over any sequence of requests is `Temps.Good`:
the buffers in use are apart from one another, so that the ones that a task
gets for different numbers are (`gettemporaryData_spec`).

The test on the number lets 16 through, one past the end of both arrays.

`malloc` is given by what it promises (`Malloc`): a block apart from all the
blocks in use. It does not fail here.
-/
import Mathlib.Data.List.Basic
import Mathlib.Order.Lattice

namespace XKaapi.Misc

open Function (update update_of_ne update_self)

-- ======== blocks

/-- A block of memory. -/
structure Block where
  addr : Nat
  size : Nat
deriving DecidableEq, Repr

namespace Block

/-- The blocks have no byte in common. -/
def Apart (b c : Block) : Prop := b.addr + b.size ≤ c.addr ∨ c.addr + c.size ≤ b.addr

theorem Apart.symm {b c : Block} (h : b.Apart c) : c.Apart b := Or.symm h

theorem Apart.shrink {b c : Block} (h : b.Apart c) {m n : Nat} (hm : m ≤ b.size)
    (hn : n ≤ c.size) : Apart ⟨b.addr, m⟩ ⟨c.addr, n⟩ := by
  unfold Apart at *
  change b.addr + m ≤ c.addr ∨ c.addr + n ≤ b.addr
  omega

end Block

/-- An allocator: from the blocks in use and a size, where the new block is. -/
structure Malloc where
  alloc : List Block → Nat → Nat
  alloc_pos : ∀ live n, 0 < alloc live n
  alloc_apart : ∀ live n, ∀ b ∈ live, Block.Apart b ⟨alloc live n, n⟩

namespace Malloc

/-- Behind all the blocks in use. -/
def behind : List Block → Nat
  | [] => 1
  | b :: live => max (b.addr + b.size) (behind live)

theorem behind_pos (live : List Block) : 0 < behind live := by
  induction live with
  | nil => exact Nat.one_pos
  | cons b live ih => exact lt_of_lt_of_le ih (le_max_right ..)

theorem le_behind {live : List Block} {b : Block} (h : b ∈ live) :
    b.addr + b.size ≤ behind live := by
  induction live with
  | nil => cases h
  | cons c live ih =>
    rcases List.mem_cons.mp h with rfl | h
    · exact le_max_left ..
    · exact (ih h).trans (le_max_right ..)

/-- The allocator that never reuses a block. -/
def bump : Malloc where
  alloc := fun live _ => behind live
  alloc_pos := fun live _ => behind_pos live
  alloc_apart := fun _ _ _ hb => .inl (le_behind hb)

end Malloc

-- ======== the temporary data

/-- `data_specific` and `size_specific` of a `kaapi_processor_t`. -/
structure Temps where
  dataSpecific : Nat → Nat
  sizeSpecific : Nat → Nat

namespace Temps

/-- As `kaapi_processor_init` leaves them. -/
def init : Temps := ⟨fun _ => 0, fun _ => 0⟩

/-- The buffer of a number. -/
def block (t : Temps) (id : Nat) : Block := ⟨t.dataSpecific id, t.sizeSpecific id⟩

/-- The buffers that are allocated, that of `id` apart. -/
def others (t : Temps) (id : Nat) : List Block :=
  ((List.range 16).filter fun j => j ≠ id ∧ t.dataSpecific j ≠ 0).map t.block

end Temps

section Request

variable (malloc : Malloc)

/-- `_kaapi_gettemporary_data` on a processor without CUDA; `live` are the
blocks of the rest of the program. Undefined when the arrays are left. -/
def gettemporaryData (live : List Block) (t : Temps) (id size : Nat) :
    Option (Nat × Temps) :=
  if id > 16 then some (0, t)
  else if id = 16 then none
  else if t.sizeSpecific id < size then
    -- the old buffer is free when the new one is allocated
    let data := malloc.alloc (t.others id ++ live) size
    some (data,
      { dataSpecific := update t.dataSpecific id data
        sizeSpecific := update t.sizeSpecific id size })
  else some (t.dataSpecific id, t)

end Request

namespace Temps

/-- What any sequence of requests keeps. -/
structure Good (t : Temps) : Prop where
  allocated : ∀ id, 0 < t.sizeSpecific id → t.dataSpecific id ≠ 0
  apart : ∀ i j, i < 16 → j < 16 → i ≠ j → 0 < t.sizeSpecific i →
    0 < t.sizeSpecific j → (t.block i).Apart (t.block j)

theorem init_good : init.Good where
  allocated := fun _ h => (lt_irrefl 0 h).elim
  apart := fun _ _ _ _ _ h => (lt_irrefl 0 h).elim

variable {t t' : Temps} {malloc : Malloc} {live : List Block} {id size p : Nat}

theorem mem_others {j : Nat} (hj : j < 16) (hne : j ≠ id) (h : t.dataSpecific j ≠ 0) :
    t.block j ∈ t.others id :=
  List.mem_map.mpr ⟨j, List.mem_filter.mpr ⟨List.mem_range.mpr hj, by simp [hne, h]⟩, rfl⟩

/-- What a request does: it answers the buffer of its number, which has the
size that was asked for, and changes no other. -/
structure Requested (t t' : Temps) (id size p : Nat) : Prop where
  good : t'.Good
  data : t'.dataSpecific id = p
  fits : size ≤ t'.sizeSpecific id
  frame : ∀ j, j ≠ id → t'.block j = t.block j

theorem Good.update (ht : t.Good) {data : Nat} (hdata : 0 < data)
    (hapart : ∀ b ∈ t.others id, b.Apart ⟨data, size⟩) :
    Good ⟨update t.dataSpecific id data, update t.sizeSpecific id size⟩ where
  allocated := fun j hj => by
    by_cases hji : j = id
    · subst hji
      simp only [update_self]
      exact hdata.ne'
    · simp only [update_of_ne hji] at hj ⊢
      exact ht.allocated j hj
  apart := by
    -- the new block against an old one
    have hnew : ∀ j, j < 16 → j ≠ id → 0 < t.sizeSpecific j →
        (t.block j).Apart ⟨data, size⟩ :=
      fun j hj hji hsize => hapart _ (mem_others hj hji (ht.allocated j hsize))
    intro i j hi hj hij hsi hsj
    unfold Temps.block
    by_cases hii : i = id
    · subst hii
      simp only [update_self, update_of_ne hij.symm] at hsj ⊢
      exact (hnew j hj hij.symm hsj).symm
    by_cases hji : j = id
    · subst hji
      simp only [update_self, update_of_ne hii] at hsi ⊢
      exact hnew i hi hij hsi
    · simp only [update_of_ne hii, update_of_ne hji] at hsi hsj ⊢
      exact ht.apart i j hi hj hij hsi hsj

theorem gettemporaryData_spec (malloc : Malloc) (live : List Block) (ht : t.Good)
    (hid : id < 16) (size : Nat) :
    ∃ p t', gettemporaryData malloc live t id size = some (p, t')
      ∧ Requested t t' id size p ∧ (0 < size → p ≠ 0) := by
  unfold gettemporaryData
  rw [if_neg (by omega), if_neg (by omega)]
  split
  case isTrue hlt =>
    have hapart := malloc.alloc_apart (t.others id ++ live) size
    have hpos := malloc.alloc_pos (t.others id ++ live) size
    refine ⟨_, _, rfl, ⟨ht.update hpos ?_, ?_, ?_, ?_⟩, fun _ => hpos.ne'⟩
    · exact fun b hb => hapart b (List.mem_append_left live hb)
    · exact update_self ..
    · exact (update_self id size t.sizeSpecific).ge
    · intro j hj
      unfold Temps.block
      simp only [update_of_ne hj]
  case isFalse hge =>
    refine ⟨_, t, rfl, ⟨ht, rfl, not_lt.mp hge, fun _ _ => rfl⟩, fun hsize => ?_⟩
    exact ht.allocated id (hsize.trans_le (not_lt.mp hge))

/-- Requests in sequence, each with the blocks of the rest of the program. -/
def requests (malloc : Malloc) : List (List Block × Nat × Nat) → Temps → Option Temps
  | [], t => some t
  | (live, id, size) :: rs, t =>
    (gettemporaryData malloc live t id size).bind fun r => requests malloc rs r.2

theorem Good.requests {rs : List (List Block × Nat × Nat)} (ht : t.Good)
    (h : Temps.requests malloc rs t = some t') : t'.Good := by
  induction rs generalizing t with
  | nil => exact Option.some.inj h ▸ ht
  | cons r rs ih =>
    obtain ⟨live, id, size⟩ := r
    obtain ⟨⟨p, t₁⟩, hget, hrest⟩ := Option.bind_eq_some_iff.mp h
    refine ih ?_ hrest
    rcases lt_trichotomy id 16 with hid | rfl | hid
    · obtain ⟨p', t₂, hget', hreq, -⟩ := gettemporaryData_spec malloc live ht hid size
      cases hget.symm.trans hget'
      exact hreq.good
    · cases hget
    · unfold gettemporaryData at hget
      rw [if_pos hid] at hget
      cases hget
      exact ht

end Temps

end XKaapi.Misc
