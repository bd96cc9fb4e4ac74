/-
Bitmaps of processors (kaapi_mt_bitmap.h).

A `kaapi_bitmap_value_t` is a machine word, or a few of them, with one
bit for each kernel processor; `kaapi_bitmap_t` is the same word updated
atomically. Here both are a `BitVec w`, `w` being KAAPI_MAX_PROCESSOR,
and an atomic operation is a function that returns the new word beside
its result.

Above 64 processors the source keeps several machine words, and each
width has its own copy of every operation; `XKaapi.Mt` models them word
by word. Here the words are one wider `BitVec`. Of the operations used
below one copy does something else: `valueUnset` on three words.

Every operation comes with the bit it reads or writes, through
`getLsbD`; nothing outside this file looks inside a word.
-/
import Mathlib.Data.Nat.Count

namespace XKaapi.Bitmap

variable {w : Nat} {b : BitVec w} {i : Nat}

-- ======== operations

/-- kaapi_bitmap_value_set -/
def valueSet (b : BitVec w) (i : Nat) : BitVec w := b ||| BitVec.twoPow w i

/-- The word without bit `i`. -/
def clearBit (b : BitVec w) (i : Nat) : BitVec w :=
  b &&& ~~~ BitVec.twoPow w i

/-- A bitmap of three machine words, the `_192` copies. -/
abbrev ThreeWords (w : Nat) : Prop := 128 < w ∧ w ≤ 192

/-- The bit that kaapi_bitmap_value_unset clears: the last branch of the
copy for three words writes the second word. -/
def unsetIndex (w i : Nat) : Nat :=
  if ThreeWords w ∧ 128 ≤ i then i - 64 else i

/-- kaapi_bitmap_value_unset -/
def valueUnset (b : BitVec w) (i : Nat) : BitVec w :=
  clearBit b (unsetIndex w i)

/-- kaapi_bitmap_value_count: the population count. -/
def valueCount (b : BitVec w) : Nat := Nat.count (fun i => b.getLsbD i) w

/-- kaapi_bitmap_value_first1: one more than the index of the least
significant bit set, 0 if there is none (`ffs`). -/
def valueFirst1 (b : BitVec w) : Nat :=
  match (List.range w).find? b.getLsbD with
  | some i => i + 1
  | none => 0

/-- kaapi_bitmap_value_first1_and_zero -/
def valueFirst1AndZero (b : BitVec w) : Nat × BitVec w :=
  match valueFirst1 b with
  | 0 => (0, b)
  | fb + 1 => (fb + 1, clearBit b fb)

/-- kaapi_bitmap_value_set_low_bits: the bits `[0, i)`. A shift by more
than the width of the word is undefined. -/
def valueSetLowBits (w i : Nat) : Option (BitVec w) :=
  if i ≤ w then some (BitVec.ofNat w (2 ^ i - 1)) else none

/-- kaapi_bitmap_unset: clears bit `i` and returns 0, here `true`, iff
this call cleared it. -/
def unset (b : BitVec w) (i : Nat) : Bool × BitVec w :=
  (b.getLsbD i, clearBit b i)

/-- kaapi_bitmap_and: the word before, and the word masked by `v`. -/
def and (b v : BitVec w) : BitVec w × BitVec w := (b, b &&& v)

/-- kaapi_bitmap_first1_and_zero, no other thread clearing the bit
between its read and its `unset`. -/
def first1AndZero (b : BitVec w) : Nat × BitVec w := valueFirst1AndZero b

-- ======== bits

theorem lt_of_getLsbD (h : b.getLsbD i = true) : i < w :=
  BitVec.lt_of_getLsbD h

@[simp] theorem getLsbD_valueSet (b : BitVec w) (i j : Nat) :
    (valueSet b i).getLsbD j
      = (b.getLsbD j || (decide (i < w) && decide (i = j))) := by
  unfold valueSet
  rw [BitVec.getLsbD_or, BitVec.getLsbD_twoPow]

@[simp] theorem getLsbD_clearBit (b : BitVec w) (i j : Nat) :
    (clearBit b i).getLsbD j = (b.getLsbD j && decide (i ≠ j)) := by
  unfold clearBit
  rw [BitVec.getLsbD_and, BitVec.getLsbD_not, BitVec.getLsbD_twoPow]
  by_cases hj : j < w
  · by_cases hij : i = j
    · simp [hij, hj]
    · simp [hij, hj]
  · rw [BitVec.getLsbD_of_ge b j (Nat.le_of_not_lt hj)]
    rfl

theorem clearBit_of_not (h : b.getLsbD i = false) : clearBit b i = b := by
  apply BitVec.eq_of_getLsbD_eq
  intro j hj
  rw [getLsbD_clearBit]
  by_cases hij : i = j
  · rw [← hij, h]
    rfl
  · simp [hij]

theorem eq_zero_iff : b = 0 ↔ ∀ i, b.getLsbD i = false := by
  constructor
  · intro h i
    rw [h]
    exact BitVec.getLsbD_zero
  · intro h
    apply BitVec.eq_of_getLsbD_eq
    intro i _
    rw [h i]
    exact BitVec.getLsbD_zero.symm

theorem unsetIndex_of_lt (h : ThreeWords w → i < 128) : unsetIndex w i = i :=
  if_neg fun hc => Nat.not_lt_of_le hc.2 (h hc.1)

/-- The wrong bit is one of the second word. -/
theorem unsetIndex_lt (hw : ThreeWords w) (hi : i < w) : unsetIndex w i < 128 := by
  have := hw.2
  unfold unsetIndex
  split <;> omega

-- ======== counts

/-- The set bits, as a set. -/
def bits (b : BitVec w) : Finset Nat :=
  (Finset.range w).filter fun i => b.getLsbD i

@[simp] theorem mem_bits : i ∈ bits b ↔ b.getLsbD i = true := by
  unfold bits
  rw [Finset.mem_filter, Finset.mem_range]
  exact ⟨fun h => h.2, fun h => ⟨lt_of_getLsbD h, h⟩⟩

theorem valueCount_eq_card (b : BitVec w) :
    valueCount b = (bits b).card :=
  Nat.count_eq_card_filter_range _ _

theorem valueCount_le (b : BitVec w) : valueCount b ≤ w :=
  Nat.count_le _

theorem valueCount_eq_zero_iff : valueCount b = 0 ↔ b = 0 := by
  rw [valueCount_eq_card, Finset.card_eq_zero, Finset.eq_empty_iff_forall_notMem,
    eq_zero_iff]
  simp

theorem valueCount_clearBit (h : b.getLsbD i = true) :
    valueCount (clearBit b i) + 1 = valueCount b := by
  have hbits : bits (clearBit b i) = (bits b).erase i := by
    ext j
    rw [Finset.mem_erase, mem_bits, mem_bits, getLsbD_clearBit,
      Bool.and_eq_true, decide_eq_true_eq, and_comm, ne_comm]
  rw [valueCount_eq_card, valueCount_eq_card, hbits,
    Finset.card_erase_add_one (mem_bits.mpr h)]

-- ======== first set

theorem valueFirst1_eq_zero_iff : valueFirst1 b = 0 ↔ b = 0 := by
  unfold valueFirst1
  split
  next i hi =>
    have hset := List.find?_some hi
    refine iff_of_false (Nat.succ_ne_zero i) fun h => ?_
    rw [eq_zero_iff.mp h i] at hset
    cases hset
  next hnone =>
    rw [List.find?_eq_none] at hnone
    refine iff_of_true rfl (eq_zero_iff.mpr fun i => ?_)
    by_cases hi : i < w
    · exact Bool.eq_false_iff.mpr (hnone i (List.mem_range.mpr hi))
    · exact BitVec.getLsbD_of_ge b i (Nat.le_of_not_lt hi)

theorem getLsbD_of_valueFirst1 (h : valueFirst1 b = i + 1) : b.getLsbD i = true := by
  unfold valueFirst1 at h
  split at h
  next j hj =>
    have hset := List.find?_some hj
    rwa [Nat.succ.inj h] at hset
  next => cases h

theorem valueFirst1_le (h : b.getLsbD i = true) : valueFirst1 b ≤ i + 1 := by
  unfold valueFirst1
  split
  next j hj =>
    have hmin := (List.find?_range_eq_some.mp hj).2.2
    by_contra hlt
    have hno := hmin i (by omega)
    rw [h] at hno
    cases hno
  next => exact Nat.zero_le _

/-- `first1_and_zero` returns 0 on the empty word only, and otherwise
clears the set bit whose index it returns. -/
theorem valueFirst1AndZero_cases (b : BitVec w) :
    (b = 0 ∧ valueFirst1AndZero b = (0, b))
      ∨ ∃ i, b.getLsbD i = true
          ∧ valueFirst1AndZero b = (i + 1, clearBit b i) := by
  unfold valueFirst1AndZero
  split
  next h => exact .inl ⟨valueFirst1_eq_zero_iff.mp h, rfl⟩
  next i h => exact .inr ⟨i, getLsbD_of_valueFirst1 h, rfl⟩

/-- The bit it returns is the least one. -/
theorem le_of_valueFirst1AndZero {b' : BitVec w} {j : Nat}
    (h : valueFirst1AndZero b = (i + 1, b')) (hj : b.getLsbD j = true) : i ≤ j := by
  have hle := valueFirst1_le hj
  unfold valueFirst1AndZero at h
  split at h
  next => cases h
  next fb hfb =>
    have hfst := (Prod.mk.inj h).1
    omega

-- ======== low bits

/-- The word whose set bits are `[0, i)`. -/
def LowBits (b : BitVec w) (i : Nat) : Prop :=
  ∀ j, b.getLsbD j = decide (j < i)

theorem valueSetLowBits_eq_some_iff :
    valueSetLowBits w i = some b ↔ i ≤ w ∧ LowBits b i := by
  have hbit : ∀ j, i ≤ w →
      (BitVec.ofNat w (2 ^ i - 1)).getLsbD j = decide (j < i) := by
    intro j hi
    rw [BitVec.getLsbD_ofNat, Nat.testBit_two_pow_sub_one]
    by_cases hj : j < i
    · simp [hj, Nat.lt_of_lt_of_le hj hi]
    · simp [hj]
  unfold valueSetLowBits
  split
  next hi =>
    constructor
    · intro h
      cases h
      exact ⟨hi, fun j => hbit j hi⟩
    · intro h
      congr 1
      apply BitVec.eq_of_getLsbD_eq
      intro j _
      rw [hbit j hi, h.2 j]
  next hi =>
    exact iff_of_false nofun fun h => hi h.1

theorem LowBits.bits_eq (h : LowBits b i) : bits b = Finset.range i := by
  ext j
  rw [mem_bits, h j, decide_eq_true_eq, Finset.mem_range]

theorem LowBits.valueCount (h : LowBits b i) : valueCount b = i := by
  rw [valueCount_eq_card, h.bits_eq, Finset.card_range]

theorem lowBits_of_forall_lt (h : ∀ i, b.getLsbD i = true → i < Bitmap.valueCount b) :
    LowBits b (Bitmap.valueCount b) := by
  have hbits : bits b = Finset.range (Bitmap.valueCount b) := by
    apply Finset.eq_of_subset_of_card_le
    · intro i hi
      exact Finset.mem_range.mpr (h i (mem_bits.mp hi))
    · rw [Finset.card_range, valueCount_eq_card]
  intro j
  rw [Bool.eq_iff_iff, decide_eq_true_eq, ← mem_bits, hbits, Finset.mem_range]

end XKaapi.Bitmap
