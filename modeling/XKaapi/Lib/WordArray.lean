/-
Arrays of machine words as finite sets of indices: index `i` is bit
`i % b` of word `i / b`, for any number `n` of words of `b` bits.

- `indices_eq`: the set of an array, from what its words hold.
- `card_indices`: the number of indices is the sum of the words' counts.
- `least_of_firstWord`: the least index lies in the first nonzero word.

`least S` is what `ffs` answers for a whole set: one more than its least
element, 0 for the empty set.
-/
import Mathlib.Algebra.BigOperators.Fin

namespace WordArray

variable {n b : Nat} {i j : Nat} {k : Fin n} {a : Fin n → BitVec b}

-- ======== indices

/-- Bit `i` of the array. -/
def bit (a : Fin n → BitVec b) (i : Nat) : Bool :=
  if h : i / b < n then (a ⟨i / b, h⟩).getLsbD (i % b) else false

/-- The indices whose bit is set. -/
def indices (a : Fin n → BitVec b) : Finset Nat :=
  (Finset.range (n * b)).filter fun i => bit a i = true

/-- The bits set in one word. -/
def wordBits (w : BitVec b) : Finset Nat :=
  (Finset.range b).filter fun j => w.getLsbD j = true

theorem exists_index (hi : i < n * b) : ∃ k : Fin n, ∃ j, j < b ∧ i = k * b + j := by
  have hb : 0 < b := Nat.pos_of_mul_pos_left (Nat.zero_lt_of_lt hi)
  refine ⟨⟨i / b, Nat.div_lt_of_lt_mul (by rwa [Nat.mul_comm])⟩, i % b,
    Nat.mod_lt _ hb, ?_⟩
  show i = i / b * b + i % b
  rw [Nat.mul_comm]
  exact (Nat.div_add_mod i b).symm

theorem index_lt (k : Fin n) (hj : j < b) : k * b + j < n * b :=
  calc k * b + j < k * b + b := Nat.add_lt_add_left hj _
    _ = (k + 1) * b := (Nat.succ_mul _ _).symm
    _ ≤ n * b := Nat.mul_le_mul_right b k.isLt

theorem index_div (m : Nat) (hj : j < b) : (m * b + j) / b = m := by
  rw [Nat.mul_comm, Nat.mul_add_div (Nat.zero_lt_of_lt hj),
    Nat.div_eq_of_lt hj, Nat.add_zero]

theorem bit_index (a : Fin n → BitVec b) (k : Fin n) (hj : j < b) :
    bit a (k * b + j) = (a k).getLsbD j := by
  have hdiv : (k * b + j) / b = k := index_div k hj
  have hmod : (k * b + j) % b = j := by
    rw [Nat.mul_comm, Nat.mul_add_mod, Nat.mod_eq_of_lt hj]
  have hlt : (k * b + j) / b < n := by
    rw [hdiv]
    exact k.isLt
  unfold bit
  rw [dif_pos hlt, hmod]
  congr 2
  exact Fin.ext hdiv

theorem index_inj {l : Fin n} (hi : i < b) (hj : j < b) :
    k * b + i = l * b + j ↔ k = l ∧ i = j := by
  constructor
  · intro h
    have hk : (k : Nat) = l := by
      rw [← index_div k hi, h, index_div l hj]
    refine ⟨Fin.ext hk, ?_⟩
    rw [hk] at h
    exact Nat.add_left_cancel h
  · intro h
    obtain ⟨rfl, rfl⟩ := h
    rfl

theorem mem_indices_index (hj : j < b) :
    k * b + j ∈ indices a ↔ (a k).getLsbD j = true := by
  unfold indices
  rw [Finset.mem_filter, Finset.mem_range, bit_index a k hj]
  exact and_iff_right (index_lt k hj)

theorem lt_of_mem_indices (h : i ∈ indices a) : i < n * b :=
  Finset.mem_range.mp (Finset.mem_filter.mp h).1

theorem indices_subset (a : Fin n → BitVec b) :
    indices a ⊆ Finset.range (n * b) :=
  Finset.filter_subset _ _

theorem indices_eq {S : Finset Nat} (hS : ∀ i ∈ S, i < n * b)
    (h : ∀ (k : Fin n) (j : Nat), j < b → ((a k).getLsbD j = true ↔ k * b + j ∈ S)) :
    indices a = S := by
  ext i
  constructor
  · intro hi
    obtain ⟨k, j, hj, rfl⟩ := exists_index (lt_of_mem_indices hi)
    exact (h k j hj).mp ((mem_indices_index hj).mp hi)
  · intro hi
    obtain ⟨k, j, hj, rfl⟩ := exists_index (hS i hi)
    exact (mem_indices_index hj).mpr ((h k j hj).mpr hi)

theorem indices_injective {c : Fin n → BitVec b} (h : indices a = indices c) : a = c := by
  funext k
  apply BitVec.eq_of_getLsbD_eq
  intro j hj
  rw [Bool.eq_iff_iff, ← mem_indices_index hj, h, mem_indices_index hj]

-- ======== count

theorem mem_wordBits {w : BitVec b} : j ∈ wordBits w ↔ w.getLsbD j = true := by
  unfold wordBits
  rw [Finset.mem_filter, Finset.mem_range]
  exact ⟨fun h => h.2, fun h => ⟨BitVec.lt_of_getLsbD h, h⟩⟩

theorem indices_filter_word (a : Fin n → BitVec b) (k : Fin n) :
    ((indices a).filter fun i => i / b = k).card = (wordBits (a k)).card := by
  rw [← Finset.card_map (addLeftEmbedding (k * b)) (s := wordBits (a k))]
  congr 1
  ext i
  rw [Finset.mem_filter, Finset.mem_map]
  constructor
  · intro ⟨hi, hk⟩
    have hb : 0 < b :=
      Nat.pos_of_mul_pos_left (Nat.zero_lt_of_lt (lt_of_mem_indices hi))
    have heq : (k : Nat) * b + i % b = i := by
      rw [← hk, Nat.mul_comm]
      exact Nat.div_add_mod i b
    refine ⟨i % b, mem_wordBits.mpr ?_, heq⟩
    rw [← mem_indices_index (Nat.mod_lt _ hb), heq]
    exact hi
  · intro h
    obtain ⟨j, hj, rfl⟩ := h
    have hjb := BitVec.lt_of_getLsbD (mem_wordBits.mp hj)
    exact ⟨(mem_indices_index hjb).mpr (mem_wordBits.mp hj), index_div k hjb⟩

theorem card_indices (a : Fin n → BitVec b) :
    (indices a).card = ∑ k, (wordBits (a k)).card := by
  have hword : ∀ i ∈ indices a, i / b ∈ Finset.range n := by
    intro i hi
    have hlt := lt_of_mem_indices hi
    exact Finset.mem_range.mpr (Nat.div_lt_of_lt_mul (by rwa [Nat.mul_comm]))
  rw [Finset.card_eq_sum_card_fiberwise hword, ← Fin.sum_univ_eq_sum_range
    fun k => ((indices a).filter fun i => i / b = k).card]
  exact Finset.sum_congr rfl fun k _ => indices_filter_word a k

-- ======== least

/-- One more than the least element, 0 if there is none. -/
def least (S : Finset Nat) : Nat :=
  if h : S.Nonempty then S.min' h + 1 else 0

@[simp] theorem least_empty : least ∅ = 0 := rfl

theorem least_eq_succ {S : Finset Nat} (hi : i ∈ S) (hmin : ∀ j ∈ S, i ≤ j) :
    least S = i + 1 := by
  have hne : S.Nonempty := ⟨i, hi⟩
  unfold least
  rw [dif_pos hne]
  congr 1
  exact Nat.le_antisymm (S.min'_le i hi) (hmin _ (S.min'_mem hne))

/-- The first word that is not 0. -/
def firstWord (a : Fin n → BitVec b) : Option (Fin n) :=
  (List.finRange n).find? fun k => a k != 0

theorem firstWord_none (h : firstWord a = none) : indices a = ∅ := by
  unfold firstWord at h
  rw [List.find?_eq_none] at h
  refine indices_eq (fun i hi => absurd hi (Finset.notMem_empty i)) ?_
  intro k j hj
  have hk : a k = 0 := by
    have := h k (List.mem_finRange k)
    simpa using this
  rw [hk]
  simp

theorem firstWord_some (h : firstWord a = some k) : a k ≠ 0 ∧ ∀ l < k, a l = 0 := by
  unfold firstWord at h
  refine ⟨by simpa using List.find?_some h, fun l hl => ?_⟩
  rw [List.find?_eq_some_iff_getElem] at h
  obtain ⟨-, i, hi, hik, hmin⟩ := h
  have hival : i = k := by
    rw [← hik]
    simp
  have hl' : (l : Nat) < i := by
    rw [hival]
    exact hl
  have hzero := hmin l hl'
  simpa using hzero

theorem least_of_firstWord (h : firstWord a = some k) (hj : (a k).getLsbD j = true)
    (hmin : ∀ i, (a k).getLsbD i = true → j ≤ i) : least (indices a) = k * b + j + 1 := by
  have hjb := BitVec.lt_of_getLsbD hj
  refine least_eq_succ ((mem_indices_index hjb).mpr hj) fun i hi => ?_
  obtain ⟨l, i, hib, rfl⟩ := exists_index (lt_of_mem_indices hi)
  have hset := (mem_indices_index hib).mp hi
  rcases Nat.lt_trichotomy l k with hlt | heq | hgt
  · rw [(firstWord_some h).2 l hlt] at hset
    simp at hset
  · have hlk : l = k := Fin.ext heq
    subst hlk
    exact Nat.add_le_add_left (hmin i hset) _
  · calc (k : Nat) * b + j ≤ k * b + b := Nat.add_le_add_left hjb.le _
      _ = (k + 1) * b := (Nat.succ_mul _ _).symm
      _ ≤ l * b := Nat.mul_le_mul_right b hgt
      _ ≤ l * b + i := Nat.le_add_right _ _

end WordArray
