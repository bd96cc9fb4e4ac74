/-
What a bitmap is for: a finite set of indices below its size. `setCall`
is the purpose of each operation, on sets; `Agrees` says that the words
of a width do exactly that, and `Holds` is the condition for it.

- `agrees_iff_holds`: the four copies that slipped are off on the inputs
  `Holds` leaves out and right on all others, and the other copies are
  right everywhere.
-/
import XKaapi.Mt.Bitmap

namespace XKaapi.Mt

open Function (update)
open Function (update_of_ne update_self)
open WordArray (indices least)

-- ======== sets of indices

abbrev SetStore := Nat → Finset Nat

/-- The call on sets of indices below `size`. -/
def BitmapOp.setCall (size : Nat) (op : BitmapOp) (s : SetStore) :
    Int × SetStore :=
  match op with
  | .clear b | .valueClear b => (0, update s b ∅)
  | .empty b | .valueEmpty b => ((decide (s b = ∅)).toInt, s)
  | .init b v | .valueCopy b v => (0, update s b (s v))
  | .valueFull b => (0, update s b (Finset.range size))
  | .valueCount b | .count b => ((s b).card, s)
  | .valueSet b i => (0, update s b (insert i (s b)))
  | .set b i => (1, update s b (insert i (s b)))
  | .valueGet b i | .get b i => ((decide (i ∈ s b)).toInt, s)
  | .valueUnset b i => (0, update s b ((s b).erase i))
  | .unset b i => (if i ∈ s b then 0 else -1, update s b ((s b).erase i))
  | .swap0 b v => (0, update (update s b ∅) v (s b))
  | .or0 b v => (0, update (update s b ∅) v (s v ∪ s b))
  | .and fu b v => (0, update (update s b (s b ∩ s v)) fu (s b))
  | .valueNeg fu bar => (0, update s fu (Finset.range size \ s bar))
  | .valueOr fu bar => (0, update s fu (s fu ∪ s bar))
  | .valueAnd fu bar => (0, update s fu (s fu ∩ s bar))
  | .valueFirst1AndZero b | .first1AndZero b =>
    (least (s b), update s b ((s b).erase (least (s b) - 1)))
  | .valueFirst1 b | .first1 b => (least (s b), s)
  | .valueSetLowBits b i | .setLowBits b i => (0, update s b (Finset.range i))

/-- The sets a store of words stands for. -/
def sets {W : Width} (e : Store W) : SetStore := fun x => indices (e x)

/-- The call on words is the call on sets. -/
def BitmapOp.Agrees {W : Width} (op : BitmapOp) (e : Store W) : Prop :=
  (op.exec e).map (Prod.map id sets)
    = if op.InRange W.size then some (op.setCall W.size (sets e)) else none

/-- The condition, on the sets before the call. -/
def BitmapOp.Holds (W : Width) (s : SetStore) : BitmapOp → Prop
  | .set _ _ => W ≠ .w32
  | .setLowBits b i => W = .w128 → i < 64 → ∀ j ∈ s b, j < 64
  | .valueUnset b i => W = .w192 → 128 ≤ i → i ∉ s b ∧ i - 64 ∉ s b
  | .count b => W = .w256 → ∀ j ∈ s b, j < 192
  | _ => True

-- ======== the words

section words

variable {W : Width} {i j : Nat}

/-- A bit is in its word, at its shift. -/
theorem Width.word_shift (hi : i < W.size) :
    W.word i * W.bits + W.shift i = i ∧ W.shift i < W.bits := by
  have hle : W.word i * W.bits ≤ i ∧ i < W.word i * W.bits + W.bits := by
    cases W
    all_goals
      simp only [Width.size, Width.words, Width.bits] at hi
      simp only [Width.word, Width.bits]
    case w32 => omega
    case w64 => omega
    all_goals
      split_ifs <;> simp only <;> omega
  unfold Width.shift
  omega

/-- A bit set in a word is one more index. -/
theorem indices_setWord_valueSet (b : Words W) (k : Fin W.words) (hj : j < W.bits) :
    indices (Words.setWord b k (Bitmap.valueSet (b k) j))
      = insert (k * W.bits + j) (indices b) := by
  refine WordArray.indices_eq ?_ fun l i hi => ?_
  · intro i hi
    rcases Finset.mem_insert.mp hi with rfl | hi
    · exact WordArray.index_lt k hj
    · exact WordArray.lt_of_mem_indices hi
  rw [Finset.mem_insert, WordArray.index_inj hi hj,
    WordArray.mem_indices_index hi]
  unfold Words.setWord
  by_cases hl : l = k
  · subst hl
    rw [update_self, Bitmap.getLsbD_valueSet]
    simp only [hj, decide_true, Bool.true_and, Bool.or_eq_true,
      decide_eq_true_eq, true_and]
    exact or_comm.trans (or_congr_left eq_comm)
  · rw [update_of_ne hl]
    simp [hl]

/-- A bit cleared in a word is one index less. -/
theorem indices_setWord_valueUnset (b : Words W) (k : Fin W.words) (hj : j < W.bits) :
    indices (Words.setWord b k (Bitmap.clearBit (b k) j))
      = (indices b).erase (k * W.bits + j) := by
  refine WordArray.indices_eq ?_ fun l i hi => ?_
  · intro i hi
    exact WordArray.lt_of_mem_indices (Finset.mem_of_mem_erase hi)
  rw [Finset.mem_erase, ne_eq, WordArray.index_inj hi hj,
    WordArray.mem_indices_index hi]
  unfold Words.setWord
  by_cases hl : l = k
  · subst hl
    rw [update_self, Bitmap.getLsbD_clearBit, Bool.and_eq_true,
      decide_eq_true_eq, and_comm, ne_comm]
    simp only [ne_eq, true_and]
  · rw [update_of_ne hl]
    simp [hl]

theorem indices_zero : indices (fun _ : Fin W.words => (0 : BitVec W.bits))
    = ∅ := by
  refine WordArray.indices_eq (fun i hi => absurd hi (Finset.notMem_empty i)) ?_
  intro k j _
  simp

/-- Emptiness of the words is that of the set. -/
theorem valueEmpty_eq (b : Words W) :
    Words.valueEmpty b = decide (indices b = ∅) := by
  unfold Words.valueEmpty
  rw [Bool.eq_iff_iff, List.all_eq_true, decide_eq_true_eq]
  constructor
  · intro h
    have hb : b = fun _ => 0 := by
      funext k
      simpa using h k (List.mem_finRange k)
    rw [hb]
    exact indices_zero
  · intro h k _
    have hb : b = fun _ => 0 :=
      WordArray.indices_injective (h.trans indices_zero.symm)
    rw [hb]
    exact beq_self_eq_true _

theorem indices_valueFull : indices (Words.valueFull (W := W))
    = Finset.range W.size := by
  refine WordArray.indices_eq (fun i hi => Finset.mem_range.mp hi) ?_
  intro k j hj
  unfold Words.valueFull
  rw [Finset.mem_range, BitVec.getLsbD_not]
  simp only [hj, decide_true, BitVec.ofNat_eq_ofNat, BitVec.getLsbD_zero,
    Bool.not_false, Bool.and_self, true_iff]
  exact WordArray.index_lt k hj

/-- The count is the number of indices. -/
theorem valueCount_eq_card (b : Words W) :
    Words.valueCount b = (indices b).card := by
  rw [WordArray.card_indices, Fin.sum_univ_def]
  unfold Words.valueCount
  congr 2
  funext k
  exact Bitmap.valueCount_eq_card (b k)

/-- value_set adds the index. -/
theorem indices_valueSet (b : Words W) (hi : i < W.size) :
    indices (Words.valueSet b i) = insert i (indices b) := by
  have hword := Width.word_shift hi
  unfold Words.valueSet
  rw [indices_setWord_valueSet b _ hword.2, hword.1]

/-- value_get tests membership. -/
theorem valueGet_eq (b : Words W) (hi : i < W.size) :
    Words.valueGet b i = decide (i ∈ indices b) := by
  have hword := Width.word_shift hi
  unfold Words.valueGet
  rw [Bool.eq_iff_iff, decide_eq_true_eq]
  nth_rewrite 3 [← hword.1]
  exact (WordArray.mem_indices_index hword.2).symm

/-- value_neg is the complement. -/
theorem indices_valueNeg (b : Words W) :
    indices (Words.valueNeg b) = Finset.range W.size \ indices b := by
  refine WordArray.indices_eq
    (fun i hi => Finset.mem_range.mp (Finset.mem_sdiff.mp hi).1) ?_
  intro k j hj
  unfold Words.valueNeg
  rw [Finset.mem_sdiff, WordArray.mem_indices_index hj, BitVec.getLsbD_not]
  have hlt := WordArray.index_lt k hj
  simp [hj, hlt, Width.size]

theorem indices_or (a b : Words W) :
    indices (fun k => a k ||| b k) = indices a ∪ indices b := by
  refine WordArray.indices_eq ?_ fun k j hj => ?_
  · intro i hi
    rcases Finset.mem_union.mp hi with hi | hi
    · exact WordArray.lt_of_mem_indices hi
    · exact WordArray.lt_of_mem_indices hi
  rw [Finset.mem_union, WordArray.mem_indices_index hj,
    WordArray.mem_indices_index hj, BitVec.getLsbD_or, Bool.or_eq_true]

theorem indices_and (a b : Words W) :
    indices (fun k => a k &&& b k) = indices a ∩ indices b := by
  refine WordArray.indices_eq
    (fun i hi => WordArray.lt_of_mem_indices (Finset.mem_inter.mp hi).1) ?_
  intro k j hj
  rw [Finset.mem_inter, WordArray.mem_indices_index hj,
    WordArray.mem_indices_index hj, BitVec.getLsbD_and, Bool.and_eq_true]

/-- The first 1 of a word that is not 0. -/
theorem exists_valueFirst1 {x : BitVec W.bits} (hx : x ≠ 0) :
    ∃ j, Bitmap.valueFirst1 x = j + 1 ∧ x.getLsbD j = true
      ∧ ∀ i, x.getLsbD i = true → j ≤ i := by
  obtain ⟨j, hj⟩ := Nat.exists_eq_succ_of_ne_zero
    fun h => hx (Bitmap.valueFirst1_eq_zero_iff.mp h)
  refine ⟨j, hj, Bitmap.getLsbD_of_valueFirst1 hj, fun i hi => ?_⟩
  have hle := Bitmap.valueFirst1_le hi
  omega

/-- value_first1 is the least index, counted from 1. -/
theorem valueFirst1_eq_least (b : Words W) :
    Words.valueFirst1 b = least (indices b) := by
  unfold Words.valueFirst1
  split
  next h => rw [WordArray.firstWord_none h, WordArray.least_empty]
  next k h =>
    obtain ⟨j, hj, hset, hmin⟩ :=
      exists_valueFirst1 (WordArray.firstWord_some h).1
    rw [hj, WordArray.least_of_firstWord h hset hmin, Nat.add_assoc]

/-- value_first1_and_zero also takes it out. -/
theorem valueFirst1AndZero_eq (b : Words W) :
    (Words.valueFirst1AndZero b).1 = least (indices b)
      ∧ indices (Words.valueFirst1AndZero b).2
        = (indices b).erase (least (indices b) - 1) := by
  unfold Words.valueFirst1AndZero
  split
  next h =>
    rw [WordArray.firstWord_none h]
    exact ⟨rfl, rfl⟩
  next k h =>
    obtain ⟨j, hj, hset, hmin⟩ :=
      exists_valueFirst1 (WordArray.firstWord_some h).1
    have hzero : Bitmap.valueFirst1AndZero (b k)
        = (j + 1, Bitmap.clearBit (b k) j) := by
      unfold Bitmap.valueFirst1AndZero
      rw [hj]
    rw [WordArray.least_of_firstWord h hset hmin, hzero, Nat.add_sub_cancel]
    exact ⟨rfl, indices_setWord_valueUnset b k (BitVec.lt_of_getLsbD hset)⟩

theorem first1AndZero_eq (b : Words W) :
    Words.first1AndZero b = Words.valueFirst1AndZero b := by
  unfold Words.first1AndZero Words.valueFirst1AndZero
  split
  next => rfl
  next k h =>
    obtain ⟨j, hj, hset, -⟩ := exists_valueFirst1 (WordArray.firstWord_some h).1
    simp only [Bitmap.unset, Bitmap.valueFirst1AndZero, hj,
      Nat.add_sub_cancel, hset, if_true]

/-- unset tells whether the index was there, and takes it out. -/
theorem unset_eq (b : Words W) (hi : i < W.size) :
    (Words.unset b i).1 = (if i ∈ indices b then 0 else -1)
      ∧ indices (Words.unset b i).2 = (indices b).erase i := by
  have hword := Width.word_shift hi
  have hmem : (b (W.word i)).getLsbD (W.shift i) = true ↔ i ∈ indices b := by
    nth_rewrite 3 [← hword.1]
    exact (WordArray.mem_indices_index hword.2).symm
  constructor
  · show (if (b (W.word i)).getLsbD (W.shift i) then (0 : Int) else -1) = _
    simp only [hmem]
  · show indices (Words.setWord b (W.word i)
      (Bitmap.clearBit (b (W.word i)) (W.shift i))) = _
    rw [indices_setWord_valueUnset b _ hword.2, hword.1]

theorem getLsbD_lowWord (k : Fin W.words) (hj : j < W.bits) :
    (Words.lowWord W i k).getLsbD j = decide (k * W.bits + j < i) := by
  unfold Words.lowWord
  split_ifs with hfull hpart
  · have : (k : Nat) * W.bits + j < i := by
      rw [Nat.succ_mul] at hfull
      omega
    rw [BitVec.getLsbD_not]
    simp [hj, this]
  · rw [BitVec.getLsbD_ofNat, Nat.testBit_two_pow_sub_one]
    simp only [hj, decide_true, Bool.true_and, decide_eq_decide]
    omega
  · have : ¬ (k : Nat) * W.bits + j < i := by omega
    simp [this]

/-- The mask of the low bits. -/
theorem indices_lowWord (hi : i ≤ W.size) :
    indices (Words.lowWord W i) = Finset.range i := by
  refine WordArray.indices_eq
    (fun j hj => Nat.lt_of_lt_of_le (Finset.mem_range.mp hj) hi) ?_
  intro k j hj
  rw [getLsbD_lowWord k hj, decide_eq_true_eq, Finset.mem_range]

end words

-- ======== the slips

section slips

variable {i : Nat} {W : Width}

/-- value_unset takes the index out, at 192 bits below 128. -/
theorem indices_valueUnset (b : Words W) (hi : i < W.size) (h : ¬ (W = .w192 ∧ 128 ≤ i)) :
    indices (Words.valueUnset b i) = (indices b).erase i := by
  have hword : W.unsetWord i = W.word i := by
    cases W
    case w192 =>
      have hlt : i < 128 := Nat.lt_of_not_le fun hle => h ⟨rfl, hle⟩
      simp only [Width.unsetWord, Width.word, hlt, if_true]
    all_goals rfl
  have hspec := Width.word_shift hi
  unfold Words.valueUnset
  rw [hword, indices_setWord_valueUnset b _ hspec.2, hspec.1]

/-- At 192 bits, from 128 on, it takes out another one. -/
theorem indices_valueUnset_192 (b : Words .w192) (hi : i < Width.size .w192) (h : 128 ≤ i) :
    indices (Words.valueUnset b i) = (indices b).erase (i - 64) := by
  have h64 : ¬ i < 64 := by omega
  have h128 : ¬ i < 128 := by omega
  have hshift : Width.shift .w192 i = i - 128 := by
    simp only [Width.shift, Width.word, Width.bits, h64, h128, if_false]
  have hlt : i - 128 < Width.bits .w192 := by
    simp only [Width.size, Width.words, Width.bits] at hi ⊢
    omega
  have hidx : 1 * Width.bits .w192 + (i - 128) = i - 64 := by
    simp only [Width.bits]
    omega
  unfold Words.valueUnset
  simp only [Width.unsetWord, h64, if_false, hshift]
  rw [indices_setWord_valueUnset b ⟨1, by decide⟩ hlt, hidx]

theorem erase_eq_erase_iff {S : Finset Nat} {j : Nat} (hij : i ≠ j) :
    S.erase i = S.erase j ↔ j ∉ S ∧ i ∉ S := by
  constructor
  · intro h
    constructor
    · intro hj
      have hmem : j ∈ S.erase i := Finset.mem_erase.mpr ⟨hij.symm, hj⟩
      rw [h] at hmem
      exact Finset.notMem_erase j S hmem
    · intro hi
      have hmem : i ∈ S.erase j := Finset.mem_erase.mpr ⟨hij, hi⟩
      rw [← h] at hmem
      exact Finset.notMem_erase i S hmem
  · intro ⟨hj, hi⟩
    rw [Finset.erase_eq_of_notMem hi, Finset.erase_eq_of_notMem hj]

/-- So it is right iff neither of the two is there. -/
theorem indices_valueUnset_iff (b : Words W) (hi : i < W.size) :
    indices (Words.valueUnset b i) = (indices b).erase i
      ↔ (W = .w192 → 128 ≤ i → i ∉ indices b ∧ i - 64 ∉ indices b) := by
  by_cases hW : W = .w192 ∧ 128 ≤ i
  · obtain ⟨rfl, hle⟩ := hW
    rw [indices_valueUnset_192 b hi hle,
      erase_eq_erase_iff (show i - 64 ≠ i by omega)]
    exact ⟨fun h _ _ => h, fun h => h rfl hle⟩
  · exact iff_of_true (indices_valueUnset b hi hW) fun h192 hle =>
      absurd ⟨h192, hle⟩ hW

/-- count is the number of indices, but at 256 bits. -/
theorem count_eq_card (b : Words W) (h : W ≠ .w256) :
    Words.count b = (indices b).card := by
  cases W
  case w256 => exact absurd rfl h
  all_goals exact valueCount_eq_card b

/-- There it leaves out the last word. -/
theorem count_256_add (b : Words .w256) :
    Words.count b + Bitmap.valueCount (b ⟨3, by decide⟩)
      = (indices b).card := by
  rw [WordArray.card_indices]
  show Bitmap.valueCount (b ⟨0, by decide⟩) + Bitmap.valueCount (b ⟨1, by decide⟩)
    + Bitmap.valueCount (b ⟨2, by decide⟩) + Bitmap.valueCount (b ⟨3, by decide⟩)
      = ∑ k : Fin 4, (WordArray.wordBits (b k)).card
  rw [Fin.sum_univ_four]
  simp only [Bitmap.valueCount_eq_card]
  rfl

theorem count_256_eq_iff (b : Words .w256) :
    Words.count b = (indices b).card ↔ ∀ j ∈ indices b, j < 192 := by
  have hzero : Words.count b = (indices b).card
      ↔ Bitmap.valueCount (b ⟨3, by decide⟩) = 0 := by
    rw [← count_256_add]
    exact eq_comm.trans Nat.add_eq_left
  rw [hzero, Bitmap.valueCount_eq_zero_iff, Bitmap.eq_zero_iff]
  constructor
  · intro h j hj
    obtain ⟨k, i, hi, rfl⟩ :=
      WordArray.exists_index (WordArray.lt_of_mem_indices hj)
    have hset := (WordArray.mem_indices_index hi).mp hj
    by_contra hge
    have hk : k = ⟨3, by decide⟩ := by
      apply Fin.ext
      have := k.isLt
      simp only [Width.words, Width.bits] at this hi hge
      show (k : Nat) = 3
      omega
    rw [hk, h i] at hset
    cases hset
  · intro h i
    by_contra hset
    rw [Bool.not_eq_false] at hset
    have hi := BitVec.lt_of_getLsbD hset
    have hlt := h _ ((WordArray.mem_indices_index hi).mpr hset)
    simp only [Width.bits] at hlt
    omega

/-- set_low_bits gives the first indices, but at 128 bits below 64. -/
theorem indices_setLowBits (b : Words W) (hi : i < W.size) (h : ¬ (W = .w128 ∧ i < 64)) :
    indices (Words.setLowBits b i) = Finset.range i := by
  rw [← indices_lowWord hi.le]
  cases W
  case w128 =>
    have hge : ¬ i < 64 := fun hlt => h ⟨rfl, hlt⟩
    simp only [Words.setLowBits, hge, if_false]
  all_goals rfl

/-- There it leaves the high word as it was. -/
theorem mem_indices_setLowBits_128 (b : Words .w128) (h : i < 64) (j : Nat) :
    j ∈ indices (Words.setLowBits b i)
      ↔ j < i ∨ (64 ≤ j ∧ j ∈ indices b) := by
  simp only [Words.setLowBits, h, if_true]
  by_cases hj : j < Width.size .w128
  · obtain ⟨k, r, hr, rfl⟩ := WordArray.exists_index hj
    rw [WordArray.mem_indices_index hr, WordArray.mem_indices_index hr]
    unfold Words.setWord
    by_cases hk : k = ⟨0, by decide⟩
    · subst hk
      rw [update_self, getLsbD_lowWord _ hr, decide_eq_true_eq]
      simp only [Width.bits] at hr ⊢
      omega
    · rw [update_of_ne hk]
      have hk1 : (k : Nat) ≠ 0 := fun h0 => hk (Fin.ext h0)
      have hge : 64 ≤ (k : Nat) * Width.bits .w128 + r := by
        simp only [Width.bits]
        omega
      constructor
      · exact fun hset => .inr ⟨hge, hset⟩
      · rintro (hlt | hset)
        · omega
        · exact hset.2
  · have hge : 128 ≤ j := Nat.le_of_not_lt hj
    refine iff_of_false (fun hmem => hj (WordArray.lt_of_mem_indices hmem)) ?_
    rintro (hlt | hmem)
    · omega
    · exact hj (WordArray.lt_of_mem_indices hmem.2)

theorem indices_setLowBits_128_iff (b : Words .w128) (h : i < 64) :
    indices (Words.setLowBits b i) = Finset.range i
      ↔ ∀ j ∈ indices b, j < 64 := by
  rw [Finset.ext_iff]
  constructor
  · intro heq j hj
    by_contra hge
    have hmem := (mem_indices_setLowBits_128 b h j).mpr (.inr ⟨by omega, hj⟩)
    have hlt := Finset.mem_range.mp ((heq j).mp hmem)
    omega
  · intro hlt j
    rw [mem_indices_setLowBits_128 b h, Finset.mem_range]
    constructor
    · rintro (hj | ⟨hge, hj⟩)
      · exact hj
      · have := hlt j hj
        omega
    · exact .inl

end slips

-- ======== agreement

section agreement

variable {W : Width} {op : BitmapOp} {e : Store W}

theorem sets_update (e : Store W) (b : Nat) (x : Words W) :
    sets (update e b x) = update (sets e) b (indices x) := by
  funext y
  show indices (update e b x y) = update (sets e) b (indices x) y
  by_cases hy : y = b
  · rw [hy, update_self, update_self]
  · rw [update_of_ne hy, update_of_ne hy]
    rfl

theorem update_inj_iff {s : SetStore} {b : Nat} {S T : Finset Nat} :
    update s b S = update s b T ↔ S = T := by
  constructor
  · intro h
    have hb := congrFun h b
    rwa [update_self, update_self] at hb
  · intro h
    rw [h]

/-- A call agrees with its set when their results do. -/
theorem agrees_iff (hr : op.InRange W.size) :
    op.Agrees e ↔ Prod.map id sets (op.call e) = op.setCall W.size (sets e) := by
  unfold BitmapOp.Agrees BitmapOp.exec
  rw [if_pos hr, if_pos hr, Option.map_some, Option.some_inj]

/-- Where the condition holds the call is the one on sets. -/
theorem call_eq_setCall (hr : op.InRange W.size) (h : op.Holds W (sets e)) :
    Prod.map id sets (op.call e) = op.setCall W.size (sets e) := by
  cases op with
  | clear b | valueClear b =>
    exact Prod.ext rfl ((sets_update ..).trans (congrArg _ indices_zero))
  | empty b | valueEmpty b =>
    exact Prod.ext (congrArg Bool.toInt (valueEmpty_eq (e b))) rfl
  | init b v | valueCopy b v => exact Prod.ext rfl (sets_update ..)
  | valueFull b =>
    exact Prod.ext rfl ((sets_update ..).trans (congrArg _ indices_valueFull))
  | valueCount b =>
    exact Prod.ext (congrArg Int.ofNat (valueCount_eq_card (e b))) rfl
  | count b =>
    refine Prod.ext (congrArg Int.ofNat ?_) rfl
    by_cases hW : W = .w256
    · subst hW
      exact (count_256_eq_iff (e b)).mpr (h rfl)
    · exact count_eq_card (e b) hW
  | valueSet b i =>
    exact Prod.ext rfl
      ((sets_update ..).trans (congrArg _ (indices_valueSet (e b) hr)))
  | set b i =>
    refine Prod.ext ?_
      ((sets_update ..).trans (congrArg _ (indices_valueSet (e b) hr)))
    cases W
    case w32 => exact absurd rfl h
    all_goals rfl
  | valueGet b i | get b i =>
    exact Prod.ext (congrArg Bool.toInt (valueGet_eq (e b) hr)) rfl
  | valueUnset b i =>
    refine Prod.ext rfl ((sets_update ..).trans (congrArg _ ?_))
    exact (indices_valueUnset_iff (e b) hr).mpr h
  | unset b i =>
    exact Prod.ext (unset_eq (e b) hr).1
      ((sets_update ..).trans (congrArg _ (unset_eq (e b) hr).2))
  | swap0 b v =>
    have hzero : indices (Words.swap0 (e b)).1 = ∅ := by
      refine Eq.trans (congrArg indices ?_) (indices_zero (W := W))
      funext k
      exact BitVec.and_zero
    refine Prod.ext rfl ((sets_update ..).trans ?_)
    rw [sets_update, hzero]
    rfl
  | or0 b v =>
    have hzero : indices (Words.or0 (e b) (e v)).1 = ∅ := by
      refine Eq.trans (congrArg indices ?_) (indices_zero (W := W))
      funext k
      exact BitVec.and_zero
    refine Prod.ext rfl ((sets_update ..).trans ?_)
    rw [sets_update, hzero]
    exact congrArg _ (indices_or (e v) (e b))
  | and fu b v =>
    have hand : indices (Words.and (e b) (e v)).1
        = indices (e b) ∩ indices (e v) := indices_and (e b) (e v)
    refine Prod.ext rfl ((sets_update ..).trans ?_)
    rw [sets_update, hand]
    rfl
  | valueNeg fu bar =>
    exact Prod.ext rfl
      ((sets_update ..).trans (congrArg _ (indices_valueNeg (e bar))))
  | valueOr fu bar =>
    exact Prod.ext rfl
      ((sets_update ..).trans (congrArg _ (indices_or (e fu) (e bar))))
  | valueAnd fu bar =>
    exact Prod.ext rfl
      ((sets_update ..).trans (congrArg _ (indices_and (e fu) (e bar))))
  | valueFirst1AndZero b =>
    have hfirst := valueFirst1AndZero_eq (e b)
    exact Prod.ext (congrArg Int.ofNat hfirst.1)
      ((sets_update ..).trans (congrArg _ hfirst.2))
  | first1AndZero b =>
    have hfirst := valueFirst1AndZero_eq (e b)
    rw [← first1AndZero_eq] at hfirst
    exact Prod.ext (congrArg Int.ofNat hfirst.1)
      ((sets_update ..).trans (congrArg _ hfirst.2))
  | valueFirst1 b | first1 b =>
    exact Prod.ext (congrArg Int.ofNat (valueFirst1_eq_least (e b))) rfl
  | valueSetLowBits b i =>
    exact Prod.ext rfl
      ((sets_update ..).trans (congrArg _ (indices_lowWord hr)))
  | setLowBits b i =>
    refine Prod.ext rfl ((sets_update ..).trans (congrArg _ ?_))
    by_cases hW : W = .w128 ∧ i < 64
    · obtain ⟨rfl, hi⟩ := hW
      exact (indices_setLowBits_128_iff (e b) hi).mpr (h rfl hi)
    · exact indices_setLowBits (e b) hr hW

theorem holds_of_call (hr : op.InRange W.size)
    (h : Prod.map id sets (op.call e) = op.setCall W.size (sets e)) :
    op.Holds W (sets e) := by
  have hres := congrArg Prod.fst h
  have hstore := congrArg Prod.snd h
  cases op with
  | set b i =>
    intro heq
    subst heq
    cases hres
  | setLowBits b i =>
    rintro rfl hi
    refine (indices_setLowBits_128_iff (e b) hi).mp ?_
    exact update_inj_iff.mp ((sets_update ..).symm.trans hstore)
  | valueUnset b i =>
    refine (indices_valueUnset_iff (e b) hr).mp ?_
    exact update_inj_iff.mp ((sets_update ..).symm.trans hstore)
  | count b =>
    intro heq
    subst heq
    exact (count_256_eq_iff (e b)).mp (Int.ofNat.inj hres)
  | _ => trivial

/-- A call agrees with its set iff the condition holds. -/
theorem agrees_iff_holds (hr : op.InRange W.size) : op.Agrees e ↔ op.Holds W (sets e) :=
  (agrees_iff hr).trans ⟨holds_of_call hr, call_eq_setCall hr⟩

end agreement

end XKaapi.Mt
