/-
The normalisation of OpenMP loops is exact for the loops of `Fits`, and
for no others.
-/
import XKaapi.Omp.LoopNormal
import XKaapi.Lib.ForLoop
import Mathlib.Data.List.Range

namespace XKaapi.Omp

open CountedLoop

-- ======== arithmetic

variable {x : Int}

theorem CType.norm_of_inRange {t : CType} (h : t.InRange x) : t.norm x = some x := by
  cases t with
  | long => exact if_pos h
  | ull => exact congrArg some (Int.emod_eq_of_lt h.1 h.2)

theorem CType.norm_long_eq_some {y : Int} (h : CType.long.norm x = some y) :
    y = x ∧ CType.InRange .long x := by
  obtain ⟨hr, hx⟩ := Option.ite_none_right_eq_some.mp h
  exact ⟨(Option.some.inj hx).symm, hr⟩

theorem CType.InRange.between {t : CType} {a b : Int} (ha : t.InRange a)
    (hb : t.InRange b) (h : (a ≤ x ∧ x ≤ b) ∨ (b ≤ x ∧ x ≤ a)) : t.InRange x := by
  cases t with
  | long =>
    unfold CType.InRange at *
    omega
  | ull =>
    unfold CType.InRange at *
    omega

namespace Loop

variable {l : Loop} {i n : Nat} {up : Bool} {incr start stop : Long}

-- ======== the numbers

theorem start_inRange (l : Loop) : l.type.InRange l.start := by
  cases l with
  | long start stop incr => exact start.inRange
  | ull up start stop incr =>
    have h : (start.toNat : Int) < 2 ^ 64 := by exact_mod_cast start.isLt
    exact ⟨Int.natCast_nonneg _, h⟩

theorem step_ne_zero (h : l.incr ≠ 0) : l.step ≠ 0 := by
  cases l with
  | long start stop incr => exact h
  | ull up start stop incr =>
    have hlt := incr.isLt
    unfold Loop.incr at h
    unfold step
    dsimp only at h ⊢
    split
    next => exact h
    next => omega

theorem add_incr (l : Loop) (x y : Int) :
    l.type.norm (x + y * l.incr) = l.type.norm (x + y * l.step) := by
  cases l with
  | long start stop incr => rfl
  | ull up start stop incr =>
    unfold type Loop.incr step CType.norm
    dsimp only
    split
    next => rfl
    next =>
      have h : x + y * ((incr.toNat : Int) - 2 ^ 64)
          = x + y * incr.toNat + 2 ^ 64 * (-y) := by ring
      rw [h, Int.add_mul_emod_self_left]

theorem add_incr_of_inRange {x : Int} (h : l.type.InRange (x + l.step)) :
    l.type.add x l.incr = some (x + l.step) := by
  have hadd := add_incr l x 1
  rw [Int.one_mul, Int.one_mul] at hadd
  exact hadd.trans (CType.norm_of_inRange h)

/-- The value of an iteration that does not overflow. -/
theorem image_eq (h : l.type.InRange (l.start + i * l.step))
    (hm : l.type = .long → CType.InRange .long (i * l.step)) :
    l.image i = some (l.start + i * l.step) := by
  cases l with
  | long start stop incr =>
    unfold image
    have hmul : CType.long.mul i incr.val = some (i * incr.val) :=
      CType.norm_of_inRange (hm rfl)
    show (CType.long.mul i incr.val).bind _ = _
    rw [hmul]
    exact CType.norm_of_inRange h
  | ull up start stop incr =>
    have hadd := add_incr (.ull up start stop incr)
      (Loop.start (.ull up start stop incr)) i
    rw [CType.norm_of_inRange h] at hadd
    rw [← hadd]
    show some (_ % 2 ^ 64) = some (_ % 2 ^ 64)
    rw [Int.add_emod_emod]

theorem norm_of_image {x : Int} (h : l.image i = some x) :
    l.type.norm (l.start + i * l.step) = some x := by
  cases l with
  | long start stop incr =>
    obtain ⟨m, hm, h⟩ := Option.bind_eq_some_iff.mp h
    obtain ⟨rfl, -⟩ := CType.norm_long_eq_some hm
    exact h
  | ull up start stop incr =>
    rw [← add_incr, ← h]
    show some (_ % 2 ^ 64) = some (_ % 2 ^ 64)
    rw [Int.add_emod_emod]

-- ======== the count

/-- The iterations of a loop, as a list. -/
theorem values_iff (h : l.incr ≠ 0) (vals : List Int) :
    l.Values vals ↔
      vals = (List.range l.count).map fun i : Nat => l.start + i * l.step := by
  have hr := runs_goesOn (step_ne_zero h) l.start l.stop
  exact ⟨fun hv => hv.unique hr, fun hv => hv ▸ hr⟩

theorem toNat_lt (x : BitVec 64) : (x.toNat : Int) < 2 ^ 64 := by
  exact_mod_cast x.isLt

/-- The distance to go and the size of a step, of an unsigned loop. -/
def distance (up : Bool) (start stop : BitVec 64) : Int :=
  if up then stop.toNat - start.toNat else start.toNat - stop.toNat

def stride (up : Bool) (incr : BitVec 64) : Int :=
  if up then incr.toNat else 2 ^ 64 - incr.toNat

/-- The stride of an unsigned loop is positive and below 2^64. -/
theorem stride_bounds (up : Bool) {incr : BitVec 64} (h : incr.toNat ≠ 0) :
    0 < stride up incr ∧ stride up incr < 2 ^ 64 := by
  have hlt := toNat_lt incr
  unfold stride
  split
  next => omega
  next => omega

/-- Its distance is below 2^64 in size. -/
theorem distance_bounds (up : Bool) (start stop : BitVec 64) :
    -2 ^ 64 < distance up start stop ∧ distance up start stop < 2 ^ 64 := by
  have h₁ := toNat_lt start
  have h₂ := toNat_lt stop
  unfold distance
  split
  next => omega
  next => omega

theorem ull_step (up : Bool) (start stop incr : BitVec 64) :
    step (.ull up start stop incr)
      = if up then stride up incr else -stride up incr := by
  unfold step stride
  cases up with
  | true => simp only [if_true]
  | false => simp only [Bool.false_eq_true, if_false, Int.neg_sub]

/-- The number of its iterations. -/
theorem ull_count {start stop incr : BitVec 64} (h : incr.toNat ≠ 0) :
    count (.ull up start stop incr)
      = ceilDiv (distance up start stop) (stride up incr) := by
  have hs := (stride_bounds up h).1
  unfold count
  rw [ull_step]
  unfold trips distance
  cases up with
  | true => exact if_pos hs
  | false =>
    rw [if_neg Bool.false_ne_true, if_neg (by omega), Int.neg_neg]
    rfl

/-- The count of an unsigned loop, whose sum may have wrapped. -/
theorem kaEndUll_eq {start stop incr : BitVec 64} (h : incr.toNat ≠ 0) :
    kaEndUll up start.toNat stop.toNat incr.toNat
      = some ((distance up start stop + stride up incr - 1) % 2 ^ 64
          / stride up incr) := by
  obtain ⟨hs, hs'⟩ := stride_bounds up h
  have hdiv : ∀ v k : Int, k = stride up incr →
      CType.ull.div (v % 2 ^ 64) k = some (v % 2 ^ 64 / stride up incr) := by
    rintro v k rfl
    have h₀ : 0 ≤ v % 2 ^ 64 := Int.emod_nonneg v (by decide)
    have h₁ : v % 2 ^ 64 < 2 ^ 64 := Int.emod_lt_of_pos v (by decide)
    have hq := Int.ediv_nonneg h₀ (Int.le_of_lt hs)
    have hle := Int.ediv_le_self (stride up incr) h₀
    unfold CType.div
    rw [if_neg (by omega), Int.tdiv_eq_ediv_of_nonneg h₀]
    exact CType.norm_of_inRange ⟨hq, by omega⟩
  unfold kaEndUll
  cases up with
  | true =>
    show CType.ull.div (_ % 2 ^ 64) incr.toNat = _
    rw [hdiv _ _ (if_pos rfl).symm]
    unfold distance stride
    simp only [if_true, Int.emod_add_emod, Int.emod_sub_emod]
  | false =>
    show CType.ull.div (_ % 2 ^ 64) ((0 - (incr.toNat : Int)) % 2 ^ 64) = _
    have hk : (0 - (incr.toNat : Int)) % 2 ^ 64 = stride false incr := by
      have hlt := toNat_lt incr
      unfold stride
      rw [if_neg Bool.false_ne_true]
      omega
    rw [hdiv _ _ hk]
    unfold distance stride
    simp only [Bool.false_eq_true, if_false, Int.emod_sub_emod]
    have he : (start.toNat : Int) - stop.toNat + (2 ^ 64 - incr.toNat) - 1
        = start.toNat - stop.toNat - incr.toNat - 1 + 2 ^ 64 := by omega
    rw [he, Int.add_emod_right]

/-- An up-going loop of signed numbers: what it takes to count it. -/
theorem kaEnd_up (hi : 0 < incr.val) (h : start.val < stop.val) (n : Int) :
    kaEnd start.val stop.val incr.val = some n ↔
      stop.val - start.val + incr.val < 2 ^ 63
        ∧ n = trips incr.val start.val stop.val := by
  have hq : (stop.val - start.val + incr.val - 1).tdiv incr.val
      = trips incr.val start.val stop.val := by
    unfold trips ceilDiv
    rw [if_pos hi, Int.tdiv_eq_ediv_of_nonneg (by omega),
      Int.toNat_of_nonneg (Int.ediv_nonneg (by omega) (Int.le_of_lt hi))]
  have hstop := stop.inRange
  have hstart := start.inRange
  unfold CType.InRange at hstop hstart
  constructor
  · intro hk
    obtain ⟨d₁, h₁, hk⟩ := Option.bind_eq_some_iff.mp hk
    obtain ⟨d₂, h₂, hk⟩ := Option.bind_eq_some_iff.mp hk
    obtain ⟨d₃, h₃, hk⟩ := Option.bind_eq_some_iff.mp hk
    obtain ⟨rfl, -⟩ := CType.norm_long_eq_some h₁
    obtain ⟨rfl, hr⟩ := CType.norm_long_eq_some h₂
    obtain ⟨rfl, -⟩ := CType.norm_long_eq_some h₃
    obtain ⟨-, hk⟩ := Option.ite_none_left_eq_some.mp hk
    obtain ⟨rfl, -⟩ := CType.norm_long_eq_some hk
    exact ⟨hr.2, hq⟩
  · rintro ⟨hlt, rfl⟩
    unfold kaEnd
    have h₁ : CType.long.sub stop.val start.val
        = some (stop.val - start.val) :=
      CType.norm_of_inRange ⟨by omega, by omega⟩
    have h₂ : CType.long.add (stop.val - start.val) incr.val
        = some (stop.val - start.val + incr.val) :=
      CType.norm_of_inRange ⟨by omega, by omega⟩
    have h₃ : CType.long.sub (stop.val - start.val + incr.val) 1
        = some (stop.val - start.val + incr.val - 1) :=
      CType.norm_of_inRange ⟨by omega, by omega⟩
    have hle := Int.ediv_le_self incr.val
      (a := stop.val - start.val + incr.val - 1) (by omega)
    have h₄ : CType.long.div (stop.val - start.val + incr.val - 1) incr.val
        = some (trips incr.val start.val stop.val : Int) := by
      unfold CType.div
      rw [if_neg (by omega), hq]
      refine CType.norm_of_inRange ⟨by omega, ?_⟩
      rw [← hq, Int.tdiv_eq_ediv_of_nonneg (by omega)]
      omega
    simp only [h₁, h₂, h₃, h₄, Option.bind_eq_bind, Option.bind_some]

/-- The formula rounds a distance that is counted downwards up too far,
unless the last step ends at least two before the next one. -/
theorem round_down_iff {d k : Int} (hk : 0 < k) (hd : 0 < d) :
    (d + k + 1) / k = ceilDiv d k ↔ (d - 1) % k + 2 < k := by
  have hnn : 0 ≤ (d + k - 1) / k := Int.ediv_nonneg (by omega) (Int.le_of_lt hk)
  have hc : (ceilDiv d k : Int) = (d + k - 1) / k := Int.toNat_of_nonneg hnn
  have hmod : (d + k - 1) % k = (d - 1) % k := by
    rw [show d + k - 1 = d - 1 + k by omega, Int.add_emod_right]
  have hdm := Int.mul_ediv_add_emod (d + k - 1) k
  have hr := Int.emod_nonneg (d - 1) (by omega : k ≠ 0)
  have hlt := Int.emod_lt_of_pos (d - 1) hk
  rw [hmod] at hdm
  have hsum : d + k + 1 = (d - 1) % k + 2 + k * ((d + k - 1) / k) := by omega
  rw [hc, hsum, Int.add_mul_ediv_left _ _ (by omega)]
  constructor
  · intro h
    have hz : ((d - 1) % k + 2) / k = 0 := by omega
    rcases Int.lt_or_le ((d - 1) % k + 2) k with hlt' | hge
    · exact hlt'
    · have := Int.ediv_le_ediv hk hge
      rw [Int.ediv_self (by omega)] at this
      omega
  · intro h
    rw [Int.ediv_eq_zero_of_lt (by omega) h]
    omega

/-- The bound that a downward loop is given. -/
theorem kaEnd_down (hi : incr.val < 0) (h : stop.val < start.val) {n : Int}
    (hk : kaEnd start.val stop.val incr.val = some n) :
    start.val - stop.val - incr.val + 1 ≤ 2 ^ 63
      ∧ n = (start.val - stop.val + -incr.val + 1) / -incr.val := by
  obtain ⟨d₁, h₁, hk⟩ := Option.bind_eq_some_iff.mp hk
  obtain ⟨d₂, h₂, hk⟩ := Option.bind_eq_some_iff.mp hk
  obtain ⟨d₃, h₃, hk⟩ := Option.bind_eq_some_iff.mp hk
  obtain ⟨rfl, -⟩ := CType.norm_long_eq_some h₁
  obtain ⟨rfl, -⟩ := CType.norm_long_eq_some h₂
  obtain ⟨rfl, hr⟩ := CType.norm_long_eq_some h₃
  obtain ⟨-, hk⟩ := Option.ite_none_left_eq_some.mp hk
  obtain ⟨rfl, -⟩ := CType.norm_long_eq_some hk
  unfold CType.InRange at hr
  refine ⟨by omega, ?_⟩
  have hneg : stop.val - start.val + incr.val - 1
      = -(start.val - stop.val + -incr.val + 1) := by omega
  rw [hneg, Int.neg_tdiv, ← Int.tdiv_neg, Int.tdiv_eq_ediv_of_nonneg (by omega)]

/-- It is given the number of iterations when the numbers fit. -/
theorem kaEnd_down_of_fits (hi : incr.val < 0) (h : stop.val < start.val)
    (hle : start.val - stop.val - incr.val + 1 ≤ 2 ^ 63)
    (hmod : (start.val - stop.val - 1) % (-incr.val) + 2 < -incr.val) :
    kaEnd start.val stop.val incr.val
      = some (trips incr.val start.val stop.val : Int) := by
  have hq : (stop.val - start.val + incr.val - 1).tdiv incr.val
      = trips incr.val start.val stop.val := by
    have hneg : stop.val - start.val + incr.val - 1
        = -(start.val - stop.val + -incr.val + 1) := by omega
    unfold trips
    rw [if_neg (by omega), ← (round_down_iff (by omega) (by omega)).mpr hmod,
      hneg, Int.neg_tdiv, ← Int.tdiv_neg, Int.tdiv_eq_ediv_of_nonneg (by omega)]
  have hr := Int.emod_nonneg (start.val - stop.val - 1)
    (by omega : -incr.val ≠ 0)
  have hsmall : (trips incr.val start.val stop.val : Int) * 3
      < start.val - stop.val + -incr.val := by
    have hmul : (trips incr.val start.val stop.val : Int) * 3
        ≤ trips incr.val start.val stop.val * -incr.val :=
      Int.mul_le_mul_of_nonneg_left (by omega) (Int.natCast_nonneg _)
    refine Int.lt_of_le_of_lt hmul ?_
    unfold trips
    rw [if_neg (by omega)]
    exact ceilDiv_mul_lt (by omega) (by omega)
  unfold kaEnd
  have h₁ : CType.long.sub stop.val start.val = some (stop.val - start.val) :=
    CType.norm_of_inRange ⟨by omega, by omega⟩
  have h₂ : CType.long.add (stop.val - start.val) incr.val
      = some (stop.val - start.val + incr.val) :=
    CType.norm_of_inRange ⟨by omega, by omega⟩
  have h₃ : CType.long.sub (stop.val - start.val + incr.val) 1
      = some (stop.val - start.val + incr.val - 1) :=
    CType.norm_of_inRange ⟨by omega, by omega⟩
  have h₄ : CType.long.div (stop.val - start.val + incr.val - 1) incr.val
      = some (trips incr.val start.val stop.val : Int) := by
    unfold CType.div
    rw [if_neg (by omega), hq]
    exact CType.norm_of_inRange ⟨by omega, by omega⟩
  simp only [h₁, h₂, h₃, h₄, Option.bind_eq_bind, Option.bind_some]

-- ======== the ranges

theorem inRange_of_le (hn : l.type.InRange (l.start + n * l.step)) (hi : i ≤ n) :
    l.type.InRange (l.start + i * l.step) := by
  refine (start_inRange l).between hn ?_
  have hle : (i : Int) ≤ n := Int.ofNat_le.mpr hi
  rcases Int.le_total 0 l.step with hs | hs
  · have h₁ := Int.mul_le_mul_of_nonneg_right hle hs
    have h₂ := Int.mul_nonneg (Int.natCast_nonneg i) hs
    omega
  · have h₁ := Int.mul_le_mul_of_nonpos_right hle hs
    have h₂ := Int.mul_nonpos_of_nonneg_of_nonpos (Int.natCast_nonneg i) hs
    omega

/-- The compiled loop between two images. -/
theorem compiled_range (hs : l.step ≠ 0) (hn : l.type.InRange (l.start + n * l.step))
    {j : Nat} (hij : i ≤ j) (hj : j ≤ n) :
    l.Compiled (l.start + i * l.step) (l.start + j * l.step)
      ((List.range' i (j - i)).map fun x : Nat => l.start + x * l.step) := by
  have hcast : ∀ m : Nat, ((i + (m + 1) : Nat) : Int) * l.step
      = (i + m : Nat) * l.step + l.step := by
    intro m
    rw [← Nat.add_assoc, Nat.cast_succ, Int.add_mul, Int.one_mul]
  have hon : ∀ x : Nat, goesOn l.step (l.start + j * l.step)
      (l.start + x * l.step) = true ↔ x < j := by
    intro x
    rw [lt_trips_iff hs, trips_mul hs]
  have hr := runs_of_values (n := j - i)
    (goesOn l.step (l.start + j * l.step)) (fun x => l.type.add x l.incr)
    (fun m : Nat => l.start + (i + m : Nat) * l.step)
    (fun m hm => (hon (i + m)).mpr (by omega))
    (fun m hm => by
      have hin := inRange_of_le hn (i := i + (m + 1)) (by omega)
      rw [hcast m, ← Int.add_assoc] at hin
      rw [add_incr_of_inRange hin, hcast m, Int.add_assoc])
    (Bool.eq_false_iff.mpr fun h => by
      have hlt := (hon (i + (j - i))).mp h
      omega)
  rw [List.range'_eq_map_range, List.map_map]
  exact hr

theorem IsCut.le {cs : List (Nat × Nat)} (h : IsCut n cs) {c : Nat × Nat} (hc : c ∈ cs) :
    c.2 ≤ n := by
  have hlt := h.1 c hc
  have hmem : c.2 - 1 ∈ cs.flatMap fun c => List.range' c.1 (c.2 - c.1) := by
    refine List.mem_flatMap.mpr ⟨c, hc, ?_⟩
    rw [List.mem_range'_1]
    omega
  have hn := List.mem_range.mp (h.2.mem_iff.mp hmem)
  omega

/-- The whole range is a cut. -/
theorem isCut_single (h : 0 < n) : IsCut n [(0, n)] := by
  refine ⟨fun c hc => ?_, ?_⟩
  · rw [List.mem_singleton] at hc
    rw [hc]
    exact h
  · rw [List.flatMap_singleton, Nat.sub_zero, ← List.range_eq_range']

/-- The bounds of the ranges of `[0, n)` can be computed. -/
def Images (l : Loop) (n : Nat) : Prop :=
  l.type.InRange (l.start + n * l.step)
    ∧ ∀ i ≤ n, l.image i = some (l.start + i * l.step)

/-- A loop is exact when its images are the values. -/
theorem exact_of_images (hi : l.incr ≠ 0)
    (hn : l.normalised = some (l.count : Int)) (him : l.Images l.count) :
    l.Exact := by
  have hs := step_ne_zero hi
  refine ⟨l.count, _, (values_iff hi _).mpr rfl, hn, ?_, fun cs hcs => ?_⟩
  · refine ForLoop.mapM_some fun i hi' => ?_
    exact him.2 i (Nat.le_of_lt (List.mem_range.mp hi'))
  · refine ⟨cs.map fun c => (List.range' c.1 (c.2 - c.1)).map
      fun x : Nat => l.start + x * l.step, ?_, ?_⟩
    · refine List.forall₂_map_right_iff.mpr
        (List.forall₂_same.mpr fun c hc => ?_)
      have hle := hcs.le hc
      have hlt := Nat.le_of_lt (hcs.1 c hc)
      exact ⟨_, _, him.2 c.1 (Nat.le_trans hlt hle), him.2 c.2 hle,
        compiled_range hs him.1 hlt hle⟩
    · have hperm := hcs.2.map fun x : Nat => l.start + x * l.step
      rw [List.map_flatMap] at hperm
      rwa [← List.flatMap_def]

-- ======== the loops that fit

/-- The test of the entry points. -/
theorem noIteration_iff {start stop incr : Int} :
    noIteration start stop incr = true
      ↔ (0 < incr ∧ stop ≤ start) ∨ (incr < 0 ∧ start ≤ stop) := by
  unfold noIteration
  simp only [Bool.or_eq_true, Bool.and_eq_true, decide_eq_true_eq]

/-- A loop that the test stops has no iteration. -/
theorem trips_of_noIteration {start stop incr : Int}
    (h : noIteration start stop incr = true) : trips incr start stop = 0 := by
  unfold trips
  rcases (noIteration_iff).mp h with ⟨hp, hle⟩ | ⟨hn, hle⟩
  · rw [if_pos hp, ceilDiv_eq_zero_of_nonpos hp (by omega)]
  · rw [if_neg (by omega), ceilDiv_eq_zero_of_nonpos (by omega) (by omega)]

theorem iterates_cases {start stop incr : Int} (hi : incr ≠ 0)
    (h : ¬ noIteration start stop incr = true) :
    (0 < incr ∧ start < stop) ∨ (incr < 0 ∧ stop < start) := by
  rw [noIteration_iff] at h
  omega

section

variable (hi : incr.val ≠ 0) (h : Fits (.long start stop incr))
include hi h

/-- A signed loop that fits is normalised to its number of iterations. -/
theorem Fits.normalised_long :
    normalised (.long start stop incr)
      = some (trips incr.val start.val stop.val : Int) := by
  show (if noIteration start.val stop.val incr.val = true then some 0 else _) = _
  by_cases hno : noIteration start.val stop.val incr.val = true
  · rw [if_pos hno, trips_of_noIteration hno]
    rfl
  · rw [if_neg hno]
    rcases iterates_cases hi hno with ⟨hp, hlt⟩ | ⟨hn, hlt⟩
    · exact (kaEnd_up hp hlt _).mpr ⟨h.1 hp hlt, rfl⟩
    · exact kaEnd_down_of_fits hn hlt (h.2.1 hn hlt).1 (h.2.1 hn hlt).2

theorem Fits.mul_inRange :
    CType.InRange .long
      (trips incr.val start.val stop.val * incr.val) := by
  by_cases hno : noIteration start.val stop.val incr.val = true
  · rw [trips_of_noIteration hno, Nat.cast_zero, Int.zero_mul]
    decide
  · rcases iterates_cases hi hno with ⟨hp, hlt⟩ | ⟨hn, hlt⟩
    · have hmul := ceilDiv_mul_lt (d := stop.val - start.val) hp (by omega)
      have hfit := h.1 hp hlt
      have hnn := Int.mul_nonneg
        (Int.natCast_nonneg (ceilDiv (stop.val - start.val) incr.val))
        (Int.le_of_lt hp)
      unfold trips
      rw [if_pos hp]
      unfold CType.InRange
      omega
    · have hmul := ceilDiv_mul_lt (s := -incr.val)
        (d := start.val - stop.val) (by omega) (by omega)
      have hfit := (h.2.1 hn hlt).1
      have hnn := Int.mul_nonneg
        (Int.natCast_nonneg (ceilDiv (start.val - stop.val) (-incr.val)))
        (by omega : 0 ≤ -incr.val)
      unfold trips
      rw [if_neg (by omega)]
      rw [Int.mul_neg] at hmul hnn
      unfold CType.InRange
      omega

/-- Its images do not overflow. -/
theorem Fits.images_long :
    Images (.long start stop incr) (trips incr.val start.val stop.val) := by
  have hlast : (Loop.long start stop incr).type.InRange
      ((Loop.long start stop incr).start
        + trips incr.val start.val stop.val * (Loop.long start stop incr).step) :=
    h.2.2
  refine ⟨hlast, fun i hle => image_eq (inRange_of_le hlast hle) fun _ => ?_⟩
  have h₀ : CType.InRange .long 0 := by decide
  refine h₀.between (h.mul_inRange hi) ?_
  have hcast : (i : Int) ≤ trips incr.val start.val stop.val :=
    Int.ofNat_le.mpr hle
  show (0 ≤ i * incr.val ∧ _) ∨ (_ ∧ i * incr.val ≤ 0)
  rcases Int.le_total 0 incr.val with hp | hn
  · exact .inl ⟨Int.mul_nonneg (Int.natCast_nonneg i) hp,
      Int.mul_le_mul_of_nonneg_right hcast hp⟩
  · exact .inr ⟨Int.mul_le_mul_of_nonpos_right hcast hn,
      Int.mul_nonpos_of_nonneg_of_nonpos (Int.natCast_nonneg i) hn⟩

end

/-- A quotient rounded up, from a sum that may have wrapped: it is right
iff the sum has not. -/
theorem wrapped_div_iff {d s : Int} (hs : 0 < s) (hs' : s < 2 ^ 64)
    (hd : 0 < d) (hd' : d < 2 ^ 64) :
    (d + s - 1) % 2 ^ 64 / s = ceilDiv d s ↔ d + s - 1 < 2 ^ 64 := by
  have hc : (ceilDiv d s : Int) = (d + s - 1) / s :=
    Int.toNat_of_nonneg (Int.ediv_nonneg (by omega) (Int.le_of_lt hs))
  constructor
  · intro h
    by_contra hge
    have hmod : (d + s - 1) % 2 ^ 64 = d + s - 1 - 2 ^ 64 := by omega
    have hmul := Int.ediv_mul_le (d + s - 1 - 2 ^ 64) (by omega : s ≠ 0)
    have hle := le_ceilDiv_mul (d := d) hs
    rw [hmod] at h
    rw [h] at hmul
    omega
  · intro h
    rw [Int.emod_eq_of_lt (by omega) h, hc]

/-- An unsigned loop is counted right iff it has an iteration and the sum
does not wrap. -/
theorem ull_normalised_iff {start stop incr : BitVec 64} (h : incr.toNat ≠ 0) :
    normalised (.ull up start stop incr)
        = some (count (.ull up start stop incr) : Int)
      ↔ 0 < distance up start stop
        ∧ distance up start stop + stride up incr - 1 < 2 ^ 64 := by
  obtain ⟨hs, hs'⟩ := stride_bounds up h
  obtain ⟨-, hd'⟩ := distance_bounds up start stop
  have hn : normalised (.ull up start stop incr)
      = if (distance up start stop + stride up incr - 1) % 2 ^ 64
          / stride up incr = 0 then none
        else some ((distance up start stop + stride up incr - 1) % 2 ^ 64
          / stride up incr) := by
    show (kaEndUll up start.toNat stop.toNat incr.toNat).bind _ = _
    rw [kaEndUll_eq h]
    rfl
  rw [ull_count h, hn, Option.ite_none_left_eq_some, Option.some_inj]
  constructor
  · rintro ⟨hne, hq⟩
    have hpos : 0 < distance up start stop := by
      by_contra hneg
      rw [hq, ceilDiv_eq_zero_of_nonpos hs (Int.not_lt.mp hneg)] at hne
      exact hne rfl
    exact ⟨hpos, (wrapped_div_iff hs hs' hpos hd').mp hq⟩
  · rintro ⟨hpos, hlt⟩
    have hq := (wrapped_div_iff hs hs' hpos hd').mpr hlt
    have hc := ceilDiv_pos hs hpos
    exact ⟨by omega, hq⟩

/-- A loop that fits is exact. -/
theorem Fits.exact (hi : l.incr ≠ 0) (h : l.Fits) : l.Exact := by
  cases l with
  | long start stop incr =>
    exact exact_of_images hi (h.normalised_long hi) (h.images_long hi)
  | ull up start stop incr =>
    have hi' : incr.toNat ≠ 0 := fun h₀ => hi (congrArg Int.ofNat h₀)
    have hlast : (Loop.ull up start stop incr).type.InRange
        ((Loop.ull up start stop incr).start
          + count (.ull up start stop incr)
            * (Loop.ull up start stop incr).step) := h.2.2
    refine exact_of_images hi ((ull_normalised_iff hi').mpr ⟨h.1, h.2.1⟩)
      ⟨hlast, fun i hle => image_eq (inRange_of_le hlast hle) fun ht => ?_⟩
    cases ht

/-- An exact loop is normalised to the right number. -/
theorem Exact.whole (hi : l.incr ≠ 0) (h : l.Exact) :
    l.normalised = some (l.count : Int)
      ∧ (0 < l.count → ∃ istart iend, l.image 0 = some istart
        ∧ l.image l.count = some iend
        ∧ ∃ vals, l.Compiled istart iend vals ∧ vals.length = l.count) := by
  obtain ⟨n, vals, hv, hn, hmap, hcs⟩ := h
  have hvals := (values_iff hi vals).mp hv
  have hlen : vals.length = l.count := by
    rw [hvals, List.length_map, List.length_range]
  have hnc : n = l.count := by
    rw [← hlen, ForLoop.length_of_mapM hmap, List.length_range]
  subst hnc
  refine ⟨hn, fun hpos => ?_⟩
  obtain ⟨vss, hex, hperm⟩ := hcs _ (isCut_single hpos)
  obtain ⟨vals', hone, rfl⟩ : ∃ vals', l.Executes (0, l.count) vals'
      ∧ vss = [vals'] := by
    cases hex with
    | cons h₁ hnil =>
      cases hnil
      exact ⟨_, h₁, rfl⟩
  obtain ⟨istart, iend, h₀, h₁, hc⟩ := hone
  refine ⟨istart, iend, h₀, h₁, vals', hc, ?_⟩
  have hl := hperm.length_eq
  rw [List.flatten_singleton] at hl
  exact hl.trans hlen

/-- An exact signed loop fits. -/
theorem Exact.fits_long (hi : incr.val ≠ 0) (h : Exact (.long start stop incr)) :
    Fits (.long start stop incr) := by
  have hinc : (Loop.long start stop incr).incr ≠ 0 := hi
  obtain ⟨hn, hwhole⟩ := h.whole hinc
  have hn : (if noIteration start.val stop.val incr.val = true then some 0
      else kaEnd start.val stop.val incr.val)
      = some (trips incr.val start.val stop.val : Int) := hn
  refine ⟨fun hp hlt => ?_, fun hneg hlt => ?_, ?_⟩
  · rw [if_neg (by rw [noIteration_iff]; omega)] at hn
    exact ((kaEnd_up hp hlt _).mp hn).1
  · rw [if_neg (by rw [noIteration_iff]; omega)] at hn
    obtain ⟨hle, hq⟩ := kaEnd_down hneg hlt hn
    refine ⟨hle, (round_down_iff (by omega) (by omega)).mp ?_⟩
    rw [← hq]
    unfold trips
    rw [if_neg (by omega)]
  · rcases Nat.eq_zero_or_pos (trips incr.val start.val stop.val) with h₀ | hpos
    · rw [h₀, Nat.cast_zero, Int.zero_mul, Int.add_zero]
      exact start.inRange
    · obtain ⟨_, iend, -, himg, -⟩ := hwhole hpos
      exact (CType.norm_long_eq_some (norm_of_image himg)).2

/-- Where the bound past the last iteration wraps, the loop that the
compiler has made for the whole range does not start. -/
theorem Exact.last_inRange {start stop incr : BitVec 64} (hi : incr.toNat ≠ 0)
    (h : Exact (.ull up start stop incr)) (hpos : 0 < distance up start stop)
    (hle : distance up start stop + stride up incr - 1 < 2 ^ 64) :
    CType.InRange .ull (Loop.start (.ull up start stop incr)
      + count (.ull up start stop incr) * step (.ull up start stop incr)) := by
  have hinc : (Loop.ull up start stop incr).incr ≠ 0 := fun h₀ =>
    hi (Int.ofNat_eq_zero.mp h₀)
  have hwhole := (h.whole hinc).2
  have hstart : CType.InRange .ull (Loop.start (.ull up start stop incr)) :=
    start_inRange (.ull up start stop incr)
  have hstep := ull_step up start stop incr
  rw [ull_count hi] at hwhole ⊢
  obtain ⟨hs, hs'⟩ := stride_bounds up hi
  obtain ⟨istart, iend, h₀, hN, vals, hc, hlen⟩ :=
    hwhole (ceilDiv_pos hs hpos)
  have hfirst : istart = Loop.start (.ull up start stop incr) := by
    have hn := norm_of_image h₀
    rw [Nat.cast_zero, Int.zero_mul, Int.add_zero,
      CType.norm_of_inRange (start_inRange _)] at hn
    exact (Option.some.inj hn).symm
  have hlast : (Loop.start (.ull up start stop incr)
      + ceilDiv (distance up start stop) (stride up incr)
        * step (.ull up start stop incr)) % 2 ^ 64 = iend :=
    Option.some.inj (norm_of_image hN)
  have hmul := ceilDiv_mul_lt hs hpos
  have hge := le_ceilDiv_mul (d := distance up start stop) hs
  have hp := ceilDiv_pos hs hpos
  by_contra hout
  -- the loop for the whole range does not start
  have hstop : goesOn (step (.ull up start stop incr)) iend istart = false := by
    rw [hfirst, hstep]
    rw [hstep] at hlast hout
    unfold CType.InRange at hout hstart
    cases up with
    | true =>
      simp only [if_true] at hlast hout ⊢
      unfold goesOn
      rw [if_pos hs, decide_eq_false_iff_not]
      omega
    | false =>
      simp only [Bool.false_eq_true, if_false, Int.mul_neg] at hlast hout ⊢
      unfold goesOn
      rw [if_neg (by omega), decide_eq_false_iff_not]
      omega
  have hnil := hc.unique (runs_of_not hstop)
  rw [hnil, List.length_nil] at hlen
  omega

/-- Every exact loop fits. -/
theorem Exact.fits (hi : l.incr ≠ 0) (h : l.Exact) : l.Fits := by
  cases l with
  | long start stop incr => exact h.fits_long hi
  | ull up start stop incr =>
    have hi' : incr.toNat ≠ 0 := fun h₀ => hi (congrArg Int.ofNat h₀)
    obtain ⟨h₁, h₂⟩ := (ull_normalised_iff hi').mp (h.whole hi).1
    exact ⟨h₁, h₂, h.last_inRange hi' h₁ h₂⟩

-- ======== the statement

/-- The normalisation of a loop is exact iff the loop fits. -/
theorem exact_iff_fits (l : Loop) (h : l.incr ≠ 0) : l.Exact ↔ l.Fits :=
  ⟨fun he => he.fits h, fun hf => hf.exact h⟩

/-- `for (i = 0; i < 10; i += 3)` -/
def upBy3 : Loop :=
  .long ⟨0, by decide⟩ ⟨10, by decide⟩ ⟨3, by decide⟩

theorem exact_iff_fits_upBy3 : upBy3.Exact :=
  (exact_iff_fits upBy3 (by decide)).mpr (by
    refine ⟨fun _ _ => by decide, fun h => absurd h (by decide), by decide⟩)

/-- `for (i = 10; i > 0; --i)` -/
def countdown : Loop :=
  .long ⟨10, by decide⟩ ⟨0, by decide⟩ ⟨-1, by decide⟩

/-- It is given twelve iterations: 0 and -1 are executed too. -/
theorem countdown_not_exact :
    countdown.normalised = some 12 ∧ countdown.count = 10 ∧ ¬ countdown.Exact := by
  refine ⟨by decide, by decide, fun h => ?_⟩
  have hf := h.fits (by decide)
  exact absurd (hf.2.1 (by decide) (by decide)).2 (by decide)

end Loop

end XKaapi.Omp
