/-
When a block-cyclic distribution distributes the iterations.

`exact` is what `_kaapi_kernel2user` computes where its `int` hold the
three parts. Under `Cyclic` it permutes the iterations, as the identity
or as a transposition of blocks, and blocks are cut where they end
(`Cyclic.distributes`).

Conversely, a distribution with two or more locations that works has these
blocks and this many iterations: any others leave an index out, move it
out of place, or give it to two.
-/
import XKaapi.Foreach.Datadist
import XKaapi.Lib.ForLoop

namespace XKaapi.Foreach

open Transpose ForLoop

variable {B L N i b : Nat}

-- ======== machine words

theorem toInt32_of_lt {x : Nat} (h : x < 2 ^ 31) : toInt32 (x : Int) = x := by
  unfold toInt32
  apply Int.bmod_eq_of_le
  · omega
  · omega

theorem toInt32_lt (x : Int) : toInt32 x < 2 ^ 31 := by
  have h := @Int.bmod_lt x (2 ^ 32) (by decide)
  unfold toInt32
  omega

theorem toUlong_natCast (h : i < 2 ^ 64) : toUlong (i : Int) = i := by
  unfold toUlong
  omega

/-- The user index, where the words are wide enough. -/
def exact (B L q i : Nat) : Nat := i / q * B + i % q / B * L * B + i % B

theorem addInt_natCast {x y : Nat} :
    addInt (x : Int) (y : Int)
      = if x + y < 2 ^ 31 then some ((x + y : Nat) : Int) else none := by
  unfold addInt
  by_cases h : x + y < 2 ^ 31
  · rw [if_pos h, if_pos (by omega), Int.natCast_add]
  · rw [if_neg h, if_neg (by omega)]

/-- The index as exact arithmetic gives it, when nothing wraps. -/
theorem kernel2user_exact (hq : N / L ≠ 0) (hB : B ≠ 0) (hi : i < 2 ^ 64)
    (hthread : i / (N / L) * B < 2 ^ 31)
    (hlocal : i % (N / L) / B * L * B < 2 ^ 31) (hoffset : i % B < 2 ^ 31) :
    kernel2user i B L N = if exact B L (N / L) i < 2 ^ 31
      then some (exact B L (N / L) i : Int) else none := by
  have hmod : i - i / (N / L) * (N / L) = i % (N / L) := by
    have := Nat.div_add_mod' i (N / L)
    omega
  unfold kernel2user
  simp only [toUlong_natCast hi, hmod]
  rw [if_neg (by tauto), toInt32_of_lt hthread, toInt32_of_lt hlocal,
    toInt32_of_lt hoffset, addInt_natCast]
  unfold exact
  split
  next hsum =>
    rw [Option.bind_some, addInt_natCast]
  next hsum =>
    rw [if_neg (by omega)]
    rfl

/-- An index is below 2^31. -/
theorem kernel2user_lt {v : Int} (h : kernel2user i B L N = some v) :
    v < 2 ^ 31 := by
  unfold kernel2user at h
  simp only at h
  split at h
  next => cases h
  next =>
    obtain ⟨sum, -, hsum⟩ := Option.bind_eq_some_iff.mp h
    unfold addInt at hsum
    split at hsum
    next hle =>
      cases hsum
      exact hle.2
    next => cases hsum

-- ======== what is sufficient

/-- A distribution that fits is the identity or a permutation of blocks. -/
theorem exact_cases (hB : 0 < B) (hL : 0 < L)
    (h : L = 1 ∨ N / L = B ∨ B * L ∣ N) :
    (∀ i < N, exact B L (N / L) i = i)
      ∨ ∃ m, N = B * (m * L)
        ∧ ∀ i, exact B L (N / L) i = onBlocks B (transpose m L) i := by
  rcases h with rfl | hq | ⟨m, rfl⟩
  · refine .inl fun i hi => ?_
    unfold exact
    rw [Nat.div_one, Nat.div_eq_of_lt hi, Nat.mod_eq_of_lt hi, Nat.zero_mul,
      Nat.zero_add, Nat.mul_one]
    exact Nat.div_add_mod' i B
  · refine .inl fun i hi => ?_
    unfold exact
    rw [hq, Nat.div_eq_of_lt (Nat.mod_lt i hB), Nat.zero_mul, Nat.zero_mul,
      Nat.add_zero]
    exact Nat.div_add_mod' i B
  · refine .inr ⟨m, ?_, fun i => ?_⟩
    · rw [Nat.mul_assoc, Nat.mul_comm L m]
    · have hq : B * L * m / L = B * m := by
        rw [Nat.mul_right_comm, Nat.mul_div_cancel _ hL]
      unfold exact onBlocks transpose
      rw [hq, Nat.mod_mul_right_div_self, ← Nat.div_div_eq_div_mul,
        Nat.add_mul, Nat.add_comm (i / B / m * B)]

variable {f : Nat → Nat} {e : Nat} {sgrain : Int}

/-- It visits each index once. -/
theorem exact_bijOn (hB : 0 < B) (hL : 0 < L) (hN : 0 < N)
    (h : L = 1 ∨ N / L = B ∨ B * L ∣ N) :
    Set.BijOn (exact B L (N / L)) (Set.Iio N) (Set.Iio N) := by
  rcases exact_cases hB hL h with hid | ⟨m, hm, hmap⟩
  · refine bijOn_of_injOn (fun i hi => ?_) fun i hi j hj hij => ?_
    · rw [hid i hi]
      exact hi
    · rwa [hid i hi, hid j hj] at hij
  · have hmpos : 0 < m := by
      rcases Nat.eq_zero_or_pos m with rfl | hpos
      · rw [Nat.zero_mul, Nat.mul_zero] at hm
        omega
      · exact hpos
    rw [funext hmap, hm]
    exact bijOn_of_injOn
      (fun i hi => onBlocks_lt hB (fun x hx => transpose_lt hmpos hx) hi)
      fun i hi j hj hij => onBlocks_injOn hB
        (fun x hx y hy hxy => transpose_injOn hx hy hxy) hi hj hij

/-- Within a block the indices follow each other. -/
theorem exact_add (hB : 0 < B) (hL : 0 < L)
    (h : L = 1 ∨ N / L = B ∨ B * L ∣ N) {j : Nat} (hj : b + j < N)
    (hblock : (b + j) / B = b / B) :
    exact B L (N / L) (b + j) = exact B L (N / L) b + j := by
  rcases exact_cases hB hL h with hid | ⟨m, -, hmap⟩
  · rw [hid _ hj, hid b (by omega)]
  · rw [hmap, hmap, onBlocks_add hblock]

/-- Nothing wraps below 2^31 indices. -/
theorem kernel2user_of_cyclic (hB : 0 < B) (hL : 0 < L) (hLN : L ≤ N)
    (hN : N ≤ 2 ^ 31) (h : L = 1 ∨ N / L = B ∨ B * L ∣ N) (hi : i < N) :
    kernel2user i B L N = some (exact B L (N / L) i : Int) := by
  have hlt : exact B L (N / L) i < N :=
    (exact_bijOn hB hL (by omega) h).mapsTo hi
  have hsum : exact B L (N / L) i
      = i / (N / L) * B + i % (N / L) / B * L * B + i % B := rfl
  rw [kernel2user_exact (Nat.ne_of_gt (Nat.div_pos hLN hL)) (Nat.ne_of_gt hB)
    (by omega) (by omega) (by omega) (by omega), if_pos (by omega)]

theorem cut_eq {x : Int} (he : e < 2 ^ 63) :
    (if (e : Int) < toInt32 x then toInt32 (e : Int) else toInt32 x)
      = min (toInt32 x) e := by
  have h31 := toInt32_lt x
  split
  next hlt =>
    rw [toInt32_of_lt (by omega)]
    exact (min_eq_right (Int.le_of_lt hlt)).symm
  next hlt => exact (min_eq_left (Int.not_lt.mp hlt)).symm

/-- What a pop with a distribution returns. -/
theorem pop_eq {stop : Nat} {u : Nat} (hB : 0 < B) (hb : b < e) (he : e < 2 ^ 63)
    (hlimit : (stop : Int) = min (b + sgrain) (min (toInt32 (blockEnd B b)) e))
    (hstop : b < stop) (hfst : kernel2user b B L N = some (u : Int))
    (hlst : kernel2user ((stop : Int) - 1) B L N
      = some ((u + (stop - b) : Nat) - 1 : Int)) :
    popWithdatadistribution (.bloccyclic B L) N (queueOf (b, e)) sgrain
      = some (queueOf (stop, e), some ((u : Int), ((u + (stop - b) : Nat) : Int)))
    := by
  have hul : toUlong (b : Int) = b := toUlong_natCast (by omega)
  unfold popWithdatadistribution queueOf
  simp only [hul]
  rw [if_pos (by omega), if_neg (Nat.ne_of_gt hB)]
  rw [show ((b / B * B + B : Nat) : Int) = (blockEnd B b : Int) from rfl,
    cut_eq he]
  have hst : (if (b : Int) + sgrain < min (toInt32 (blockEnd B b)) e
      then (b : Int) + sgrain else min (toInt32 (blockEnd B b)) e) = stop := by
    rw [hlimit]
    exact (min_def_lt _ _).symm
  rw [hst, hfst, hlst]
  simp only [Option.bind_some, Option.map_some]
  rw [if_neg (by omega), Int.sub_add_cancel]

theorem exists_stop {t : Nat} (hb : b < e) (ht : b < t) (hs : 1 ≤ sgrain) :
    ∃ n : Nat, ((b + n : Nat) : Int) = min (b + sgrain) (min (t : Int) e)
      ∧ 0 < n ∧ b + n ≤ e ∧ n ≤ sgrain ∧ b + n ≤ t :=
  ⟨(min (b + sgrain) (min (t : Int) e) - b).toNat, by omega, by omega, by omega,
    by omega, by omega⟩

theorem min_cut {x y : Int} (h : min x N = min y N) (he : e ≤ N) : min x e = min y e := by
  omega

/-- The pop takes what is left of a block, or of the queue, or a grain. -/
theorem pop_of_cyclic (hB : 0 < B) (hL : 0 < L) (hLN : L ≤ N) (hN : N ≤ 2 ^ 31)
    (h : L = 1 ∨ N / L = B ∨ B * L ∣ N)
    (hlimit : ∀ b < N, min (toInt32 (blockEnd B b)) N = min (blockEnd B b : Int) N)
    (hb : b < e) (he : e ≤ N) (hs : 1 ≤ sgrain) :
    ∃ n u : Nat, 0 < n ∧ b + n ≤ e ∧ n ≤ sgrain
      ∧ popWithdatadistribution (.bloccyclic B L) N (queueOf (b, e)) sgrain
        = some (queueOf (b + n, e), some ((u : Int), ((u + n : Nat) : Int)))
      ∧ ∀ j < n, userOf (.bloccyclic B L) N (b + j)
        = some ((u + j : Nat) : Int) := by
  have hend : b < blockEnd B b := by
    have hdiv := Nat.div_add_mod' b B
    have hmod := Nat.mod_lt b hB
    unfold blockEnd
    omega
  have hlim := hlimit b (by omega)
  obtain ⟨n, hn, hpos, hne, hns, hnb⟩ := exists_stop hb hend hs
  have hcut := min_cut hlim he
  -- the user indices of the part of the block
  have huser : ∀ j < n, kernel2user ((b + j : Nat) : Int) B L N
      = some ((exact B L (N / L) b + j : Nat) : Int) := by
    intro j hj
    have hblock : (b + j) / B = b / B := by
      refine Nat.div_eq_of_lt_le ?_ ?_
      · have hdiv := Nat.div_mul_le_self b B
        omega
      · rw [Nat.succ_mul]
        show b + j < blockEnd B b
        omega
    rw [kernel2user_of_cyclic hB hL hLN hN h (by omega),
      exact_add hB hL h (by omega) hblock]
  have hfst := huser 0 (by omega)
  have hlst := huser (n - 1) (by omega)
  have hpop := pop_eq (u := exact B L (N / L) b) hB hb (by omega)
    (hn.trans (congrArg (min _) hcut.symm)) (by omega) hfst (by
      rw [show (((b + n : Nat) : Int) - 1) = ((b + (n - 1) : Nat) : Int) by omega,
        hlst]
      exact congrArg some (by omega))
  rw [Nat.add_sub_cancel_left] at hpop
  refine ⟨n, exact B L (N / L) b, by omega, by omega, by omega, hpop,
    fun j hj => ?_⟩
  exact huser j hj

section drain

variable {dist : Datadist} {f : Nat → Nat} {sgrain : Int}

/-- The fields `bij` and `pop` of a distribution, for one grain. -/
structure Pops (dist : Datadist) (N : Nat) (sgrain : Int) (f : Nat → Nat) :
    Prop where
  user : ∀ i < N, userOf dist N i = some (f i : Int)
  pop : ∀ b e : Nat, b < e → e ≤ N →
    ∃ n u : Nat, 0 < n ∧ b + n ≤ e ∧ n ≤ sgrain
      ∧ popWithdatadistribution dist N (queueOf (b, e)) sgrain
        = some (queueOf (b + n, e), some ((u : Int), ((u + n : Nat) : Int)))
      ∧ ∀ j < n, userOf dist N (b + j) = some ((u + j : Nat) : Int)

theorem iterations_eq {n u : Nat} (h : ∀ j < n, f (b + j) = u + j) :
    iterations (u : Int) ((u + n : Nat) : Int)
      = (List.range' b n).map fun i => (f i : Int) := by
  have hlen : (((u + n : Nat) : Int) - (u : Int)).toNat = n := by omega
  unfold iterations
  rw [hlen, List.range'_eq_map_range, List.map_map]
  refine List.map_congr_left fun j hj => ?_
  show (u : Int) + (j : Int) = (f (b + j) : Int)
  rw [h j (List.mem_range.mp hj), Int.natCast_add]

/-- The pops of a queue visit its range in order. -/
theorem Pops.drain (h : Pops dist N sgrain f) {e : Nat} (he : e ≤ N) (fuel : Nat)
    (hfuel : e - b < fuel) :
    Foreach.drain dist N sgrain fuel (queueOf (b, e))
      = some ((List.range' b (e - b)).map fun i => (f i : Int)) := by
  induction fuel generalizing b with
  | zero => omega
  | succ fuel ih =>
    unfold Foreach.drain
    by_cases hb : b < e
    · obtain ⟨n, u, hpos, hne, -, hpop, huser⟩ := h.pop b e hb he
      have hf : ∀ j < n, f (b + j) = u + j := by
        intro j hj
        have hu := (h.user (b + j) (by omega)).symm.trans (huser j hj)
        exact Int.ofNat.inj (Option.some.inj hu)
      have hsplit : List.range' b (e - b)
          = List.range' b n ++ List.range' (b + n) (e - (b + n)) := by
        rw [List.range'_append_1, show n + (e - (b + n)) = e - b by omega]
      rw [if_neg (show ¬ (queueOf (b, e)).liEnd ≤ (queueOf (b, e)).liBeg from
        Int.not_le.mpr (Int.ofNat_lt.mpr hb)), hpop]
      simp only [Option.bind_some]
      rw [ih (by omega), Option.map_some, iterations_eq hf, hsplit,
        List.map_append]
    · rw [if_pos (show (queueOf (b, e)).liEnd ≤ (queueOf (b, e)).liBeg from
        Int.ofNat_le.mpr (Nat.le_of_not_lt hb)),
        show e - b = 0 by omega]
      rfl

theorem range_map_perm (hf : Set.BijOn f (Set.Iio N) (Set.Iio N)) :
    ((List.range N).map f).Perm (List.range N) := by
  have hnodup : ((List.range N).map f).Nodup := by
    refine List.Nodup.map_on (fun x hx y hy hxy => ?_) List.nodup_range
    exact hf.injOn (List.mem_range.mp hx) (List.mem_range.mp hy) hxy
  rw [List.perm_ext_iff_of_nodup hnodup List.nodup_range]
  intro v
  rw [List.mem_map, List.mem_range]
  constructor
  · intro h
    obtain ⟨i, hi, rfl⟩ := h
    exact hf.mapsTo (List.mem_range.mp hi)
  · intro hv
    obtain ⟨i, hi, rfl⟩ := hf.surjOn hv
    exact ⟨i, List.mem_range.mpr hi, rfl⟩

/-- The pops of all queues visit each index once. -/
theorem Pops.seen (h : Pops dist N sgrain f)
    (hf : Set.BijOn f (Set.Iio N) (Set.Iio N)) {queues : List (Nat × Nat)}
    (hcut : (queues.flatMap fun r => List.range' r.1 (r.2 - r.1)).Perm
      (List.range N)) :
    ∃ seen, queues.mapM
        (fun r => Foreach.drain dist N sgrain (r.2 - r.1 + 1) (queueOf r))
          = some seen
      ∧ seen.flatten.Perm ((List.range N).map Int.ofNat) := by
  refine ⟨queues.map fun r => (List.range' r.1 (r.2 - r.1)).map fun i =>
    (f i : Int),
    mapM_some fun r hr => ?_, ?_⟩
  · by_cases hlt : r.1 < r.2
    · have hmem : r.2 - 1 ∈ List.range N := by
        refine hcut.subset (List.mem_flatMap.mpr ⟨r, hr, ?_⟩)
        rw [List.mem_range'_1]
        omega
      rw [List.mem_range] at hmem
      exact h.drain (by omega) _ (by omega)
    · unfold Foreach.drain
      rw [if_pos (show (queueOf r).liEnd ≤ (queueOf r).liBeg from
        Int.ofNat_le.mpr (Nat.le_of_not_lt hlt)), show r.2 - r.1 = 0 by omega]
      rfl
  · rw [← List.flatMap_def, ← List.map_flatMap]
    refine (hcut.map _).trans ?_
    have hmap : (List.range N).map (fun i => (f i : Int))
        = ((List.range N).map f).map Int.ofNat := by
      rw [List.map_map]
      rfl
    rw [hmap]
    exact (range_map_perm hf).map _

end drain

/-- A cyclic distribution that fits distributes. -/
theorem Cyclic.distributes (hB : 0 < B) (hL : 0 < L) (h : Cyclic B L N) :
    Distributes (.bloccyclic B L) N := by
  rcases h with rfl | ⟨hLN, hN, hcases, hlimit⟩
  · refine ⟨⟨id, fun i hi => absurd hi (Nat.not_lt_zero i), ?_⟩,
      fun b e _ hb he => by omega, fun queues sgrain hs hfit hcut => ?_⟩
    · exact Set.bijOn_id _
    · exact Pops.seen (f := id) ⟨fun i hi => absurd hi (Nat.not_lt_zero i),
        fun b e hb he => by omega⟩ (Set.bijOn_id _) hcut
  · have hbij := exact_bijOn hB hL (by omega) hcases
    have huser : ∀ i < N, userOf (.bloccyclic B L) N i
        = some (exact B L (N / L) i : Int) :=
      fun i hi => kernel2user_of_cyclic hB hL hLN hN hcases hi
    refine ⟨⟨exact B L (N / L), huser, hbij⟩,
      fun b e sgrain hb he hs _ =>
        pop_of_cyclic hB hL hLN hN hcases hlimit hb he hs,
      fun queues sgrain hs hfit hcut => ?_⟩
    exact Pops.seen ⟨huser, fun b e hb he =>
      pop_of_cyclic hB hL hLN hN hcases hlimit hb he hs⟩ hbij hcut

-- ======== what is necessary

section rows

variable {q t r : Nat}

theorem exact_row (hr : r < q) :
    exact B L q (t * q + r) = t * B + r / B * L * B + (t * q + r) % B := by
  have hq : 0 < q := Nat.zero_lt_of_lt hr
  unfold exact
  rw [Nat.add_comm (t * q), Nat.add_mul_div_right _ _ hq,
    Nat.add_mul_mod_self_right, Nat.div_eq_of_lt hr, Nat.mod_eq_of_lt hr,
    Nat.zero_add]

theorem exact_second (hr : B + r < q) (hrB : r < B) :
    exact B L q (B + r) = L * B + r := by
  have hrow := exact_row (B := B) (L := L) (t := 0) hr
  rw [Nat.zero_mul, Nat.zero_add, Nat.zero_mul, Nat.zero_add,
    Nat.add_mod_left, Nat.mod_eq_of_lt hrB, Nat.add_div_left _ (by omega),
    Nat.div_eq_of_lt hrB, Nat.one_mul] at hrow
  exact hrow

/-- Past the last full row the indices are beyond. -/
theorem exact_past (hr : r < q) (hrB : r < B) :
    exact B L q (q * L + r) = L * B + (q * L + r) % B := by
  have hrow := exact_row (B := B) (L := L) (t := L) hr
  rw [Nat.div_eq_of_lt hrB, Nat.zero_mul, Nat.zero_mul, Nat.add_zero,
    Nat.mul_comm L q] at hrow
  exact hrow

/-- Blocks that are not whole: the last piece of a location is rotated,
and an index of the first one is left out. -/
theorem dvd_of_surjOn (hB : 0 < B) (hq : 0 < q) (hL : 2 ≤ L)
    (hsurj : Set.SurjOn (exact B L q) (Set.Iio (q * L)) (Set.Iio (q * L))) :
    B ∣ q := by
  by_contra hdvd
  have he : q % B ≠ 0 := fun h0 => hdvd (Nat.dvd_of_mod_eq_zero h0)
  have hdm := Nat.div_add_mod' q B
  have hv : q / B * L * B + q % B < q * L := by
    have hqL : q * L = q / B * L * B + q % B * L := by
      conv_lhs => rw [← hdm]
      rw [Nat.add_mul, Nat.mul_right_comm]
    have hlt : q % B * 2 ≤ q % B * L := Nat.mul_le_mul_left _ hL
    omega
  obtain ⟨i, hi, heq⟩ := hsurj hv
  have ht : i / q < L := Nat.div_lt_of_lt_mul hi
  have hsum : (i / q + i % q / B * L) * B + i % B = (q / B * L) * B + q % B := by
    unfold exact at heq
    rw [Nat.add_mul]
    exact heq
  have hmod : i % B = q % B := by
    have h := congrArg (· % B) hsum
    simp only [Nat.mul_add_mod_self_right, Nat.mod_mod] at h
    exact h
  rw [hmod] at hsum
  have hrow : i / q + i % q / B * L = q / B * L :=
    Nat.eq_of_mul_eq_mul_right hB (Nat.add_right_cancel hsum)
  have hloc : i / q = 0 := by
    have h := congrArg (· % L) hrow
    simp only [Nat.add_mul_mod_self_right, Nat.mod_eq_of_lt ht,
      Nat.mul_mod_left] at h
    exact h
  have hiq : i < q := by
    rwa [Nat.div_eq_zero_iff, or_iff_right (Nat.ne_of_gt hq)] at hloc
  rw [hloc, Nat.zero_add, Nat.mod_eq_of_lt hiq] at hrow
  have hblock : i / B = q / B :=
    Nat.eq_of_mul_eq_mul_right (by omega) hrow
  have hii := Nat.div_add_mod' i B
  rw [hblock, hmod] at hii
  omega

/-- An iteration past the last location falls on the second block of the
first one, if that block has the index. -/
theorem past_hits (hB : 0 < B) (hL : 2 ≤ L) (hr : r < q) (hrB : r < B)
    (hlt : q * L + r < N)
    (hinj : ∀ i < N, ∀ j < N, exact B L q i = exact B L q j → i = j) :
    q ≤ B + (q * L + r) % B := by
  by_contra hge
  have hmod := Nat.mod_lt (q * L + r) hB
  have hqL : q * 2 ≤ q * L := Nat.mul_le_mul_left q hL
  have hsame := hinj _ hlt (B + (q * L + r) % B) (by omega)
    ((exact_past hr hrB).trans (exact_second (Nat.lt_of_not_le hge) hmod).symm)
  omega

/-- Blocks that leave a piece of a location: the last pieces fit in the
range only if they lack one index and all but one iteration more. -/
theorem piece_fits (hL : 2 ≤ L) (hBq : B < q) (hq : q < 2 * B)
    (hlo : q * L ≤ N) (hhi : N < q * L + L) (hmaps : ∀ i < N, exact B L q i < N) :
    q + 1 = 2 * B ∧ N + 1 = q * L + L := by
  obtain ⟨l, rfl⟩ : ∃ l, L = l + 1 := ⟨L - 1, by omega⟩
  obtain ⟨e, rfl⟩ : ∃ e, q = B + e := ⟨q - B, by omega⟩
  -- an index of the last piece of the last location, at its end
  obtain ⟨j, hj, ho⟩ : ∃ j < e, e ≤ (l * (B + e) + (B + j)) % B + 1 := by
    have ha := Nat.mod_lt (l * (B + e)) (show 0 < B by omega)
    have hshift : ∀ j, (l * (B + e) + (B + j)) % B
        = (l * (B + e) % B + j) % B := by
      intro j
      rw [Nat.add_left_comm, Nat.add_mod_left, Nat.mod_add_mod]
    by_cases hsum : l * (B + e) % B + e ≤ B
    · refine ⟨e - 1, by omega, ?_⟩
      rw [hshift, Nat.mod_eq_of_lt (by omega)]
      omega
    · refine ⟨B - 1 - l * (B + e) % B, by omega, ?_⟩
      rw [hshift, Nat.mod_eq_of_lt (by omega)]
      omega
  have hrow := exact_row (B := B) (L := l + 1) (t := l) (r := B + j)
    (show B + j < B + e by omega)
  rw [Nat.add_div_left _ (by omega), Nat.div_eq_of_lt (show j < B by omega),
    Nat.one_mul] at hrow
  have hqL : (B + e) * (l + 1) = l * (B + e) + (B + e) := by
    rw [Nat.mul_succ, Nat.mul_comm]
  have hlt := hmaps (l * (B + e) + (B + j)) (by omega)
  rw [hrow] at hlt
  have h1 : l * (B + e) = l * B + l * e := Nat.mul_add l B e
  have h2 : (l + 1) * B = l * B + B := Nat.succ_mul l B
  have hle : B ≤ e + 1 := by
    by_contra hgt
    have hmul : l * (e + 2) ≤ l * B := Nat.mul_le_mul_left l (by omega)
    rw [Nat.mul_add] at hmul
    omega
  have hBe : B = e + 1 := by omega
  have h3 : l * B = l * e + l := by rw [hBe, Nat.mul_succ]
  omega

theorem eq_of_injOn (hB : 0 < B) (hBq : B < q) (hL : 2 ≤ L) (hlo : q * L ≤ N)
    (hhi : N < q * L + L) (hmaps : ∀ i < N, exact B L q i < N)
    (hinj : ∀ i < N, ∀ j < N, exact B L q i = exact B L q j → i = j) :
    N = q * L := by
  by_contra hne
  have hfirst := past_hits (r := 0) hB hL (by omega) hB (by omega) hinj
  rw [Nat.add_zero] at hfirst
  have hmod := Nat.mod_lt (q * L) hB
  obtain ⟨hq, hN⟩ := piece_fits hL hBq (by omega) hlo hhi hmaps
  have hlast : q * L % B = B - 1 := by omega
  have hdm := Nat.div_add_mod' (q * L) B
  rw [hlast] at hdm
  by_cases hL2 : L = 2
  · subst hL2
    -- twice `2 * B - 1` is not `B - 1` past a multiple of `B`
    have htwo : q * 2 % B = (B - 2) % B := by
      rw [show q * 2 = 3 * B + (B - 2) by omega, Nat.mul_comm,
        Nat.mul_add_mod]
    rw [Nat.mod_eq_of_lt (show B - 2 < B by omega)] at htwo
    omega
  · have hnext := past_hits (r := 1) hB hL (by omega) (by omega) (by omega) hinj
    have hzero : (q * L + 1) % B = 0 := by
      rw [show q * L + 1 = (q * L / B + 1) * B by rw [Nat.succ_mul]; omega]
      exact Nat.mul_mod_left _ _
    omega

end rows

section necessary

/-- There are no more threads than indices. -/
theorem le_of_kernel2user {v : Int}
    (h : kernel2user i B L N = some v) : L ≤ N := by
  unfold kernel2user at h
  simp only at h
  split at h
  next => cases h
  next hne =>
    by_contra hlt
    exact hne (.inl (Nat.div_eq_of_lt (Nat.lt_of_not_le hlt)))

theorem pop_stop {e stop : Nat} {sgrain : Int} {r : Option (Int × Int)}
    (hb : b < e) (he : e < 2 ^ 63)
    (h : popWithdatadistribution (.bloccyclic B L) N (queueOf (b, e)) sgrain
      = some (queueOf (stop, e), r)) :
    (stop : Int) = min (b + sgrain) (min (toInt32 (blockEnd B b)) e) := by
  have hul : toUlong (b : Int) = b := toUlong_natCast (by omega)
  unfold popWithdatadistribution queueOf at h
  simp only [hul] at h
  rw [if_pos (by omega)] at h
  split at h
  next => cases h
  next =>
    rw [show ((b / B * B + B : Nat) : Int) = (blockEnd B b : Int) from rfl,
      cut_eq (by omega)] at h
    obtain ⟨beg, -, h⟩ := Option.bind_eq_some_iff.mp h
    obtain ⟨last, -, h⟩ := Option.map_eq_some_iff.mp h
    have hstop := congrArg LocalWorkqueue.liBeg (Prod.mk.inj h).1
    simp only at hstop
    rw [← hstop]
    exact (min_def_lt _ _).symm

/-- What every pop needs of the ends of the blocks: were one cut before
its end, a queue that starts there would not advance. -/
theorem blockEnd_fits (hN : N ≤ 2 ^ 31)
    (hpop : ∀ b < N, (b : Int) < min (toInt32 (blockEnd B b)) N) (hb : b < N) :
    min (toInt32 (blockEnd B b)) N = min (blockEnd B b : Int) N := by
  by_cases hfit : blockEnd B b < 2 ^ 31
  · rw [toInt32_of_lt hfit]
  have hN' : min (blockEnd B b : Int) N = N := min_eq_right (by omega)
  rw [hN']
  by_contra hcut
  -- the `int` is an index of the same block, where the next pop stops
  have hlt : toInt32 (blockEnd B b) < N := by
    by_contra hge
    exact hcut (min_eq_right (Int.not_lt.mp hge))
  have hb' := hpop b hb
  rw [min_eq_left (Int.le_of_lt hlt)] at hb'
  obtain ⟨c, hc⟩ := Int.eq_ofNat_of_zero_le
    (show 0 ≤ toInt32 (blockEnd B b) by omega)
  rw [hc] at hlt hb'
  have hsame : blockEnd B c = blockEnd B b := by
    have hdiv := Nat.div_mul_le_self b B
    have hblock : c / B = b / B := by
      refine Nat.div_eq_of_lt_le (by omega) ?_
      rw [Nat.succ_mul]
      show c < blockEnd B b
      omega
    unfold blockEnd
    rw [hblock]
  have hnext := hpop c (by omega)
  rw [hsame, hc] at hnext
  exact absurd (Int.lt_of_lt_of_le hnext (min_le_left _ _)) (Int.lt_irrefl _)

theorem kernel2user_sum {v : Int} (hi : i < 2 ^ 64)
    (h : kernel2user i B L N = some v) :
    v = toInt32 ((i / (N / L) * B : Nat) : Int)
      + toInt32 ((i % (N / L) / B * L * B : Nat) : Int)
      + toInt32 ((i % B : Nat) : Int) := by
  have hmod : i - i / (N / L) * (N / L) = i % (N / L) := by
    have := Nat.div_add_mod' i (N / L)
    omega
  unfold kernel2user at h
  simp only [toUlong_natCast hi, hmod] at h
  split at h
  next => cases h
  next =>
    obtain ⟨sum, hsum, hv⟩ := Option.bind_eq_some_iff.mp h
    unfold addInt at hsum hv
    split at hsum
    next =>
      split at hv
      next =>
        rw [← Option.some.inj hv, ← Option.some.inj hsum]
      next => cases hv
    next => cases hsum

section

variable (huser : ∀ i < N, kernel2user i B L N = some (f i : Int))
include huser

/-- The index is exact when its parts are in range. -/
theorem user_eq_exact (hB : 0 < B) (hq : N / L ≠ 0) (hN : N ≤ 2 ^ 31) (hi : i < N)
    (hthread : i / (N / L) * B < N) (hlocal : i % (N / L) / B * L * B < N) :
    f i = exact B L (N / L) i := by
  have hmod := Nat.mod_le i B
  have hu := huser i hi
  rw [kernel2user_exact hq (Nat.ne_of_gt hB) (by omega) (by omega) (by omega)
    (by omega)] at hu
  split at hu
  next => exact (Int.ofNat.inj (Option.some.inj hu)).symm
  next => cases hu

/-- Blocks longer than what a location has leave an index out, or put one
past the end. -/
theorem le_div_of_bijOn (hf : Set.BijOn f (Set.Iio N) (Set.Iio N)) (hB : 0 < B)
    (hL : 2 ≤ L) (hLN : L ≤ N) (hN : N ≤ 2 ^ 31)
    (hlimit : min (toInt32 (blockEnd B (N - 1))) N = min (blockEnd B (N - 1) : Int) N) :
    B ≤ N / L := by
  by_contra hlt
  have hq : 0 < N / L := Nat.div_pos hLN (by omega)
  have hqN : N / L < N := Nat.div_lt_self (by omega) hL
  have hlocal : ∀ i, i % (N / L) / B = 0 := fun i =>
    Nat.div_eq_of_lt (Nat.lt_trans (Nat.mod_lt i hq) (Nat.lt_of_not_le hlt))
  -- the end `V` of the last block is the first multiple of `B` from `N` on
  obtain ⟨V, hV⟩ : ∃ V, blockEnd B (N - 1) = V := ⟨_, rfl⟩
  have hVmul : V = ((N - 1) / B + 1) * B := by
    rw [← hV, Nat.succ_mul]
    rfl
  have hdm := Nat.div_add_mod' (N - 1) B
  have hmod := Nat.mod_lt (N - 1) hB
  have hVadd : V = (N - 1) / B * B + B := by
    rw [hVmul, Nat.succ_mul]
  rw [hV] at hlimit
  by_cases hi : ((N - 1) / B + 1) * (N / L) < N
  · -- the location at that multiple starts past the end
    have hu := kernel2user_sum (by omega) (huser _ hi)
    rw [Nat.mul_div_cancel _ hq, hlocal, ← hVmul, Nat.zero_mul, Nat.zero_mul]
      at hu
    have hoff := Nat.mod_le (((N - 1) / B + 1) * (N / L)) B
    rw [toInt32_of_lt (x := 0) (by decide), toInt32_of_lt (x := _ % B) (by omega)]
      at hu
    have hlt : f (((N - 1) / B + 1) * (N / L)) < N := hf.mapsTo hi
    have hVN : (N : Int) ≤ V := by omega
    rw [min_eq_right hVN] at hlimit
    have hge : (N : Int) ≤ toInt32 V := by
      rw [← hlimit]
      exact min_le_left _ _
    refine absurd (Int.ofNat_lt.mpr hlt) (Int.not_lt.mpr ?_)
    rw [hu]
    exact Int.le_trans hge (Int.le_trans
      (Int.le_add_of_nonneg_right (Int.natCast_nonneg _))
      (Int.le_add_of_nonneg_right (Int.natCast_nonneg _)))
  · -- no location starts past the end, and index `N / L` is of none
    obtain ⟨i, hi', heq⟩ := hf.surjOn hqN
    have ht : i / (N / L) ≤ (N - 1) / B := by
      have hti := Nat.div_lt_of_lt_mul (m := i) (n := N / L)
        (k := (N - 1) / B + 1) (by
          rw [Nat.mul_comm]
          exact Nat.lt_of_lt_of_le hi' (Nat.le_of_not_lt hi))
      omega
    have hthread : i / (N / L) * B ≤ (N - 1) / B * B := Nat.mul_le_mul_right B ht
    rw [user_eq_exact huser hB (Nat.ne_of_gt hq) hN hi' (by omega) (by
      rw [hlocal, Nat.zero_mul, Nat.zero_mul]
      omega)] at heq
    unfold exact at heq
    rw [hlocal, Nat.zero_mul, Nat.zero_mul, Nat.add_zero] at heq
    have hzero : i / (N / L) = 0 := by
      by_contra hpos
      have hle : B ≤ i / (N / L) * B := Nat.le_mul_of_pos_left B
        (Nat.pos_of_ne_zero hpos)
      omega
    have hiq : i < N / L := by
      rwa [Nat.div_eq_zero_iff, or_iff_right (Nat.ne_of_gt hq)] at hzero
    have hle := Nat.mod_le i B
    rw [hzero, Nat.zero_mul, Nat.zero_add] at heq
    omega

/-- With two locations or more: one block each, or whole blocks and as many
for each. -/
theorem blocks_of_bijOn (hf : Set.BijOn f (Set.Iio N) (Set.Iio N)) (hB : 0 < B)
    (hL : 2 ≤ L) (hLN : L ≤ N) (hN : N ≤ 2 ^ 31) (hle : B ≤ N / L) (hne : N / L ≠ B) :
    B * L ∣ N := by
  have hq : 0 < N / L := Nat.div_pos hLN (by omega)
  have hdm := Nat.div_add_mod' N L
  have hmod := Nat.mod_lt N (show 0 < L by omega)
  -- shorter blocks fit the words
  have hexact : ∀ i < N, f i = exact B L (N / L) i := by
    intro i hi
    have hdiv := Nat.div_mul_le_self i (N / L)
    have hrow := Nat.mod_lt i hq
    refine user_eq_exact huser hB (Nat.ne_of_gt hq) hN hi ?_ ?_
    · exact Nat.lt_of_le_of_lt
        (Nat.le_trans (Nat.mul_le_mul_left _ hle) hdiv) hi
    · calc i % (N / L) / B * L * B = i % (N / L) / B * B * L :=
            Nat.mul_right_comm _ L B
        _ ≤ i % (N / L) * L :=
            Nat.mul_le_mul_right L (Nat.div_mul_le_self _ B)
        _ < N / L * L := Nat.mul_lt_mul_of_pos_right hrow (by omega)
        _ ≤ N := Nat.div_mul_le_self N L
  have hmaps : ∀ i < N, exact B L (N / L) i < N := by
    intro i hi
    rw [← hexact i hi]
    exact hf.mapsTo hi
  have hinj : ∀ i < N, ∀ j < N, exact B L (N / L) i = exact B L (N / L) j →
      i = j := by
    intro i hi j hj hij
    rw [← hexact i hi, ← hexact j hj] at hij
    exact hf.injOn hi hj hij
  have hall : N = N / L * L :=
    eq_of_injOn hB (by omega) hL (Nat.div_mul_le_self N L) (by omega) hmaps hinj
  have hsurj : Set.SurjOn (exact B L (N / L)) (Set.Iio (N / L * L))
      (Set.Iio (N / L * L)) := by
    rw [← hall]
    exact hf.surjOn.congr fun i hi => hexact i hi
  obtain ⟨m, hm⟩ := dvd_of_surjOn hB hq hL hsurj
  refine ⟨m, ?_⟩
  conv_lhs => rw [hall, hm]
  exact Nat.mul_right_comm B m L

end

/-- A distribution that distributes fits. -/
theorem Distributes.cyclic (hB : 0 < B) (hL : 0 < L)
    (h : Distributes (.bloccyclic B L) N) : Cyclic B L N := by
  rcases Nat.eq_zero_or_pos N with hzero | hpos
  · exact .inl hzero
  obtain ⟨f, huser, hf⟩ := h.bij
  have hLN : L ≤ N := le_of_kernel2user (huser 0 hpos)
  have hN : N ≤ 2 ^ 31 := by
    obtain ⟨i, hi, heq⟩ := hf.surjOn (show N - 1 < N by omega)
    have hlt := kernel2user_lt (huser i hi)
    rw [heq] at hlt
    omega
  have hpop : ∀ b < N, (b : Int) < min (toInt32 (blockEnd B b)) N := by
    intro b hb
    obtain ⟨n, u, hn, hne, -, hstop, -⟩ := h.pop b N N hb (Nat.le_refl N)
      (by omega) (by unfold longMax; omega)
    have heq := pop_stop hb (by omega) hstop
    rw [min_eq_right (Int.le_trans (min_le_right _ _) (by omega))] at heq
    rw [← heq]
    omega
  have hlimit : ∀ b < N,
      min (toInt32 (blockEnd B b)) N = min (blockEnd B b : Int) N :=
    fun b hb => blockEnd_fits hN hpop hb
  refine .inr ⟨hLN, hN, ?_, hlimit⟩
  by_cases hone : L = 1
  · exact .inl hone
  · have hle := le_div_of_bijOn huser hf hB (by omega) hLN hN
      (hlimit (N - 1) (by omega))
    by_cases hne : N / L = B
    · exact .inr (.inl hne)
    · exact .inr (.inr
        (blocks_of_bijOn huser hf hB (by omega) hLN hN hle hne))

end necessary

/-- When the attribute is accepted, the body sees every iteration once
iff the distribution is cyclic. -/
theorem distributes_iff {B L N : Nat} {dist : Datadist}
    (h : setBloccyclicDatadistribution B L = some dist) :
    Distributes dist N ↔ Cyclic B L N := by
  unfold setBloccyclicDatadistribution at h
  split at h
  next => cases h
  next hne =>
    cases h
    rw [not_or] at hne
    have hB := Nat.pos_of_ne_zero hne.1
    have hL := Nat.pos_of_ne_zero hne.2
    exact ⟨fun hd => hd.cyclic hB hL, fun hc => hc.distributes hB hL⟩

/-- Two locations of two blocks of two iterations. -/
theorem distributes_iff_two :
    Distributes (.bloccyclic 2 2) 8 ↔ Cyclic 2 2 8 :=
  distributes_iff (B := 2) (L := 2) rfl

/-- Blocks of 8 over 4 locations and 100 iterations: the last user index
is past the end. With 3 iterations there is a division by zero. -/
theorem bloccyclic_not_bijective :
    setBloccyclicDatadistribution 8 4 = some (.bloccyclic 8 4)
      ∧ kernel2user 99 8 4 100 = some 123 ∧ kernel2user 0 8 4 3 = none
      ∧ ¬ Distributes (.bloccyclic 8 4) 100 := by
  refine ⟨rfl, rfl, rfl, ?_⟩
  rw [distributes_iff (B := 8) (L := 4) rfl]
  decide

end XKaapi.Foreach
