/-
The initial distribution of a parallel loop (kaapic_work.c).

`_kaapic_foreach_initwa` cuts the range of a foreach into equal slices,
one for each thread of the attribute's cpu set, and publishes a bitmap
of the slices still to be taken. A thread then takes a slice with
`kaapic_global_work_pop`: its own one if it still can, any other one
otherwise.

Three index spaces meet here. The bits of `map` are set from the kernel
ids of the threads, but read and cleared as positions in `startindex`;
`tid2pos` goes from the first to the second.

The file defines the tables and the pops, and computes the tables:
`initTid2pos_spec` and `initStartindex_spec` loop by loop,
`foreachInitwa_eq_some_iff` and `distribution_slices` for the whole.
-/
import Mathlib.Data.Int.ConditionallyCompleteOrder
import Mathlib.Order.ConditionallyCompleteLattice.Basic
import XKaapi.Foreach.Bitmap
import XKaapi.Lib.Tiles

namespace XKaapi.Foreach

open Bitmap
open Function (update update_of_ne update_self)

variable {w : Nat} {mask cpuset : BitVec w} {nthreads : Nat}

-- ======== model

/-- kaapic_work_distribution_t. The structure is pushed on the stack of
the calling thread uninitialised: `none` is an entry never written. -/
structure WorkDistribution (w : Nat) where
  map : BitVec w
  tid2pos : Nat → Option Nat
  startindex : Nat → Option Int

/-- The byte `(uint8_t)-1` of `tid2pos`: the thread has no position. -/
def noPos : Nat := 255

/-- The largest `long`. -/
def longMax : Int := 2 ^ 63 - 1

/-- One iteration of the loop that fills `tid2pos`, over the count of the
positions given so far and the table. -/
def tid2posStep (mask : BitVec w) (selfTid finalsize : Nat)
    (s : Nat × (Nat → Option Nat)) (i : Nat) :
    Nat × (Nat → Option Nat) :=
  if i = selfTid then s
  else if mask.getLsbD i ∧ s.1 < finalsize then
    (s.1 + 1, update s.2 i (some s.1))
  else (s.1, update s.2 i (some noPos))

/-- The table `tid2pos`: the calling thread first, if it is in the set,
then the others. -/
def initTid2pos (mask : BitVec w) (selfTid finalsize concurrency : Nat) :
    Nat → Option Nat :=
  ((List.range concurrency).foldl (tid2posStep mask selfTid finalsize)
    (if mask.getLsbD selfTid then
      (1, update (fun _ => none) selfTid (some 0))
    else (0, fun _ => none))).2

/-- The table `startindex`: the remainder goes to the slice 0, and past
`finalsize` all slices start at the end of the last one. -/
def initStartindex (first off scale : Int) (finalsize concurrency : Nat) :
    Nat → Option Int :=
  let s₀ := update (update (fun _ => none) 0 (some first))
    1 (some (first + off + scale))
  let s₁ := (List.range' 1 (finalsize - 1)).foldl
    (fun s i => update s (i + 1) ((s i).map (· + scale))) s₀
  (List.range' finalsize (concurrency - finalsize)).foldl
    (fun s i => update s (i + 1) (s finalsize)) s₁

/-- The end of `_kaapic_foreach_initwa`, from `off = range_size %
finalsize` on; a remainder by 0 is undefined. -/
def fillwa (selfTid concurrency : Nat) (first rangeSize : Int)
    (mask : BitVec w) (finalsize : Nat) : Option (WorkDistribution w) :=
  if finalsize = 0 then none
  else
    let off := rangeSize % finalsize
    let scale := (rangeSize - off) / finalsize
    some
      { map := mask
        tid2pos := initTid2pos mask selfTid finalsize concurrency
        startindex := initStartindex first off scale finalsize concurrency }

/-- _kaapic_foreach_initwa, for the thread `selfTid` of a runtime of
`concurrency` threads. Undefined (`none`): the shift of `set_low_bits`
by more than a word, a range whose size is no `long`, and a division by
zero. The positions fit in a byte: KAAPI_MAX_PROCESSOR is below 255. -/
def foreachInitwa (selfTid : Nat) (cpuset : BitVec w)
    (nthreads concurrency : Nat) (first last : Int) :
    Option (WorkDistribution w) :=
  (valueSetLowBits w nthreads).bind fun low =>
    let mask := low &&& cpuset
    let sizemap := valueCount mask
    let rangeSize := last - first
    if longMax < rangeSize then none
    -- handle concurrency too high case
    else if rangeSize < sizemap then
      (valueSetLowBits w rangeSize.toNat).bind fun mask' =>
        fillwa selfTid concurrency first rangeSize mask' rangeSize.toNat
    else fillwa selfTid concurrency first rangeSize mask sizemap

/-- The slice at a position, undefined where an end was not written. -/
def WorkDistribution.slice (wa : WorkDistribution w) (pos : Nat) :
    Option (Int × Int) :=
  (wa.startindex pos).bind fun i =>
    (wa.startindex (pos + 1)).map fun j => (i, j)

/-- The loop `repop_any` of kaapic_global_work_pop: any slice left. -/
def repopAny (wa : WorkDistribution w) :
    Option (WorkDistribution w × Option (Int × Int)) :=
  match first1AndZero wa.map with
  | (0, _) => some (wa, none)
  | (pos + 1, map) =>
    (wa.slice pos).map fun r => ({ wa with map := map }, some r)

/-- kaapic_global_work_pop: the new distribution and the slice taken, if
any. Undefined where it reads what was not written. -/
def globalWorkPop (wa : WorkDistribution w) (workremain : Int) (tid : Nat) :
    Option (WorkDistribution w × Option (Int × Int)) :=
  (wa.tid2pos tid).bind fun pos =>
    if pos = noPos then repopAny wa
    else
      match unset wa.map pos with
      | (false, _) => repopAny wa
      | (true, map) =>
        (wa.slice pos).map fun r =>
          ({ wa with map := map }, if workremain = 0 then none else some r)

/-- The slices that the threads `tids` obtain, popping in this order. -/
def popRun (workremain : Int) : List Nat → WorkDistribution w →
    Option (WorkDistribution w × List (Int × Int))
  | [], wa => some (wa, [])
  | tid :: tids, wa =>
    (globalWorkPop wa workremain tid).bind fun p =>
      (popRun workremain tids p.1).map fun q =>
        (q.1, p.2.toList ++ q.2)

/-- How many threads of the cpu set are below `nthreads`. -/
def threadCount (cpuset : BitVec w) (nthreads : Nat) : Nat :=
  Nat.count (fun i => cpuset.getLsbD i) nthreads

-- ======== the two tables

/-- What the loop over `tid2pos` has done below `n`: the threads of the
mask have distinct positions below the count, the others none, and the
entry of the calling thread is written only if it is in the mask. -/
structure Positions (mask : BitVec w) (selfTid n : Nat)
    (s : Nat × (Nat → Option Nat)) : Prop where
  count : s.1 = ((bits mask).filter fun j => j < n ∨ j = selfTid).card
  self : s.2 selfTid = if mask.getLsbD selfTid then some 0 else none
  other : ∀ i < n, i ≠ selfTid → ∃ pos, s.2 i = some pos
    ∧ if mask.getLsbD i then pos < s.1 else pos = noPos
  lt : ∀ i pos, s.2 i = some pos → pos ≠ noPos → pos < s.1
  inj : ∀ i j pos, s.2 i = some pos → s.2 j = some pos → pos ≠ noPos → i = j

theorem Positions.init (mask : BitVec w) (selfTid : Nat) :
    Positions mask selfTid 0
      (if mask.getLsbD selfTid then
        (1, update (fun _ => none) selfTid (some 0))
      else (0, fun _ => none)) := by
  by_cases h : mask.getLsbD selfTid = true
  · rw [if_pos h]
    have hentry : ∀ i pos, (update (fun _ => none) selfTid (some 0)
        : Nat → Option Nat) i = some pos → i = selfTid ∧ pos = 0 := by
      intro i pos hi
      by_cases his : i = selfTid
      · rw [his, update_self] at hi
        exact ⟨his, (Option.some.inj hi).symm⟩
      · rw [update_of_ne his] at hi
        cases hi
    refine ⟨?_, ?_, fun i hi => absurd hi (Nat.not_lt_zero i), ?_, ?_⟩
    · have hfilter : ((bits mask).filter fun j => j < 0 ∨ j = selfTid)
          = ({selfTid} : Finset Nat) := by
        ext j
        rw [Finset.mem_filter, mem_bits, Finset.mem_singleton]
        constructor
        · intro hj
          exact hj.2.resolve_left (Nat.not_lt_zero j)
        · intro hj
          exact ⟨hj ▸ h, .inr hj⟩
      rw [hfilter]
      rfl
    · rw [if_pos h]
      show update (fun _ => none : Nat → Option Nat) selfTid (some 0)
        selfTid = _
      rw [update_self]
    · intro i pos hi _
      rw [(hentry i pos hi).2]
      exact Nat.zero_lt_one
    · intro i j pos hi hj _
      rw [(hentry i pos hi).1, (hentry j pos hj).1]
  · rw [if_neg h]
    refine ⟨?_, (if_neg h).symm, fun i hi => absurd hi (Nat.not_lt_zero i),
      (fun i pos hi => by cases hi), fun i j pos hi => by cases hi⟩
    have hfilter : ((bits mask).filter fun j => j < 0 ∨ j = selfTid) = ∅ := by
      ext j
      rw [Finset.mem_filter, mem_bits]
      refine iff_of_false (fun hj => ?_) (Finset.notMem_empty j)
      rw [hj.2.resolve_left (Nat.not_lt_zero j)] at hj
      exact h hj.1
    rw [hfilter]
    rfl

/-- One iteration keeps the invariant; the guard `localcount < finalsize`
never cuts when `finalsize` counts the threads of the mask. -/
theorem Positions.step {selfTid n : Nat} {s : Nat × (Nat → Option Nat)}
    (h : Positions mask selfTid n s) :
    Positions mask selfTid (n + 1)
      (tid2posStep mask selfTid (valueCount mask) s n) := by
  unfold tid2posStep
  by_cases hself : n = selfTid
  · rw [if_pos hself]
    refine ⟨?_, h.self, fun i hi his => h.other i ?_ his, h.lt, h.inj⟩
    · rw [h.count]
      congr 2
      ext j
      omega
    · omega
  rw [if_neg hself]
  by_cases hmask : mask.getLsbD n = true
  · -- `n` is not counted yet, so the count is below the whole
    have hcount : s.1 + 1
        = ((bits mask).filter fun j => j < n + 1 ∨ j = selfTid).card := by
      have hins : ((bits mask).filter fun j => j < n + 1 ∨ j = selfTid)
          = insert n ((bits mask).filter fun j => j < n ∨ j = selfTid) := by
        ext j
        rw [Finset.mem_insert, Finset.mem_filter, Finset.mem_filter, mem_bits]
        constructor
        · intro hj
          by_cases hjn : j = n
          · exact .inl hjn
          · exact .inr ⟨hj.1, by omega⟩
        · intro hj
          rcases hj with hj | hj
          · exact ⟨hj ▸ hmask, by omega⟩
          · exact ⟨hj.1, by omega⟩
      have hnot : n ∉ (bits mask).filter fun j => j < n ∨ j = selfTid := by
        intro hn
        have := (Finset.mem_filter.mp hn).2
        omega
      rw [hins, Finset.card_insert_of_notMem hnot, h.count]
    have hlt : s.1 < valueCount mask := by
      rw [← Nat.succ_le_iff, Nat.succ_eq_add_one, hcount, valueCount_eq_card]
      exact Finset.card_filter_le _ _
    rw [if_pos ⟨hmask, hlt⟩]
    have hentry : ∀ i pos, update s.2 n (some s.1) i = some pos →
        (i = n ∧ pos = s.1) ∨ (i ≠ n ∧ s.2 i = some pos) := by
      intro i pos hi
      by_cases hin : i = n
      · rw [hin, update_self] at hi
        exact .inl ⟨hin, (Option.some.inj hi).symm⟩
      · rw [update_of_ne hin] at hi
        exact .inr ⟨hin, hi⟩
    refine ⟨hcount, ?_, ?_, ?_, ?_⟩
    · show update s.2 n (some s.1) selfTid = _
      rw [update_of_ne (Ne.symm hself)]
      exact h.self
    · intro i hi his
      by_cases hin : i = n
      · refine ⟨s.1, by rw [hin]; exact update_self .., ?_⟩
        rw [hin, if_pos hmask]
        exact Nat.lt_succ_self _
      · obtain ⟨pos, hpos, hcase⟩ := h.other i (by omega) his
        refine ⟨pos, (update_of_ne hin ..).trans hpos, ?_⟩
        split at hcase
        next hi' => exact (if_pos hi').mpr (Nat.lt_succ_of_lt hcase)
        next hi' => exact (if_neg hi').mpr hcase
    · intro i pos hi hne
      rcases hentry i pos hi with ⟨-, hp⟩ | ⟨-, hp⟩
      · rw [hp]
        exact Nat.lt_succ_self _
      · exact Nat.lt_succ_of_lt (h.lt i pos hp hne)
    · intro i j pos hi hj hne
      rcases hentry i pos hi with ⟨hin, hp⟩ | ⟨-, hp⟩
      · rcases hentry j pos hj with ⟨hjn, -⟩ | ⟨-, hq⟩
        · rw [hin, hjn]
        · exact absurd (h.lt j pos hq hne) (by omega)
      · rcases hentry j pos hj with ⟨-, hq⟩ | ⟨-, hq⟩
        · exact absurd (h.lt i pos hp hne) (by omega)
        · exact h.inj i j pos hp hq hne
  · rw [if_neg fun hc => hmask hc.1]
    have hentry : ∀ i pos, update s.2 n (some noPos) i = some pos →
        pos ≠ noPos → s.2 i = some pos := by
      intro i pos hi hne
      by_cases hin : i = n
      · rw [hin, update_self] at hi
        exact absurd (Option.some.inj hi).symm hne
      · rwa [update_of_ne hin] at hi
    refine ⟨?_, ?_, ?_, fun i pos hi hne => h.lt i pos (hentry i pos hi hne) hne,
      fun i j pos hi hj hne =>
        h.inj i j pos (hentry i pos hi hne) (hentry j pos hj hne) hne⟩
    · show s.1 = _
      rw [h.count]
      congr 1
      ext j
      rw [Finset.mem_filter, Finset.mem_filter, mem_bits]
      constructor
      · intro hj
        exact ⟨hj.1, by omega⟩
      · intro hj
        refine ⟨hj.1, ?_⟩
        have : j ≠ n := fun hjn => hmask (hjn ▸ hj.1)
        omega
    · show update s.2 n (some noPos) selfTid = _
      rw [update_of_ne (Ne.symm hself)]
      exact h.self
    · intro i hi his
      by_cases hin : i = n
      · refine ⟨noPos, by rw [hin]; exact update_self .., ?_⟩
        rw [hin, if_neg hmask]
      · obtain ⟨pos, hpos, hcase⟩ := h.other i (by omega) his
        exact ⟨pos, (update_of_ne hin ..).trans hpos, hcase⟩

theorem initTid2pos_spec (mask : BitVec w) (selfTid concurrency : Nat) :
    ∃ c, Positions mask selfTid concurrency
      (c, initTid2pos mask selfTid (valueCount mask) concurrency) := by
  have hfold : ∀ n, Positions mask selfTid n
      ((List.range n).foldl (tid2posStep mask selfTid (valueCount mask))
        (if mask.getLsbD selfTid then
          (1, update (fun _ => none) selfTid (some 0))
        else (0, fun _ => none))) := by
    intro n
    induction n with
    | zero => exact .init mask selfTid
    | succ n ih =>
      rw [List.range_succ, List.foldl_append]
      exact ih.step
  exact ⟨_, hfold concurrency⟩

/-- Where the slice at a position starts, the remainder of the division
being in the slice 0. -/
def bound (first off scale : Int) (p : Nat) : Int :=
  if p = 0 then first else first + off + p * scale

theorem bound_succ (first off scale : Int) {p : Nat} (hp : p ≠ 0) :
    bound first off scale (p + 1) = bound first off scale p + scale := by
  unfold bound
  rw [if_neg hp, if_neg (Nat.succ_ne_zero p)]
  show first + off + ((p : Int) + 1) * scale = _
  rw [Int.add_mul, Int.one_mul, ← Int.add_assoc]

/-- The table `startindex` once filled: a bound for each position up to
`finalsize`, the last one again up to `concurrency`, nothing beyond. -/
theorem initStartindex_spec (first off scale : Int) {k : Nat} (hk : k ≠ 0)
    (concurrency p : Nat) :
    initStartindex first off scale k concurrency p =
      if p ≤ k then some (bound first off scale p)
      else if p ≤ concurrency then some (bound first off scale k)
      else none := by
  have hslices : ∀ n p,
      (List.range' 1 n).foldl
        (fun s i => update s (i + 1) ((s i).map (· + scale)))
        (update (update (fun _ => none) 0 (some first))
          1 (some (first + off + scale))) p
      = if p ≤ n + 1 then some (bound first off scale p) else none := by
    intro n
    induction n with
    | zero =>
      intro p
      show update (update (fun _ => none) 0 (some first))
        1 (some (first + off + scale)) p = _
      by_cases h1 : p = 1
      · rw [h1, update_self, if_pos (Nat.le_refl 1)]
        show _ = some (first + off + 1 * scale)
        rw [Int.one_mul]
      rw [update_of_ne h1]
      by_cases h0 : p = 0
      · rw [h0, update_self, if_pos (Nat.zero_le _)]
        rfl
      rw [update_of_ne h0, if_neg (by omega)]
    | succ n ih =>
      intro p
      rw [List.range'_1_concat, List.foldl_append]
      rw [List.foldl_cons, List.foldl_nil]
      by_cases hp : p = 1 + n + 1
      · rw [hp, update_self, ih, if_pos (by omega),
          if_pos (by omega), Option.map_some,
          bound_succ first off scale (by omega)]
      · rw [update_of_ne hp, ih]
        split
        next h => rw [if_pos (by omega)]
        next h => rw [if_neg (by omega)]
  have hrest : ∀ (s : Nat → Option Int) (n p : Nat),
      (List.range' k n).foldl (fun s i => update s (i + 1) (s k)) s p
      = if k < p ∧ p ≤ k + n then s k else s p := by
    intro s n
    induction n with
    | zero =>
      intro p
      rw [if_neg (by omega)]
      rfl
    | succ n ih =>
      intro p
      rw [List.range'_1_concat, List.foldl_append]
      rw [List.foldl_cons, List.foldl_nil]
      by_cases hp : p = k + n + 1
      · rw [hp, update_self, ih, if_neg (by omega),
          if_pos (by omega)]
      · rw [update_of_ne hp, ih]
        split
        next h => rw [if_pos (by omega)]
        next h => rw [if_neg (by omega)]
  have hk' : k - 1 + 1 = k := Nat.succ_pred hk
  unfold initStartindex
  rw [hrest, hslices, hslices, hk']
  by_cases hle : p ≤ k
  · rw [if_neg (by omega), if_pos hle, if_pos hle]
  · by_cases hconc : p ≤ concurrency
    · rw [if_pos (by omega), if_pos (Nat.le_refl k), if_neg hle,
        if_pos hconc]
    · rw [if_neg (by omega), if_neg hle, if_neg hle, if_neg hconc]

-- ======== the slices

/-- The threads that `_kaapic_foreach_initwa` reserves a slice for: those
of the cpu set below `nthreads`, but the lowest ones when there are more
of them than iterations. -/
structure Reserved (cpuset : BitVec w) (nthreads : Nat) (rangeSize : Int)
    (mask : BitVec w) : Prop where
  few : rangeSize < threadCount cpuset nthreads → LowBits mask rangeSize.toNat
  all : ¬ rangeSize < threadCount cpuset nthreads →
    ∀ i, mask.getLsbD i = (decide (i < nthreads) && cpuset.getLsbD i)

theorem bits_low_and {low : BitVec w} (h : LowBits low nthreads) :
    bits (low &&& cpuset)
      = (Finset.range nthreads).filter fun i => cpuset.getLsbD i := by
  ext i
  rw [mem_bits, BitVec.getLsbD_and, h i, Bool.and_eq_true,
    decide_eq_true_eq, Finset.mem_filter, Finset.mem_range]

theorem valueCount_low_and {low : BitVec w} (h : LowBits low nthreads) :
    valueCount (low &&& cpuset) = threadCount cpuset nthreads := by
  unfold threadCount
  rw [valueCount_eq_card, bits_low_and h, Nat.count_eq_card_filter_range]

theorem Reserved.valueCount {rangeSize : Int} (hpos : 0 < rangeSize) (hn : nthreads ≤ w)
    (h : Reserved cpuset nthreads rangeSize mask) :
    valueCount mask = min (threadCount cpuset nthreads) rangeSize.toNat := by
  by_cases hfew : rangeSize < threadCount cpuset nthreads
  · rw [(h.few hfew).valueCount]
    omega
  · obtain ⟨low, hlow⟩ : ∃ low : BitVec w, LowBits low nthreads :=
      ⟨_, (valueSetLowBits_eq_some_iff.mp (if_pos hn)).2⟩
    have hmask : mask = low &&& cpuset := by
      apply BitVec.eq_of_getLsbD_eq
      intro i _
      rw [h.all hfew i, BitVec.getLsbD_and, hlow i]
    rw [hmask, valueCount_low_and hlow]
    omega

/-- The distribution of the slices over the threads of a mask. -/
def distribution (selfTid concurrency : Nat) (first rangeSize : Int)
    (mask : BitVec w) : WorkDistribution w :=
  let k := valueCount mask
  let off := rangeSize % k
  { map := mask
    tid2pos := initTid2pos mask selfTid k concurrency
    startindex := initStartindex first off ((rangeSize - off) / k) k
      concurrency }

/-- When the distribution is computed, and what it is. -/
theorem foreachInitwa_eq_some_iff {selfTid : Nat} {concurrency : Nat} {first last : Int}
    (hr : first < last) {wa : WorkDistribution w} :
    foreachInitwa selfTid cpuset nthreads concurrency first last = some wa ↔
      nthreads ≤ w ∧ last - first ≤ longMax
        ∧ 0 < threadCount cpuset nthreads
        ∧ ∃ mask, Reserved cpuset nthreads (last - first) mask
          ∧ wa = distribution selfTid concurrency first (last - first)
              mask := by
  have huniq : ∀ {m m' : BitVec w},
      Reserved cpuset nthreads (last - first) m →
      Reserved cpuset nthreads (last - first) m' → m = m' := by
    intro m m' h h'
    apply BitVec.eq_of_getLsbD_eq
    intro i _
    by_cases hfew : last - first < threadCount cpuset nthreads
    · rw [h.few hfew i, h'.few hfew i]
    · rw [h.all hfew i, h'.all hfew i]
  by_cases hn : nthreads ≤ w
  swap
  · refine iff_of_false (fun h => ?_) fun h => hn h.1
    unfold foreachInitwa at h
    rw [show valueSetLowBits w nthreads = none from if_neg hn] at h
    cases h
  have hlow := (valueSetLowBits_eq_some_iff.mp
    (if_pos hn : valueSetLowBits w nthreads = some _)).2
  unfold foreachInitwa
  rw [show valueSetLowBits w nthreads = some _ from if_pos hn, Option.bind_some]
  show (if longMax < last - first then none else _) = _ ↔ _
  by_cases hlong : longMax < last - first
  · rw [if_pos hlong]
    exact iff_of_false nofun fun h => by omega
  rw [if_neg hlong, valueCount_low_and hlow]
  -- both branches end in `fillwa` of the reserved threads
  have hfill : ∀ (mask : BitVec w) (k : Nat),
      Reserved cpuset nthreads (last - first) mask → k = valueCount mask →
      (fillwa selfTid concurrency first (last - first) mask k = some wa ↔
        nthreads ≤ w ∧ last - first ≤ longMax
          ∧ 0 < threadCount cpuset nthreads
          ∧ ∃ mask, Reserved cpuset nthreads (last - first) mask
            ∧ wa = distribution selfTid concurrency first (last - first)
                mask) := by
    intro mask k hres hk
    have hcount := hres.valueCount (by omega) hn
    unfold fillwa
    by_cases hzero : k = 0
    · rw [if_pos hzero]
      exact iff_of_false nofun fun h => by omega
    · rw [if_neg hzero, hk]
      constructor
      · intro h
        exact ⟨hn, by omega, by omega, mask, hres, (Option.some.inj h).symm⟩
      · intro h
        obtain ⟨-, -, -, mask', hres', hwa⟩ := h
        rw [hwa, huniq hres' hres]
        rfl
  by_cases hfew : last - first < threadCount cpuset nthreads
  · have hcount : threadCount cpuset nthreads ≤ w := by
      rw [← valueCount_low_and hlow]
      exact valueCount_le _
    have hle : (last - first).toNat ≤ w := by omega
    have hlow' := (valueSetLowBits_eq_some_iff.mp
      (if_pos hle : valueSetLowBits w (last - first).toNat = some _)).2
    rw [if_pos hfew, show valueSetLowBits w (last - first).toNat = some _ from
      if_pos hle, Option.bind_some]
    exact hfill _ _ ⟨fun _ => hlow', fun h => absurd hfew h⟩
      hlow'.valueCount.symm
  · rw [if_neg hfew]
    refine hfill _ _ ⟨fun h => absurd h hfew, fun _ i => ?_⟩
      (valueCount_low_and hlow).symm
    rw [BitVec.getLsbD_and, hlow i]

/-- The slices of the positions below the count tile the range; the later
positions have an empty slice, or none. -/
theorem distribution_slices (selfTid concurrency : Nat) {first last : Int}
    (hne : valueCount mask ≠ 0) (hle : (valueCount mask : Int) ≤ last - first) :
    let wa := distribution selfTid concurrency first (last - first) mask
    ∃ l, Tiles first last l
      ∧ (List.range (valueCount mask)).map wa.slice = l.map some
      ∧ ∀ p r, valueCount mask ≤ p → wa.slice p = some r → ¬ r.1 < r.2 := by
  intro wa
  let k := valueCount mask
  let off := (last - first) % (k : Int)
  let scale := (last - first - off) / k
  have hk : (0 : Int) < k := by omega
  have hoff : 0 ≤ off := Int.emod_nonneg _ (by omega)
  have hdiv : scale * k = last - first - off :=
    Int.ediv_mul_cancel (Int.dvd_self_sub_emod)
  have hscale : 0 < scale := by
    have hlt : off < k := Int.emod_lt_of_pos _ hk
    by_contra hno
    have : scale * k ≤ 0 := Int.mul_nonpos_of_nonpos_of_nonneg (by omega)
      (by omega)
    omega
  have hstart : ∀ p, wa.startindex p =
      if p ≤ k then some (bound first off scale p)
      else if p ≤ concurrency then some (bound first off scale k)
      else none :=
    initStartindex_spec first off scale hne concurrency
  have hlast : bound first off scale k = last := by
    unfold bound
    rw [if_neg hne, Int.mul_comm, hdiv]
    omega
  have htiles := Tiles.of_lt (e := bound first off scale) (k := k)
    fun p _ => by
      by_cases hp : p = 0
      · rw [hp]
        show first < first + off + 1 * scale
        omega
      · rw [bound_succ first off scale hp]
        omega
  rw [hlast] at htiles
  refine ⟨_, htiles, ?_, ?_⟩
  · rw [List.map_map]
    apply List.map_congr_left
    intro p hp
    have hlt := List.mem_range.mp hp
    unfold WorkDistribution.slice
    rw [hstart, hstart, if_pos (by omega), if_pos (by omega)]
    rfl
  · intro p r hp hr
    unfold WorkDistribution.slice at hr
    obtain ⟨i, hi, hr⟩ := Option.bind_eq_some_iff.mp hr
    obtain ⟨j, hj, rfl⟩ := Option.map_eq_some_iff.mp hr
    rw [hstart] at hi hj
    rw [if_neg (by omega)] at hj
    have hj' : j = bound first off scale k := by
      split at hj
      · exact (Option.some.inj hj).symm
      · cases hj
    have hi' : i = bound first off scale k := by
      split at hi
      next h => rw [show p = k by omega] at hi; exact (Option.some.inj hi).symm
      next h =>
        split at hi
        · exact (Option.some.inj hi).symm
        · cases hi
    rw [hi', hj']
    exact Int.lt_irrefl _

end XKaapi.Foreach
