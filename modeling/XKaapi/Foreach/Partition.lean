/-
The slices of a parallel loop are a partition of its range.

`DistributionOk` states what the initial distribution is for, over every
order in which the threads of the runtime pop the slices. The bits of
the map are set from kernel ids and cleared as positions, so this needs
the two to agree: `exists_distributionOk_iff` says that the slices are a
partition of the range iff the reserved threads are the lowest ones, and
the calling thread is one of them.

The proof follows one run of pops (`popRun_spec`): a pop clears one bit
of the map and returns the slice of its position, so that the positions
popped once the map is empty are all those it started with.
-/
import XKaapi.Foreach.Distribution

namespace XKaapi.Foreach

open Bitmap

variable {w : Nat} {wa' wa : WorkDistribution w} {tid nthreads : Nat}
  {rem first last : Int} {ps tids : List Nat} {l : List (Int × Int)}

-- ======== properties

/-- The ranges are nonempty, pairwise disjoint, and together they are
`[first, last)`. -/
structure IsPartition (first last : Int) (l : List (Int × Int)) : Prop where
  nonempty : ∀ r ∈ l, r.1 < r.2
  disjoint : l.Pairwise RangeDisjoint
  cover : ∀ i, i ∈ Set.Ico first last ↔ ∃ r ∈ l, i ∈ Set.Ico r.1 r.2

/-- What the distribution is for. However the threads of the runtime pop
the slices, the slices popped once none is left are a partition of the
range. A thread of the map is given a position of its own, and obtains
the slice of this position unless another thread took it before. -/
structure DistributionOk (selfTid : Nat) (cpuset : BitVec w)
    (nthreads concurrency : Nat) (first last : Int)
    (wa : WorkDistribution w) : Prop where
  computed : foreachInitwa selfTid cpuset nthreads concurrency first last
    = some wa
  pops : ∀ tids : List Nat, (∀ tid ∈ tids, tid < concurrency) →
    ∃ wa' l, popRun (last - first) tids wa = some (wa', l)
      ∧ (wa'.map = 0 → IsPartition first last l)
  reserved : ∀ tid < concurrency, wa.map.getLsbD tid = true →
    ∃ pos r, wa.tid2pos tid = some pos ∧ pos ≠ noPos
      ∧ wa.map.getLsbD pos = true ∧ wa.slice pos = some r
      ∧ ∀ tids wa' l, popRun (last - first) tids wa = some (wa', l) →
        wa'.map.getLsbD pos = true →
        ∃ wa'', globalWorkPop wa' (last - first) tid = some (wa'', some r)
  distinct : ∀ tid tid' pos, wa.tid2pos tid = some pos →
    wa.tid2pos tid' = some pos → pos ≠ noPos → tid = tid'

-- ======== pops

/-- The slice `p` is taken from the map. -/
def WorkDistribution.take (wa : WorkDistribution w) (p : Nat) :
    WorkDistribution w :=
  { wa with map := clearBit wa.map p }

theorem repopAny_cases {o : Option (Int × Int)} (h : repopAny wa = some (wa', o)) :
    (wa.map = 0 ∧ wa' = wa ∧ o = none)
      ∨ ∃ p r, wa.map.getLsbD p = true ∧ wa.slice p = some r
          ∧ wa' = wa.take p ∧ o = some r := by
  unfold repopAny at h
  rcases valueFirst1AndZero_cases wa.map with ⟨hz, he⟩ | ⟨p, hp, he⟩
  · rw [show first1AndZero wa.map = _ from he] at h
    cases h
    exact .inl ⟨hz, rfl, rfl⟩
  · rw [show first1AndZero wa.map = _ from he] at h
    obtain ⟨r, hr, h⟩ := Option.map_eq_some_iff.mp h
    cases h
    exact .inr ⟨p, r, hp, hr, rfl, rfl⟩

/-- What a pop does while iterations remain: nothing is left and it
returns no slice, or it takes the slice of one bit of the map. -/
theorem globalWorkPop_cases {o : Option (Int × Int)} (hrem : rem ≠ 0)
    (h : globalWorkPop wa rem tid = some (wa', o)) :
    (wa.map = 0 ∧ wa' = wa ∧ o = none)
      ∨ ∃ p r, wa.map.getLsbD p = true ∧ wa.slice p = some r
          ∧ wa' = wa.take p ∧ o = some r := by
  unfold globalWorkPop unset at h
  obtain ⟨pos, -, h⟩ := Option.bind_eq_some_iff.mp h
  by_cases hno : pos = noPos
  · rw [if_pos hno] at h
    exact repopAny_cases h
  rw [if_neg hno] at h
  by_cases hset : wa.map.getLsbD pos = true
  · rw [hset] at h
    obtain ⟨r, hr, h⟩ := Option.map_eq_some_iff.mp h
    rw [if_neg hrem] at h
    cases h
    exact .inr ⟨pos, r, hset, hr, rfl, rfl⟩
  · rw [Bool.eq_false_iff.mpr hset] at h
    exact repopAny_cases h

theorem globalWorkPop_own {pos : Nat} {r : Int × Int} (hrem : rem ≠ 0)
    (htid : wa.tid2pos tid = some pos) (hpos : pos ≠ noPos)
    (hset : wa.map.getLsbD pos = true) (hr : wa.slice pos = some r) :
    globalWorkPop wa rem tid = some (wa.take pos, some r) := by
  unfold globalWorkPop unset
  rw [htid, Option.bind_some, if_neg hpos, hset, hr]
  show some (_, if rem = 0 then none else some r) = _
  rw [if_neg hrem]
  rfl

theorem exists_globalWorkPop (rem : Int) (htid : wa.tid2pos tid ≠ none)
    (hslice : ∀ p, wa.map.getLsbD p = true → ∃ r, wa.slice p = some r) :
    ∃ res, globalWorkPop wa rem tid = some res := by
  obtain ⟨pos, hpos⟩ := Option.ne_none_iff_exists'.mp htid
  have hany : ∃ res, repopAny wa = some res := by
    unfold repopAny
    rcases valueFirst1AndZero_cases wa.map with ⟨hz, he⟩ | ⟨p, hp, he⟩
    · rw [show first1AndZero wa.map = _ from he]
      exact ⟨_, rfl⟩
    · obtain ⟨r, hr⟩ := hslice p hp
      rw [show first1AndZero wa.map = _ from he]
      show ∃ res, (wa.slice p).map _ = some res
      rw [hr]
      exact ⟨_, rfl⟩
  unfold globalWorkPop unset
  rw [hpos, Option.bind_some]
  by_cases hno : pos = noPos
  · rw [if_pos hno]
    exact hany
  · rw [if_neg hno]
    by_cases hset : wa.map.getLsbD pos = true
    · obtain ⟨r, hr⟩ := hslice pos hset
      rw [hset, hr]
      exact ⟨_, rfl⟩
    · rw [Bool.eq_false_iff.mpr hset]
      exact hany

/-- What a run of pops did: the slices it obtained are those of the
positions `ps`, which it cleared in the map, and no other. -/
structure Popped (wa wa' : WorkDistribution w) (ps : List Nat)
    (l : List (Int × Int)) : Prop where
  tables : wa'.tid2pos = wa.tid2pos ∧ wa'.startindex = wa.startindex
  slices : ps.map wa.slice = l.map some
  nodup : ps.Nodup
  bits : ∀ p, wa.map.getLsbD p = true ↔ p ∈ ps ∨ wa'.map.getLsbD p = true
  cleared : ∀ p ∈ ps, wa'.map.getLsbD p = false

theorem Popped.slice_eq (h : Popped wa wa' ps l) (p : Nat) :
    wa'.slice p = wa.slice p := by
  unfold WorkDistribution.slice
  rw [h.tables.2]

theorem Popped.exists_slice (h : Popped wa wa' ps l) {p : Nat} (hp : p ∈ ps) :
    ∃ r ∈ l, wa.slice p = some r := by
  have hmem := List.mem_map_of_mem (f := wa.slice) hp
  rw [h.slices] at hmem
  obtain ⟨r, hr, heq⟩ := List.mem_map.mp hmem
  exact ⟨r, hr, heq.symm⟩

/-- A pop before a run: its position goes in front. -/
theorem Popped.cons {p : Nat} {r : Int × Int} (hp : wa.map.getLsbD p = true)
    (hr : wa.slice p = some r) (h : Popped (wa.take p) wa' ps l) :
    Popped wa wa' (p :: ps) (r :: l) := by
  have hbit : ∀ q, (wa.take p).map.getLsbD q = true ↔
      wa.map.getLsbD q = true ∧ p ≠ q := by
    intro q
    show (clearBit wa.map p).getLsbD q = true ↔ _
    rw [getLsbD_clearBit, Bool.and_eq_true, decide_eq_true_eq]
  have hnot : ¬ (p ∈ ps ∨ wa'.map.getLsbD p = true) := by
    intro hor
    exact ((hbit p).mp ((h.bits p).mpr hor)).2 rfl
  refine ⟨h.tables, ?_, ?_, ?_, ?_⟩
  · rw [List.map_cons, List.map_cons, hr]
    exact congrArg _ h.slices
  · exact List.nodup_cons.mpr ⟨fun hmem => hnot (.inl hmem), h.nodup⟩
  · intro q
    rw [List.mem_cons]
    by_cases hq : q = p
    · rw [hq]
      exact iff_of_true hp (.inl (.inl rfl))
    · constructor
      · intro hset
        rcases (h.bits q).mp ((hbit q).mpr ⟨hset, Ne.symm hq⟩) with hmem | hset
        · exact .inl (.inr hmem)
        · exact .inr hset
      · intro hor
        have hor' : q ∈ ps ∨ wa'.map.getLsbD q = true := by
          rcases hor with (hqp | hmem) | hset
          · exact absurd hqp hq
          · exact .inl hmem
          · exact .inr hset
        exact ((hbit q).mp ((h.bits q).mpr hor')).1
  · intro q hq
    rcases List.mem_cons.mp hq with hqp | hmem
    · rw [hqp]
      exact Bool.eq_false_iff.mpr fun hset => hnot (.inr hset)
    · exact h.cleared q hmem

theorem popRun_spec (hrem : rem ≠ 0) :
    ∀ {wa wa' : WorkDistribution w} {l : List (Int × Int)},
      popRun rem tids wa = some (wa', l) → ∃ ps, Popped wa wa' ps l := by
  induction tids with
  | nil =>
    intro wa wa' l h
    cases h
    exact ⟨[], ⟨rfl, rfl⟩, rfl, List.nodup_nil, fun p => by simp,
      fun p hp => by cases hp⟩
  | cons tid tids ih =>
    intro wa wa' l h
    obtain ⟨⟨wa₁, o⟩, hpop, h⟩ := Option.bind_eq_some_iff.mp h
    obtain ⟨⟨wa₂, l₂⟩, hrun, h⟩ := Option.map_eq_some_iff.mp h
    cases h
    obtain ⟨ps, hps⟩ := ih hrun
    rcases globalWorkPop_cases hrem hpop with
      ⟨-, rfl, rfl⟩ | ⟨p, r, hp, hr, rfl, rfl⟩
    · exact ⟨ps, hps⟩
    · exact ⟨p :: ps, hps.cons hp hr⟩

theorem exists_popRun (hrem : rem ≠ 0) :
    ∀ {wa : WorkDistribution w}, (∀ tid ∈ tids, wa.tid2pos tid ≠ none) →
      (∀ p, wa.map.getLsbD p = true → ∃ r, wa.slice p = some r) →
      ∃ wa' l, popRun rem tids wa = some (wa', l) := by
  induction tids with
  | nil =>
    intro wa _ _
    exact ⟨wa, [], rfl⟩
  | cons tid tids ih =>
    intro wa htid hslice
    obtain ⟨⟨wa₁, o⟩, hpop⟩ := exists_globalWorkPop rem
      (htid tid List.mem_cons_self) hslice
    have hrest : ∃ wa' l, popRun rem tids wa₁ = some (wa', l) := by
      rcases globalWorkPop_cases hrem hpop with
        ⟨-, rfl, -⟩ | ⟨p, r, hp, hr, rfl, -⟩
      · exact ih (fun t ht => htid t (List.mem_cons_of_mem _ ht)) hslice
      · refine ih (fun t ht => htid t (List.mem_cons_of_mem _ ht))
          fun q hq => hslice q ?_
        have hq' : (clearBit wa.map p).getLsbD q = true := hq
        rw [getLsbD_clearBit, Bool.and_eq_true] at hq'
        exact hq'.1
    obtain ⟨wa', l, hrun⟩ := hrest
    refine ⟨wa', o.toList ++ l, ?_⟩
    show (globalWorkPop wa rem tid).bind _ = _
    rw [hpop, Option.bind_some, hrun]
    rfl

theorem popRun_count (hrem : rem ≠ 0) :
    ∀ {wa wa' : WorkDistribution w} {l : List (Int × Int)},
      popRun rem tids wa = some (wa', l) →
      valueCount wa'.map = valueCount wa.map - tids.length := by
  induction tids with
  | nil =>
    intro wa wa' l h
    cases h
    rfl
  | cons tid tids ih =>
    intro wa wa' l h
    obtain ⟨⟨wa₁, o⟩, hpop, h⟩ := Option.bind_eq_some_iff.mp h
    obtain ⟨⟨wa₂, l₂⟩, hrun, h⟩ := Option.map_eq_some_iff.mp h
    cases h
    rw [ih hrun, List.length_cons]
    rcases globalWorkPop_cases hrem hpop with
      ⟨hz, rfl, -⟩ | ⟨p, r, hp, -, rfl, -⟩
    · rw [valueCount_eq_zero_iff.mpr hz]
      omega
    · have hcount : valueCount (wa.take p).map + 1 = valueCount wa.map :=
        valueCount_clearBit hp
      show valueCount (wa.take p).map - tids.length = _
      omega

-- ======== partitions

theorem IsPartition.of_perm {l' : List (Int × Int)} (h : Tiles first last l)
    (hperm : l.Perm l') : IsPartition first last l' where
  nonempty r hr := (h.mem_bounds (hperm.mem_iff.mpr hr)).2.1
  disjoint := hperm.pairwise h.pairwise fun hd => Disjoint.symm hd
  cover i := by
    rw [h.mem_Ico_iff i]
    constructor
    · intro ⟨r, hr, hi⟩
      exact ⟨r, hperm.mem_iff.mp hr, hi⟩
    · intro ⟨r, hr, hi⟩
      exact ⟨r, hperm.mem_iff.mpr hr, hi⟩

/-- When the bits of the map are the positions of a tiling, the slices
popped until none is left are a partition. -/
theorem Popped.isPartition {k : Nat} {t : List (Int × Int)} (h : Popped wa wa' ps l)
    (hmap : LowBits wa.map k) (hzero : wa'.map = 0) (ht : Tiles first last t)
    (hslices : (List.range k).map wa.slice = t.map some) : IsPartition first last l := by
  have hperm : ps.Perm (List.range k) := by
    rw [List.perm_ext_iff_of_nodup h.nodup List.nodup_range]
    intro p
    rw [List.mem_range, ← decide_eq_true_iff (p := p < k), ← hmap p, h.bits p,
      eq_zero_iff.mp hzero p]
    simp
  apply IsPartition.of_perm ht
  have hmapped : (t.map some).Perm (l.map some) := by
    rw [← hslices, ← h.slices]
    exact (hperm.map wa.slice).symm
  exact (List.map_perm_map_iff (Option.some_injective _)).mp hmapped

/-- The reserved threads are the lowest ones: there are fewer iterations
than threads, or the threads of the set are the lowest already. -/
theorem Reserved.lowBits_iff {cpuset mask : BitVec w} {rangeSize : Int}
    (hpos : 0 < rangeSize) (hn : nthreads ≤ w)
    (h : Reserved cpuset nthreads rangeSize mask) :
    LowBits mask (Bitmap.valueCount mask) ↔
      rangeSize < threadCount cpuset nthreads
        ∨ ∀ i < nthreads, cpuset.getLsbD i = true →
          i < threadCount cpuset nthreads := by
  have hcount := h.valueCount hpos hn
  by_cases hfew : rangeSize < threadCount cpuset nthreads
  · refine iff_of_true ?_ (.inl hfew)
    have hlow := h.few hfew
    rwa [hlow.valueCount]
  · have hbit : ∀ i, mask.getLsbD i = true ↔
        i < nthreads ∧ cpuset.getLsbD i = true := by
      intro i
      rw [h.all hfew i, Bool.and_eq_true, decide_eq_true_eq]
    constructor
    · intro hlow
      refine .inr fun i hi hset => ?_
      have := (hbit i).mpr ⟨hi, hset⟩
      rw [hlow i, decide_eq_true_eq] at this
      omega
    · intro hor
      apply lowBits_of_forall_lt
      intro i hi
      have := hor.resolve_left hfew i ((hbit i).mp hi).1 ((hbit i).mp hi).2
      omega

theorem exists_reserved (cpuset : BitVec w) {rangeSize : Int} (hpos : 0 < rangeSize)
    (hn : nthreads ≤ w) : ∃ mask : BitVec w, Reserved cpuset nthreads rangeSize mask := by
  obtain ⟨low, hlow⟩ : ∃ low : BitVec w, LowBits low nthreads :=
    ⟨_, (valueSetLowBits_eq_some_iff.mp (if_pos hn)).2⟩
  by_cases hfew : rangeSize < threadCount cpuset nthreads
  · have hle : threadCount cpuset nthreads ≤ w := by
      rw [← valueCount_low_and hlow]
      exact valueCount_le _
    have hrange : rangeSize.toNat ≤ w := by omega
    exact ⟨_, fun _ => (valueSetLowBits_eq_some_iff.mp (if_pos hrange)).2,
      fun h => absurd hfew h⟩
  · refine ⟨low &&& cpuset, fun h => absurd h hfew, fun _ i => ?_⟩
    rw [BitVec.getLsbD_and, hlow i]

/-- The distribution over the `k` lowest threads, the calling one being
one of them, does what it is for. -/
theorem distribution_ok (hw : w < noPos) {selfTid concurrency : Nat}
    {cpuset mask : BitVec w} (hr : first < last)
    (hcomputed : foreachInitwa selfTid cpuset nthreads concurrency first last
      = some (distribution selfTid concurrency first (last - first) mask))
    (hle : (valueCount mask : Int) ≤ last - first) (hlow : LowBits mask (valueCount mask))
    (hself : mask.getLsbD selfTid = true) :
    DistributionOk selfTid cpuset nthreads concurrency first last
      (distribution selfTid concurrency first (last - first) mask) := by
  have hne : valueCount mask ≠ 0 := by
    intro hzero
    rw [hlow selfTid, hzero] at hself
    cases hself
  have hrem : last - first ≠ 0 := by omega
  obtain ⟨t, ht, hslices, -⟩ :=
    distribution_slices selfTid concurrency hne hle
  obtain ⟨c, hpos⟩ := initTid2pos_spec mask selfTid concurrency
  have hc : c ≤ valueCount mask := by
    rw [show c = _ from hpos.count, valueCount_eq_card]
    exact Finset.card_filter_le _ _
  have hzero : initTid2pos mask selfTid (valueCount mask) concurrency selfTid
      = some 0 :=
    hpos.self.trans (if_pos hself)
  have hslice : ∀ p, mask.getLsbD p = true → ∃ r,
      (distribution selfTid concurrency first (last - first) mask).slice p
        = some r := by
    intro p hp
    rw [hlow p, decide_eq_true_eq] at hp
    have hmem := List.mem_map_of_mem
      (f := (distribution selfTid concurrency first (last - first) mask).slice)
      (List.mem_range.mpr hp)
    rw [hslices] at hmem
    obtain ⟨r, -, hr⟩ := List.mem_map.mp hmem
    exact ⟨r, hr.symm⟩
  refine ⟨hcomputed, ?_, ?_, hpos.inj⟩
  · intro tids htids
    have hdefined : ∀ tid ∈ tids,
        initTid2pos mask selfTid (valueCount mask) concurrency tid ≠ none := by
      intro tid htid
      by_cases hts : tid = selfTid
      · rw [hts, hzero]
        exact Option.some_ne_none _
      · obtain ⟨pos, hp, -⟩ := hpos.other tid (htids tid htid) hts
        exact fun hnone => Option.some_ne_none pos (hp.symm.trans hnone)
    obtain ⟨wa', l, hrun⟩ : ∃ wa' l, popRun (last - first) tids
        (distribution selfTid concurrency first (last - first) mask)
        = some (wa', l) :=
      exists_popRun hrem hdefined hslice
    obtain ⟨ps, hps⟩ := popRun_spec hrem hrun
    exact ⟨wa', l, hrun, fun hzero => hps.isPartition hlow hzero ht hslices⟩
  · intro tid htid (hset : mask.getLsbD tid = true)
    obtain ⟨pos, hp, hlt⟩ : ∃ pos,
        initTid2pos mask selfTid (valueCount mask) concurrency tid = some pos
          ∧ pos < valueCount mask := by
      by_cases hts : tid = selfTid
      · exact ⟨0, hts ▸ hzero, Nat.pos_of_ne_zero hne⟩
      · obtain ⟨pos, hp, hcase⟩ := hpos.other tid htid hts
        exact ⟨pos, hp, Nat.lt_of_lt_of_le ((if_pos hset).mp hcase) hc⟩
    have hbit : mask.getLsbD pos = true := by
      rw [hlow pos]
      exact decide_eq_true hlt
    have hnoPos : pos ≠ noPos := by
      have := lt_of_getLsbD hbit
      omega
    obtain ⟨r, hr'⟩ := hslice pos hbit
    refine ⟨pos, r, hp, hnoPos, hbit, hr', fun tids wa' l hrun hleft => ?_⟩
    obtain ⟨ps, hps⟩ := popRun_spec hrem hrun
    refine ⟨_, globalWorkPop_own hrem ?_ hnoPos hleft ?_⟩
    · rw [hps.tables.1]
      exact hp
    · rw [hps.slice_eq]
      exact hr'

/-- The initial distribution of a foreach does what it is for iff the
threads it reserves slices for are the lowest ones, the calling thread
is one of them, and the two computations it starts with are defined. -/
theorem exists_distributionOk_iff (hw : w < noPos)
    {selfTid nthreads concurrency : Nat} {cpuset : BitVec w} {first last : Int}
    (hself : selfTid < concurrency) (hr : first < last) :
    (∃ wa, DistributionOk selfTid cpuset nthreads concurrency first last wa) ↔
      nthreads ≤ w ∧ last - first ≤ longMax
        ∧ selfTid < min (threadCount cpuset nthreads) (last - first).toNat
        ∧ (last - first < threadCount cpuset nthreads
          ∨ ∀ i < nthreads, cpuset.getLsbD i = true →
            i < threadCount cpuset nthreads) := by
  have hpos : 0 < last - first := by omega
  have hrem : last - first ≠ 0 := by omega
  constructor
  · intro ⟨wa, hok⟩
    obtain ⟨hn, hlong, hcount, mask, hres, rfl⟩ :=
      (foreachInitwa_eq_some_iff hr).mp hok.computed
    have hk := hres.valueCount hpos hn
    -- the calling thread pops: its entry was written
    have hin : mask.getLsbD selfTid = true := by
      obtain ⟨wa', l, hrun, -⟩ := hok.pops [selfTid] fun tid htid => by
        rwa [List.mem_singleton.mp htid]
      obtain ⟨res, hpop, -⟩ := Option.bind_eq_some_iff.mp hrun
      obtain ⟨pos, hp, -⟩ := Option.bind_eq_some_iff.mp hpop
      obtain ⟨c, hpositions⟩ := initTid2pos_spec mask selfTid concurrency
      by_contra hnot
      have hnone := hpositions.self.trans (if_neg hnot)
      exact Option.some_ne_none pos (hp.symm.trans hnone)
    -- it pops until the map is empty: no slice of the map is empty
    have hlow : LowBits mask (valueCount mask) := by
      apply lowBits_of_forall_lt
      intro p hp
      obtain ⟨wa', l, hrun, hpart⟩ := hok.pops
        (List.replicate (valueCount mask) selfTid) fun tid htid => by
          rwa [List.eq_of_mem_replicate htid]
      have hempty : wa'.map = 0 := by
        rw [← valueCount_eq_zero_iff, popRun_count hrem hrun,
          List.length_replicate]
        exact Nat.sub_self _
      obtain ⟨ps, hps⟩ := popRun_spec hrem hrun
      have hmem : p ∈ ps := by
        refine ((hps.bits p).mp hp).resolve_right ?_
        rw [eq_zero_iff.mp hempty p]
        exact Bool.false_ne_true
      obtain ⟨r, hrl, hr'⟩ := hps.exists_slice hmem
      have hne : valueCount mask ≠ 0 := by omega
      have hle : (valueCount mask : Int) ≤ last - first := by omega
      obtain ⟨-, -, -, hlate⟩ := distribution_slices selfTid concurrency hne hle
      by_contra hge
      exact hlate p r (Nat.le_of_not_lt hge) hr' ((hpart hempty).nonempty r hrl)
    refine ⟨hn, hlong, ?_, (hres.lowBits_iff hpos hn).mp hlow⟩
    rw [hlow selfTid, decide_eq_true_eq] at hin
    omega
  · intro ⟨hn, hlong, hin, hcase⟩
    obtain ⟨mask, hres⟩ := exists_reserved cpuset hpos hn
    have hk := hres.valueCount hpos hn
    have hlow := (hres.lowBits_iff hpos hn).mpr hcase
    refine ⟨_, distribution_ok hw hr ((foreachInitwa_eq_some_iff hr).mpr
      ⟨hn, hlong, by omega, mask, hres, rfl⟩) (by omega) hlow ?_⟩
    rw [hlow selfTid]
    exact decide_eq_true (by omega)

theorem exists_distributionOk_iff_fourThreads :
    ∃ wa, DistributionOk 0 (0xff : BitVec 64) 4 8 0 10 wa := by
  have hcount : threadCount (0xff : BitVec 64) 4 = 4 := by decide
  refine (exists_distributionOk_iff (by decide) (by decide)
    (by decide)).mpr ⟨by decide, by decide, ?_, .inr fun i hi _ => ?_⟩
  · rw [hcount]
    decide
  · rw [hcount]
    exact hi

/-- Thread 1 of 2 is the whole cpu set: the map has the bit 1, the only
slice is at the position 0, and the first pop returns an empty range. -/
theorem not_distributionOk_secondThread :
    ¬ ∃ wa, DistributionOk 1 (0b10 : BitVec 64) 2 2 0 10 wa := by
  intro ⟨wa, hok⟩
  obtain ⟨wa', l, hrun, hpart⟩ := hok.pops [1] (by decide)
  have heval : (foreachInitwa 1 (0b10 : BitVec 64) 2 2 0 10).bind
      (fun wa => (popRun (10 - 0) [1] wa).map fun p => (p.1.map, p.2))
      = some (0, [(10, 10)]) := by decide +kernel
  rw [hok.computed, Option.bind_some, hrun] at heval
  obtain ⟨hmap, hl⟩ := Prod.mk.inj (Option.some.inj heval)
  have hmem : (10, 10) ∈ l := by
    rw [show l = [(10, 10)] from hl]
    exact List.mem_singleton_self _
  have hlt := (hpart hmap).nonempty (10, 10) hmem
  exact absurd hlt (by decide)

end XKaapi.Foreach
