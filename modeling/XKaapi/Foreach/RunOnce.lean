/-
A parallel loop executes every iteration once.

`ForeachOk` is the property, of the states of a run: every iteration has
been executed once or is in one place, `workremain` is the number of the
iterations not accounted as done, which are executed before they are, and
it is 0 only when every slice is taken and every iteration executed. A
loop started by the thread 0 has it in all its runs (`foreach_once`);
`foreach_twice` is a run of two threads, started by the other one, that
executes an iteration twice.
-/
import XKaapi.Foreach.Partition
import XKaapi.Foreach.RunSplit

namespace XKaapi.Foreach

open Bitmap Tally
open Function (update update_of_ne update_self)

variable {w : Nat} {c : Config w}

-- ======== property

/-- How many times an iteration is still to be executed. -/
def St.pending (s : St w) (x : Int) : Nat := s.places x + s.hands x

structure ForeachOk (c : Config w) (s : St w) : Prop where
  once : ∀ x, tally s.executed x + s.pending x = ind (c.first, c.last) x
  remain : s.workremain = ((Finset.Ico c.first c.last).filter
    fun x => tally s.accounted x = 0).card
  accounted : ∀ x, tally s.accounted x ≤ tally s.executed x
  finished : s.workremain = 0 → s.wa.map = 0
    ∧ ∀ x, tally s.executed x = ind (c.first, c.last) x
  returned : ∀ t, (s.thread t).pc = .ret → s.workremain = 0
  defined : (∀ t, (s.thread t).pc ≠ .undefined)
    ∧ ∀ vid, s.split vid ≠ .undefined

section

variable {c : Config w} {k : Nat} {s : St w}

theorem Inv.hand_le (h : Inv c k s) (t : Nat) (x : Int) :
    (s.thread t).pc.hand x ≤ tally (s.thread t).batch x := by
  have hok := (h.threads t).pcOk
  unfold Thread.PcOk at hok
  cases hpc : (s.thread t).pc <;> rw [hpc] at hok
  case body i j => exact ind_le_tally hok.2 x
  all_goals exact Nat.zero_le _

theorem Inv.map_of_zero (h : Inv c k s) (hzero : s.workremain = 0) :
    s.wa.map = 0 := by
  apply eq_zero_iff.mpr
  intro p
  by_contra hbit
  rw [Bool.not_eq_false] at hbit
  obtain ⟨i, j, -, hlt, hind⟩ := h.identity.slice (h.mapLow p hbit)
  have hone : sliceInd s.wa p i = 1 := by
    rw [hind i]
    exact ind_eq_one_iff.mpr ⟨Int.le_refl i, hlt⟩
  have hle := sliceInd_le_mapInd s.wa s.wa.map hbit i
  have hz := (h.places_of_zero hzero i).1
  unfold St.places at hz
  omega

theorem Inv.foreachOk (h : Inv c k s) : ForeachOk c s where
  once x := by
    have htotal := h.total x
    have hexec := h.exec x
    unfold St.pending
    omega
  remain := h.workremain_eq
  accounted x := by
    have hexec := h.exec x
    have hle : ∑ t ∈ Finset.range w, (s.thread t).pc.hand x
        ≤ ∑ t ∈ Finset.range w, tally (s.thread t).batch x :=
      Finset.sum_le_sum fun t _ => h.hand_le t x
    unfold St.hands St.popped at hexec
    omega
  finished hzero := by
    refine ⟨h.map_of_zero hzero, fun x => ?_⟩
    have hexec := h.exec x
    have hacc := h.accounted_of_zero hzero x
    have hle : ∑ t ∈ Finset.range w, (s.thread t).pc.hand x
        ≤ ∑ t ∈ Finset.range w, tally (s.thread t).batch x :=
      Finset.sum_le_sum fun t _ => h.hand_le t x
    have htotal := h.total x
    unfold St.popped at htotal
    unfold St.hands St.popped at hexec
    omega
  returned t hret := by
    have hok := (h.threads t).pcOk
    unfold Thread.PcOk at hok
    rw [hret] at hok
    exact hok.1
  defined := by
    refine ⟨fun t hpc => ?_, fun vid hsp => ?_⟩
    · have hok := (h.threads t).pcOk
      unfold Thread.PcOk at hok
      rw [hpc] at hok
      exact hok
    · have hok := h.splits vid
      rw [hsp] at hok
      exact hok

end

-- ======== initial state

/-- Started by the thread 0 on the `k` lowest threads, the positions are
the kernel ids. -/
theorem initTid2pos_self {mask : BitVec w} {k : Nat} (hk : 0 < k)
    (hmask : LowBits mask k) {concurrency t : Nat} (ht : t < concurrency) :
    initTid2pos mask 0 k concurrency t = some (if t < k then t else noPos) := by
  have hfold : ∀ n, (List.range (n + 1)).foldl (tid2posStep mask 0 k)
      (if mask.getLsbD 0 then
        (1, update (fun _ => none) 0 (some 0))
      else (0, fun _ => none))
      = (min (n + 1) k, fun t =>
        if t < n + 1 then some (if t < k then t else noPos) else none) := by
    intro n
    induction n with
    | zero =>
      have hbit : mask.getLsbD 0 = true := by
        rw [hmask 0]
        exact decide_eq_true hk
      rw [hbit]
      show (1, update (fun _ => none) 0 (some 0)) = _
      congr 1
      · omega
      · funext t
        by_cases ht : t = 0
        · rw [ht, update_self, if_pos Nat.zero_lt_one, if_pos hk]
        · rw [update_of_ne ht, if_neg (by omega)]
    | succ n ih =>
      rw [List.range_succ, List.foldl_append, ih, List.foldl_cons,
        List.foldl_nil]
      unfold tid2posStep
      rw [if_neg (Nat.succ_ne_zero n), hmask (n + 1)]
      simp only [decide_eq_true_eq]
      have htable : ∀ o, o = some (if n + 1 < k then n + 1 else noPos) →
          update (fun t => if t < n + 1 then
              some (if t < k then t else noPos) else none) (n + 1) o
            = fun t => if t < n + 1 + 1 then
              some (if t < k then t else noPos) else none := by
        intro o ho
        funext t
        by_cases ht : t = n + 1
        · rw [ht, update_self, ho, if_pos (Nat.lt_succ_self (n + 1))]
        rw [update_of_ne ht]
        by_cases ht' : t < n + 1
        · rw [if_pos ht', if_pos (Nat.lt_succ_of_lt ht')]
        · rw [if_neg ht', if_neg (show ¬ t < n + 1 + 1 by omega)]
      by_cases hlt : n + 1 < k
      · have hmin : min (n + 1) k = n + 1 := Nat.min_eq_left hlt.le
        rw [hmin, if_pos ⟨hlt, hlt⟩, htable _ (congrArg some (if_pos hlt).symm),
          Nat.min_eq_left (Nat.succ_le_of_lt hlt)]
      · rw [if_neg fun h => hlt h.1,
          htable _ (congrArg some (if_neg hlt).symm), Nat.min_eq_right
            (Nat.le_of_not_lt hlt), Nat.min_eq_right
            (Nat.le_succ_of_le (Nat.le_of_not_lt hlt))]
  obtain ⟨n, rfl⟩ := Nat.exists_eq_succ_of_ne_zero
    (Nat.ne_of_gt (Nat.zero_lt_of_lt ht))
  unfold initTid2pos
  rw [hfold n]
  exact if_pos ht

/-- What a loop is started with, when the thread 0 starts it: a range of
`int32_t`, the full cpu set, positive grains. Where the bitmaps have three
words, at most 128 threads have a slice: `unset_at` leaves the request of
the others in the list. -/
structure Config.Zero (c : Config w) : Prop where
  selfTid : c.selfTid = 0
  cpuset : ∀ i < c.nthreads, c.cpuset.getLsbD i = true
  nthreads : 0 < c.nthreads
  le : c.nthreads ≤ c.concurrency
  concurrency : c.concurrency ≤ w
  width : w < noPos
  words : ThreeWords w → c.nthreads ≤ 128 ∨ c.last - c.first ≤ 128
  int32 : -2 ^ 31 ≤ c.first ∧ c.last < 2 ^ 31
  parGrain : 0 < c.parGrain
  seqGrain : 0 < c.seqGrain

/-- The distribution of such a loop: `k` slices for the `k` lowest
threads, which tile the range. -/
theorem Config.Zero.distribution (h : c.Zero) (hrange : c.first < c.last) :
    ∃ k wa, 0 < k ∧ foreachInitwa c.selfTid c.cpuset c.nthreads c.concurrency
        c.first c.last = some wa
      ∧ Identity c wa k ∧ LowBits wa.map k
      ∧ ∀ x, ∑ p ∈ Finset.range k, sliceInd wa p x
        = ind (c.first, c.last) x := by
  have hint := h.int32
  have hn : c.nthreads ≤ w := h.le.trans h.concurrency
  have hcount : threadCount c.cpuset c.nthreads = c.nthreads :=
    Nat.count_of_forall fun i hi => h.cpuset i hi
  have hsize : 0 < c.last - c.first := by omega
  obtain ⟨mask, hres⟩ := exists_reserved c.cpuset hsize hn
  have hk := hres.valueCount (by omega) hn
  have hlow : LowBits mask (valueCount mask) := by
    refine (hres.lowBits_iff (by omega) hn).mpr (.inr fun i hi _ => ?_)
    rw [hcount]
    exact hi
  have hpos : 0 < valueCount mask := by
    have := h.nthreads
    omega
  have hle : (valueCount mask : Int) ≤ c.last - c.first := by omega
  obtain ⟨l, htiles, hslices, -⟩ := distribution_slices c.selfTid c.concurrency
    (Nat.ne_of_gt hpos) hle
  let wa := XKaapi.Foreach.distribution c.selfTid c.concurrency c.first
    (c.last - c.first) mask
  have hslice : ∀ p < valueCount mask, ∃ r ∈ l, wa.slice p = some r := by
    intro p hp
    have hmem := List.mem_map_of_mem (f := wa.slice) (List.mem_range.mpr hp)
    rw [show (List.range (valueCount mask)).map wa.slice = l.map some from
      hslices] at hmem
    obtain ⟨r, hr, hrs⟩ := List.mem_map.mp hmem
    exact ⟨r, hr, hrs.symm⟩
  refine ⟨valueCount mask, wa, hpos, ?_, ?_, hlow, fun x => ?_⟩
  · refine (foreachInitwa_eq_some_iff hrange).mpr
      ⟨hn, ?_, ?_, mask, hres, rfl⟩
    · unfold longMax
      omega
    · rw [hcount]
      exact h.nthreads
  · refine
      { width := h.width
        concurrency := h.concurrency
        le := ?_
        words := fun hw => ?_
        tid2pos := fun t ht => ?_
        slices := fun p hp => ?_
        range := hrange
        int32 := hint
        parGrain := h.parGrain
        seqGrain := h.seqGrain }
    · have := h.le
      omega
    · have := h.words hw
      omega
    · show initTid2pos mask c.selfTid (valueCount mask) c.concurrency t = _
      rw [h.selfTid]
      exact initTid2pos_self hpos hlow ht
    · obtain ⟨r, hr, hs⟩ := hslice p hp
      exact ⟨r.1, r.2, hs, (htiles.mem_bounds hr).2.1⟩
  · rw [← tally_of_tiles htiles x]
    let f : Option (Int × Int) → Nat := fun o => o.elim 0 fun r => ind r x
    have hind : ∀ p, sliceInd wa p x = f (wa.slice p) := by
      intro p
      unfold sliceInd
      cases wa.slice p <;> rfl
    calc ∑ p ∈ Finset.range (valueCount mask), sliceInd wa p x
        = ∑ p ∈ Finset.range (valueCount mask), f (wa.slice p) :=
          Finset.sum_congr rfl fun p _ => hind p
      _ = (((List.range (valueCount mask)).map wa.slice).map f).sum := by
          rw [List.map_map]
          rfl
      _ = ((l.map some).map f).sum := by rw [show
          (List.range (valueCount mask)).map wa.slice = l.map some from hslices]
      _ = tally l x := by
          rw [List.map_map]
          rfl

/-- The slice of the thread 0 leaves the map for its queue, and the
others are in the map. -/
theorem inv_started {wa : WorkDistribution w} {k : Nat} {i j : Int}
    (hself : c.selfTid = 0) (hk : 0 < k) (hid : Identity c wa k) (hlow : LowBits wa.map k)
    (hsum : ∀ x, ∑ p ∈ Finset.range k, sliceInd wa p x = ind (c.first, c.last) x)
    (hij : i < j) (hind : ∀ x, sliceInd wa 0 x = ind (i, j) x) :
    Inv c k (c.started { wa with map := clearBit wa.map 0 } i j) := by
  have hkw : k ≤ w := hid.le.trans hid.concurrency
  have hbit : wa.map.getLsbD 0 = true := by
    rw [hlow 0]
    exact decide_eq_true hk
  let th : Thread := ⟨.worknext, idleThread.lwork.workinit i j, []⟩
  have hthread : (c.started { wa with map := clearBit wa.map 0 } i j).thread
      = update (fun _ => idleThread) 0 th := by
    unfold Config.started
    rw [hself]
  have hcases : ∀ t, (update (fun _ => idleThread) 0 th t = th ∧ t = 0)
      ∨ update (fun _ => idleThread) 0 th t = idleThread := by
    intro t
    by_cases ht : t = 0
    · exact .inl ⟨by rw [ht, update_self], ht⟩
    · exact .inr (update_of_ne ht ..)
  have hsums := fun f : Thread → Nat =>
    sum_update (hk.trans_le hkw) f (fun _ => idleThread) th
  refine
    { identity := hid.setMap _
      mapLow := fun p hp => ?_
      total := fun x => ?_
      exec := fun x => ?_
      counted := Int.add_zero _
      nonempty := fun r hr => by cases hr
      threads := fun t => ?_
      small := fun t ht => ?_
      waiting := fun t vid ht => ?_
      splits := fun vid => trivial
      splitSmall := fun vid hsp => absurd rfl hsp }
  · have hp : (clearBit wa.map 0).getLsbD p = true := hp
    rw [getLsbD_clearBit, Bool.and_eq_true, hlow p, decide_eq_true_eq] at hp
    exact hp.1
  · have hmap := mapInd_clearBit wa wa.map hbit x
    rw [mapInd_lowBits wa wa.map hkw hlow x, hsum x, hind x] at hmap
    have hidle : idleThread.place wa x = 0 :=
      (Nat.zero_add _).trans (ind_of_le (Int.le_refl (0 : Int)) x)
    have hplace := hsums fun th => th.place wa x
    have hbatch := hsums fun th => tally th.batch x
    have hth : th.place wa x = ind (i, j) x := Nat.zero_add _
    have hbatch₀ : tally th.batch x = 0 ∧ tally idleThread.batch x = 0 :=
      ⟨rfl, rfl⟩
    simp only [hidle, hth, hbatch₀.1, hbatch₀.2, Finset.sum_const_zero]
      at hplace hbatch
    unfold St.places St.popped
    rw [hthread]
    show mapInd wa (clearBit wa.map 0) x
        + ∑ t ∈ Finset.range w, (update (fun _ => idleThread) 0 th t).place wa x
        + ∑ t ∈ Finset.range w, 0
      + (0 + ∑ t ∈ Finset.range w,
        tally (update (fun _ => idleThread) 0 th t).batch x) = _
    rw [Finset.sum_const_zero]
    omega
  · have hbatch := hsums fun th => tally th.batch x
    have hhands := hsums fun th => th.pc.hand x
    have hbatch₀ : tally th.batch x = 0 ∧ tally idleThread.batch x = 0 :=
      ⟨rfl, rfl⟩
    have hhands₀ : th.pc.hand x = 0 ∧ idleThread.pc.hand x = 0 := ⟨rfl, rfl⟩
    simp only [hbatch₀.1, hbatch₀.2, hhands₀.1, hhands₀.2,
      Finset.sum_const_zero] at hbatch hhands
    unfold St.hands St.popped
    rw [hthread]
    show 0 + _ = 0 + _
    omega
  · rw [hthread]
    rcases hcases t with ⟨ht, -⟩ | ht
    · rw [ht]
      exact ⟨hij.le, rfl, (fun r hr => by cases hr), trivial⟩
    · rw [ht]
      exact ⟨Int.le_refl 0, rfl, (fun r hr => by cases hr), rfl, rfl⟩
  · rw [hthread] at ht
    rcases hcases t with ⟨-, h0⟩ | hidle
    · rw [h0]
      exact hk.trans_le hkw
    · rw [hidle] at ht
      exact absurd rfl ht
  · rw [hthread] at ht
    rcases hcases t with ⟨hth, -⟩ | hidle
    · rw [hth] at ht
      cases ht
    · rw [hidle] at ht
      cases ht

theorem Config.Zero.inv (h : c.Zero) (hrange : c.first < c.last) :
    ∃ k wa i j, i < j ∧ foreachWorkinit c = some (some (c.started wa i j))
      ∧ Inv c k (c.started wa i j) := by
  obtain ⟨k, wa, hk, hinit, hid, hlow, hsum⟩ := h.distribution hrange
  obtain ⟨i, j, hs, hij, hind⟩ := hid.slice hk
  have hbit : wa.map.getLsbD 0 = true := by
    rw [hlow 0]
    exact decide_eq_true hk
  have hpop : globalWorkPop wa (c.last - c.first) c.selfTid
      = some ({ wa with map := clearBit wa.map 0 }, some (i, j)) := by
    unfold globalWorkPop
    rw [h.selfTid, hid.tid2pos 0 (hk.trans_le hid.le), if_pos hk,
      Option.bind_some, if_neg (show (0 : Nat) ≠ noPos by decide)]
    unfold unset
    rw [hbit]
    simp only
    rw [hs, Option.map_some, if_neg (show c.last - c.first ≠ 0 by omega)]
  refine ⟨k, _, i, j, hij, ?_, inv_started h.selfTid hk hid hlow hsum hij hind⟩
  unfold foreachWorkinit
  rw [if_neg (not_le.mpr hrange), hinit, Option.bind_some, hpop]
  rfl

-- ======== results

/-- Every iteration of a loop started by the thread 0 is executed once,
and `workremain` is exact, in every run; only an empty range has none. -/
theorem foreach_once (c : Config w) (h : c.Zero) :
    ∃ o, foreachWorkinit c = some o ∧ (o = none ↔ c.last ≤ c.first)
      ∧ ∀ s₀, o = some s₀ →
        ∀ acts s, StepMachine.run (step c) acts s₀ = some s →
          ForeachOk c s := by
  by_cases hrange : c.last ≤ c.first
  · exact ⟨none, if_pos hrange, iff_of_true rfl hrange,
      fun s₀ hs => by cases hs⟩
  obtain ⟨k, wa, i, j, -, hinit, hinv⟩ := h.inv (not_le.mp hrange)
  refine ⟨_, hinit, iff_of_false nofun hrange, fun s hs acts s' hrun => ?_⟩
  cases hs
  exact (StepMachine.run_preserves (P := Inv c k)
    (fun h hstep => step_inv h hstep) hinv hrun).foreachOk

theorem foreach_once_twoThreads :
    ∃ o, foreachWorkinit (⟨0, 0b11, 2, 2, 0, 10, 1, 1⟩ : Config 64) = some o
      ∧ (o = none ↔ (10 : Int) ≤ 0)
      ∧ ∀ s₀, o = some s₀ → ∀ acts s,
        StepMachine.run (step ⟨0, 0b11, 2, 2, 0, 10, 1, 1⟩) acts s₀ = some s →
          ForeachOk (⟨0, 0b11, 2, 2, 0, 10, 1, 1⟩ : Config 64) s :=
  foreach_once ⟨0, 0b11, 2, 2, 0, 10, 1, 1⟩
    { selfTid := rfl
      cpuset := by decide
      nthreads := by decide
      le := by decide
      concurrency := by decide
      width := by decide
      words := by decide
      int32 := by decide
      parGrain := by decide
      seqGrain := by decide }

/-- The thread 1 of two starts a loop on `[0, 2)`. Its slice is at the
position 0, and the splitter that serves the thread 0 replies to the
thread of the kernel id 1, the position of the slice it took: the thread
1 executes its slice again. -/
theorem foreach_twice :
    ∃ s₀ acts s, foreachWorkinit (⟨1, 0b11, 2, 2, 0, 2, 1, 1⟩ : Config 64)
        = some (some s₀)
      ∧ StepMachine.run (step ⟨1, 0b11, 2, 2, 0, 2, 1, 1⟩) acts s₀ = some s
      ∧ s.executed = [(0, 1), (0, 1)]
      ∧ ¬ ForeachOk (⟨1, 0b11, 2, 2, 0, 2, 1, 1⟩ : Config 64) s := by
  let c : Config 64 := ⟨1, 0b11, 2, 2, 0, 2, 1, 1⟩
  let acts : List (Act 64) := [.thread 1, .thread 1, .thread 1,
    .beginSplit 1 0b1, .split 1, .split 1, .split 1, .split 1, .split 1,
    .thread 1, .thread 1, .thread 1]
  have heval : ((foreachWorkinit c).join.bind
      (StepMachine.run (step c) acts)).map (·.executed)
        = some [(0, 1), (0, 1)] := by decide +kernel
  obtain ⟨s, hs, hexe⟩ := Option.map_eq_some_iff.mp heval
  obtain ⟨s₀, hinit, hrun⟩ := Option.bind_eq_some_iff.mp hs
  refine ⟨s₀, acts, s, Option.join_eq_some_iff.mp hinit, hrun, hexe,
    fun hok => ?_⟩
  have htwice := hok.once 0
  rw [hexe] at htwice
  have : tally [((0 : Int), (1 : Int)), (0, 1)] 0 = 2 := by decide
  have : ind ((0 : Int), (2 : Int)) 0 = 1 := by decide
  have htwice : 2 + s.pending 0 = 1 := htwice
  omega

end XKaapi.Foreach
