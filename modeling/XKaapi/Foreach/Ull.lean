/-
The parallel loop on 64-bit indices (kaapic_work_ull.c).

The file is a copy of kaapic_work.c in which an index, a size or a grain
is an `unsigned long long`. The accesses are those of the other version;
the arms that compute on indices are written again here, on words: an
integer in `[0, 2^64)`, and `ull` after each operation. The other arms
are `threadStep` and `splitStep`.

# What is left of the other version

Three places still go through a signed or a shorter type:
`kaapi_workqueue_size` and `kaapic_foreach_local_workinit`, which the
splitter calls, work on `long`, and `workdone` and `workremain` are
`long`; a sum of such words is one modulo `2^64` (`toLong`). And the body
is called on `(int)first` and `(int)last`. The thread that starts the
loop converts them back to `unsigned long long`, with their sign. A thief
calls the body through the pointer `body_f` of the other version, for
which the arguments are `int32_t`: what the body reads above these 32
bits is up to the calling convention (`Abi`).
-/
import XKaapi.Foreach.Run

namespace XKaapi.Foreach

open Bitmap
open Function (update update_of_ne update_self)

variable {w : Nat} {x : Int}

-- ======== words

/-- What an `unsigned long long` keeps of an integer. -/
def ull (x : Int) : Int := x % 2 ^ 64

/-- What a `long` keeps of an integer. -/
def toLong (x : Int) : Int := x.bmod (2 ^ 64)

/-- What a body on `unsigned long long` reads of an argument that was
passed as an `int32_t`: the value when it is not negative. -/
structure Abi where
  widen : Int → Int
  widen_nonneg : ∀ x, 0 ≤ x → x < 2 ^ 31 → widen x = x

/-- A 32-bit move clears the upper half of the register. -/
def Abi.zeroExtended : Abi where
  widen x := x % 2 ^ 32
  widen_nonneg _ hlo hhi := Int.emod_eq_of_lt hlo (by omega)

/-- What the body reads of an index, passed by the thread that started the
loop or by a thief. -/
def Abi.arg (abi : Abi) (owner : Bool) (x : Int) : Int :=
  if owner then ull (toInt32 x) else abi.widen (toInt32 x)

-- ======== state

/-- What a loop is started with. -/
structure ConfigUll (w : Nat) where
  selfTid : Nat
  cpuset : BitVec w
  nthreads : Nat
  concurrency : Nat
  first : BitVec 64
  last : BitVec 64
  parGrain : BitVec 64
  seqGrain : BitVec 64

/-- The loop of the other version on the same values. -/
def ConfigUll.toConfig (c : ConfigUll w) : Config w where
  selfTid := c.selfTid
  cpuset := c.cpuset
  nthreads := c.nthreads
  concurrency := c.concurrency
  first := c.first.toNat
  last := c.last.toNat
  parGrain := c.parGrain.toNat
  seqGrain := c.seqGrain.toNat

-- ======== start

/-- The table `startindex_ull`. -/
def initStartindexUll (first off scale : Int) (finalsize concurrency : Nat) :
    Nat → Option Int :=
  let s₀ := update (update (fun _ => none) 0 (some first))
    1 (some (ull (first + off + scale)))
  let s₁ := (List.range' 1 (finalsize - 1)).foldl
    (fun s i =>
      update s (i + 1) ((s i).map fun x => ull (x + scale))) s₀
  (List.range' finalsize (concurrency - finalsize)).foldl
    (fun s i => update s (i + 1) (s finalsize)) s₁

/-- The end of `_kaapic_foreach_initwa_ull`; `off` and `scale` are `long`. -/
def fillwaUll (selfTid concurrency : Nat) (first rangeSize : Int)
    (mask : BitVec w) (finalsize : Nat) : Option (WorkDistribution w) :=
  if finalsize = 0 then none
  else
    let off := toLong (rangeSize % finalsize)
    let scale := toLong (ull (rangeSize - off) / finalsize)
    some
      { map := mask
        tid2pos := initTid2pos mask selfTid finalsize concurrency
        startindex := initStartindexUll first off scale finalsize concurrency }

/-- _kaapic_foreach_initwa_ull -/
def foreachInitwaUll (selfTid : Nat) (cpuset : BitVec w)
    (nthreads concurrency : Nat) (first last : Int) :
    Option (WorkDistribution w) :=
  (valueSetLowBits w nthreads).bind fun low =>
    let mask := low &&& cpuset
    let sizemap := valueCount mask
    let rangeSize := ull (last - first)
    -- handle concurrency too high case
    if rangeSize < sizemap then
      (valueSetLowBits w rangeSize.toNat).bind fun mask' =>
        fillwaUll selfTid concurrency first rangeSize mask' rangeSize.toNat
    else fillwaUll selfTid concurrency first rangeSize mask sizemap

/-- kaapic_foreach_workinit_ull: `workremain` is a `long`. -/
def foreachWorkinitUll (c : ConfigUll w) : Option (Option (St w)) :=
  let cfg := c.toConfig
  if cfg.last ≤ cfg.first then some none
  else
    (foreachInitwaUll c.selfTid c.cpuset c.nthreads c.concurrency cfg.first
        cfg.last).bind fun wa =>
      let workremain := toLong (cfg.last - cfg.first)
      (globalWorkPop wa workremain c.selfTid).bind fun p =>
        p.2.map fun r => some
          { cfg.started p.1 r.1 r.2 with workremain := workremain }

-- ======== local queues

/-- kaapi_workqueue_pop_ull, and kaapi_workqueue_slowpop_ull when its fast
path fails. -/
def LocalWork.popUll (lwork : LocalWork) (maxSize : Int) :
    Option (LocalWork × Int × Int) :=
  let locBeg := ull (lwork.crBeg + maxSize)
  if locBeg < lwork.crEnd then
    -- no conflict
    some ({ lwork with crBeg := locBeg }, ull (locBeg - maxSize), locBeg)
  else if lwork.crEnd ≤ lwork.crBeg then none
  else
    let size := ull (lwork.crEnd - lwork.crBeg)
    let size := if maxSize < size then maxSize else size
    let locBeg := ull (lwork.crBeg + size)
    some ({ lwork with crBeg := locBeg }, ull (locBeg - size), locBeg)

/-- kaapi_workqueue_steal_ull -/
def LocalWork.stealUll (lwork : LocalWork) (size : Int) :
    Option (LocalWork × Int × Int) :=
  if lwork.crEnd < size then none
  else
    let locEnd := ull (lwork.crEnd - size)
    if locEnd < lwork.crBeg then none
    else some ({ lwork with crEnd := locEnd }, locEnd, ull (locEnd + size))

/-- kaapi_workqueue_size, of the version on `long`. -/
def LocalWork.sizeLong (lwork : LocalWork) : Int :=
  let size := toLong (lwork.crEnd - lwork.crBeg)
  if size < 0 then 0 else size

-- ======== threads

/-- `KAAPI_ATOMIC_SUB(&gwork->workremain, lwork->workdone)` -/
def St.accountUll (s : St w) (t : Nat) (pc : Pc) (init : Bool) : St w :=
  { s.account t pc init with
    workremain := toLong (s.workremain - (s.thread t).lwork.workdone) }

/-- Thread `t` has `[i, j)` to pass to the body. -/
def Thread.takeUll (th : Thread) (lwork : LocalWork) (i j : Int) : Thread :=
  ⟨.body i j, { lwork with workdone := toLong (th.lwork.workdone + (j - i)) },
    th.batch ++ [(i, j)]⟩

/-- The next access of thread `t`. -/
def threadStepUll (abi : Abi) (c : ConfigUll w) (t : Nat) (s : St w) :
    Option (St w) :=
  let th := s.thread t
  let seqGrain : Int := c.seqGrain.toNat
  match th.pc with
  | .pop =>
    match th.lwork.popUll seqGrain with
    | some (lwork, i, j) => some (s.setThread t (th.takeUll lwork i j))
    | none => some (s.goto t .popFailed)
  | .popFailed => some (s.accountUll t (.globalNext false) false)
  | .steal outer vid unitSize =>
    match (s.thread vid).lwork.stealUll unitSize with
    | none => some (s.goto t (.redoSelect outer))
    | some (lwork, i, j) =>
      some ((s.setThread vid { s.thread vid with lwork := lwork }).goto t
        (.refill i j))
  | .refill i j =>
    if ull (j - i) ≤ seqGrain then
      some (s.setThread t (th.takeUll th.lwork i j))
    else
      some (s.setThread t
        (th.takeUll (th.lwork.workinit (ull (i + seqGrain)) j) i
          (ull (i + seqGrain))))
  | .body i j =>
    let owner := t == c.selfTid
    some { s.goto t .worknext with
      executed := s.executed ++ [(abi.arg owner i, abi.arg owner j)] }
  | .loopEnd =>
    if toLong (s.workremain - th.lwork.workdone) = 0 then
      some (s.accountUll t .ret th.lwork.init)
    else some (s.accountUll t (.globalNext true) th.lwork.init)
  -- no index is computed
  | _ => threadStep c.toConfig t s

/-- Thread `t` looks at the victim `vid`. -/
def selectStepUll (c : ConfigUll w) (t vid : Nat) (s : St w) :
    Option (St w) :=
  match (s.thread t).pc with
  | .select outer =>
    let lwork := (s.thread vid).lwork
    -- never pass by this function for a processor to steal itself
    if vid = t then some (s.goto t (.redoSelect outer))
    else if lwork.init = false then some (s.goto t (.redoSelect outer))
    else if lwork.sizeLong ≤ c.parGrain.toNat then
      some (s.goto t (.redoSelect outer))
    else some (s.goto t (.steal outer vid (lwork.sizeLong / 2)))
  | _ => none

-- ======== splitters

/-- The sizes of the local split; `nreq` is an `int`. -/
def splitSizeUll (lwork : LocalWork) (parGrain : Int) (count : Nat) :
    Option (Int × Int) :=
  let rangeSize := lwork.sizeLong
  if lwork.init = false then none
  -- no enough work: stop stealing this task
  else if rangeSize ≤ parGrain then none
  else
    -- how much per non root req
    let nreq := (count : Int)
    let unitSize := rangeSize / (nreq + 1)
    if unitSize < parGrain then
      let nreq := toInt32 (ull (rangeSize / parGrain - 1))
      if nreq = 0 then none else some (nreq, parGrain)
    else some (nreq, unitSize)

/-- Thread `ident` is replied, by `kaapic_foreach_local_workinit`: the
bounds are converted to `long`, and read back as words. -/
def St.replyToLong (s : St w) (ident : Nat) (first last : Int) : St w :=
  s.replyTo ident (ull (toLong first)) (ull (toLong last))

/-- The next access of the splitter on `vid`. -/
def splitStepUll (c : ConfigUll w) (vid : Nat) (s : St w) : Option (St w) :=
  match s.split vid with
  | .send lri replymask tid first last =>
    some
      { (s.replyToLong tid first last).setSplit vid
          (.reply (lri.unsetAt tid) replymask) with
        workerdone := s.workerdone + 1 }
  | .skipGlobal lri =>
    match splitSizeUll (s.thread vid).lwork c.parGrain.toNat lri.count with
    | none => some (s.finish vid)
    | some (nreq, unitSize) =>
      some (s.setSplit vid (.stealLocal lri nreq unitSize))
  | .stealLocal lri nreq unitSize =>
    match (s.thread vid).lwork.stealUll (ull (nreq * unitSize)) with
    | none => some (s.finish vid)
    | some (lwork, _, last) =>
      some ((s.setThread vid { s.thread vid with lwork := lwork }).setSplit
        vid (.cut lri nreq.toNat unitSize last))
  | .cut lri nreq unitSize last =>
    match nreq, lri.idcurr with
    | nreq + 1, some ident =>
      some ((s.replyToLong ident (ull (last - unitSize)) last).setSplit vid
        (.cut lri.next nreq unitSize (ull (last - unitSize))))
    | _, _ => some (s.finish vid)
  -- no index is computed
  | _ => splitStep c.toConfig vid s

def stepUll (abi : Abi) (c : ConfigUll w) (a : Act w) (s : St w) :
    Option (St w) :=
  match a with
  | .thread t => threadStepUll abi c t s
  | .select t vid => selectStepUll c t vid s
  | .beginSplit vid requests => beginSplit c.toConfig vid requests s
  | .split vid => splitStepUll c vid s

-- ======== arithmetic

theorem ull_eq (hlo : 0 ≤ x) (hhi : x < 2 ^ 64) : ull x = x :=
  Int.emod_eq_of_lt hlo hhi

theorem toLong_eq (hlo : -2 ^ 63 ≤ x) (hhi : x < 2 ^ 63) : toLong x = x := by
  unfold toLong
  apply Int.bmod_eq_of_le
  · omega
  · omega

theorem ull_add (x y : Int) : ull (ull x + y) = ull (x + y) :=
  Int.emod_add_emod x (2 ^ 64) y

theorem Abi.arg_eq (abi : Abi) (owner : Bool) (hlo : 0 ≤ x) (hhi : x < 2 ^ 31) :
    abi.arg owner x = x := by
  have hint : toInt32 x = x := by
    unfold toInt32
    apply Int.bmod_eq_of_le
    · omega
    · omega
  unfold Abi.arg
  rw [hint]
  split
  next => exact ull_eq hlo (by omega)
  next => exact abi.widen_nonneg x hlo hhi

section Queues

variable {lwork : LocalWork}

theorem LocalWork.popUll_eq {maxSize : Int} (hpos : 0 < maxSize)
    (hlo : 0 ≤ lwork.crBeg) (hle : lwork.crBeg ≤ lwork.crEnd)
    (hhi : lwork.crEnd + maxSize < 2 ^ 64) :
    lwork.popUll maxSize = lwork.pop maxSize := by
  unfold LocalWork.popUll LocalWork.pop
  simp only
  rw [ull_eq (x := lwork.crBeg + maxSize) (by omega) (by omega)]
  by_cases hfast : lwork.crBeg + maxSize < lwork.crEnd
  · rw [if_pos hfast, if_pos hfast, Int.add_sub_cancel,
      ull_eq hlo (by omega)]
  rw [if_neg hfast, if_neg hfast]
  by_cases hempty : lwork.crEnd ≤ lwork.crBeg
  · rw [if_pos hempty, if_pos (by omega)]
  rw [if_neg hempty, if_neg (show ¬ lwork.crEnd - lwork.crBeg = 0 by omega),
    ull_eq (x := lwork.crEnd - lwork.crBeg) (by omega) (by omega)]
  -- fewer than `maxSize` are left, so all of them are popped
  rw [if_neg (show ¬ maxSize < lwork.crEnd - lwork.crBeg by omega),
    ull_eq (x := lwork.crBeg + (lwork.crEnd - lwork.crBeg)) (by omega)
      (by omega),
    Int.add_sub_cancel, ull_eq hlo (by omega)]

section

variable (hlo : 0 ≤ lwork.crBeg) (hle : lwork.crBeg ≤ lwork.crEnd)
include hlo hle

theorem LocalWork.stealUll_eq {size : Int} (hhi : lwork.crEnd < 2 ^ 64) (hsize : 0 ≤ size) :
    lwork.stealUll size = lwork.steal size := by
  unfold LocalWork.stealUll LocalWork.steal
  simp only
  by_cases hshort : lwork.crEnd < size
  · rw [if_pos hshort, if_pos (by omega)]
  · rw [if_neg hshort, ull_eq (x := lwork.crEnd - size) (by omega) (by omega),
      ull_eq (x := lwork.crEnd - size + size) (by omega) (by omega)]

theorem LocalWork.sizeLong_eq (hhi : lwork.crEnd < 2 ^ 63) :
    lwork.sizeLong = lwork.size := by
  unfold LocalWork.sizeLong LocalWork.size
  rw [toLong_eq (by omega) (by omega)]

theorem splitSizeUll_eq {parGrain : Int} {count : Nat} (hhi : lwork.crEnd < 2 ^ 31)
    (hpar : 0 < parGrain) :
    splitSizeUll lwork parGrain count = splitSize lwork parGrain count := by
  have hsize : lwork.size = lwork.crEnd - lwork.crBeg := if_neg (by omega)
  have hdiv : 0 ≤ lwork.size / parGrain ∧ lwork.size / parGrain ≤ lwork.size :=
    ⟨Int.ediv_nonneg (by omega) hpar.le, Int.ediv_le_self _ (by omega)⟩
  unfold splitSizeUll splitSize
  simp only
  rw [LocalWork.sizeLong_eq hlo hle (by omega)]
  by_cases hinit : lwork.init = false
  · rw [if_pos hinit, if_pos hinit]
  rw [if_neg hinit, if_neg hinit]
  by_cases hfew : lwork.size ≤ parGrain
  · rw [if_pos hfew, if_pos hfew]
  rw [if_neg hfew, if_neg hfew]
  have hone : 1 ≤ lwork.size / parGrain :=
    Int.le_ediv_of_mul_le hpar (by omega)
  have hnreq : toInt32 (ull (lwork.size / parGrain - 1))
      = lwork.size / parGrain - 1 := by
    rw [ull_eq (by omega) (by omega)]
    unfold toInt32
    apply Int.bmod_eq_of_le
    · omega
    · omega
  rw [hnreq]

end

theorem splitSize_mul_le {parGrain nreq unitSize : Int} {count : Nat}
    (hle : lwork.crBeg ≤ lwork.crEnd) (hpar : 0 < parGrain)
    (h : splitSize lwork parGrain count = some (nreq, unitSize)) :
    nreq * unitSize ≤ lwork.crEnd - lwork.crBeg := by
  have hsize : lwork.size = lwork.crEnd - lwork.crBeg := if_neg (by omega)
  rw [← hsize]
  unfold splitSize at h
  simp only at h
  split at h
  next => cases h
  split at h
  next => cases h
  next hfew =>
    split at h
    next =>
      split at h
      next => cases h
      next =>
        obtain ⟨rfl, rfl⟩ := Prod.mk.inj (Option.some.inj h)
        have := Int.ediv_mul_le lwork.size (Int.ne_of_gt hpar)
        rw [Int.sub_mul, Int.one_mul]
        omega
    next =>
      obtain ⟨rfl, rfl⟩ := Prod.mk.inj (Option.some.inj h)
      have hcount : (0 : Int) ≤ count := Int.natCast_nonneg count
      have hpos : 0 < (count : Int) + 1 := by omega
      have hmul := Int.mul_ediv_self_le (x := lwork.size) (Int.ne_of_gt hpos)
      have hnonneg : 0 ≤ lwork.size / ((count : Int) + 1) :=
        Int.ediv_nonneg (by omega) hpos.le
      rw [Int.add_mul, Int.one_mul] at hmul
      omega

end Queues

-- ======== the distribution

/-- The table of the words is the table of the integers, wrapped. -/
theorem initStartindexUll_eq_map {first : Int} (hlo : 0 ≤ first)
    (hhi : first < 2 ^ 64) (off scale : Int) (finalsize concurrency : Nat) :
    initStartindexUll first off scale finalsize concurrency
      = fun p => (initStartindex first off scale finalsize concurrency p).map
        ull := by
  let wrap : (Nat → Option Int) → Nat → Option Int := fun s p => (s p).map ull
  have hwrap : ∀ s (i : Nat) o,
      wrap (update s i o) = update (wrap s) i (o.map ull) := by
    intro s i o
    funext p
    by_cases hp : p = i
    · rw [hp, update_self]
      show Option.map ull (update s i o i) = _
      rw [update_self]
    · rw [update_of_ne hp]
      show Option.map ull (update s i o p) = _
      rw [update_of_ne hp]
  let s₀ : Nat → Option Int := update (update (fun _ => none) 0 (some first)) 1
    (some (first + off + scale))
  have hs₀ : update (update (fun _ => none) 0 (some first))
      1 (some (ull (first + off + scale))) = wrap s₀ := by
    rw [hwrap, hwrap, Option.map_some, Option.map_some, ull_eq hlo hhi]
    rfl
  have hslices : ∀ (l : List Nat) s, l.foldl (fun s i =>
        update s (i + 1) ((s i).map fun x => ull (x + scale))) (wrap s)
      = wrap (l.foldl (fun s i =>
        update s (i + 1) ((s i).map (· + scale))) s) := by
    intro l s
    apply List.foldl_hom
    intro s i
    rw [hwrap, Option.map_map]
    congr 1
    rw [Option.map_map]
    congr 1
    funext x
    exact ull_add x scale
  have hrest : ∀ (l : List Nat) s, l.foldl (fun s i =>
        update s (i + 1) (s finalsize)) (wrap s)
      = wrap (l.foldl (fun s i =>
        update s (i + 1) (s finalsize)) s) := by
    intro l s
    apply List.foldl_hom
    intro s i
    rw [hwrap]
  unfold initStartindexUll initStartindex
  simp only
  rw [hs₀, hslices, hrest]

theorem foreachInitwaUll_eq (selfTid : Nat) (cpuset : BitVec w)
    (nthreads concurrency : Nat) {first last : Int} (hlo : 0 ≤ first)
    (hlt : first < last) (hhi : last < 2 ^ 31) :
    foreachInitwaUll selfTid cpuset nthreads concurrency first last
      = foreachInitwa selfTid cpuset nthreads concurrency first last := by
  have hfill : ∀ (mask : BitVec w) (n : Nat),
      fillwaUll selfTid concurrency first (last - first) mask n
        = fillwa selfTid concurrency first (last - first) mask n := by
    intro mask n
    unfold fillwaUll fillwa
    by_cases hn : n = 0
    · rw [if_pos hn, if_pos hn]
    rw [if_neg hn, if_neg hn]
    have hpos : (0 : Int) < n := by omega
    have hmod := Int.emod_nonneg (last - first) (Int.ne_of_gt hpos)
    have hquot := Int.mul_nonneg hpos.le
      (Int.ediv_nonneg (show 0 ≤ last - first by omega) hpos.le)
    have hmodle := Int.mul_ediv_add_emod (last - first) n
    have hoff : toLong ((last - first) % n) = (last - first) % n :=
      toLong_eq (by omega) (by omega)
    have hrest : ull (last - first - (last - first) % n)
        = last - first - (last - first) % n := ull_eq (by omega) (by omega)
    have hdiv : (last - first - (last - first) % n) / n * n
        = last - first - (last - first) % n :=
      Int.ediv_mul_cancel (Int.dvd_self_sub_emod)
    have hscale₀ : 0 ≤ (last - first - (last - first) % n) / n :=
      Int.ediv_nonneg (by omega) hpos.le
    have hscale₁ := Int.ediv_le_self (n : Int)
      (show 0 ≤ last - first - (last - first) % n by omega)
    simp only
    rw [hoff, hrest, toLong_eq (by omega) (by omega),
      initStartindexUll_eq_map hlo (by omega)]
    congr 2
    funext p
    have hbound : ∀ q ≤ n, 0 ≤ bound first ((last - first) % n)
          ((last - first - (last - first) % n) / n) q
        ∧ bound first ((last - first) % n)
          ((last - first - (last - first) % n) / n) q ≤ last := by
      intro q hq
      unfold bound
      split
      next => omega
      next =>
        have hmul₀ := Int.mul_nonneg (Int.natCast_nonneg q) hscale₀
        have hmul := Int.mul_le_mul_of_nonneg_right
          (Int.ofNat_le.mpr hq) hscale₀
        rw [Int.mul_comm (n : Int), hdiv] at hmul
        omega
    rw [initStartindex_spec _ _ _ hn]
    split
    next hp =>
      rw [Option.map_some, ull_eq (hbound p hp).1
        (by have := (hbound p hp).2; omega)]
    split
    next =>
      rw [Option.map_some, ull_eq (hbound n (Nat.le_refl n)).1
        (by have := (hbound n (Nat.le_refl n)).2; omega)]
    next => rfl
  unfold foreachInitwaUll foreachInitwa
  rw [ull_eq (x := last - first) (by omega) (by omega)]
  have hlong : ¬ longMax < last - first := by
    unfold longMax
    omega
  simp only [hlong, if_false, hfill]

theorem foreachWorkinitUll_eq {c : ConfigUll w}
    (hhi : c.toConfig.last < 2 ^ 31) :
    foreachWorkinitUll c = foreachWorkinit c.toConfig := by
  unfold foreachWorkinitUll foreachWorkinit
  by_cases hempty : c.toConfig.last ≤ c.toConfig.first
  · simp only [if_pos hempty]
  have hlo : 0 ≤ c.toConfig.first := Int.natCast_nonneg _
  simp only [if_neg hempty]
  rw [foreachInitwaUll_eq _ _ _ _ hlo (by omega) hhi,
    toLong_eq (by omega) (by omega)]
  rfl

end XKaapi.Foreach
