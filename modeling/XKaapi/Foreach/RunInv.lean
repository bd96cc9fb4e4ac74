/-
The invariant of a parallel loop, kept by every access.

`Inv` says that every iteration is in one place (`total`), that the body
has been called on what was popped but for the ranges in hand (`exec`),
and that `workremain` is what is not accounted (`counted`); and it gives
for each thread and each splitter what holds at its position. It is for
the loops started by the thread 0, whose positions in the distribution
are the kernel ids (`Identity`).
-/
import XKaapi.Foreach.Places

namespace XKaapi.Foreach

open Bitmap Tally

variable {w : Nat} {th : Thread} {k t : Nat} {c : Config w}

-- ======== invariants

/-- The distribution of a loop whose positions are the kernel ids: the
slices of the `k` lowest threads, each nonempty. On three words none of
them is in the third one, which `unset_at` does not reach. -/
structure Identity (c : Config w) (wa : WorkDistribution w) (k : Nat) :
    Prop where
  width : w < noPos
  concurrency : c.concurrency ≤ w
  le : k ≤ c.concurrency
  words : ThreeWords w → k ≤ 128
  tid2pos : ∀ t < c.concurrency,
    wa.tid2pos t = some (if t < k then t else noPos)
  slices : ∀ p < k, ∃ i j, wa.slice p = some (i, j) ∧ i < j
  range : c.first < c.last
  int32 : -2 ^ 31 ≤ c.first ∧ c.last < 2 ^ 31
  parGrain : 0 < c.parGrain
  seqGrain : 0 < c.seqGrain

/-- What holds of a thread at its position. -/
def Thread.PcOk (k : Nat) (workremain : Int) (th : Thread) : Prop :=
  match th.pc with
  | .idle | .waiting _ => th.lwork.crEnd = th.lwork.crBeg ∧ th.batch = []
  | .worknext | .pop => True
  | .popFailed | .globalNext _ | .firstSlice _ | .repopAny _
  | .repopUnset _ _ | .repopEmpty _ | .redoSelect _ | .select _ =>
    th.lwork.crEnd = th.lwork.crBeg
  | .popSlice _ tid => th.lwork.crEnd = th.lwork.crBeg ∧ tid < k
  | .checkSlice _ pos => th.lwork.crEnd = th.lwork.crBeg ∧ pos < k
  | .steal _ _ unitSize => th.lwork.crEnd = th.lwork.crBeg ∧ 0 < unitSize
  | .refill i j => th.lwork.crEnd = th.lwork.crBeg ∧ i < j
  | .body i j => i < j ∧ (i, j) ∈ th.batch
  | .loopEnd => workremain = 0
  | .ret => workremain = 0 ∧ th.lwork.crEnd = th.lwork.crBeg ∧ th.batch = []
  | .undefined => False

/-- What holds of a thread. -/
structure Thread.Ok (k : Nat) (workremain : Int) (th : Thread) : Prop where
  ordered : th.lwork.crBeg ≤ th.lwork.crEnd
  workdone : th.lwork.workdone = len th.batch
  nonempty : ∀ r ∈ th.batch, r.1 < r.2
  pcOk : th.PcOk k workremain

/-- What holds of a splitter whose requesters are waiting (`W`). -/
def SplitPc.Ok (k : Nat) (W : Nat → Prop) (sp : SplitPc w) : Prop :=
  match sp with
  | .free => True
  | .check lri | .scan lri | .skipGlobal lri => ∀ t, lri.Mem t → W t
  | .clear lri mask =>
    (∀ t, lri.Mem t → W t) ∧ ∀ p, mask.getLsbD p = true → lri.Mem p
  | .reply lri replymask =>
    (∀ t, lri.Mem t → W t)
      ∧ ∀ p, replymask.getLsbD p = true → lri.Mem p ∧ p < k
  | .send lri replymask tid first last =>
    (∀ t, lri.Mem t → W t)
      ∧ (∀ p, replymask.getLsbD p = true → lri.Mem p ∧ p < k ∧ p ≠ tid)
      ∧ lri.Mem tid ∧ unsetIndex w tid = tid ∧ first < last
  | .stealLocal lri nreq unitSize =>
    (∀ t, lri.Mem t → W t) ∧ 0 ≤ nreq ∧ nreq ≤ lri.count ∧ 0 < unitSize
  | .cut lri nreq unitSize _ =>
    (∀ t, lri.Mem t → W t) ∧ nreq ≤ lri.count ∧ 0 < unitSize
  | .undefined => False

structure Inv (c : Config w) (k : Nat) (s : St w) : Prop where
  identity : Identity c s.wa k
  mapLow : ∀ p, s.wa.map.getLsbD p = true → p < k
  total : ∀ x, s.places x + s.popped x = ind (c.first, c.last) x
  exec : ∀ x, tally s.executed x + s.hands x = s.popped x
  counted : s.workremain + len s.accounted = c.last - c.first
  nonempty : ∀ r ∈ s.accounted, r.1 < r.2
  threads : ∀ t, (s.thread t).Ok k s.workremain
  small : ∀ t, (s.thread t).pc ≠ .idle → t < w
  waiting : ∀ t vid, (s.thread t).pc = .waiting vid → t < c.concurrency
  splits : ∀ vid, (s.split vid).Ok k fun t => (s.thread t).pc = .waiting vid
  splitSmall : ∀ vid, s.split vid ≠ .free → vid < w

-- ======== monotonicity

theorem Thread.Ok.mono {rem rem' : Int} (hrem : rem = 0 → rem' = 0) (h : th.Ok k rem) :
    th.Ok k rem' := by
  refine ⟨h.ordered, h.workdone, h.nonempty, ?_⟩
  have hpc := h.pcOk
  unfold Thread.PcOk at hpc ⊢
  split <;> rename_i heq <;> rw [heq] at hpc
  all_goals first
    | exact hpc
    | exact hrem hpc
    | exact ⟨hrem hpc.1, hpc.2⟩

theorem SplitPc.Ok.mono {W W' : Nat → Prop} {sp : SplitPc w} (hW : ∀ t, W t → W' t)
    (h : sp.Ok k W) : sp.Ok k W' := by
  cases sp with
  | free => exact h
  | check lri => exact fun t ht => hW t (h t ht)
  | scan lri => exact fun t ht => hW t (h t ht)
  | clear lri mask => exact ⟨fun t ht => hW t (h.1 t ht), h.2⟩
  | reply lri replymask => exact ⟨fun t ht => hW t (h.1 t ht), h.2⟩
  | send lri replymask tid first last =>
    exact ⟨fun t ht => hW t (h.1 t ht), h.2⟩
  | skipGlobal lri => exact fun t ht => hW t (h t ht)
  | stealLocal lri nreq unitSize => exact ⟨fun t ht => hW t (h.1 t ht), h.2⟩
  | cut lri nreq unitSize last => exact ⟨fun t ht => hW t (h.1 t ht), h.2⟩
  | undefined => exact h

theorem Identity.setMap {wa : WorkDistribution w} (h : Identity c wa k) (map : BitVec w) :
    Identity c { wa with map := map } k :=
  ⟨h.width, h.concurrency, h.le, h.words, h.tid2pos, h.slices, h.range, h.int32,
    h.parGrain, h.seqGrain⟩

-- ======== sums

theorem St.sums_update (s : St w) {vid : Nat} (ht : t < w) (hvid : vid < w) (th : Thread)
    (sp : SplitPc w) (x : Int) :
    (∑ u ∈ Finset.range w, (Function.update s.thread t th u).place s.wa x
        + (s.thread t).place s.wa x
      = ∑ u ∈ Finset.range w, (s.thread u).place s.wa x + th.place s.wa x)
    ∧ (∑ u ∈ Finset.range w, tally (Function.update s.thread t th u).batch x
        + tally (s.thread t).batch x
      = ∑ u ∈ Finset.range w, tally (s.thread u).batch x + tally th.batch x)
    ∧ (∑ u ∈ Finset.range w, (Function.update s.thread t th u).pc.hand x
        + (s.thread t).pc.hand x
      = ∑ u ∈ Finset.range w, (s.thread u).pc.hand x + th.pc.hand x)
    ∧ (∑ u ∈ Finset.range w, (Function.update s.split vid sp u).held s.wa x
        + (s.split vid).held s.wa x
      = ∑ u ∈ Finset.range w, (s.split u).held s.wa x + sp.held s.wa x) :=
  ⟨sum_update ht (fun th => th.place s.wa x) s.thread th,
    sum_update ht (fun th => tally th.batch x) s.thread th,
    sum_update ht (fun th => th.pc.hand x) s.thread th,
    sum_update hvid (fun sp => sp.held s.wa x) s.split sp⟩

-- ======== preservation

/-- The state after one thread, one splitter and the shared words have
changed. -/
def St.become (s : St w) (t vid : Nat) (th : Thread) (sp : SplitPc w)
    (map : BitVec w) (rem done : Int) (acc exe : List (Int × Int)) : St w where
  workremain := rem
  workerdone := done
  wa := { s.wa with map := map }
  thread := Function.update s.thread t th
  split := Function.update s.split vid sp
  accounted := acc
  executed := exe

/-- What an access of thread `t` and of the splitter on `vid` has to keep:
the iterations it moves stay counted once. -/
structure Keeps (c : Config w) (k : Nat) (s : St w) (t vid : Nat) (th : Thread)
    (sp : SplitPc w) (map : BitVec w) (rem : Int) (acc exe : List (Int × Int)) :
    Prop where
  mapLow : ∀ p, map.getLsbD p = true → s.wa.map.getLsbD p = true
  total : ∀ x, mapInd s.wa map x + th.place s.wa x + sp.held s.wa x
      + tally acc x + tally th.batch x
    = mapInd s.wa s.wa.map x + (s.thread t).place s.wa x
      + (s.split vid).held s.wa x + tally s.accounted x
      + tally (s.thread t).batch x
  exec : ∀ x, tally exe x + th.pc.hand x + tally s.accounted x
      + tally (s.thread t).batch x
    = tally s.executed x + (s.thread t).pc.hand x + tally acc x
      + tally th.batch x
  counted : rem + len acc = s.workremain + len s.accounted
  nonempty : ∀ r ∈ acc, r.1 < r.2
  zero : s.workremain = 0 → rem = 0
  thread : th.Ok k rem
  waiting : ∀ u, th.pc = .waiting u → (s.thread t).pc = .waiting u
  other : ∀ u, u ≠ vid → (s.thread t).pc = .waiting u → th.pc = .waiting u
  split : sp.Ok k fun u =>
    (Function.update s.thread t th u).pc = .waiting vid

theorem Inv.update {s : St w} (h : Inv c k s) {vid : Nat} (ht : t < w) (hvid : vid < w)
    {sp : SplitPc w} {map : BitVec w} {rem : Int} {acc exe : List (Int × Int)}
    (hk : Keeps c k s t vid th sp map rem acc exe) (done : Int) :
    Inv c k (s.become t vid th sp map rem done acc exe) where
  identity := h.identity.setMap map
  mapLow p hp := h.mapLow p (hk.mapLow p hp)
  total x := by
    obtain ⟨hplace, hbatch, -, hsplit⟩ := s.sums_update ht hvid th sp x
    have htotal := h.total x
    have hmove := hk.total x
    unfold St.places St.popped at htotal
    show mapInd s.wa map x
        + ∑ u ∈ Finset.range w, (Function.update s.thread t th u).place s.wa x
        + ∑ u ∈ Finset.range w, (Function.update s.split vid sp u).held s.wa x
      + (tally acc x + ∑ u ∈ Finset.range w,
        tally (Function.update s.thread t th u).batch x) = _
    omega
  exec x := by
    obtain ⟨-, hbatch, hhand, -⟩ := s.sums_update ht hvid th sp x
    have hexec := h.exec x
    have hmove := hk.exec x
    unfold St.hands St.popped at hexec
    show tally exe x
        + ∑ u ∈ Finset.range w, (Function.update s.thread t th u).pc.hand x
      = tally acc x + ∑ u ∈ Finset.range w,
        tally (Function.update s.thread t th u).batch x
    omega
  counted := by
    have := h.counted
    have := hk.counted
    show rem + len acc = _
    omega
  nonempty := hk.nonempty
  threads u := by
    show (Function.update s.thread t th u).Ok k rem
    by_cases hu : u = t
    · rw [hu, Function.update_self]
      exact hk.thread
    · rw [Function.update_of_ne hu]
      exact (h.threads u).mono hk.zero
  small u := by
    show (Function.update s.thread t th u).pc ≠ .idle → u < w
    by_cases hu : u = t
    · rw [hu]
      exact fun _ => ht
    · rw [Function.update_of_ne hu]
      exact h.small u
  waiting u v := by
    show (Function.update s.thread t th u).pc = .waiting v → _
    by_cases hu : u = t
    · rw [hu, Function.update_self]
      exact fun hpc => h.waiting t v (hk.waiting v hpc)
    · rw [Function.update_of_ne hu]
      exact h.waiting u v
  splits v := by
    show (Function.update s.split vid sp v).Ok k
      fun u => (Function.update s.thread t th u).pc = .waiting v
    by_cases hv : v = vid
    · rw [hv, Function.update_self]
      exact hk.split
    · rw [Function.update_of_ne hv]
      refine (h.splits v).mono fun u hu => ?_
      by_cases hut : u = t
      · rw [hut, Function.update_self]
        exact hk.other v hv (hut ▸ hu)
      · rw [Function.update_of_ne hut]
        exact hu
  splitSmall v := by
    show Function.update s.split vid sp v ≠ .free → v < w
    by_cases hv : v = vid
    · rw [hv]
      exact fun _ => hvid
    · rw [Function.update_of_ne hv]
      exact h.splitSmall v

theorem Inv.splits_thread {s : St w} (h : Inv c k s)
    (hpc : ∀ u, (s.thread t).pc ≠ .waiting u) (vid : Nat) :
    (s.split vid).Ok k fun u =>
      (Function.update s.thread t th u).pc = .waiting vid := by
  refine (h.splits vid).mono fun u hu => ?_
  by_cases hut : u = t
  · exact absurd (hut ▸ hu) (hpc vid)
  · rw [Function.update_of_ne hut]
    exact hu

end XKaapi.Foreach
