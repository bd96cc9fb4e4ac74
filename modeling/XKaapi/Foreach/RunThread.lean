/-
The accesses of the threads of a parallel loop keep its invariant.

Most of them only move the thread (`Inv.goto`). The others take a range
from the local queue into the batch (`Inv.take`), subtract the batch
from `workremain` (`Inv.account`), take a slice from the map
(`Inv.takeSlice`) or part of the queue of a victim (`Inv.steal`).
-/
import XKaapi.Foreach.RunInv

namespace XKaapi.Foreach

open Bitmap Tally

variable {w : Nat}

-- ======== local queues

/-- What a pop of a local queue takes. -/
theorem LocalWork.pop_cases {lwork : LocalWork} {maxSize : Int}
    (hpos : 0 < maxSize) (hle : lwork.crBeg ≤ lwork.crEnd) :
    (lwork.pop maxSize = none ∧ lwork.crEnd = lwork.crBeg)
      ∨ ∃ j, lwork.pop maxSize = some ({ lwork with crBeg := j }, lwork.crBeg, j)
          ∧ lwork.crBeg < j ∧ j ≤ lwork.crEnd := by
  unfold LocalWork.pop
  simp only
  by_cases hfast : lwork.crBeg + maxSize < lwork.crEnd
  · rw [if_pos hfast]
    exact .inr ⟨_, rfl, by omega, by omega⟩
  rw [if_neg hfast]
  by_cases hzero : lwork.crEnd - lwork.crBeg = 0
  · rw [if_pos hzero]
    exact .inl ⟨rfl, by omega⟩
  · rw [if_neg hzero]
    refine .inr ⟨_, rfl, ?_, ?_⟩
    · split <;> omega
    · split <;> omega

/-- What a steal takes of it. -/
theorem LocalWork.steal_cases (lwork : LocalWork) (size : Int) :
    (lwork.steal size = none ∧ lwork.crEnd - size < lwork.crBeg)
      ∨ lwork.steal size = some ({ lwork with crEnd := lwork.crEnd - size },
            lwork.crEnd - size, lwork.crEnd)
          ∧ lwork.crBeg ≤ lwork.crEnd - size := by
  unfold LocalWork.steal
  simp only
  by_cases h : lwork.crEnd - size < lwork.crBeg
  · rw [if_pos h]
    exact .inl ⟨rfl, h⟩
  · rw [if_neg h, Int.sub_add_cancel]
    exact .inr ⟨rfl, by omega⟩

-- ======== thread accesses

/-- A position at which a thread is in the loop. -/
structure Pc.Active (pc : Pc) : Prop where
  notIdle : pc ≠ .idle
  notWaiting : ∀ vid, pc ≠ .waiting vid

variable {c : Config w} {k : Nat} {s : St w} {t : Nat} {rem i j : Int} {pc : Pc}
  {pos : Nat}

section

variable (h : Inv c k s) (hact : (s.thread t).pc.Active)
include h hact

/-- An access of one thread that keeps the sums. -/
theorem Inv.updateThread {y : Thread} (hact' : ∀ vid, y.pc ≠ .waiting vid) {b : BitVec w}
    {acc exe : List (Int × Int)}
    (hmap : ∀ p, b.getLsbD p = true → s.wa.map.getLsbD p = true)
    (htotal : ∀ x, mapInd s.wa b x + y.place s.wa x + tally acc x
        + tally y.batch x
      = mapInd s.wa s.wa.map x + (s.thread t).place s.wa x
        + tally s.accounted x + tally (s.thread t).batch x)
    (hexec : ∀ x, tally exe x + y.pc.hand x + tally s.accounted x
        + tally (s.thread t).batch x
      = tally s.executed x + (s.thread t).pc.hand x + tally acc x
        + tally y.batch x) (hcounted : rem + len acc = s.workremain + len s.accounted)
    (hne : ∀ r ∈ acc, r.1 < r.2) (hzero : s.workremain = 0 → rem = 0) (hok : y.Ok k rem)
    (done : Int) :
    Inv c k
      { workremain := rem
        workerdone := done
        wa := { s.wa with map := b }
        thread := Function.update s.thread t y
        split := s.split
        accounted := acc
        executed := exe } := by
  have ht := h.small t hact.notIdle
  have hk : Keeps c k s t t y (s.split t) b rem acc exe :=
    { mapLow := hmap
      total := fun x => by have := htotal x; omega
      exec := hexec
      counted := hcounted
      nonempty := hne
      zero := hzero
      thread := hok
      waiting := fun u hu => absurd hu (hact' u)
      other := fun u _ hu => absurd hu (hact.notWaiting u)
      split := h.splits_thread hact.notWaiting t }
  have hs := h.update ht ht hk done
  unfold St.become at hs
  rwa [Function.update_eq_self] at hs

/-- A thread moves with what it holds. -/
theorem Inv.goto (hact' : ∀ vid, pc ≠ .waiting vid)
    (hheld : ∀ x, pc.held s.wa x = (s.thread t).pc.held s.wa x)
    (hhand : ∀ x, pc.hand x = (s.thread t).pc.hand x)
    (hok : Thread.PcOk k s.workremain { s.thread t with pc := pc }) :
    Inv c k (s.goto t pc) := by
  have hth := h.threads t
  refine h.updateThread (y := { s.thread t with pc := pc }) hact hact'
    (fun p hp => hp) (fun x => ?_) (fun x => ?_) rfl h.nonempty id
    ⟨hth.ordered, hth.workdone, hth.nonempty, hok⟩ s.workerdone
  · unfold Thread.place
    rw [hheld x]
  · show _ + pc.hand x + _ + _ = _
    rw [hhand x]

/-- A thread takes a range. -/
theorem Inv.take {lwork : LocalWork} (hlt : i < j) (hle : lwork.crBeg ≤ lwork.crEnd)
    (hhand : ∀ x, (s.thread t).pc.hand x = 0)
    (hplace : ∀ x, ind (i, j) x + ind (lwork.crBeg, lwork.crEnd) x
      = (s.thread t).place s.wa x) :
    Inv c k (s.setThread t ((s.thread t).take lwork i j)) := by
  have hth := h.threads t
  refine h.updateThread (y := (s.thread t).take lwork i j) hact
    nofun (fun p hp => hp) (fun x => ?_) (fun x => ?_) rfl
    h.nonempty id ?_ s.workerdone
  · have := hplace x
    show _ + (0 + ind (lwork.crBeg, lwork.crEnd) x) + _
      + tally ((s.thread t).batch ++ [(i, j)]) x = _
    rw [tally_append, tally_cons, tally_nil]
    omega
  · show _ + ind (i, j) x + _ + _
      = _ + _ + _ + tally ((s.thread t).batch ++ [(i, j)]) x
    rw [hhand x, tally_append, tally_cons, tally_nil]
    omega
  · refine ⟨hle, ?_, ?_, hlt, List.mem_append_right _ List.mem_cons_self⟩
    · show (s.thread t).lwork.workdone + (j - i)
        = len ((s.thread t).batch ++ [(i, j)])
      rw [hth.workdone, len_append, len_cons, len_nil, Int.add_zero]
    · intro r hr
      rcases List.mem_append.mp hr with hr | hr
      · exact hth.nonempty r hr
      · rw [List.mem_singleton.mp hr]
        exact hlt

end

theorem len_nonneg {l : List (Int × Int)} (h : ∀ r ∈ l, r.1 < r.2) :
    0 ≤ len l := by
  induction l with
  | nil => exact Int.le_refl 0
  | cons r l ih =>
    rw [len_cons]
    have hr := h r List.mem_cons_self
    have hl := ih fun r' hr' => h r' (List.mem_cons_of_mem _ hr')
    omega

section

variable (h : Inv c k s)
include h

theorem Inv.tally_accounted_le (x : Int) :
    tally s.accounted x ≤ ind (c.first, c.last) x := by
  have := h.total x
  unfold St.popped at this
  omega

theorem Inv.batch_le (ht : t < w) (x : Int) :
    tally s.accounted x + tally (s.thread t).batch x
      ≤ ind (c.first, c.last) x := by
  have htotal := h.total x
  have hle : tally (s.thread t).batch x
      ≤ ∑ u ∈ Finset.range w, tally (s.thread u).batch x :=
    le_sum ht fun u => tally (s.thread u).batch x
  unfold St.popped at htotal
  omega

/-- What remains is what nobody has accounted for. -/
theorem Inv.workremain_eq :
    s.workremain = ((Finset.Ico c.first c.last).filter
      fun x => tally s.accounted x = 0).card := by
  rw [card_not_covered h.identity.range.le h.nonempty h.tally_accounted_le]
  have := h.counted
  omega

theorem Inv.accounted_of_zero (hzero : s.workremain = 0) (x : Int) :
    tally s.accounted x = ind (c.first, c.last) x := by
  have hle := h.tally_accounted_le x
  have hone := ind_le_one (c.first, c.last) x
  by_cases hx : c.first ≤ x ∧ x < c.last
  · have hcard := h.workremain_eq
    rw [hzero] at hcard
    have hempty : ((Finset.Ico c.first c.last).filter
        fun x => tally s.accounted x = 0) = ∅ := by
      apply Finset.card_eq_zero.mp
      omega
    have hnot : tally s.accounted x ≠ 0 := by
      intro hz
      have hmem : x ∈ (Finset.Ico c.first c.last).filter
          fun x => tally s.accounted x = 0 :=
        Finset.mem_filter.mpr ⟨Finset.mem_Ico.mpr hx, hz⟩
      rw [hempty] at hmem
      exact absurd hmem (Finset.notMem_empty x)
    omega
  · have hz : ind (c.first, c.last) x = 0 := if_neg hx
    omega

theorem Inv.places_of_zero (hzero : s.workremain = 0) (x : Int) :
    s.places x = 0 ∧ ∀ t < w, tally (s.thread t).batch x = 0 := by
  have htotal := h.total x
  have hacc := h.accounted_of_zero hzero x
  unfold St.popped at htotal
  refine ⟨by omega, fun t ht => ?_⟩
  have hle : tally (s.thread t).batch x
      ≤ ∑ u ∈ Finset.range w, tally (s.thread u).batch x :=
    le_sum ht fun u => tally (s.thread u).batch x
  omega

theorem Inv.thread_of_zero (hzero : s.workremain = 0) (ht : t < w) :
    (s.thread t).lwork.crEnd = (s.thread t).lwork.crBeg
      ∧ (s.thread t).batch = [] := by
  constructor
  · have hqueue : ∀ x, ind ((s.thread t).lwork.crBeg,
        (s.thread t).lwork.crEnd) x = 0 := by
      intro x
      have hz := (h.places_of_zero hzero x).1
      have hle : (s.thread t).place s.wa x
          ≤ ∑ u ∈ Finset.range w, (s.thread u).place s.wa x :=
        le_sum ht fun u => (s.thread u).place s.wa x
      have hpart : ind ((s.thread t).lwork.crBeg, (s.thread t).lwork.crEnd) x
          ≤ (s.thread t).place s.wa x := Nat.le_add_left _ _
      unfold St.places at hz
      omega
    have hle : (s.thread t).lwork.crEnd ≤ (s.thread t).lwork.crBeg :=
      le_of_ind hqueue
    exact Int.le_antisymm hle (h.threads t).ordered
  · cases hb : (s.thread t).batch with
    | nil => rfl
    | cons r l =>
      have hlt := (h.threads t).nonempty r (hb ▸ List.mem_cons_self)
      have hz := (h.places_of_zero hzero r.1).2 t ht
      rw [hb, tally_cons, ind_eq_one_iff.mpr ⟨Int.le_refl _, hlt⟩] at hz
      omega

theorem Inv.workremain_ne (ht : t < w) {x : Int} (hx : (s.thread t).pc.held s.wa x = 1) :
    s.workremain ≠ 0 := by
  intro hzero
  have hz := (h.places_of_zero hzero x).1
  have hle : (s.thread t).place s.wa x
      ≤ ∑ u ∈ Finset.range w, (s.thread u).place s.wa x :=
    le_sum ht fun u => (s.thread u).place s.wa x
  unfold St.places at hz
  have hpart : (s.thread t).pc.held s.wa x ≤ (s.thread t).place s.wa x :=
    Nat.le_add_right _ _
  omega

/-- A thread accounts for its batch. -/
theorem Inv.account (hact : (s.thread t).pc.Active) {init : Bool}
    (hact' : ∀ vid, pc ≠ .waiting vid)
    (hheld : ∀ x, pc.held s.wa x = (s.thread t).pc.held s.wa x)
    (hhand : ∀ x, pc.hand x = (s.thread t).pc.hand x)
    (hok : Thread.PcOk k (s.workremain - (s.thread t).lwork.workdone)
      ⟨pc, { (s.thread t).lwork with init := init, workdone := 0 }, []⟩) :
    Inv c k (s.account t pc init) := by
  have ht := h.small t hact.notIdle
  have hth := h.threads t
  refine h.updateThread
    (y := ⟨pc, { (s.thread t).lwork with init := init, workdone := 0 }, []⟩)
    hact hact' (fun p hp => hp) (fun x => ?_) (fun x => ?_) ?_ ?_ ?_
    ⟨hth.ordered, rfl, (fun r hr => by cases hr), hok⟩ s.workerdone
  · show _ + (pc.held s.wa x + ind ((s.thread t).lwork.crBeg,
      (s.thread t).lwork.crEnd) x) + tally (s.accounted ++ (s.thread t).batch) x
      + 0 = _
    unfold Thread.place
    rw [hheld x, tally_append]
    omega
  · show _ + pc.hand x + _ + _ = _ + _ + tally (s.accounted ++ _) x + 0
    rw [hhand x, tally_append]
    omega
  · rw [len_append, hth.workdone]
    omega
  · intro r hr
    rcases List.mem_append.mp hr with hr | hr
    · exact h.nonempty r hr
    · exact hth.nonempty r hr
  · intro hzero
    rw [hth.workdone, (h.thread_of_zero hzero ht).2, hzero]
    rfl

/-- A thread takes a slice of the distribution. -/
theorem Inv.takeSlice (hact : (s.thread t).pc.Active) (hset : s.wa.map.getLsbD pos = true)
    (hact' : ∀ vid, pc ≠ .waiting vid)
    (hheld : ∀ x, pc.held s.wa x = (s.thread t).pc.held s.wa x + sliceInd s.wa pos x)
    (hhand : ∀ x, pc.hand x = (s.thread t).pc.hand x)
    (hok : Thread.PcOk k s.workremain { s.thread t with pc := pc }) :
    Inv c k ((s.setMap (clearBit s.wa.map pos)).goto t pc) := by
  have hth := h.threads t
  refine h.updateThread (y := { s.thread t with pc := pc })
    (b := clearBit s.wa.map pos) hact hact' (fun p hp => ?_)
    (fun x => ?_) (fun x => ?_) rfl h.nonempty id
    ⟨hth.ordered, hth.workdone, hth.nonempty, hok⟩ s.workerdone
  · rw [getLsbD_clearBit, Bool.and_eq_true] at hp
    exact hp.1
  · have := mapInd_clearBit s.wa s.wa.map hset x
    unfold Thread.place
    simp only
    rw [hheld x]
    omega
  · show _ + pc.hand x + _ + _ = _
    rw [hhand x]
    rfl

end

theorem Thread.PcOk.queue {th : Thread} (h : th.PcOk k rem)
    (hlt : th.lwork.crBeg < th.lwork.crEnd) (lwork : LocalWork) :
    Thread.PcOk k rem { th with lwork := lwork } := by
  unfold Thread.PcOk at h ⊢
  simp only
  split <;> rename_i heq <;> rw [heq] at h
  all_goals first
    | exact h
    | exact absurd h (by omega)

theorem Thread.Ok.shrink {th : Thread} (h : th.Ok k rem) (hi : th.lwork.crBeg ≤ i)
    (hlt : i < th.lwork.crEnd) :
    Thread.Ok k rem { th with lwork := { th.lwork with crEnd := i } } :=
  ⟨hi, h.workdone, h.nonempty, h.pcOk.queue (by omega) _⟩

/-- A thread without work steals from the queue of a victim. -/
theorem Inv.steal (h : Inv c k s) (hact : (s.thread t).pc.Active) {vid : Nat}
    (hheld : ∀ x, (s.thread t).pc.held s.wa x = 0)
    (hhand : ∀ x, (s.thread t).pc.hand x = 0) (hlt : i < j)
    (hempty : (s.thread t).lwork.crEnd = (s.thread t).lwork.crBeg)
    (hj : j = (s.thread vid).lwork.crEnd) (hi : (s.thread vid).lwork.crBeg ≤ i) :
    Inv c k ((s.setThread vid { s.thread vid with
      lwork := { (s.thread vid).lwork with crEnd := i } }).goto t
      (.refill i j)) := by
  have ht := h.small t hact.notIdle
  have hvid : vid < w := by
    apply h.small vid
    intro hidle
    have hpc := (h.threads vid).pcOk
    unfold Thread.PcOk at hpc
    rw [hidle] at hpc
    have := hpc.1
    omega
  have hne : t ≠ vid := by
    intro heq
    rw [← heq] at hj hi
    omega
  have hvidOk := (h.threads vid).shrink hi (hj ▸ hlt)
  have hth := h.threads t
  let thv : Thread := { s.thread vid with
    lwork := { (s.thread vid).lwork with crEnd := i } }
  let tht : Thread := { s.thread t with pc := .refill i j }
  have hstate : (s.setThread vid thv).goto t (.refill i j)
      = { s with
          thread := Function.update (Function.update s.thread vid thv) t tht } := by
    show St.setThread _ t { Function.update s.thread vid thv t with
      pc := .refill i j } = _
    rw [Function.update_of_ne hne]
    rfl
  show Inv c k ((s.setThread vid thv).goto t (.refill i j))
  rw [hstate]
  have hself : Function.update (Function.update s.thread vid thv) t tht t
      = tht := Function.update_self ..
  have hother : ∀ u, u ≠ t →
      (Function.update (Function.update s.thread vid thv) t tht u).pc
          = (s.thread u).pc
        ∧ (Function.update (Function.update s.thread vid thv) t tht u).Ok k
          s.workremain := by
    intro u hu
    rw [Function.update_of_ne hu]
    by_cases huv : u = vid
    · rw [huv, Function.update_self]
      exact ⟨rfl, hvidOk⟩
    · rw [Function.update_of_ne huv]
      exact ⟨rfl, h.threads u⟩
  have hplace : ∀ x, tht.place s.wa x + thv.place s.wa x
      = (s.thread t).place s.wa x + (s.thread vid).place s.wa x := by
    intro x
    have hcut := ind_add hi hlt.le x
    rw [hj] at hcut
    show ind (i, j) x + ind ((s.thread t).lwork.crBeg,
        (s.thread t).lwork.crEnd) x
      + ((s.thread vid).pc.held s.wa x
        + ind ((s.thread vid).lwork.crBeg, i) x) = _
    unfold Thread.place
    rw [hheld x, hj]
    omega
  have hbatch : ∀ x, tally tht.batch x + tally thv.batch x
      = tally (s.thread t).batch x + tally (s.thread vid).batch x :=
    fun x => rfl
  have hhands : ∀ x, tht.pc.hand x + thv.pc.hand x
      = (s.thread t).pc.hand x + (s.thread vid).pc.hand x := by
    intro x
    rw [hhand x]
    rfl
  have hsums := fun x => And.intro
    (sum_update_two hvid ht hne (fun th => th.place s.wa x) s.thread thv tht)
    (And.intro
      (sum_update_two hvid ht hne (fun th => tally th.batch x) s.thread thv tht)
      (sum_update_two hvid ht hne (fun th => th.pc.hand x) s.thread thv tht))
  generalize Function.update (Function.update s.thread vid thv) t tht = g
    at hself hother hsums ⊢
  have hpopped : ∀ x, ∑ u ∈ Finset.range w, tally (g u).batch x
      = ∑ u ∈ Finset.range w, tally (s.thread u).batch x := by
    intro x
    have := hbatch x
    have := (hsums x).2.1
    omega
  refine
    { identity := h.identity
      mapLow := h.mapLow
      total := fun x => ?_
      exec := fun x => ?_
      counted := h.counted
      nonempty := h.nonempty
      threads := fun u => ?_
      small := fun u => ?_
      waiting := fun u v => ?_
      splits := fun v => ?_
      splitSmall := h.splitSmall }
  · have hmove := hplace x
    have hsum := (hsums x).1
    have hpop := hpopped x
    have htotal := h.total x
    unfold St.places St.popped at htotal ⊢
    show mapInd s.wa s.wa.map x + ∑ u ∈ Finset.range w, (g u).place s.wa x
      + ∑ v ∈ Finset.range w, (s.split v).held s.wa x
      + (tally s.accounted x + ∑ u ∈ Finset.range w, tally (g u).batch x) = _
    omega
  · have hmove := hhands x
    have hsum := (hsums x).2.2
    have hpop := hpopped x
    have hexec := h.exec x
    unfold St.hands St.popped at hexec ⊢
    show tally s.executed x + ∑ u ∈ Finset.range w, (g u).pc.hand x
      = tally s.accounted x + ∑ u ∈ Finset.range w, tally (g u).batch x
    omega
  · show (g u).Ok k s.workremain
    by_cases hu : u = t
    · rw [hu, hself]
      exact ⟨hth.ordered, hth.workdone, hth.nonempty, hempty, hlt⟩
    · exact (hother u hu).2
  · show (g u).pc ≠ .idle → u < w
    by_cases hu : u = t
    · exact fun _ => hu ▸ ht
    · rw [(hother u hu).1]
      exact h.small u
  · show (g u).pc = .waiting v → _
    by_cases hu : u = t
    · rw [hu, hself]
      exact nofun
    · rw [(hother u hu).1]
      exact h.waiting u v
  · refine (h.splits v).mono fun u hu => ?_
    show (g u).pc = .waiting v
    by_cases hut : u = t
    · exact absurd (hut ▸ hu) (hact.notWaiting v)
    · rw [(hother u hut).1]
      exact hu

-- ======== moves

/-- The positions inside the loop at which a thread holds nothing. -/
def Pc.plain : Pc → Bool
  | .idle | .waiting _ | .checkSlice _ _ | .refill _ _ | .body _ _ => false
  | _ => true

theorem Pc.active_of_plain (h : pc.plain = true) : pc.Active := by
  constructor
  · intro hc
    rw [hc] at h
    cases h
  · intro vid hc
    rw [hc] at h
    cases h

theorem Pc.held_of_plain (h : pc.plain = true) (wa : WorkDistribution w) (x : Int) :
    pc.held wa x = 0 := by
  cases pc <;> first | rfl | cases h

theorem Pc.hand_of_plain (h : pc.plain = true) (x : Int) : pc.hand x = 0 := by
  cases pc <;> first | rfl | cases h

theorem Inv.move (h : Inv c k s) {p q : Pc} (hpc : (s.thread t).pc = p)
    (hp : p.plain = true) (hq : q.plain = true)
    (hok : Thread.PcOk k s.workremain { s.thread t with pc := q }) :
    Inv c k (s.goto t q) := by
  subst hpc
  exact h.goto (Pc.active_of_plain hp) (Pc.active_of_plain hq).notWaiting
    (fun x => (Pc.held_of_plain hq _ x).trans (Pc.held_of_plain hp _ x).symm)
    (fun x => (Pc.hand_of_plain hq x).trans (Pc.hand_of_plain hp x).symm) hok

theorem Identity.slice {wa : WorkDistribution w} (h : Identity c wa k) (hpos : pos < k) :
    ∃ i j, wa.slice pos = some (i, j) ∧ i < j ∧ ∀ x, sliceInd wa pos x
      = ind (i, j) x := by
  obtain ⟨i, j, hs, hlt⟩ := h.slices pos hpos
  refine ⟨i, j, hs, hlt, fun x => ?_⟩
  unfold sliceInd
  rw [hs]

-- ======== the access

theorem Inv.takeMap (h : Inv c k s) {p q : Pc} (hpc : (s.thread t).pc = p)
    (hp : p.plain = true) (hset : s.wa.map.getLsbD pos = true)
    (hq : ∀ vid, q ≠ .waiting vid) (hheld : ∀ x, q.held s.wa x = sliceInd s.wa pos x)
    (hhand : ∀ x, q.hand x = 0)
    (hok : Thread.PcOk k s.workremain { s.thread t with pc := q }) :
    Inv c k ((s.setMap (clearBit s.wa.map pos)).goto t q) := by
  subst hpc
  apply h.takeSlice (Pc.active_of_plain hp) hset hq _ _ hok
  · intro x
    rw [hheld x, Pc.held_of_plain hp, Nat.zero_add]
  · intro x
    rw [hhand x, Pc.hand_of_plain hp]

theorem toInt32_eq {x : Int} (hlo : -2 ^ 31 ≤ x) (hhi : x < 2 ^ 31) :
    toInt32 x = x := by
  unfold toInt32
  apply Int.bmod_eq_of_le
  · omega
  · omega

theorem Inv.batch_bounds (h : Inv c k s) (ht : t < w) (hmem : (i, j) ∈ (s.thread t).batch)
    (hlt : i < j) : c.first ≤ i ∧ j ≤ c.last := by
  have hle : ∀ x, tally (s.thread t).batch x ≤ ind (c.first, c.last) x := by
    intro x
    have := h.batch_le ht x
    omega
  have hlo := bounds_of_tally_le hmem hle (x := i) ⟨Int.le_refl i, hlt⟩
  have hhi := bounds_of_tally_le hmem hle (x := j - 1)
    ⟨Int.le_sub_one_of_lt hlt, Int.sub_one_lt_of_le (Int.le_refl j)⟩
  exact ⟨hlo.1, Int.le_of_sub_one_lt hhi.2⟩

/-- A thread executes its range. -/
theorem Inv.body (h : Inv c k s) (hpc : (s.thread t).pc = .body i j) :
    Inv c k { s.goto t .worknext with
      executed := s.executed ++ [(toInt32 i, toInt32 j)] } := by
  have hact : (s.thread t).pc.Active := by
    rw [hpc]
    exact ⟨nofun, nofun⟩
  have ht := h.small t hact.notIdle
  have hth := h.threads t
  have hok := hth.pcOk
  unfold Thread.PcOk at hok
  rw [hpc] at hok
  obtain ⟨hlt, hmem⟩ : i < j ∧ (i, j) ∈ (s.thread t).batch := hok
  have hbounds := h.batch_bounds ht hmem hlt
  have hint := h.identity.int32
  rw [toInt32_eq (by omega) (by omega), toInt32_eq (by omega) (by omega)]
  refine h.updateThread (y := { s.thread t with pc := .worknext }) hact
    nofun (fun p hp => hp) (fun x => ?_) (fun x => ?_) rfl
    h.nonempty id ⟨hth.ordered, hth.workdone, hth.nonempty, trivial⟩
    s.workerdone
  · unfold Thread.place
    rw [hpc]
    rfl
  · rw [hpc, tally_append, tally_cons, tally_nil]
    show _ + (ind (i, j) x + 0) + 0 + _ + tally (s.thread t).batch x
      = _ + ind (i, j) x + _ + tally (s.thread t).batch x
    omega

/-- Every step of a thread keeps the invariant. -/
theorem threadStep_inv {s' : St w} (h : Inv c k s)
    (hstep : threadStep c t s = some s') : Inv c k s' := by
  have hth := h.threads t
  have hok := hth.pcOk
  have hact : ∀ {p}, (s.thread t).pc = p → p.plain = true →
      (s.thread t).pc.Active := fun hpc hp => hpc ▸ Pc.active_of_plain hp
  unfold threadStep at hstep
  unfold Thread.PcOk at hok
  simp only at hstep
  cases hpc : (s.thread t).pc <;> rw [hpc] at hok hstep <;> simp only at hok hstep
  case idle => cases hstep
  case waiting vid => cases hstep
  case select outer => cases hstep
  case worknext =>
    by_cases hend : s.workremain = 0 ∨ c.seqGrain = 0
    · rw [if_pos hend] at hstep
      cases hstep
      have := h.identity.seqGrain
      exact h.move hpc rfl rfl (show s.workremain = 0 by omega)
    · rw [if_neg hend] at hstep
      cases hstep
      exact h.move hpc rfl rfl trivial
  case pop =>
    rcases LocalWork.pop_cases h.identity.seqGrain hth.ordered with
      ⟨hpop, hempty⟩ | ⟨j, hpop, hlt, hle⟩
    · rw [hpop] at hstep
      cases hstep
      exact h.move hpc rfl rfl hempty
    · rw [hpop] at hstep
      cases hstep
      apply h.take (hact hpc rfl) hlt hle
      · intro x
        rw [hpc]
        rfl
      · intro x
        unfold Thread.place
        rw [hpc]
        exact (ind_add hlt.le hle x).trans (Nat.zero_add _).symm
  case popFailed =>
    cases hstep
    refine h.account (hact hpc rfl) nofun (fun x => ?_) (fun x => ?_) ?_
    · rw [hpc]
      rfl
    · rw [hpc]
      rfl
    · exact hok
  case globalNext outer =>
    by_cases hzero : s.workremain = 0
    · rw [if_pos hzero] at hstep
      cases hstep
      have hempty := h.thread_of_zero hzero (h.small t (hact hpc rfl).notIdle)
      cases outer
      · exact h.move hpc rfl rfl hzero
      · exact h.move hpc rfl rfl ⟨hzero, hempty⟩
    · rw [if_neg hzero] at hstep
      cases hstep
      exact h.move hpc rfl rfl hok
  case firstSlice outer =>
    split at hstep
    next heq =>
      cases hstep
      exact h.move hpc rfl rfl hok
    next tid heq =>
      cases hstep
      exact h.move hpc rfl rfl ⟨hok, h.mapLow tid (getLsbD_of_valueFirst1 heq)⟩
  case popSlice outer tid =>
    obtain ⟨hempty, htid⟩ := hok
    have hid := h.identity
    rw [hid.tid2pos tid (htid.trans_le hid.le), if_pos htid] at hstep
    simp only at hstep
    have hwidth := hid.width
    have hconcurrency := hid.concurrency
    have hle := hid.le
    rw [if_neg (by omega)]
      at hstep
    unfold unset at hstep
    cases hset : s.wa.map.getLsbD tid with
    | true =>
      rw [hset] at hstep
      cases hstep
      exact h.takeMap hpc rfl hset nofun (fun _ => rfl)
        (fun _ => rfl) ⟨hempty, htid⟩
    | false =>
      rw [hset] at hstep
      cases hstep
      exact h.move hpc rfl rfl hempty
  case checkSlice outer pos =>
    obtain ⟨hempty, hpos⟩ := hok
    obtain ⟨i, j, hs, hlt, hind⟩ := h.identity.slice hpos
    rw [hs] at hstep
    simp only at hstep
    have hne : s.workremain ≠ 0 := by
      apply h.workremain_ne (h.small t (by rw [hpc]; exact nofun))
        (x := i)
      rw [hpc]
      show sliceInd s.wa pos i = 1
      rw [hind i]
      exact ind_eq_one_iff.mpr ⟨Int.le_refl i, hlt⟩
    rw [if_neg hne] at hstep
    cases hstep
    refine h.goto ?_ nofun (fun x => ?_) (fun x => ?_) ?_
    · rw [hpc]
      exact ⟨nofun, nofun⟩
    · rw [hpc]
      exact (hind x).symm
    · rw [hpc]
      rfl
    · exact ⟨hempty, hlt⟩
  case repopAny outer =>
    split at hstep
    next heq =>
      cases hstep
      exact h.move hpc rfl rfl hok
    next idx heq =>
      cases hstep
      exact h.move hpc rfl rfl hok
  case repopUnset outer idx =>
    unfold unset at hstep
    cases hset : s.wa.map.getLsbD idx with
    | true =>
      obtain ⟨i, j, hs, hlt, hind⟩ := h.identity.slice (h.mapLow idx hset)
      rw [hset, hs] at hstep
      cases hstep
      exact h.takeMap hpc rfl hset nofun
        (fun x => (hind x).symm) (fun _ => rfl) ⟨hok, hlt⟩
    | false =>
      rw [hset] at hstep
      cases hstep
      exact h.move hpc rfl rfl hok
  case repopEmpty outer =>
    by_cases hmap : s.wa.map = 0
    · rw [if_pos hmap] at hstep
      cases hstep
      exact h.move hpc rfl rfl hok
    · rw [if_neg hmap] at hstep
      cases hstep
      exact h.move hpc rfl rfl hok
  case redoSelect outer =>
    by_cases hzero : s.workremain = 0
    · rw [if_pos hzero] at hstep
      cases hstep
      exact h.move hpc rfl rfl hok
    · rw [if_neg hzero] at hstep
      cases hstep
      exact h.move hpc rfl rfl hok
  case steal outer vid unitSize =>
    rcases (s.thread vid).lwork.steal_cases unitSize with
      ⟨hsteal, hlt⟩ | ⟨hsteal, hle⟩
    · rw [hsteal] at hstep
      cases hstep
      exact h.move hpc rfl rfl hok.1
    · rw [hsteal] at hstep
      cases hstep
      apply h.steal (hact hpc rfl) _ _ _ hok.1 rfl hle
      · intro x
        rw [hpc]
        rfl
      · intro x
        rw [hpc]
        rfl
      · have := hok.2
        omega
  case refill i j =>
    obtain ⟨hempty, hlt⟩ := hok
    have hgrain := h.identity.seqGrain
    have hact' : (s.thread t).pc.Active := by
      rw [hpc]
      exact ⟨nofun, nofun⟩
    have hhand : ∀ x, (s.thread t).pc.hand x = 0 := by
      intro x
      rw [hpc]
      rfl
    by_cases hsmall : j - i ≤ c.seqGrain
    · rw [if_pos hsmall] at hstep
      cases hstep
      apply h.take hact' hlt hth.ordered hhand
      intro x
      unfold Thread.place
      rw [hpc]
      rfl
    · rw [if_neg hsmall] at hstep
      cases hstep
      have hle : i + c.seqGrain ≤ j := by omega
      apply h.take hact' (by omega) hle hhand
      intro x
      unfold Thread.place
      rw [hpc, ind_of_le (r := ((s.thread t).lwork.crBeg,
        (s.thread t).lwork.crEnd)) hempty.le]
      exact ind_add (by omega) hle x
  case body i j =>
    cases hstep
    exact h.body hpc
  case loopEnd =>
    have ht := h.small t (hact hpc rfl).notIdle
    have hempty := h.thread_of_zero hok ht
    have hrem : s.workremain - (s.thread t).lwork.workdone = 0 := by
      rw [hth.workdone, hempty.2, hok]
      rfl
    rw [if_pos hrem] at hstep
    cases hstep
    refine h.account (hact hpc rfl) nofun (fun x => ?_) (fun x => ?_) ?_
    · rw [hpc]
      rfl
    · rw [hpc]
      rfl
    · exact ⟨hrem, hempty.1, rfl⟩
  case ret =>
    cases hstep
    obtain ⟨-, hempty, hbatch⟩ := hok
    refine h.updateThread (y := ⟨.idle, { (s.thread t).lwork with
      init := false
      workdone := 0 }, (s.thread t).batch⟩) (hact hpc rfl)
      nofun (fun p hp => hp) (fun x => ?_) (fun x => ?_) rfl
      h.nonempty id ⟨hth.ordered, ?_, hth.nonempty, hempty, hbatch⟩ _
    · unfold Thread.place
      rw [hpc]
      rfl
    · rw [hpc]
      rfl
    · show 0 = len (s.thread t).batch
      rw [hbatch]
      rfl

end XKaapi.Foreach
