/-
The pops of a work queue on machine words, by the owner alone
(src/kaapi.h, src/misc/kaapi_wq_slowpop.c, kaapi_wq_slowpop_ull.c).

The protocol with thieves is `Workqueue.Basic`, over the integers. Here
the indices are 64-bit words: unsigned ones wrap, and a signed addition
or subtraction that leaves the range has no meaning in C, so it answers
`none`. The size is any the callers accept: the sequential grain reaches
the pop as the user set it (kaapic_foreach_attr.c).

The fast path adds the size to `beg` before it looks at `end`. Hence both
pops are right exactly where that addition stays in the range
(`pops_ok_iff`): past it the sum is below `end`, and an unsigned pop
answers success with a wrong range, also when the queue is empty.
-/
import Mathlib.Algebra.Group.Int.Defs
import Mathlib.Tactic.ByContra

namespace XKaapi.Workqueue

-- ======== words

/-- `long`. -/
abbrev Long := BitVec 64

/-- `unsigned long long`. -/
abbrev Ull := BitVec 64

/-- A signed addition: C defines it only when it does not overflow. -/
def Long.add (x y : Long) : Option Long :=
  if x.saddOverflow y then none else some (x + y)

/-- A signed subtraction: C defines it only when it does not overflow. -/
def Long.sub (x y : Long) : Option Long :=
  if x.ssubOverflow y then none else some (x - y)

-- ======== queues

/-- What a pop returns; on success also what it stores in `*beg` and
`*end`. -/
inductive PopResult
  | success (beg fin : BitVec 64)
  | ebusy
  | esrch
deriving DecidableEq, Repr

/-- The range in one of its two readings, `rep.li` or `rep.ull`, and
whether `lock` is set. -/
structure WordQueue where
  beg : BitVec 64
  fin : BitVec 64
  lock : Bool
deriving DecidableEq, Repr

/-- The grains of a loop: one union, read as `rep.li` or `rep.ull`. -/
structure ForeachAttr where
  sGrain : BitVec 64
  pGrain : BitVec 64
deriving DecidableEq, Repr

/-- `kaapic_foreach_attr_init`, its grains. -/
def foreachAttrInit : ForeachAttr := ⟨1, 1⟩

/-- `kaapic_foreach_attr_set_grains` and
`kaapic_foreach_attr_set_grains_ull`: the grains are not looked at. -/
def foreachAttrSetGrains (_ : ForeachAttr) (sGrain pGrain : BitVec 64) :
    ForeachAttr :=
  ⟨sGrain, pGrain⟩

-- ======== pops

/-- `kaapi_workqueue_slowpop_ull`. -/
def workqueueSlowpopUll (q : WordQueue) (maxSize : Ull) :
    PopResult × WordQueue :=
  if q.lock = false then (.esrch, q)
  else if q.fin ≤ q.beg then (.ebusy, q)
  else
    let size := q.fin - q.beg
    let size := if size > maxSize then maxSize else size
    let locBeg := q.beg + size
    (.success (locBeg - size) locBeg, { q with beg := locBeg })

/-- `kaapi_workqueue_pop_ull`. -/
def workqueuePopUll (q : WordQueue) (maxSize : Ull) :
    PopResult × WordQueue :=
  let locInit := q.beg
  let locBeg := q.beg + maxSize
  let q := { q with beg := locBeg }
  if locBeg < q.fin then (.success (locBeg - maxSize) locBeg, q)
  else workqueueSlowpopUll { q with beg := locInit } maxSize

/-- `kaapi_workqueue_slowpop`. -/
def workqueueSlowpop (q : WordQueue) (maxSize : Long) :
    Option (PopResult × WordQueue) :=
  if q.lock = false then some (.esrch, q)
  else do
    let size ← Long.sub q.fin q.beg
    if size = 0 then some (.ebusy, q)
    else
      let size := if maxSize.slt size then maxSize else size
      let locBeg ← Long.add q.beg size
      let fin := locBeg
      let beg ← Long.sub fin size
      some (.success beg fin, { q with beg := locBeg })

/-- `kaapi_workqueue_pop`. -/
def workqueuePop (q : WordQueue) (maxSize : Long) :
    Option (PopResult × WordQueue) := do
  let locInit := q.beg
  let locBeg ← Long.add q.beg maxSize
  let q := { q with beg := locBeg }
  if locBeg.slt q.fin then
    let fin := locBeg
    let beg ← Long.sub locBeg maxSize
    some (.success beg fin, q)
  else workqueueSlowpop { q with beg := locInit } maxSize

-- ======== the statement

/-- A pop is right: it succeeds exactly on a queue that is not empty, its
range goes from `beg` to the lower of `beg + max_size` and `end`, and the
queue is left with the rest. `val` reads a word as a number. -/
def PopRight (val : BitVec 64 → Int) (q : WordQueue)
    (maxSize : BitVec 64) (r : PopResult × WordQueue) : Prop :=
  (val q.beg < val q.fin →
    ∃ fin, r.1 = .success q.beg fin
      ∧ val fin = min (val q.beg + val maxSize) (val q.fin)
      ∧ r.2 = { q with beg := fin })
    ∧ (¬ val q.beg < val q.fin → (∀ b e, r.1 ≠ .success b e) ∧ r.2 = q)

/-- The numbers of the unsigned words. -/
def valUll (x : Ull) : Int := x.toNat

/-- The numbers of the signed words. -/
def valLong (x : Long) : Int := x.toInt

def PopUllOk (q : WordQueue) (maxSize : Ull) : Prop :=
  PopRight valUll q maxSize (workqueuePopUll q maxSize)

/-- The signed pop is right and computes nothing without a meaning. -/
def PopOk (q : WordQueue) (maxSize : Long) : Prop :=
  ∃ r, workqueuePop q maxSize = some r ∧ PopRight valLong q maxSize r

/-- The condition: `beg + max_size` stays below `bound`, and the slow
path, where it takes something, has a lock to take. -/
def PopMeets (val : BitVec 64 → Int) (bound : Int) (q : WordQueue)
    (maxSize : BitVec 64) : Prop :=
  val q.beg + val maxSize < bound
    ∧ (q.lock = true ∨ val q.beg = val q.fin
      ∨ val q.beg + val maxSize < val q.fin)

-- ======== unsigned

section Unsigned

variable {q : WordQueue} {maxSize : Ull}

theorem workqueueSlowpopUll_right (hle : valUll q.beg ≤ valUll q.fin)
    (hlock : q.lock = true) :
    PopRight valUll q maxSize (workqueueSlowpopUll q maxSize) := by
  unfold valUll at hle
  unfold workqueueSlowpopUll
  rw [if_neg (by rw [hlock]; decide)]
  by_cases hempty : q.fin ≤ q.beg
  · rw [if_pos hempty]
    rw [BitVec.le_def] at hempty
    refine ⟨fun hlt => ?_, fun _ => ⟨(fun b e he => nomatch he), rfl⟩⟩
    unfold valUll at hlt
    omega
  · rw [if_neg hempty]
    rw [BitVec.le_def] at hempty
    refine ⟨fun _ => ?_, fun hlt => ?_⟩
    · unfold valUll
      dsimp only
      split
      next hgt =>
        refine ⟨_, by rw [BitVec.add_sub_cancel], ?_, rfl⟩
        bv_omega
      next hgt =>
        refine ⟨_, by rw [BitVec.add_sub_cancel], ?_, rfl⟩
        bv_omega
    · unfold valUll at hlt
      omega

theorem workqueuePopUll_fast (hlt : q.beg + maxSize < q.fin) :
    workqueuePopUll q maxSize = (.success q.beg (q.beg + maxSize),
      { q with beg := q.beg + maxSize }) := by
  unfold workqueuePopUll
  dsimp only
  rw [if_pos hlt, BitVec.add_sub_cancel]

theorem workqueuePopUll_slow (hge : ¬ q.beg + maxSize < q.fin) :
    workqueuePopUll q maxSize = workqueueSlowpopUll q maxSize := by
  unfold workqueuePopUll
  dsimp only
  rw [if_neg hge]

theorem workqueuePopUll_right (hle : valUll q.beg ≤ valUll q.fin)
    (hpos : 0 < valUll maxSize) (h : PopMeets valUll (2 ^ 64) q maxSize) :
    PopUllOk q maxSize := by
  obtain ⟨hbound, hlock⟩ := h
  have hsum : valUll (q.beg + maxSize) = valUll q.beg + valUll maxSize := by
    unfold valUll at *
    bv_omega
  unfold PopUllOk
  by_cases hfast : q.beg + maxSize < q.fin
  · rw [workqueuePopUll_fast hfast]
    have hfin : valUll (q.beg + maxSize) < valUll q.fin := by
      rw [BitVec.lt_def] at hfast
      exact Int.ofNat_lt.mpr hfast
    refine ⟨fun _ => ⟨_, rfl, ?_, rfl⟩, fun hempty => ?_⟩
    · rw [← hsum, Int.min_eq_left (Int.le_of_lt hfin)]
    · omega
  · rw [workqueuePopUll_slow hfast]
    have hfin : valUll q.fin ≤ valUll (q.beg + maxSize) := by
      rw [BitVec.lt_def] at hfast
      unfold valUll
      omega
    rcases hlock with hlock | heq | hlt
    · exact workqueueSlowpopUll_right hle hlock
    · -- an empty queue: no success, whether there is a lock or not
      have hempty : q.fin ≤ q.beg := by
        rw [BitVec.le_def]
        unfold valUll at heq
        omega
      refine ⟨fun hlt => absurd heq (Int.ne_of_lt hlt), fun _ => ?_⟩
      unfold workqueueSlowpopUll
      rw [if_pos hempty]
      split
      · exact ⟨(fun b e he => nomatch he), rfl⟩
      · exact ⟨(fun b e he => nomatch he), rfl⟩
    · omega

theorem not_popUllOk_of_wrap (hle : valUll q.beg ≤ valUll q.fin)
    (h : 2 ^ 64 ≤ valUll q.beg + valUll maxSize) : ¬ PopUllOk q maxSize := by
  have hwrap : valUll (q.beg + maxSize) < valUll q.beg := by
    unfold valUll at *
    bv_omega
  have hfast : q.beg + maxSize < q.fin := by
    rw [BitVec.lt_def]
    unfold valUll at hle hwrap
    omega
  intro ⟨hsuccess, hempty⟩
  rw [workqueuePopUll_fast hfast] at hsuccess hempty
  by_cases hlt : valUll q.beg < valUll q.fin
  · obtain ⟨fin, heq, hval, -⟩ := hsuccess hlt
    cases heq
    have hpos : 0 ≤ valUll maxSize := Int.natCast_nonneg _
    omega
  · exact (hempty hlt).1 _ _ rfl

theorem not_popUllOk_of_noLock (hlock : q.lock = false)
    (hlt : valUll q.beg < valUll q.fin)
    (hbound : valUll q.beg + valUll maxSize < 2 ^ 64)
    (hge : valUll q.fin ≤ valUll q.beg + valUll maxSize) :
    ¬ PopUllOk q maxSize := by
  have hslow : ¬ q.beg + maxSize < q.fin := by
    rw [BitVec.lt_def]
    unfold valUll at *
    bv_omega
  intro ⟨hsuccess, _⟩
  rw [workqueuePopUll_slow hslow] at hsuccess
  obtain ⟨fin, heq, -⟩ := hsuccess hlt
  unfold workqueueSlowpopUll at heq
  rw [if_pos hlock] at heq
  cases heq

theorem popUllOk_iff (hle : valUll q.beg ≤ valUll q.fin)
    (hpos : 0 < valUll maxSize) :
    PopUllOk q maxSize ↔ PopMeets valUll (2 ^ 64) q maxSize := by
  refine ⟨fun hok => ?_, workqueuePopUll_right hle hpos⟩
  have hbound : valUll q.beg + valUll maxSize < 2 ^ 64 := by
    by_contra hwrap
    exact not_popUllOk_of_wrap hle (Int.not_lt.mp hwrap) hok
  refine ⟨hbound, ?_⟩
  by_contra hnot
  simp only [not_or, Bool.not_eq_true] at hnot
  obtain ⟨hlock, hne, hge⟩ := hnot
  exact not_popUllOk_of_noLock hlock (Int.lt_iff_le_and_ne.mpr ⟨hle, hne⟩)
    hbound (Int.not_lt.mp hge) hok

end Unsigned

-- ======== signed

section Signed

variable {q : WordQueue} {maxSize : Long} {x y : Long}

theorem valLong_lt (x : Long) : valLong x < 2 ^ 63 := BitVec.toInt_lt

theorem le_valLong (x : Long) : -2 ^ 63 ≤ valLong x := BitVec.le_toInt x

theorem Long.add_eq_some (hlo : -2 ^ 63 ≤ valLong x + valLong y)
    (hhi : valLong x + valLong y < 2 ^ 63) :
    Long.add x y = some (x + y) ∧ valLong (x + y) = valLong x + valLong y := by
  have h : ¬ x.saddOverflow y = true := by
    unfold valLong at hlo hhi
    unfold BitVec.saddOverflow
    simp only [Bool.or_eq_true, decide_eq_true_eq]
    omega
  unfold Long.add
  rw [if_neg h]
  exact ⟨rfl, BitVec.toInt_add_of_not_saddOverflow h⟩

theorem Long.add_eq_none (h : 2 ^ 63 ≤ valLong x + valLong y) : Long.add x y = none := by
  have h' : x.saddOverflow y = true := by
    unfold valLong at h
    unfold BitVec.saddOverflow
    simp only [Bool.or_eq_true, decide_eq_true_eq]
    omega
  unfold Long.add
  rw [if_pos h']

theorem Long.sub_eq_some (hlo : -2 ^ 63 ≤ valLong x - valLong y)
    (hhi : valLong x - valLong y < 2 ^ 63) :
    Long.sub x y = some (x - y) ∧ valLong (x - y) = valLong x - valLong y := by
  have h : ¬ x.ssubOverflow y = true := by
    unfold valLong at hlo hhi
    unfold BitVec.ssubOverflow
    simp only [Bool.or_eq_true, decide_eq_true_eq]
    omega
  unfold Long.sub
  rw [if_neg h]
  exact ⟨rfl, BitVec.toInt_sub_of_not_ssubOverflow h⟩

theorem Long.sub_add (hlo : -2 ^ 63 ≤ valLong x + valLong y)
    (hhi : valLong x + valLong y < 2 ^ 63) : Long.sub (x + y) y = some x := by
  have hsum := (Long.add_eq_some hlo hhi).2
  have hsub : valLong (x + y) - valLong y = valLong x := by omega
  have hsome := Long.sub_eq_some (by rw [hsub]; exact le_valLong x)
    (by rw [hsub]; exact valLong_lt x)
  rw [hsome.1, BitVec.add_sub_cancel]

/-- On a queue with a lock that holds at most `max_size` elements the
slow path takes them all. -/
theorem workqueueSlowpop_right (hle : valLong q.beg ≤ valLong q.fin)
    (hfew : valLong q.fin ≤ valLong q.beg + valLong maxSize)
    (hlock : q.lock = true) :
    ∃ r, workqueueSlowpop q maxSize = some r
      ∧ PopRight valLong q maxSize r := by
  have hmax := valLong_lt maxSize
  obtain ⟨hsub, hsize⟩ := Long.sub_eq_some
    (x := q.fin) (y := q.beg) (by omega) (by omega)
  unfold workqueueSlowpop
  rw [if_neg (by rw [hlock]; decide), hsub, Option.bind_eq_bind,
    Option.bind_some]
  by_cases hempty : q.fin - q.beg = 0
  · rw [if_pos hempty]
    have hzero : valLong q.fin - valLong q.beg = 0 := by
      rw [← hsize, hempty]
      rfl
    refine ⟨_, rfl, fun hlt => ?_, fun _ => ⟨(fun b e he => nomatch he), rfl⟩⟩
    omega
  · rw [if_neg hempty]
    have hnot : ¬ maxSize.slt (q.fin - q.beg) = true := by
      rw [BitVec.slt_iff_toInt_lt]
      show ¬ valLong maxSize < valLong (q.fin - q.beg)
      omega
    have hback : valLong q.beg + valLong (q.fin - q.beg) = valLong q.fin := by
      omega
    have hfin := valLong_lt q.fin
    have hbeg := le_valLong q.fin
    dsimp only
    rw [if_neg hnot, (Long.add_eq_some (by omega) (by omega)).1,
      Option.bind_some, Long.sub_add (by omega) (by omega), Option.bind_some]
    refine ⟨_, rfl, fun _ => ⟨_, rfl, ?_, rfl⟩, fun hlt => ?_⟩
    · rw [(Long.add_eq_some (by omega) (by omega)).2, hback]
      omega
    · refine absurd ?_ hempty
      have heq : q.fin = q.beg := BitVec.eq_of_toInt_eq (by
        show valLong q.fin = valLong q.beg
        omega)
      rw [heq, BitVec.sub_self]
      rfl

theorem workqueuePop_eq_none (h : 2 ^ 63 ≤ valLong q.beg + valLong maxSize) :
    workqueuePop q maxSize = none := by
  unfold workqueuePop
  rw [Long.add_eq_none h]
  rfl

theorem popOk_iff (hle : valLong q.beg ≤ valLong q.fin)
    (hpos : 0 < valLong maxSize) :
    PopOk q maxSize ↔ PopMeets valLong (2 ^ 63) q maxSize := by
  by_cases hbound : valLong q.beg + valLong maxSize < 2 ^ 63
  · have hlo : -2 ^ 63 ≤ valLong q.beg + valLong maxSize := by
      have hbeg := le_valLong q.beg
      omega
    obtain ⟨hadd, hsum⟩ := Long.add_eq_some hlo hbound
    have hslt : (q.beg + maxSize).slt q.fin = true
        ↔ valLong q.beg + valLong maxSize < valLong q.fin := by
      rw [← hsum]
      exact BitVec.slt_iff_toInt_lt
    unfold PopOk workqueuePop
    rw [hadd, Option.bind_eq_bind, Option.bind_some]
    dsimp only
    by_cases hfast : valLong q.beg + valLong maxSize < valLong q.fin
    · rw [if_pos (hslt.mpr hfast), Long.sub_add hlo hbound, Option.bind_some]
      refine ⟨fun _ => ⟨hbound, .inr (.inr hfast)⟩, fun _ => ?_⟩
      refine ⟨_, rfl, fun _ => ⟨_, rfl, ?_, rfl⟩, fun hlt => ?_⟩
      · rw [hsum]
        omega
      · omega
    · rw [if_neg (fun h => hfast (hslt.mp h))]
      show (∃ r, workqueueSlowpop q maxSize = some r
        ∧ PopRight valLong q maxSize r) ↔ _
      rcases Bool.eq_false_or_eq_true q.lock with hlock | hlock
      · exact ⟨fun _ => ⟨hbound, .inl hlock⟩,
          fun _ => workqueueSlowpop_right hle (Int.not_lt.mp hfast) hlock⟩
      · -- ESRCH, right only on an empty queue
        have hslow : workqueueSlowpop q maxSize = some (.esrch, q) := by
          unfold workqueueSlowpop
          rw [if_pos hlock]
        constructor
        · intro ⟨r, hr, hright⟩
          rw [hslow] at hr
          cases hr
          refine ⟨hbound, .inr (.inl ?_)⟩
          by_contra hne
          obtain ⟨fin, heq, -⟩ :=
            hright.1 (Int.lt_iff_le_and_ne.mpr ⟨hle, hne⟩)
          cases heq
        · intro ⟨_, hcond⟩
          refine ⟨_, hslow, fun hlt => ?_,
            fun _ => ⟨(fun b e he => nomatch he), rfl⟩⟩
          rcases hcond with h | heq | h
          · rw [hlock] at h
            cases h
          · exact absurd heq (Int.ne_of_lt hlt)
          · exact absurd h hfast
  · refine ⟨fun hok => ?_, fun h => absurd h.1 hbound⟩
    obtain ⟨r, hr, -⟩ := hok
    rw [workqueuePop_eq_none (Int.not_lt.mp hbound)] at hr
    cases hr

end Signed

-- ======== the results

/-- Both pops are right exactly where `beg + max_size` stays in the range
of the words (and, where the slow path has something to take, there is a
lock). -/
theorem pops_ok_iff (q : WordQueue) (maxSize : BitVec 64) :
    (valUll q.beg ≤ valUll q.fin → 0 < valUll maxSize →
      (PopUllOk q maxSize ↔ PopMeets valUll (2 ^ 64) q maxSize))
    ∧ (valLong q.beg ≤ valLong q.fin → 0 < valLong maxSize →
      (PopOk q maxSize ↔ PopMeets valLong (2 ^ 63) q maxSize)) :=
  ⟨popUllOk_iff, popOk_iff⟩

/-- Four elements from 10, two at a time. -/
theorem pops_ok_iff_ten :
    PopUllOk ⟨10, 14, true⟩ 2 ∧ PopOk ⟨10, 14, true⟩ 2 :=
  ⟨((pops_ok_iff ⟨10, 14, true⟩ 2).1 (by decide) (by decide)).mpr
      ⟨by decide, .inl rfl⟩,
    ((pops_ok_iff ⟨10, 14, true⟩ 2).2 (by decide) (by decide)).mpr
      ⟨by decide, .inl rfl⟩⟩

/-- The largest grain, which the user may set, on ten elements: the first
pop answers `[10, 9)`. -/
theorem popUll_fails :
    ¬ ∀ (q : WordQueue) (maxSize : Ull), valUll q.beg ≤ valUll q.fin →
      0 < valUll maxSize → PopUllOk q maxSize := by
  intro hall
  have hok := hall ⟨10, 20, true⟩
    (foreachAttrSetGrains foreachAttrInit (-1) 1).sGrain (by decide) (by decide)
  obtain ⟨fin, heq, hval, -⟩ := hok.1 (by decide)
  have hpop : (workqueuePopUll ⟨10, 20, true⟩
      (foreachAttrSetGrains foreachAttrInit (-1) 1).sGrain).1
        = .success 10 9 := by decide
  rw [hpop] at heq
  cases heq
  exact absurd hval (by decide)

end XKaapi.Workqueue
