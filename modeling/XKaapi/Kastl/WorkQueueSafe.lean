/-
Safety of the loops' work queue: what is returned since a `set` is disjoint
pieces of the range set, and nothing of it is lost.

`queue_safe` is for the runs that meet `Meets`. Two kinds do not, and the
queue fails on both. A `pop` whose `_beg += size` leaves the words, or a
steal whose `_end -= size` does, finds no conflict and takes indices that
were never set. And a queue set to a range with `first > last`, which
`range_t` reads as empty, answers a pop of one element with `first`:
`slow_pop` tests what is left for zero, and it is negative
(`queue_not_safe`).

`splitFunction` is what the loops do with a stolen range
(api/kastl/kastl/kastl_loop.h): its pieces are equal since a steal returns
the size asked for or one element.
-/
import Mathlib.Data.Int.ConditionallyCompleteOrder
import Mathlib.Order.ConditionallyCompleteLattice.Basic
import XKaapi.Kastl.WorkQueueInv
import Mathlib.Tactic.Ring

namespace XKaapi.Kastl.WorkQueue

open StepMachine

-- ======== safety

/-- What was returned and what is left make up the range last set, and a
steal of `size` is of that size or of one element. -/
structure St.Safe (s : St) : Prop where
  disjoint : s.returned.Pairwise RangeDisjoint
  inside : ∀ r ∈ s.returned, s.first ≤ r.1 ∧ r.1 ≤ r.2 ∧ r.2 ≤ s.last
  cover : s.Quiescent →
    (∀ r ∈ s.returned, RangeDisjoint r (s.beg, s.fin)) ∧
    ∀ i, i ∈ Set.Ico s.first s.last ↔
      (∃ r ∈ s.returned, i ∈ Set.Ico r.1 r.2) ∨ i ∈ Set.Ico s.beg s.fin
  sized : ∀ x ∈ s.steals, x.2.2 - x.2.1 = x.1 ∨ x.2.2 - x.2.1 = 1

namespace InvAt

variable {B E : Int} {s : St}

theorem idle (h : InvAt B E s) (ho : s.owner = .idle) :
    s.beg = B ∧ Cuts s.first B s.pops := by
  have h₁ := h.owner
  have h₂ := h.pops
  rw [ho] at h₁ h₂
  exact ⟨h₁, by simpa only [OwnerPc.taken, List.append_nil] using h₂⟩

theorem settled (h : InvAt B E s) (hs : s.Settled) : s.fin = E := by
  refine h.fin hs.2 ?_
  by_contra hw
  have hr := hs.1
  cases hpc : s.owner <;> rw [hpc] at hw hr
    <;> first | exact hw rfl | cases hr

theorem settled_of_quiescent (hq : s.Quiescent) : s.Settled :=
  ⟨by rw [hq.1]; rfl, fun t => by rw [hq.2 t]; rfl⟩

theorem returned_cuts (h : InvAt B E s) (hle : s.first ≤ s.last) :
    s.returned.Pairwise RangeDisjoint
      ∧ ∀ r ∈ s.returned, s.first ≤ r.1 ∧ r.1 ≤ r.2 ∧ r.2 ≤ s.last := by
  have hpw := h.pops.pairwise_append (h.le hle) h.steals
  constructor
  · refine hpw.sublist ?_
    exact (List.sublist_append_left _ _).append (List.Sublist.refl _)
  · intro r hr
    have hEB := h.le hle
    rcases List.mem_append.mp hr with hr | hr
    · obtain ⟨h₁, h₂, h₃⟩ := h.pops.bounds r (List.mem_append_left _ hr)
      exact ⟨h₁, h₂, h₃.trans (hEB.trans h.steals.le)⟩
    · obtain ⟨h₁, h₂, h₃⟩ := h.steals.bounds r hr
      exact ⟨(h.pops.le.trans hEB).trans h₁, h₂, h₃⟩

theorem cover (h : InvAt B E s) (hq : s.Quiescent) (hle : s.first ≤ s.last) :
    (∀ r ∈ s.returned, RangeDisjoint r (s.beg, s.fin)) ∧
    ∀ i, i ∈ Set.Ico s.first s.last ↔
      (∃ r ∈ s.returned, i ∈ Set.Ico r.1 r.2) ∨ i ∈ Set.Ico s.beg s.fin := by
  obtain ⟨hbeg, hpops⟩ := h.idle hq.1
  have hfin := h.settled (settled_of_quiescent hq)
  rw [hbeg, hfin]
  constructor
  · intro r hr
    rcases List.mem_append.mp hr with hr | hr
    · exact .of_le (hpops.bounds r hr).2.2
    · refine RangeDisjoint.symm (.of_le ?_)
      exact (h.steals.bounds r hr).1
  · intro i
    have hall : i ∈ Set.Ico s.first s.last ↔
        i ∈ Set.Ico s.first B ∨ i ∈ Set.Ico E s.last ∨ i ∈ Set.Ico B E := by
      have h₁ := hpops.le
      have h₂ := h.steals.le
      have h₃ := h.le hle
      simp only [Set.mem_Ico]
      omega
    rw [hall, hpops.mem_Ico_iff, h.steals.mem_Ico_iff]
    simp only [St.returned, List.mem_append, or_and_right, exists_or]
    rw [or_assoc]

/-- The invariant is safety. A range set with `first > last` holds nothing,
and nothing was returned of it. -/
theorem safe (h : InvAt B E s) : s.Safe := by
  rcases lt_or_ge s.last s.first with hlt | hle
  · obtain ⟨⟨hB, hpops⟩, hE, hsteals⟩ := h.inverted hlt
    have hnil : s.returned = [] := by
      rw [St.returned, hpops, hsteals]
      rfl
    refine ⟨by rw [hnil]; exact List.Pairwise.nil, ?_, fun hq => ?_, h.sized⟩
    · rw [hnil]
      intro r hr
      cases hr
    · rw [hnil, (h.idle hq.1).1, h.settled (settled_of_quiescent hq), hB, hE]
      refine ⟨(fun r hr => by cases hr), fun i => ?_⟩
      simp
  · obtain ⟨hdisjoint, hinside⟩ := h.returned_cuts hle
    exact ⟨hdisjoint, hinside, fun hq => h.cover hq hle, h.sized⟩

end InvAt

-- ======== content

/-- The calls that give the queue another range. -/
def Act.resets : Act → Bool
  | .set _ _ | .clear => true
  | _ => false

theorem range_step {a : Act} {s s' : St} (ha : a.resets = false)
    (ho : s.owner.resetting = false) (hstep : step a s = some s') :
    s'.owner.resetting = false ∧ s'.first = s.first ∧ s'.last = s.last := by
  cases a with
  | set _ _ | clear => cases ha
  | owner =>
    simp only [step, ownerStep] at hstep
    repeat' split at hstep
    all_goals cases hstep
    all_goals first
      | exact ⟨rfl, rfl, rfl⟩
      | exact ⟨ho, rfl, rfl⟩
      | exact absurd ho (by simp [*, OwnerPc.resetting])
  | thief t =>
    simp only [step, thiefStep] at hstep
    repeat' split at hstep
    all_goals cases hstep
    all_goals exact ⟨ho, rfl, rfl⟩
  | popItem | pop _ | steal _ _ =>
    simp only [step] at hstep
    split at hstep
    all_goals cases hstep
    all_goals first
      | exact ⟨rfl, rfl, rfl⟩
      | exact ⟨ho, rfl, rfl⟩

theorem range_run {acts : List Act} {s s' : St}
    (hacts : ∀ a ∈ acts, a.resets = false) (ho : s.owner.resetting = false)
    (hrun : run step acts s = some s') : s'.first = s.first ∧ s'.last = s.last := by
  refine (run_preserves_of (P := fun u => u.owner.resetting = false ∧
    u.first = s.first ∧ u.last = s.last) ?_ hacts ⟨ho, rfl, rfl⟩ hrun).2
  intro a u u' ha hu hstep
  obtain ⟨h₁, h₂, h₃⟩ := range_step ha hu.1 hstep
  exact ⟨h₁, h₂.trans hu.2.1, h₃.trans hu.2.2⟩

/-- Safety of the work queue. In every run whose steps meet the condition,
every state reached is safe; and from there, while no `set` or `clear` is
called, two moments of an idle owner between which no pop succeeded have the
same `_beg`, and two moments with no steal on the words between which none
succeeded have the same `_end`. -/
theorem queue_safe {first last : Int} (hf : IsIndex first) (hl : IsIndex last)
    {acts : List Act} {s : St} (hmeets : Along step Meets acts (queueInit first last))
    (hrun : run step acts (queueInit first last) = some s) :
    s.Safe ∧ ∀ (acts' : List Act) (s' : St), (∀ a ∈ acts', a.resets = false) →
      Along step Meets acts' s → run step acts' s = some s' →
      (s.owner = .idle → s'.owner = .idle → s'.pops = s.pops → s'.beg = s.beg) ∧
      (s.Settled → s'.Settled → s'.steals = s.steals → s'.fin = s.fin) := by
  have hinv := inv_run hmeets (inv_init hf hl) hrun
  obtain ⟨B, E, h⟩ := hinv
  refine ⟨h.safe, fun acts' s' hacts hmeets' hrun' => ⟨fun hi hi' hpops => ?_,
    fun hs hs' hsteals => ?_⟩⟩
  · obtain ⟨B', E', h'⟩ := inv_run hmeets' ⟨B, E, h⟩ hrun'
    obtain ⟨hfirst, -⟩ := range_run hacts (by rw [hi]; rfl) hrun'
    obtain ⟨hbeg, hcuts⟩ := h.idle hi
    obtain ⟨hbeg', hcuts'⟩ := h'.idle hi'
    rw [hfirst, hpops] at hcuts'
    rw [hbeg, hbeg']
    exact hcuts'.hi_unique hcuts
  · obtain ⟨B', E', h'⟩ := inv_run hmeets' ⟨B, E, h⟩ hrun'
    obtain ⟨-, hlast⟩ := range_run hacts hs.1 hrun'
    have hcuts := h'.steals
    rw [hlast, hsteals] at hcuts
    rw [h.settled hs, h'.settled hs']
    exact hcuts.lo_unique h.steals

/-- On `[0, 4)`: a pop of two, a steal of three that gets one element in its
second attempt, and a pop of one. -/
def takeRun : List Act :=
  [.pop 2] ++ List.replicate 5 .owner ++ [.steal 0 3]
    ++ List.replicate 11 (.thief 0) ++ [.popItem] ++ List.replicate 5 .owner

/-- Then, on the empty queue, a pop and a steal that fail. -/
def failRun : List Act :=
  [.pop 5] ++ List.replicate 13 .owner ++ [.steal 0 1]
    ++ List.replicate 12 (.thief 0)

theorem queue_safe_takeRun : ∃ s, run step takeRun (queueInit 0 4) = some s
    ∧ ∃ s', run step failRun s = some s'
      ∧ s'.returned = [(0, 2), (2, 3), (3, 4)] ∧ s.Safe ∧ s'.beg = s.beg := by
  have hmeets : Along step Meets takeRun (queueInit 0 4) := by decide
  have hrun : run step takeRun (queueInit 0 4) = some _ := rfl
  have hsafe := queue_safe (by decide) (by decide) hmeets hrun
  refine ⟨_, hrun, _, rfl, rfl, hsafe.1, ?_⟩
  exact (hsafe.2 failRun _ (by decide) (by decide) rfl).1 rfl rfl rfl

/-- The queue set to `[5, 2)`, then a pop of one element. -/
def invertedRun : List Act :=
  [.set 5 2] ++ List.replicate 5 .owner ++ [.popItem] ++ List.replicate 17 .owner

/-- The pop returns 5, which is in no range that was set. -/
theorem queue_not_safe : ¬ ∀ (acts : List Act) (s : St),
    run step acts (queueInit 0 0) = some s → s.Safe := by
  intro h
  have hsafe := h invertedRun _ rfl
  have hin := hsafe.inside (5, 6) (by decide)
  exact absurd hin (by decide)

/-- A pop of `2^63 - 1` on `[1, 2)` returns an empty range, and leaves a queue
that begins below it. -/
example : (run step ([.pop indexMax] ++ List.replicate 5 .owner) (queueInit 1 2)).map
    (fun s => (s.pops, s.beg, s.fin)) = some ([(1, indexMin)], indexMin, 2) := by
  decide

-- ======== pieces

/-- `split_function`, its loop over the requests: `count` pieces of
`unitSize` from `pos` on. -/
def cutPieces (unitSize : Nat) : Nat → Int → List (Int × Int)
  | 0, _ => []
  | count + 1, pos =>
    (pos, pos + unitSize) :: cutPieces unitSize count (pos + unitSize)

/-- `split_function`, on the range it has stolen with `unitSize` for each of
the requests. -/
def splitFunction (unitSize requestCount : Nat) (r : Int × Int) : List (Int × Int) :=
  let size := (r.2 - r.1).toNat
  -- recompute the request count
  let count :=
    if size ≠ unitSize * requestCount then
      let count := size / unitSize
      if count * unitSize < size then count + 1 else count
    else requestCount
  -- pop no more than unit_size
  let unitSize := if unitSize > size then size else unitSize
  cutPieces unitSize count r.1

theorem cutPieces_cuts (unitSize count : Nat) (pos : Int) :
    Cuts pos (pos + unitSize * count) (cutPieces unitSize count pos) := by
  induction count generalizing pos with
  | zero =>
    rw [Nat.cast_zero, Int.mul_zero, Int.add_zero]
    exact Cuts.nil pos
  | succ count ih =>
    have hend : pos + unitSize + unitSize * count = pos + unitSize * (count + 1 : Nat) := by
      push_cast
      ring
    exact hend ▸ (ih (pos + unitSize)).cons (by omega)

theorem cutPieces_size {unitSize count : Nat} {pos : Int} {p : Int × Int}
    (hp : p ∈ cutPieces unitSize count pos) : p.2 - p.1 = unitSize := by
  induction count generalizing pos with
  | zero => cases hp
  | succ count ih =>
    rcases List.mem_cons.mp hp with rfl | hp
    · exact add_sub_cancel_left _ _
    · exact ih hp

theorem splitFunction_all {unitSize requestCount : Nat} {r : Int × Int}
    (hr : r.2 - r.1 = (unitSize * requestCount : Nat)) (hcount : 0 < requestCount) :
    splitFunction unitSize requestCount r = cutPieces unitSize requestCount r.1 := by
  have hsize : (r.2 - r.1).toNat = unitSize * requestCount := by omega
  have hle : unitSize ≤ unitSize * requestCount := Nat.le_mul_of_pos_right _ hcount
  simp only [splitFunction, hsize, ne_eq, not_true_eq_false, if_false]
  rw [if_neg (by omega)]

theorem splitFunction_one {unitSize requestCount : Nat} {r : Int × Int}
    (hunit : 0 < unitSize) (hne : unitSize * requestCount ≠ 1) (hr : r.2 - r.1 = 1) :
    splitFunction unitSize requestCount r = cutPieces 1 1 r.1 := by
  have hsize : (r.2 - r.1).toNat = 1 := by omega
  have hcount : (if 1 / unitSize * unitSize < 1 then 1 / unitSize + 1
      else 1 / unitSize) = 1 := by
    rcases Nat.lt_or_ge 1 unitSize with hlt | hge
    · rw [Nat.div_eq_of_lt hlt, Nat.zero_mul]
      rfl
    · obtain rfl : unitSize = 1 := by omega
      rfl
  have hunit' : (if unitSize > 1 then 1 else unitSize) = 1 := by
    split <;> omega
  simp only [splitFunction, hsize]
  rw [if_pos (Ne.symm hne), hcount, hunit']

/-- Of a range that has the size asked for or one element, as a stolen one
has, the pieces are all of one size and make up the range. -/
theorem splitFunction_cuts {unitSize requestCount : Nat} {r : Int × Int}
    (hunit : 0 < unitSize) (hcount : 0 < requestCount)
    (hr : r.2 - r.1 = (unitSize * requestCount : Nat) ∨ r.2 - r.1 = 1) :
    Cuts r.1 r.2 (splitFunction unitSize requestCount r)
      ∧ ∃ len : Int, ∀ p ∈ splitFunction unitSize requestCount r, p.2 - p.1 = len := by
  by_cases hall : r.2 - r.1 = (unitSize * requestCount : Nat)
  · have hlast : r.2 = r.1 + unitSize * requestCount := by
      push_cast at hall
      omega
    rw [splitFunction_all hall hcount]
    exact ⟨hlast ▸ cutPieces_cuts unitSize requestCount r.1, unitSize,
      fun p hp => cutPieces_size hp⟩
  · have hone : r.2 - r.1 = 1 := hr.resolve_left hall
    have hlast : r.2 = r.1 + (1 : Nat) * (1 : Nat) := by omega
    rw [splitFunction_one hunit (by omega) hone]
    exact ⟨hlast ▸ cutPieces_cuts 1 1 r.1, 1, fun p hp => cutPieces_size hp⟩

theorem splitFunction_cuts_six :
    Cuts 2 8 (splitFunction 2 3 (2, 8))
      ∧ ∃ len : Int, ∀ p ∈ splitFunction 2 3 (2, 8), p.2 - p.1 = len :=
  splitFunction_cuts (r := (2, 8)) (by decide) (by decide) (.inl rfl)

end XKaapi.Kastl.WorkQueue
