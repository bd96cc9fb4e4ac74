/-
Loops `for (x = start; cond(x); x = next(x))` and the values their
variable takes, for any type of values; the step may fail, as an addition
that overflows does. And the number of turns of the loops that go up or
down to a bound in steps of a constant.

- `runs_of_values`: a loop whose values are known takes exactly these.
- `Runs.unique`: what a loop does, it does in every run.
- `lt_trips_iff`: the turns of a loop with a constant step.
-/
import Mathlib.Data.List.Basic
import Mathlib.Tactic.Ring

namespace CountedLoop

-- ======== loops

section loops

variable {α : Type*} {cond : α → Bool} {next : α → Option α} {x : α}

/-- The values of the variable, from `x` on, if the loop ends before
`fuel` tests of its condition and no step fails. -/
def execFor (cond : α → Bool) (next : α → Option α) :
    Nat → α → Option (List α)
  | 0, _ => none
  | fuel + 1, x =>
    if cond x then
      (next x).bind fun y => (execFor cond next fuel y).map (x :: ·)
    else some []

/-- The loop ends, and its variable takes the values `l`. -/
def Runs (cond : α → Bool) (next : α → Option α) (x : α) (l : List α) : Prop :=
  ∃ fuel, execFor cond next fuel x = some l

theorem execFor_mono {fuel fuel' : Nat} {l : List α} (hle : fuel ≤ fuel')
    (h : execFor cond next fuel x = some l) : execFor cond next fuel' x = some l := by
  induction fuel generalizing fuel' x l with
  | zero => cases h
  | succ fuel ih =>
    cases fuel' with
    | zero => exact absurd hle (Nat.not_succ_le_zero _)
    | succ fuel' =>
      unfold execFor at h ⊢
      split at h
      next hc =>
        obtain ⟨y, hy, h⟩ := Option.bind_eq_some_iff.mp h
        obtain ⟨l', hl', rfl⟩ := Option.map_eq_some_iff.mp h
        rw [if_pos hc, hy, Option.bind_some,
          ih (Nat.le_of_succ_le_succ hle) hl', Option.map_some]
      next hc => rwa [if_neg hc]

theorem Runs.unique {l l' : List α} (h : Runs cond next x l) (h' : Runs cond next x l') :
    l = l' := by
  obtain ⟨fuel, h⟩ := h
  obtain ⟨fuel', h'⟩ := h'
  have hmax := execFor_mono (Nat.le_max_left fuel fuel') h
  rw [execFor_mono (Nat.le_max_right fuel fuel') h'] at hmax
  exact (Option.some.inj hmax).symm

theorem runs_of_values (cond : α → Bool) (next : α → Option α)
    (f : Nat → α) {n : Nat}
    (hcond : ∀ i < n, cond (f i) = true)
    (hnext : ∀ i < n, next (f i) = some (f (i + 1)))
    (hend : cond (f n) = false) :
    Runs cond next (f 0) ((List.range n).map f) := by
  refine ⟨n + 1, ?_⟩
  induction n generalizing f with
  | zero =>
    unfold execFor
    rw [hend]
    rfl
  | succ n ih =>
    have hrest := ih (f := fun i => f (i + 1))
      (fun i hi => hcond (i + 1) (Nat.succ_lt_succ hi))
      (fun i hi => hnext (i + 1) (Nat.succ_lt_succ hi)) hend
    unfold execFor
    rw [if_pos (hcond 0 (Nat.succ_pos n)), hnext 0 (Nat.succ_pos n),
      Option.bind_some, hrest, List.range_succ_eq_map, List.map_cons,
      List.map_map]
    rfl

theorem runs_of_not (h : cond x = false) : Runs cond next x [] := by
  refine ⟨1, ?_⟩
  unfold execFor
  rw [h]
  rfl

end loops

-- ======== constant steps

/-- The number of steps of `s` that fit before `d`: `d / s`, rounded up,
and 0 if `d` is negative. -/
def ceilDiv (d s : Int) : Nat := ((d + s - 1) / s).toNat

variable {s d step : Int}

theorem lt_ceilDiv_iff (hs : 0 < s) (d : Int) (i : Nat) :
    i < ceilDiv d s ↔ (i : Int) * s < d := by
  unfold ceilDiv
  have h : (i : Int) + 1 ≤ (d + s - 1) / s ↔ ((i : Int) + 1) * s ≤ d + s - 1 :=
    Int.le_ediv_iff_mul_le hs
  rw [Int.add_mul, Int.one_mul] at h
  omega

theorem ceilDiv_pos (hs : 0 < s) (hd : 0 < d) : 0 < ceilDiv d s := by
  rw [lt_ceilDiv_iff hs]
  simpa using hd

theorem ceilDiv_eq_zero_of_nonpos (hs : 0 < s) (hd : d ≤ 0) : ceilDiv d s = 0 := by
  have h := lt_ceilDiv_iff hs d 0
  have h₀ : ((0 : Nat) : Int) * s = 0 := Int.zero_mul s
  omega

theorem ceilDiv_mul_lt (hs : 0 < s) (hd : 0 < d) : (ceilDiv d s : Int) * s < d + s := by
  have hpos := ceilDiv_pos hs hd
  have h := (lt_ceilDiv_iff hs d (ceilDiv d s - 1)).mp (by omega)
  have hcast : ((ceilDiv d s - 1 : Nat) : Int) = (ceilDiv d s : Int) - 1 := by
    omega
  rw [hcast, Int.sub_mul, Int.one_mul] at h
  omega

theorem le_ceilDiv_mul (hs : 0 < s) : d ≤ (ceilDiv d s : Int) * s := by
  by_contra h
  exact Nat.lt_irrefl _ ((lt_ceilDiv_iff hs d _).mpr (Int.not_le.mp h))

/-- The loop from `start` to `stop` goes on at `x`: up or down, by the
sign of its step. -/
def goesOn (step stop x : Int) : Bool :=
  if 0 < step then decide (x < stop) else decide (stop < x)

/-- The number of turns of the loop. -/
def trips (step start stop : Int) : Nat :=
  if 0 < step then ceilDiv (stop - start) step
  else ceilDiv (start - stop) (-step)

theorem lt_trips_iff (hs : step ≠ 0) (start stop : Int) (i : Nat) :
    goesOn step stop (start + i * step) = true ↔ i < trips step start stop := by
  unfold goesOn trips
  by_cases hpos : 0 < step
  · rw [if_pos hpos, if_pos hpos, decide_eq_true_iff, lt_ceilDiv_iff hpos]
    omega
  · rw [if_neg hpos, if_neg hpos, decide_eq_true_iff,
      lt_ceilDiv_iff (by omega), Int.mul_neg]
    omega

theorem runs_goesOn (hs : step ≠ 0) (start stop : Int) :
    Runs (goesOn step stop) (fun x => some (x + step)) start
      ((List.range (trips step start stop)).map fun i : Nat =>
        start + i * step) := by
  have h := runs_of_values (n := trips step start stop) (goesOn step stop)
    (fun x => some (x + step)) (fun i : Nat => start + i * step)
    (fun i hi => (lt_trips_iff hs start stop i).mpr hi)
    (fun i _ => by
      show some (start + i * step + step) = some (start + (i + 1 : Nat) * step)
      rw [Nat.cast_succ, Int.add_mul, Int.one_mul, Int.add_assoc])
    (Bool.eq_false_iff.mpr fun h =>
      Nat.lt_irrefl _ ((lt_trips_iff hs start stop _).mp h))
  have h₀ : start + ((0 : Nat) : Int) * step = start := by
    rw [Nat.cast_zero, Int.zero_mul, Int.add_zero]
  rwa [h₀] at h

theorem trips_mul (hs : step ≠ 0) (start : Int) (n : Nat) :
    trips step start (start + n * step) = n := by
  have h : ∀ i : Nat, i < trips step start (start + n * step) ↔ i < n := by
    intro i
    rw [← lt_trips_iff hs]
    unfold goesOn
    by_cases hpos : 0 < step
    · rw [if_pos hpos, decide_eq_true_iff, Int.add_lt_add_iff_left,
        Int.mul_lt_mul_right hpos, Nat.cast_lt]
    · rw [if_neg hpos, decide_eq_true_iff, Int.add_lt_add_iff_left]
      have hneg : step < 0 := by omega
      rw [Int.mul_lt_mul_right_of_neg hneg, Nat.cast_lt]
  have h₁ := h n
  have h₂ := h (trips step start (start + n * step))
  omega

end CountedLoop
