/-
A walk over the stops `lo`, ..., `hi - 1` that stays at each of them for
its quota of ticks and starts again at `lo` after the last one.

`exists_tick` is the fairness of the walk: wherever it is, each stop is
visited within the total of the quotas.
-/
import Mathlib.Algebra.BigOperators.Intervals
import Mathlib.Algebra.Order.BigOperators.Group.Finset

namespace RoundRobin

/-- A stop of the walk, and the ticks already spent there. -/
structure Place where
  stop : Nat
  spent : Nat
deriving DecidableEq, Repr

/-- The stop after `s`. -/
def next (lo hi s : Nat) : Nat := if s + 1 = hi then lo else s + 1

/-- One tick; a stop takes at least one, whatever its quota. -/
def tick (quota : Nat → Nat) (lo hi : Nat) (p : Place) : Place :=
  if quota p.stop ≤ p.spent + 1 then ⟨next lo hi p.stop, 0⟩
  else ⟨p.stop, p.spent + 1⟩

/-- The ticks of the stops in `[a, b)`. -/
def total (quota : Nat → Nat) (a b : Nat) : Nat :=
  ∑ s ∈ Finset.Ico a b, max 1 (quota s)

variable (quota : Nat → Nat) (lo hi : Nat) {b a d : Nat}

theorem total_succ (h : a ≤ b) :
    total quota a (b + 1) = total quota a b + max 1 (quota b) :=
  Finset.sum_Ico_succ_top h _

theorem total_add {c : Nat} (hab : a ≤ b) (hbc : b ≤ c) :
    total quota a b + total quota b c = total quota a c :=
  Finset.sum_Ico_consecutive _ hab hbc

theorem total_lt {c : Nat} (hab : a ≤ b) (hbc : b < c) :
    total quota a b < total quota a c := by
  have hsucc := total_succ quota hab
  have hrest := total_add quota (Nat.le_succ_of_le hab) hbc
  have hone : 1 ≤ max 1 (quota b) := Nat.le_max_left 1 _
  rw [Nat.succ_eq_add_one] at hrest
  omega

theorem tick_leave (s j : Nat) : ∃ i, i ≤ max 1 (quota s - j)
    ∧ (tick quota lo hi)^[i] ⟨s, j⟩ = ⟨next lo hi s, 0⟩ := by
  -- by induction on what is left of the quota after a tick
  induction hleft : quota s - (j + 1) generalizing j with
  | zero =>
    refine ⟨1, Nat.le_max_left 1 _, ?_⟩
    show tick quota lo hi ⟨s, j⟩ = _
    exact if_pos (Nat.le_of_sub_eq_zero hleft)
  | succ n ih =>
    have hstay : tick quota lo hi ⟨s, j⟩ = ⟨s, j + 1⟩ :=
      if_neg (show ¬ quota s ≤ j + 1 by omega)
    obtain ⟨i, hi, hend⟩ := ih (j + 1) (by omega)
    refine ⟨i + 1, by omega, ?_⟩
    rw [Function.iterate_succ_apply, hstay, hend]

theorem tick_leave_zero (s : Nat) : ∃ i, i ≤ max 1 (quota s)
    ∧ (tick quota lo hi)^[i] ⟨s, 0⟩ = ⟨next lo hi s, 0⟩ :=
  tick_leave quota lo hi s 0

theorem tick_up (had : a ≤ d) (hd : d < hi) :
    ∃ i, i ≤ total quota a d ∧ (tick quota lo hi)^[i] ⟨a, 0⟩ = ⟨d, 0⟩ := by
  induction d, had using Nat.le_induction with
  | base => exact ⟨0, Nat.zero_le _, rfl⟩
  | succ d had ih =>
    obtain ⟨i, hi₁, hup⟩ := ih (Nat.lt_of_succ_lt hd)
    obtain ⟨k, hk, hleave⟩ := tick_leave_zero quota lo hi d
    refine ⟨k + i, ?_, ?_⟩
    · rw [total_succ quota had, Nat.add_comm]
      exact Nat.add_le_add hi₁ hk
    · rw [Function.iterate_add_apply, hup, hleave]
      unfold next
      rw [if_neg (Nat.ne_of_lt hd)]

theorem tick_up_from {s : Nat} (j : Nat) (hsd : s < d) (hd : d < hi) :
    ∃ i, i ≤ total quota s d ∧ (tick quota lo hi)^[i] ⟨s, j⟩ = ⟨d, 0⟩ := by
  obtain ⟨k, hk, hleave⟩ := tick_leave quota lo hi s j
  obtain ⟨i, hi₁, hup⟩ := tick_up quota lo hi (Nat.succ_le_of_lt hsd) hd
  have hone := total_succ quota (Nat.le_refl s)
  have hrest := total_add quota (Nat.le_succ s) (Nat.succ_le_of_lt hsd)
  have hnone : total quota s s = 0 := by
    unfold total
    rw [Finset.Ico_self, Finset.sum_empty]
  refine ⟨i + k, ?_, ?_⟩
  · rw [Nat.succ_eq_add_one] at hi₁ hrest
    omega
  · rw [Function.iterate_add_apply, hleave]
    unfold next
    rw [if_neg (show s + 1 ≠ hi by omega)]
    exact hup

/-- Each stop is visited within the total of the quotas. -/
theorem exists_tick {p : Place} (hlo : lo ≤ p.stop) (hhi : p.stop < hi) (hd : lo ≤ d)
    (hd' : d < hi) :
    ∃ i, i < total quota lo hi ∧ ((tick quota lo hi)^[i] p).stop = d := by
  obtain ⟨s, j⟩ := p
  dsimp only at hlo hhi
  have hpart := total_lt quota hd hd'
  rcases Nat.lt_trichotomy s d with hlt | rfl | hgt
  · obtain ⟨i, hi₁, hup⟩ := tick_up_from quota lo hi j hlt hd'
    have hsum := total_add quota hlo (Nat.le_of_lt hlt)
    exact ⟨i, by omega, by rw [hup]⟩
  · exact ⟨0, by omega, rfl⟩
  · -- up to the last stop, around, and up again
    have hlast : ∃ i, i + total quota lo s ≤ total quota lo hi
        ∧ (tick quota lo hi)^[i] ⟨s, j⟩ = ⟨lo, 0⟩ := by
      obtain ⟨b, rfl⟩ : ∃ b, hi = b + 1 := ⟨hi - 1, by omega⟩
      have hnext : next lo (b + 1) b = lo := if_pos rfl
      have hsum := total_succ quota (Nat.le_trans hlo (Nat.le_of_lt_succ hhi))
      rcases Nat.lt_or_ge s b with hsb | hbs
      · obtain ⟨i, hi₁, hup⟩ := tick_up_from quota lo (b + 1) j hsb
          (Nat.lt_succ_self b)
        obtain ⟨k, hk, hleave⟩ := tick_leave_zero quota lo (b + 1) b
        have hadd := total_add quota hlo (Nat.le_of_lt hsb)
        refine ⟨k + i, by omega, ?_⟩
        rw [Function.iterate_add_apply, hup, hleave, hnext]
      · obtain rfl : s = b := by
          have hle : s ≤ b := Nat.le_of_lt_succ hhi
          omega
        obtain ⟨k, hk, hleave⟩ := tick_leave quota lo (s + 1) s j
        refine ⟨k, by omega, ?_⟩
        rw [hleave, hnext]
    obtain ⟨i, hi₁, hwrap⟩ := hlast
    obtain ⟨k, hk, hup⟩ := tick_up quota lo hi hd hd'
    have hds := total_lt quota hd hgt
    refine ⟨k + i, by omega, ?_⟩
    rw [Function.iterate_add_apply, hwrap, hup]

end RoundRobin
