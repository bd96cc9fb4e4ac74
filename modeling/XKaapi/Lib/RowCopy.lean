/-
Copying rows of cells from one place of a memory to another, one row at
a time. The rows of a family have one length and start anywhere; what
has been copied after `k` rows is one record (`Copied`): the first `k`
rows read as their sources did at the start, and no other cell moved.

`Copied.row_step` adds a row, `Copied.of_block` says that rows that
follow each other without a gap may as well be moved as one block.
-/
import Mathlib.Tactic.Ring

namespace XKaapi

/-- The content of a memory, by address. -/
abbrev Cells (β : Type) := Nat → β

namespace Cells

variable {β : Type}

/-- `n` cells at `s` copied to `d`. -/
def copy (m : Cells β) (d s n : Nat) : Cells β := fun a =>
  if d ≤ a ∧ a < d + n then m (s + (a - d)) else m a

theorem copy_of_mem (m : Cells β) {d s n b : Nat} (hb : b < n) :
    m.copy d s n (d + b) = m (s + b) := by
  unfold copy
  rw [if_pos ⟨Nat.le_add_right d b, Nat.add_lt_add_left hb d⟩,
    Nat.add_sub_cancel_left]

theorem copy_of_not_mem (m : Cells β) {d s n a : Nat}
    (ha : ¬ (d ≤ a ∧ a < d + n)) : m.copy d s n a = m a := if_neg ha

@[simp] theorem copy_zero (m : Cells β) (d s : Nat) : m.copy d s 0 = m := by
  funext a
  exact copy_of_not_mem m (by omega)

end Cells

/-- Rows of `len` cells, row `i` at `start i`. -/
structure Rows where
  start : Nat → Nat
  len : Nat

namespace Rows

variable {β : Type} {D S : Rows} {m m' : Cells β} {k : Nat}

/-- The address `a` lies in row `i`. -/
def InRow (R : Rows) (i a : Nat) : Prop :=
  R.start i ≤ a ∧ a < R.start i + R.len

/-- The address `a` lies in one of the first `k` rows. -/
def Covers (R : Rows) (k a : Nat) : Prop := ∃ i < k, R.InRow i a

theorem inRow_add (R : Rows) {i b : Nat} (hb : b < R.len) :
    R.InRow i (R.start i + b) :=
  ⟨Nat.le_add_right _ _, Nat.add_lt_add_left hb _⟩

/-- The first `k` rows of `D` hold what those of `S` held in `m`. -/
structure Copied (D S : Rows) (m m' : Cells β) (k : Nat) : Prop where
  row : ∀ i < k, ∀ b < D.len, m' (D.start i + b) = m (S.start i + b)
  frame : ∀ a, ¬ D.Covers k a → m' a = m a

theorem Copied.zero (D S : Rows) (m : Cells β) : Copied D S m m 0 where
  row := by
    intro i hi
    exact absurd hi (Nat.not_lt_zero i)
  frame := by
    intro a _
    rfl

/-- One more row: it must lie apart from the rows already copied, and
its source must not have been written yet. -/
theorem Copied.row_step (h : Copied D S m m' k)
    (hapart : ∀ i < k, ∀ a, D.InRow i a → ¬ D.InRow k a)
    (hsrc : ∀ b < D.len, ¬ D.Covers k (S.start k + b)) :
    Copied D S m (m'.copy (D.start k) (S.start k) D.len) (k + 1) where
  row := by
    intro i hi b hb
    rcases Nat.lt_succ_iff_lt_or_eq.mp hi with hlt | rfl
    · rw [Cells.copy_of_not_mem _ (hapart i hlt _ (D.inRow_add hb))]
      exact h.row i hlt b hb
    · rw [Cells.copy_of_mem _ hb]
      exact h.frame _ (hsrc b hb)
  frame := by
    intro a ha
    rw [Cells.copy_of_not_mem _ fun hrow => ha ⟨k, Nat.lt_succ_self k, hrow⟩]
    refine h.frame a ?_
    intro hcov
    obtain ⟨i, hi, hrow⟩ := hcov
    exact ha ⟨i, Nat.lt_succ_of_lt hi, hrow⟩

theorem Copied.of_block {d s n : Nat} (hD : ∀ i < n, D.start i = d + i * D.len)
    (hS : ∀ i < n, S.start i = s + i * D.len) :
    Copied D S m (m.copy d s (n * D.len)) n where
  row := by
    intro i hi b hb
    have hlt : i * D.len + b < n * D.len := by
      calc i * D.len + b
          < i * D.len + D.len := Nat.add_lt_add_left hb _
        _ = (i + 1) * D.len := by ring
        _ ≤ n * D.len := Nat.mul_le_mul_right _ hi
    rw [hD i hi, hS i hi, Nat.add_assoc, Nat.add_assoc]
    exact Cells.copy_of_mem m hlt
  frame := by
    intro a ha
    refine Cells.copy_of_not_mem m ?_
    intro hin
    have hpos : 0 < D.len := by
      refine Nat.pos_of_ne_zero ?_
      intro h0
      rw [h0, Nat.mul_zero] at hin
      omega
    have hrow : (a - d) / D.len < n :=
      Nat.div_lt_of_lt_mul (by rw [Nat.mul_comm]; omega)
    have hle := Nat.div_mul_le_self (a - d) D.len
    have hlt : a - d < (a - d) / D.len * D.len + D.len :=
      Nat.lt_div_mul_add hpos
    refine ha ⟨(a - d) / D.len, hrow, ?_⟩
    unfold InRow
    rw [hD _ hrow]
    omega

end Rows

end XKaapi
