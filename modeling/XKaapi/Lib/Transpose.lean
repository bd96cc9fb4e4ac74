/-
Transposition of a matrix stored by rows, and its blocks.

`transpose m n` sends the place of an entry of an `n` by `m` matrix,
stored row after row, to the place of the same entry in the transposed
one. `onBlocks b σ` moves blocks of `b` consecutive places as `σ` moves
their numbers. Both are permutations of an initial segment if what they
are made of is; `bijOn_of_injOn` is how that is shown.
-/
import Mathlib.Data.Set.Finite.Lemmas
import Mathlib.Order.Interval.Finset.Nat

namespace Transpose

/-- The place in the transposed matrix of place `x`. -/
def transpose (m n x : Nat) : Nat := x % m * n + x / m

/-- Blocks of `b` places, moved by `σ`. -/
def onBlocks (b : Nat) (σ : Nat → Nat) (x : Nat) : Nat :=
  σ (x / b) * b + x % b

variable {m n b k x y : Nat} {σ : Nat → Nat}

theorem bijOn_of_injOn {f : Nat → Nat} (hf : ∀ x < k, f x < k)
    (hinj : ∀ x < k, ∀ y < k, f x = f y → x = y) :
    Set.BijOn f (Set.Iio k) (Set.Iio k) := by
  have hmaps : Set.MapsTo f (Finset.range k) (Finset.range k) := by
    intro x hx
    rw [Finset.coe_range] at hx ⊢
    exact hf x hx
  have hinj' : Set.InjOn f (Finset.range k) := by
    intro x hx y hy hxy
    rw [Finset.coe_range] at hx hy
    exact hinj x hx y hy hxy
  have hsurj := Finset.surjOn_of_injOn_of_card_le f hmaps hinj' (Nat.le_refl _)
  rw [← Finset.coe_range]
  exact ⟨hmaps, hinj', hsurj⟩

theorem transpose_lt (hm : 0 < m) (hx : x < m * n) : transpose m n x < m * n := by
  have hdiv : x / m < n := Nat.div_lt_of_lt_mul hx
  have hmod : x % m < m := Nat.mod_lt x hm
  unfold transpose
  calc x % m * n + x / m < x % m * n + n := Nat.add_lt_add_left hdiv _
    _ = (x % m + 1) * n := (Nat.succ_mul _ _).symm
    _ ≤ m * n := Nat.mul_le_mul_right n hmod

theorem transpose_transpose (hx : x < m * n) :
    transpose n m (transpose m n x) = x := by
  have hdiv : x / m < n := Nat.div_lt_of_lt_mul hx
  unfold transpose
  rw [Nat.add_comm (x % m * n), Nat.add_mul_mod_self_right,
    Nat.mod_eq_of_lt hdiv, Nat.add_mul_div_right _ _ (Nat.zero_lt_of_lt hdiv),
    Nat.div_eq_of_lt hdiv, Nat.zero_add]
  exact Nat.div_add_mod' x m

theorem transpose_injOn (hx : x < m * n) (hy : y < m * n)
    (h : transpose m n x = transpose m n y) : x = y := by
  rw [← transpose_transpose hx, h, transpose_transpose hy]

theorem onBlocks_lt (hb : 0 < b) (hσ : ∀ x < k, σ x < k) (hx : x < b * k) :
    onBlocks b σ x < b * k := by
  have hdiv : σ (x / b) < k := hσ _ (Nat.div_lt_of_lt_mul hx)
  unfold onBlocks
  calc σ (x / b) * b + x % b < σ (x / b) * b + b :=
        Nat.add_lt_add_left (Nat.mod_lt x hb) _
    _ = (σ (x / b) + 1) * b := (Nat.succ_mul _ _).symm
    _ ≤ k * b := Nat.mul_le_mul_right b hdiv
    _ = b * k := Nat.mul_comm k b

theorem onBlocks_injOn (hb : 0 < b)
    (hσ : ∀ x < k, ∀ y < k, σ x = σ y → x = y) (hx : x < b * k)
    (hy : y < b * k) (h : onBlocks b σ x = onBlocks b σ y) : x = y := by
  unfold onBlocks at h
  have hmod : x % b = y % b := by
    have hmod := congrArg (· % b) h
    simp only [Nat.add_comm _ (x % b), Nat.add_comm _ (y % b),
      Nat.add_mul_mod_self_right, Nat.mod_mod] at hmod
    exact hmod
  rw [hmod] at h
  have hdiv := hσ _ (Nat.div_lt_of_lt_mul hx) _ (Nat.div_lt_of_lt_mul hy)
    (Nat.eq_of_mul_eq_mul_right hb (Nat.add_right_cancel h))
  rw [← Nat.div_add_mod x b, ← Nat.div_add_mod y b, hdiv, hmod]

theorem onBlocks_add {j : Nat} (h : (x + j) / b = x / b) :
    onBlocks b σ (x + j) = onBlocks b σ x + j := by
  unfold onBlocks
  have hx := Nat.div_add_mod x b
  have hxj := Nat.div_add_mod (x + j) b
  rw [h] at hxj ⊢
  omega

end Transpose
