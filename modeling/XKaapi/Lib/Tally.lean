/-
Counting how often a list of half-open ranges covers an index.

`tally l x` is the number of ranges of `l` that hold `x`. A pool of work
whose pieces move, are cut and are joined is conserved when the tallies
of its places keep their sum: cutting a range keeps the tally
(`ind_add`), and moving one piece changes two terms of the sum
(`sum_update`).

Over the integers a list that covers no index twice has as many indices
as the total length of its ranges, which `card_not_covered` uses to
count the indices that are left.
-/
import Mathlib.Data.Int.ConditionallyCompleteOrder
import Mathlib.Order.ConditionallyCompleteLattice.Basic
import Mathlib.Algebra.Order.BigOperators.Group.Finset
import Mathlib.Algebra.BigOperators.Ring.Finset
import Mathlib.Data.Int.Interval
import XKaapi.Lib.Tiles

namespace Tally

open Function (update update_of_ne update_self)

section Count

variable {α : Type*} [LinearOrder α] {r : α × α} {l : List (α × α)}

/-- 1 on the indices of a range, 0 elsewhere. -/
def ind (r : α × α) (x : α) : Nat := if r.1 ≤ x ∧ x < r.2 then 1 else 0

/-- How many ranges of the list hold an index. -/
def tally (l : List (α × α)) (x : α) : Nat := (l.map fun r => ind r x).sum

theorem ind_le_one (r : α × α) (x : α) : ind r x ≤ 1 := by
  unfold ind
  split
  · exact Nat.le_refl 1
  · exact Nat.zero_le 1

theorem ind_eq_one_iff {x : α} : ind r x = 1 ↔ r.1 ≤ x ∧ x < r.2 := by
  unfold ind
  split
  next h => exact iff_of_true rfl h
  next h => exact iff_of_false nofun h

theorem ind_of_le (h : r.2 ≤ r.1) (x : α) : ind r x = 0 :=
  if_neg fun hx => absurd (hx.1.trans_lt hx.2) (not_lt.mpr h)

theorem le_of_ind (h : ∀ x, ind r x = 0) : r.2 ≤ r.1 := by
  by_contra hlt
  have hone := ind_eq_one_iff.mpr ⟨le_refl r.1, not_le.mp hlt⟩
  rw [h r.1] at hone
  cases hone

theorem ind_add {a b c : α} (hab : a ≤ b) (hbc : b ≤ c) (x : α) :
    ind (a, b) x + ind (b, c) x = ind (a, c) x := by
  unfold ind
  rcases lt_or_ge x b with hx | hx
  · have h₂ : ¬ (b ≤ x ∧ x < c) := fun h => absurd hx (not_lt.mpr h.1)
    have h₃ : a ≤ x ∧ x < c ↔ a ≤ x ∧ x < b :=
      ⟨fun h => ⟨h.1, hx⟩, fun h => ⟨h.1, hx.trans_le hbc⟩⟩
    simp only [if_neg h₂, h₃, Nat.add_zero]
  · have h₁ : ¬ (a ≤ x ∧ x < b) := fun h => absurd h.2 (not_lt.mpr hx)
    have h₃ : a ≤ x ∧ x < c ↔ b ≤ x ∧ x < c :=
      ⟨fun h => ⟨hx, h.2⟩, fun h => ⟨hab.trans hx, h.2⟩⟩
    simp only [if_neg h₁, h₃, Nat.zero_add]

@[simp] theorem tally_nil (x : α) : tally [] x = 0 := rfl

@[simp] theorem tally_cons (r : α × α) (l : List (α × α)) (x : α) :
    tally (r :: l) x = ind r x + tally l x := by
  unfold tally
  rw [List.map_cons, List.sum_cons]

@[simp] theorem tally_append (l l' : List (α × α)) (x : α) :
    tally (l ++ l') x = tally l x + tally l' x := by
  unfold tally
  rw [List.map_append, List.sum_append]

theorem ind_le_tally (h : r ∈ l) (x : α) : ind r x ≤ tally l x := by
  induction l with
  | nil => cases h
  | cons r' l ih =>
    rw [tally_cons]
    rcases List.mem_cons.mp h with rfl | h
    · exact Nat.le_add_right _ _
    · exact (ih h).trans (Nat.le_add_left _ _)

theorem bounds_of_tally_le {R : α × α} (hr : r ∈ l) (h : ∀ x, tally l x ≤ ind R x) {x : α}
    (hx : r.1 ≤ x ∧ x < r.2) : R.1 ≤ x ∧ x < R.2 := by
  have h₁ := ind_le_tally hr x
  have h₂ := h x
  rw [ind_eq_one_iff.mpr hx] at h₁
  have h₃ := ind_le_one R x
  exact ind_eq_one_iff.mp (by omega)

theorem tally_of_tiles {lo hi : α} (h : Tiles lo hi l) (x : α) :
    tally l x = ind (lo, hi) x := by
  induction l generalizing lo with
  | nil =>
    rw [Tiles.nil_iff] at h
    exact (ind_of_le h.ge x).symm
  | cons r l ih =>
    obtain ⟨hlo, hlt, hl⟩ := h
    rw [tally_cons, ih hl, ← hlo]
    exact ind_add hlt.le hl.le x

end Count

variable {n a : Nat} {β : Type*}

theorem sum_update_at (ha : a < n) (f : Nat → β → Nat) (g : Nat → β) (b : β) :
    ∑ i ∈ Finset.range n, f i (update g a b i) + f a (g a)
      = ∑ i ∈ Finset.range n, f i (g i) + f a b := by
  have hmem := Finset.mem_range.mpr ha
  rw [← Finset.add_sum_erase _ _ hmem, ← Finset.add_sum_erase _ _ hmem,
    update_self]
  have hrest : ∑ i ∈ (Finset.range n).erase a, f i (update g a b i)
      = ∑ i ∈ (Finset.range n).erase a, f i (g i) := by
    apply Finset.sum_congr rfl
    intro i hi
    rw [update_of_ne (Finset.ne_of_mem_erase hi)]
  rw [hrest]
  omega

theorem sum_update (ha : a < n) (f : β → Nat) (g : Nat → β) (b : β) :
    ∑ i ∈ Finset.range n, f (update g a b i) + f (g a)
      = ∑ i ∈ Finset.range n, f (g i) + f b :=
  sum_update_at ha (fun _ => f) g b

theorem sum_update_succ (n : Nat) (f : Nat → β → Nat) (g : Nat → β) (b : β) :
    ∑ i ∈ Finset.range (n + 1), f i (update g n b i)
      = ∑ i ∈ Finset.range n, f i (g i) + f n b := by
  rw [Finset.sum_range_succ, update_self]
  congr 1
  apply Finset.sum_congr rfl
  intro i hi
  rw [update_of_ne (Nat.ne_of_lt (Finset.mem_range.mp hi))]

theorem sum_update_two {a' : Nat} (ha : a < n) (ha' : a' < n) (hne : a' ≠ a) (f : β → Nat)
    (g : Nat → β) (b b' : β) :
    ∑ i ∈ Finset.range n, f (update (update g a b) a' b' i)
        + f (g a) + f (g a')
      = ∑ i ∈ Finset.range n, f (g i) + f b + f b' := by
  have h := sum_update ha f g b
  have h' := sum_update ha' f (update g a b) b'
  rw [update_of_ne hne] at h'
  omega

theorem le_sum (ha : a < n) (f : Nat → Nat) : f a ≤ ∑ i ∈ Finset.range n, f i :=
  Finset.single_le_sum (fun _ _ => Nat.zero_le _) (Finset.mem_range.mpr ha)

section Length

/-- The total length of the ranges. -/
def len (l : List (Int × Int)) : Int := (l.map fun r => r.2 - r.1).sum

@[simp] theorem len_nil : len [] = 0 := rfl

@[simp] theorem len_append (l l' : List (Int × Int)) :
    len (l ++ l') = len l + len l' := by
  unfold len
  rw [List.map_append, List.sum_append]

@[simp] theorem len_cons (r : Int × Int) (l : List (Int × Int)) :
    len (r :: l) = r.2 - r.1 + len l := by
  unfold len
  rw [List.map_cons, List.sum_cons]

variable {first last : Int}

theorem sum_ind {r : Int × Int} (hle : r.1 ≤ r.2) (hlo : first ≤ r.1) (hhi : r.2 ≤ last) :
    ((∑ x ∈ Finset.Ico first last, ind r x : Nat) : Int) = r.2 - r.1 := by
  have hfilter : (Finset.Ico first last).filter (fun x => r.1 ≤ x ∧ x < r.2)
      = Finset.Ico r.1 r.2 := by
    ext x
    rw [Finset.mem_filter, Finset.mem_Ico, Finset.mem_Ico]
    constructor
    · intro h
      exact h.2
    · intro h
      exact ⟨⟨hlo.trans h.1, h.2.trans_le hhi⟩, h⟩
  unfold ind
  rw [← Finset.card_filter, hfilter, Int.card_Ico]
  omega

/-- The indices of an interval that the ranges of a list inside it hold,
each counted as often as it is held. -/
theorem sum_tally {l : List (Int × Int)}
    (h : ∀ r ∈ l, r.1 < r.2 ∧ first ≤ r.1 ∧ r.2 ≤ last) :
    ((∑ x ∈ Finset.Ico first last, tally l x : Nat) : Int) = len l := by
  induction l with
  | nil => simp
  | cons r l ih =>
    simp only [tally_cons, Finset.sum_add_distrib, len_cons]
    obtain ⟨hlt, hlo, hhi⟩ := h r List.mem_cons_self
    rw [← ih fun r' hr' => h r' (List.mem_cons_of_mem _ hr'),
      ← sum_ind hlt.le hlo hhi]
    exact Int.natCast_add _ _

theorem card_not_covered (hle : first ≤ last) {l : List (Int × Int)}
    (hne : ∀ r ∈ l, r.1 < r.2) (h : ∀ x, tally l x ≤ ind (first, last) x) :
    (((Finset.Ico first last).filter fun x => tally l x = 0).card : Int)
      = last - first - len l := by
  have hin : ∀ r ∈ l, r.1 < r.2 ∧ first ≤ r.1 ∧ r.2 ≤ last := by
    intro r hr
    have hlt := hne r hr
    have h₁ := bounds_of_tally_le hr h (x := r.1) ⟨le_refl _, hlt⟩
    have h₂ := bounds_of_tally_le hr h (x := r.2 - 1) ⟨by omega, by omega⟩
    exact ⟨hlt, h₁.1, by have := h₂.2; simp only at this; omega⟩
  have hone : ∀ x, tally l x ≤ 1 := fun x => (h x).trans (ind_le_one _ x)
  have hsplit : ((Finset.Ico first last).filter fun x => tally l x = 0).card
      + ∑ x ∈ Finset.Ico first last, tally l x
      = (Finset.Ico first last).card := by
    rw [Finset.card_filter, ← Finset.sum_add_distrib, Finset.card_eq_sum_ones]
    apply Finset.sum_congr rfl
    intro x _
    have := hone x
    split
    next hz => omega
    next hz => omega
  have hlen := sum_tally hin
  rw [Int.card_Ico] at hsplit
  omega

end Length

end Tally
