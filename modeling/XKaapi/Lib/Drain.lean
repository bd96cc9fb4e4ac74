/-
A set that is handed out one element at a time, from a cursor on the
element that comes next, while elements are put in and taken out.

`Drain α` carries its own accounts: how often an element was put in, how
often it was delivered and how often dropped, with the balance as a
field. So whoever follows a `Drain` delivers each element put in, and not
dropped, exactly once, and holds a current element as long as it owes one.
-/
import Mathlib.Data.Finset.Max

/-- The least element, if there is one. -/
def Finset.first {α : Type} [LinearOrder α] (S : Finset α) : Option α :=
  if h : S.Nonempty then some (S.min' h) else none

namespace Finset

variable {α : Type} [LinearOrder α] {S : Finset α} {i : α}

theorem mem_of_first (h : S.first = some i) : i ∈ S := by
  unfold first at h
  split at h
  next hne => exact Option.some.inj h ▸ S.min'_mem hne
  next => cases h

theorem first_eq_none : S.first = none ↔ S = ∅ := by
  unfold first
  split
  next hne => exact iff_of_false (fun h => by cases h) hne.ne_empty
  next hne => exact iff_of_true rfl (not_nonempty_iff_eq_empty.mp hne)

end Finset

structure Drain (α : Type) [LinearOrder α] where
  owed : Finset α
  curr : Option α
  added : α → Nat
  delivered : α → Nat
  dropped : α → Nat
  curr_mem : ∀ i, curr = some i → i ∈ owed
  none_empty : curr = none → owed = ∅
  once : ∀ i, added i = delivered i + dropped i + if i ∈ owed then 1 else 0

namespace Drain

variable {α : Type} [LinearOrder α]

/-- All of `S` is owed. -/
def start (S : Finset α) : Drain α where
  owed := S
  curr := S.first
  added i := if i ∈ S then 1 else 0
  delivered _ := 0
  dropped _ := 0
  curr_mem _ h := Finset.mem_of_first h
  none_empty h := Finset.first_eq_none.mp h
  once _ := (Nat.zero_add _).symm

/-- `S` leaves, delivered or dropped; the cursor moves if it was on it. -/
def take (d : Drain α) (deliver : Bool) (S : Finset α) : Drain α where
  owed := d.owed \ S
  curr := if ∃ i ∈ d.curr, i ∉ S then d.curr else (d.owed \ S).first
  added := d.added
  delivered i := d.delivered i + if deliver ∧ i ∈ d.owed ∩ S then 1 else 0
  dropped i := d.dropped i + if ¬ deliver ∧ i ∈ d.owed ∩ S then 1 else 0
  curr_mem := by
    intro i h
    split at h
    next hstay =>
      obtain ⟨j, hj, hS⟩ := hstay
      rw [Option.mem_def.mp hj] at h
      rw [← Option.some.inj h]
      exact Finset.mem_sdiff.mpr ⟨d.curr_mem j hj, hS⟩
    next => exact Finset.mem_of_first h
  none_empty := by
    intro h
    split at h
    next hstay =>
      obtain ⟨j, hj, -⟩ := hstay
      rw [Option.mem_def.mp hj] at h
      cases h
    next => exact Finset.first_eq_none.mp h
  once := by
    intro i
    have hbal := d.once i
    simp only [Finset.mem_sdiff, Finset.mem_inter]
    by_cases howed : i ∈ d.owed
    · by_cases hS : i ∈ S
      · cases deliver <;> simp [howed, hS] at hbal ⊢ <;> omega
      · simpa [howed, hS] using hbal
    · simpa [howed] using hbal

/-- `S` is owed too; the cursor moves only if there was none. -/
def add (d : Drain α) (S : Finset α) : Drain α where
  owed := d.owed ∪ S
  curr := if d.curr = none then S.first else d.curr
  added i := d.added i + if i ∈ S \ d.owed then 1 else 0
  delivered := d.delivered
  dropped := d.dropped
  curr_mem := by
    intro i h
    split at h
    next => exact Finset.mem_union_right _ (Finset.mem_of_first h)
    next => exact Finset.mem_union_left _ (d.curr_mem i h)
  none_empty := by
    intro h
    split at h
    next hnone =>
      rw [d.none_empty hnone, Finset.first_eq_none.mp h]
      rfl
    next hsome => exact absurd h hsome
  once := by
    intro i
    have hbal := d.once i
    simp only [Finset.mem_sdiff, Finset.mem_union]
    by_cases howed : i ∈ d.owed
    · simpa [howed] using hbal
    · by_cases hS : i ∈ S
      · simp [howed, hS] at hbal ⊢
        omega
      · simpa [howed, hS] using hbal

end Drain
