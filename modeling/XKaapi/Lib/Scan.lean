/-
Maximal runs: a text is read up to the first element that does not satisfy
a predicate. `takeWhile` and `dropWhile` compute the only way to cut the
text there.
-/
import Mathlib.Data.List.TakeWhile

namespace Scan

variable {α : Type*} {P : α → Bool} {l run rest : List α}

/-- `run` is what a scanner takes in front of `rest`. -/
structure IsRun (P : α → Bool) (run rest : List α) : Prop where
  all : ∀ a ∈ run, P a = true
  stop : rest.head?.any P = false

theorem isRun_cut (P : α → Bool) (l : List α) :
    IsRun P (l.takeWhile P) (l.dropWhile P) where
  all _ ha := List.mem_takeWhile_imp ha
  stop := by
    have hnot := List.head?_dropWhile_not P l
    cases h : (l.dropWhile P).head? with
    | none => rfl
    | some a =>
      rw [h] at hnot
      exact hnot

theorem IsRun.dropWhile_rest (h : IsRun P run rest) : rest.dropWhile P = rest := by
  cases rest with
  | nil => rfl
  | cons a rest =>
    have hstop : P a = false := h.stop
    exact List.dropWhile_cons_of_neg (by rw [hstop]; exact Bool.false_ne_true)

theorem IsRun.takeWhile_rest (h : IsRun P run rest) : rest.takeWhile P = [] := by
  cases rest with
  | nil => rfl
  | cons a rest =>
    have hstop : P a = false := h.stop
    exact List.takeWhile_cons_of_neg (by rw [hstop]; exact Bool.false_ne_true)

theorem IsRun.takeWhile (h : IsRun P run rest) : (run ++ rest).takeWhile P = run := by
  rw [List.takeWhile_append_of_pos h.all, h.takeWhile_rest, List.append_nil]

theorem IsRun.dropWhile (h : IsRun P run rest) : (run ++ rest).dropWhile P = rest := by
  rw [List.dropWhile_append_of_pos h.all, h.dropWhile_rest]

end Scan
