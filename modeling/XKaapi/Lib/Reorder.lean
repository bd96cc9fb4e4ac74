/-
Folds over two orders of the same elements.

An element may be moved in front of those it commutes with. So two orders
give the same result when any two elements that they put the other way
round commute (`foldl_eq_of_perm`).
-/
import Mathlib.Data.List.Perm.Basic

namespace Reorder

variable {σ α : Type*} {f : σ → α → σ} {P Q : α → α → Prop}

theorem foldl_comm {x : α} {l : List α} (s : σ)
    (h : ∀ y ∈ l, ∀ s, f (f s x) y = f (f s y) x) :
    l.foldl f (f s x) = f (l.foldl f s) x := by
  induction l generalizing s with
  | nil => rfl
  | cons y l ih =>
    rw [List.foldl_cons, List.foldl_cons, h y List.mem_cons_self]
    exact ih (f s y) fun z hz => h z (List.mem_cons_of_mem y hz)

theorem foldl_eq_of_perm (hcomm : ∀ x y, P x y → Q y x → ∀ s, f (f s x) y = f (f s y) x)
    {l₁ l₂ : List α} (hp : l₁.Perm l₂) (h₁ : l₁.Pairwise P) (h₂ : l₂.Pairwise Q)
    (s : σ) : l₁.foldl f s = l₂.foldl f s := by
  induction l₁ generalizing l₂ s with
  | nil => rw [hp.nil_eq]
  | cons x l ih =>
    obtain ⟨a, b, rfl⟩ := List.append_of_mem (hp.subset List.mem_cons_self)
    have hrest : l.Perm (a ++ b) := (hp.trans List.perm_middle).cons_inv
    obtain ⟨hx, hl⟩ := List.pairwise_cons.mp h₁
    obtain ⟨-, -, hcross⟩ := List.pairwise_append.mp h₂
    -- what the second order has before `x` commutes with it
    have hfront : a.foldl f (f s x) = f (a.foldl f s) x := by
      refine foldl_comm s fun y hy => hcomm x y (hx y ?_) (hcross y hy x ?_)
      · exact hrest.symm.subset (List.mem_append_left b hy)
      · exact List.mem_cons_self
    have hsub : (a ++ b).Pairwise Q :=
      h₂.sublist ((List.Sublist.refl a).append (List.sublist_cons_self x b))
    rw [List.foldl_cons, ih hrest hl hsub, List.foldl_append, List.foldl_append,
      List.foldl_cons, hfront]

end Reorder
