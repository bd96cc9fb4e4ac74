/-
Counted loops `for (i = 0; i < n; ++i)` over an array, whose body may
fail.

`forIdx` runs the body on the elements in order, each with its index.
The rules are the ones a loop is verified with:

- `forIdx_spec`: an invariant that speaks of the number of elements
  done holds, with all of them done, at the end, and the loop ends.
- `forIdx_eq_none`: a body that fails on one element fails the loop.
- `mapM_some`: a map over the elements that never fails.
-/
import Mathlib.Data.List.Basic

namespace ForLoop

variable {α σ : Type*}

/-- Run `f` on the elements of a list, the first of which has index `i`. -/
def forIdx (f : Nat → α → σ → Option σ) : Nat → List α → σ → Option σ
  | _, [], s => some s
  | i, x :: l, s => (f i x s).bind (forIdx f (i + 1) l)

variable {f : Nat → α → σ → Option σ} {l : List α} {s : σ}

theorem forIdx_cons (i : Nat) (x : α) (l : List α) (s : σ) :
    forIdx f i (x :: l) s = (f i x s).bind (forIdx f (i + 1) l) := rfl

theorem forIdx_spec_from {I : Nat → σ → Prop} {i : Nat} (h₀ : I i s)
    (hstep : ∀ (n : Nat) (x : α) (s : σ), l[n]? = some x → I (i + n) s →
      ∃ s', f (i + n) x s = some s' ∧ I (i + n + 1) s') :
    ∃ s', forIdx f i l s = some s' ∧ I (i + l.length) s' := by
  induction l generalizing i s with
  | nil => exact ⟨s, rfl, h₀⟩
  | cons x l ih =>
    obtain ⟨s₁, h₁, hI⟩ := hstep 0 x s rfl h₀
    obtain ⟨s', hs', hI'⟩ := ih (i := i + 1) hI fun n y t hy ht => by
      have := hstep (n + 1) y t (by simpa using hy)
      rw [show i + (n + 1) = i + 1 + n by omega] at this
      exact this ht
    refine ⟨s', ?_, ?_⟩
    · rw [forIdx_cons, show f i x s = some s₁ from h₁]
      exact hs'
    · rw [List.length_cons, show i + (l.length + 1) = i + 1 + l.length
        by omega]
      exact hI'

theorem forIdx_spec {I : Nat → σ → Prop} (h₀ : I 0 s)
    (hstep : ∀ (n : Nat) (x : α) (s : σ), l[n]? = some x → I n s →
      ∃ s', f n x s = some s' ∧ I (n + 1) s') :
    ∃ s', forIdx f 0 l s = some s' ∧ I l.length s' := by
  have h := forIdx_spec_from (i := 0) (f := f) (l := l) h₀
    fun n x s hx hI => by
      rw [Nat.zero_add] at hI ⊢
      exact hstep n x s hx hI
  rwa [Nat.zero_add] at h

theorem forIdx_eq_none_from {i n : Nat} {x : α} (hx : l[n]? = some x)
    (hfail : ∀ s, f (i + n) x s = none) : forIdx f i l s = none := by
  induction l generalizing i n s with
  | nil => simp at hx
  | cons y ys ih =>
    rw [forIdx_cons]
    cases n with
    | zero =>
      have hxy : y = x := by simpa using hx
      rw [hxy, show f i x s = none from hfail s]
      rfl
    | succ n =>
      cases hy : f i y s with
      | none => rfl
      | some t =>
        refine ih (i := i + 1) (n := n) (by simpa using hx) fun t => ?_
        rw [show i + 1 + n = i + (n + 1) by omega]
        exact hfail t

theorem forIdx_eq_none {n : Nat} {x : α} (hx : l[n]? = some x)
    (hfail : ∀ s, f n x s = none) : forIdx f 0 l s = none :=
  forIdx_eq_none_from hx fun s => by rw [Nat.zero_add]; exact hfail s

theorem mapM_some {α β : Type} {g : α → Option β} {h : α → β} {l : List α}
    (hl : ∀ x ∈ l, g x = some (h x)) : l.mapM g = some (l.map h) := by
  induction l with
  | nil => rfl
  | cons x l ih =>
    rw [List.mapM_cons, hl x List.mem_cons_self,
      ih fun y hy => hl y (List.mem_cons_of_mem x hy)]
    rfl

theorem length_of_mapM {α β : Type} {g : α → Option β} {l : List α}
    {m : List β} (h : l.mapM g = some m) : m.length = l.length := by
  induction l generalizing m with
  | nil => exact Option.some.inj h ▸ rfl
  | cons x l ih =>
    rw [List.mapM_cons] at h
    obtain ⟨y, -, h⟩ := Option.bind_eq_some_iff.mp h
    obtain ⟨ys, hys, h⟩ := Option.bind_eq_some_iff.mp h
    rw [← Option.some.inj h, List.length_cons, List.length_cons, ih hys]

end ForLoop
