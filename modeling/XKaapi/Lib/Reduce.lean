/-
Reductions whose shares are accumulated apart.

Tasks accumulate values into one shared value with an operation `f`. A task
does it in place, or apart: from a start value `e` on storage of its own,
which is merged with the same `f` when the task is over (`Share.apply`).

The two ways agree up to `den` as soon as `f` is, through `den`, an
associative and commutative operation for which `e` is neutral (`Meaning`).
They agree exactly unless a value that `f` would not leave as it is has been
merged with an empty share (`shares_eq_iff`): the results of `f` are told
apart by `den`, an arbitrary start value need not be.

Subtraction has no such meaning, a merge undoes it: what is left is twice
the sum of the shares that were accumulated apart (`sub_shares_eq_iff`).
-/
import Mathlib.Algebra.BigOperators.Group.List.Basic
import Mathlib.Tactic.Abel

namespace Reduce

variable {V D : Type*}

-- ======== the shares

/-- What a task accumulates, and whether on storage of its own. -/
structure Share (V : Type*) where
  values : List V
  apart : Bool
deriving DecidableEq, Repr

namespace Share

/-- The shared value after the task. -/
def apply (f : V → V → V) (e p : V) (s : Share V) : V :=
  if s.apart then f p (s.values.foldl f e) else s.values.foldl f p

/-- The shared value after the task, had it run in place. -/
def inPlace (f : V → V → V) (p : V) (s : Share V) : V := s.values.foldl f p

theorem apply_of_apart {f : V → V → V} {e p : V} {s : Share V} (h : s.apart = true) :
    s.apply f e p = f p (s.values.foldl f e) := if_pos h

theorem apply_of_not_apart {f : V → V → V} {e p : V} {s : Share V} (h : s.apart = false) :
    s.apply f e p = s.inPlace f p := if_neg (by rw [h]; exact Bool.false_ne_true)

end Share

-- ======== the meaning

/-- Through `den` the operation is `op`, associative and commutative, and
`e` is neutral. -/
structure Meaning (f : V → V → V) (e : V) (den : V → D) (op : D → D → D) : Prop where
  den_op : ∀ a b, den (f a b) = op (den a) (den b)
  assoc : ∀ a b c, op (op a b) c = op a (op b c)
  comm : ∀ a b, op a b = op b a
  neutral : ∀ a, op (den a) (den e) = den a

namespace Meaning

variable {f : V → V → V} {e : V} {den : V → D} {op : D → D → D} (hm : Meaning f e den op)
include hm

theorem den_foldl (vs : List V) (p : V) :
    den (vs.foldl f p) = (vs.map den).foldl op (den p) := by
  induction vs generalizing p with
  | nil => rfl
  | cons v vs ih =>
    simp only [List.foldl_cons, List.map_cons]
    rw [ih, hm.den_op]

theorem foldl_op (ds : List D) (a b : D) : ds.foldl op (op a b) = op a (ds.foldl op b) := by
  induction ds generalizing b with
  | nil => rfl
  | cons d ds ih =>
    simp only [List.foldl_cons]
    rw [hm.assoc, ih]

theorem den_apply (p : V) (s : Share V) :
    den (s.apply f e p) = (s.values.map den).foldl op (den p) := by
  cases hs : s.apart with
  | false => rw [Share.apply_of_not_apart hs, Share.inPlace, hm.den_foldl]
  | true =>
    rw [Share.apply_of_apart hs, hm.den_op, hm.den_foldl, ← hm.foldl_op, hm.neutral]

theorem den_foldl_apply (ss : List (Share V)) (p : V) :
    den (ss.foldl (Share.apply f e) p)
      = ((ss.flatMap Share.values).map den).foldl op (den p) := by
  induction ss generalizing p with
  | nil => rfl
  | cons s ss ih =>
    rw [List.foldl_cons, ih, hm.den_apply, List.flatMap_cons, List.map_append,
      List.foldl_append]

theorem den_foldl_inPlace (ss : List (Share V)) (p : V) :
    den (ss.foldl (Share.inPlace f) p)
      = ((ss.flatMap Share.values).map den).foldl op (den p) := by
  induction ss generalizing p with
  | nil => rfl
  | cons s ss ih =>
    rw [List.foldl_cons, ih, Share.inPlace, hm.den_foldl, List.flatMap_cons,
      List.map_append, List.foldl_append]

theorem den_shares {tasks order : List (Share V)} (h : order.Perm tasks) (x : V) :
    den (order.foldl (Share.apply f e) x) = den (tasks.foldl (Share.inPlace f) x) := by
  rw [hm.den_foldl_apply, hm.den_foldl_inPlace]
  have hperm := (h.flatMap_right Share.values).map den
  refine hperm.foldl_eq' (fun a _ b _ d => ?_) (den x)
  calc op (op d a) b = op d (op a b) := hm.assoc d a b
    _ = op d (op b a) := by rw [hm.comm a b]
    _ = op (op d b) a := (hm.assoc d b a).symm

end Meaning

-- ======== exact results

/-- A result of the operation. -/
def Settled (f : V → V → V) (v : V) : Prop := ∃ a b, v = f a b

section Settled

variable {f : V → V → V} {e p : V} {ss : List (Share V)}

theorem Settled.foldl (h : Settled f p) (vs : List V) : Settled f (vs.foldl f p) := by
  induction vs generalizing p with
  | nil => exact h
  | cons v vs ih => exact ih ⟨p, v, rfl⟩

theorem settled_foldl {vs : List V} (h : vs ≠ []) : Settled f (vs.foldl f p) := by
  cases vs with
  | nil => exact absurd rfl h
  | cons v vs => exact Settled.foldl ⟨p, v, rfl⟩ vs

theorem Settled.apply (h : Settled f p) (s : Share V) : Settled f (s.apply f e p) := by
  cases hs : s.apart with
  | false => exact Share.apply_of_not_apart hs ▸ h.foldl s.values
  | true => exact ⟨p, _, Share.apply_of_apart hs⟩

theorem Settled.foldl_apply (h : Settled f p) (ss : List (Share V)) :
    Settled f (ss.foldl (Share.apply f e) p) := by
  induction ss generalizing p with
  | nil => exact h
  | cons s ss ih => exact ih (h.apply s)

theorem Settled.foldl_inPlace (h : Settled f p) (ss : List (Share V)) :
    Settled f (ss.foldl (Share.inPlace f) p) := by
  induction ss generalizing p with
  | nil => exact h
  | cons s ss ih => exact ih (h.foldl s.values)

theorem settled_foldl_apply {s : Share V} (hmem : s ∈ ss)
    (hs : s.values ≠ [] ∨ s.apart = true) : Settled f (ss.foldl (Share.apply f e) p) := by
  induction ss generalizing p with
  | nil => cases hmem
  | cons s' ss ih =>
    rcases List.mem_cons.mp hmem with rfl | hmem
    · refine Settled.foldl_apply ?_ ss
      cases ha : s.apart with
      | true => exact ⟨p, _, Share.apply_of_apart ha⟩
      | false =>
        have hne := hs.resolve_right (by rw [ha]; exact Bool.false_ne_true)
        exact Share.apply_of_not_apart ha ▸ settled_foldl hne
    · exact ih hmem

theorem settled_foldl_inPlace {s : Share V} (hmem : s ∈ ss) (hs : s.values ≠ []) :
    Settled f (ss.foldl (Share.inPlace f) p) := by
  induction ss generalizing p with
  | nil => cases hmem
  | cons s' ss ih =>
    rcases List.mem_cons.mp hmem with rfl | hmem
    · exact (settled_foldl hs).foldl_inPlace ss
    · exact ih hmem

theorem foldl_inPlace_of_empty (h : ∀ s ∈ ss, s.values = []) :
    ss.foldl (Share.inPlace f) p = p := by
  induction ss with
  | nil => rfl
  | cons s ss ih =>
    rw [List.foldl_cons, Share.inPlace, h s List.mem_cons_self]
    exact ih fun s' hs' => h s' (List.mem_cons_of_mem s hs')

theorem foldl_apply_of_not_apart (h : ∀ s ∈ ss, s.apart = false) :
    ss.foldl (Share.apply f e) p = ss.foldl (Share.inPlace f) p := by
  induction ss generalizing p with
  | nil => rfl
  | cons s ss ih =>
    rw [List.foldl_cons, List.foldl_cons, Share.apply_of_not_apart (h s List.mem_cons_self)]
    exact ih fun s' hs' => h s' (List.mem_cons_of_mem s hs')

end Settled

/-- The shares give the result of the tasks in place if and only if the
operation leaves the initial value as it is, or a task accumulates a value,
or no task has run apart. -/
theorem shares_eq_iff {f : V → V → V} {e : V} {den : V → D} {op : D → D → D}
    (hm : Meaning f e den op)
    (hinj : ∀ v w, Settled f v → Settled f w → den v = den w → v = w)
    {tasks order : List (Share V)} (h : order.Perm tasks) (x : V) :
    order.foldl (Share.apply f e) x = tasks.foldl (Share.inPlace f) x
      ↔ f x e = x ∨ (∃ s ∈ tasks, s.values ≠ []) ∨ ∀ s ∈ tasks, s.apart = false := by
  have hden := hm.den_shares h x
  constructor
  · intro heq
    by_cases hval : ∃ s ∈ tasks, s.values ≠ []
    · exact .inr (.inl hval)
    by_cases hap : ∀ s ∈ tasks, s.apart = false
    · exact .inr (.inr hap)
    -- an empty share has been merged into `x`
    push Not at hval hap
    obtain ⟨s, hs, hsap⟩ := hap
    rw [foldl_inPlace_of_empty hval] at heq
    have hset : Settled f x :=
      heq ▸ settled_foldl_apply (h.mem_iff.mpr hs) (.inr (by simpa using hsap))
    exact .inl (hinj _ _ ⟨x, e, rfl⟩ hset (by rw [hm.den_op, hm.neutral]))
  · by_cases hval : ∃ s ∈ tasks, s.values ≠ []
    · obtain ⟨s, hs, hne⟩ := hval
      intro _
      exact hinj _ _ (settled_foldl_apply (h.mem_iff.mpr hs) (.inl hne))
        (settled_foldl_inPlace hs hne) hden
    push Not at hval
    rintro (hx | ⟨s, hs, hne⟩ | hap)
    · have hset : Settled f x := ⟨x, e, hx.symm⟩
      exact hinj _ _ (hset.foldl_apply order) (hset.foldl_inPlace tasks) hden
    · exact absurd (hval s hs) hne
    · rw [foldl_apply_of_not_apart fun s hs => hap s (h.mem_iff.mp hs),
        foldl_inPlace_of_empty fun s hs => hval s (h.mem_iff.mp hs),
        foldl_inPlace_of_empty hval]

-- ======== subtraction

section Sub

variable [AddCommGroup V]

/-- The sum of what has been accumulated apart. -/
def apartSum (ss : List (Share V)) : V :=
  ((ss.filter Share.apart).flatMap Share.values).sum

theorem foldl_sub (vs : List V) (p : V) : vs.foldl (· - ·) p = p - vs.sum := by
  induction vs generalizing p with
  | nil => simp
  | cons v vs ih =>
    rw [List.foldl_cons, ih, List.sum_cons]
    abel

theorem foldl_inPlace_sub (ss : List (Share V)) (p : V) :
    ss.foldl (Share.inPlace (· - ·)) p = p - (ss.flatMap Share.values).sum := by
  induction ss generalizing p with
  | nil => simp
  | cons s ss ih =>
    rw [List.foldl_cons, ih, Share.inPlace, foldl_sub, List.flatMap_cons, List.sum_append]
    abel

theorem foldl_apply_sub (ss : List (Share V)) (p : V) :
    ss.foldl (Share.apply (· - ·) 0) p
      = p - (ss.flatMap Share.values).sum + (apartSum ss + apartSum ss) := by
  induction ss generalizing p with
  | nil => simp [apartSum]
  | cons s ss ih =>
    rw [List.foldl_cons, ih, List.flatMap_cons, List.sum_append]
    cases hs : s.apart with
    | false =>
      rw [Share.apply_of_not_apart hs, Share.inPlace, foldl_sub, apartSum, apartSum,
        List.filter_cons_of_neg (by rw [hs]; exact Bool.false_ne_true)]
      abel
    | true =>
      rw [Share.apply_of_apart hs, foldl_sub]
      simp only [apartSum]
      rw [List.filter_cons_of_pos hs, List.flatMap_cons, List.sum_append]
      abel

/-- Subtracted shares give the result of the tasks in place if and only if
what was accumulated apart, counted twice, is zero. -/
theorem sub_shares_eq_iff {tasks order : List (Share V)} (h : order.Perm tasks) (x : V) :
    order.foldl (Share.apply (· - ·) 0) x = tasks.foldl (Share.inPlace (· - ·)) x
      ↔ apartSum tasks + apartSum tasks = 0 := by
  have hall := (h.flatMap_right Share.values).sum_eq
  have hap : apartSum order = apartSum tasks :=
    ((h.filter Share.apart).flatMap_right Share.values).sum_eq
  rw [foldl_apply_sub, foldl_inPlace_sub, hall, hap, add_eq_left]

end Sub

end Reduce
