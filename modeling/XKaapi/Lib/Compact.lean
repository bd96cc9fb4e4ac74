/-
Compaction of an array in place: the elements that are kept are moved to
the front in one pass, and the others are cleared where they are.

`compact_spec` says that the front of the array is then the list of the
elements that were kept, although the pass overwrites what it has read.
-/
import Mathlib.Data.List.Basic

namespace InPlace

variable {α : Type*} (keep : Nat → α → Bool) (clear : α → α)

/-- The pass over the last `rest` elements, from the index `i` on; `final`
have been kept. -/
def compact : Nat → Nat → Nat → List α → List α × Nat
  | 0, _, final, a => (a, final)
  | rest + 1, i, final, a =>
    match a[i]? with
    | none => (a, final)
    | some x =>
      if keep i x then compact rest (i + 1) (final + 1) (a.set final x)
      else compact rest (i + 1) final (a.set i (clear x))

/-- The elements of a list that are kept, the first one being at the
index `i`. -/
def kept : Nat → List α → List α
  | _, [] => []
  | i, x :: l => if keep i x then x :: kept (i + 1) l else kept (i + 1) l

variable {keep} {clear}

theorem compact_spec_from {l a : List α} {i final : Nat} (hl : a.drop i = l)
    (hle : final ≤ i) :
    (compact keep clear l.length i final a).1.take
        (compact keep clear l.length i final a).2
      = a.take final ++ kept keep i l := by
  induction l generalizing a i final with
  | nil => exact (List.append_nil _).symm
  | cons x l ih =>
    have hlt : i < a.length := by
      by_contra hge
      rw [List.drop_eq_nil_of_le (Nat.le_of_not_lt hge)] at hl
      cases hl
    have hx : a[i]? = some x := by
      rw [← List.head?_drop, hl, List.head?_cons]
    have hrest : a.drop (i + 1) = l := by
      rw [← List.tail_drop, hl, List.tail_cons]
    rw [List.length_cons]
    unfold compact kept
    rw [hx]
    dsimp only
    by_cases hk : keep i x = true
    · rw [if_pos hk, if_pos hk]
      have hfinal : final < a.length := Nat.lt_of_le_of_lt hle hlt
      have htake : (a.set final x).take (final + 1) = a.take final ++ [x] := by
        rw [List.take_add_one, List.take_set_of_le (Nat.le_refl _),
          List.getElem?_set_self hfinal, Option.toList_some]
      rw [ih ((List.drop_set_of_lt (Nat.lt_succ_of_le hle)).trans hrest)
        (Nat.succ_le_succ hle), htake, List.append_assoc, List.singleton_append]
    · rw [if_neg hk, if_neg hk,
        ih ((List.drop_set_of_lt (Nat.lt_succ_self i)).trans hrest)
          (Nat.le_succ_of_le hle), List.take_set_of_le hle]

theorem compact_spec (a : List α) :
    (compact keep clear a.length 0 0 a).1.take
        (compact keep clear a.length 0 0 a).2 = kept keep 0 a :=
  compact_spec_from rfl (Nat.le_refl 0)

theorem mem_kept {x : α} {l : List α} {i : Nat} :
    x ∈ kept keep i l ↔ ∃ j, l[j]? = some x ∧ keep (i + j) x = true := by
  induction l generalizing i with
  | nil =>
    refine iff_of_false List.not_mem_nil ?_
    rintro ⟨j, hj, -⟩
    cases hj
  | cons y l ih =>
    have hsplit : (∃ j, (y :: l)[j]? = some x ∧ keep (i + j) x = true)
        ↔ (y = x ∧ keep i x = true)
          ∨ ∃ j, l[j]? = some x ∧ keep (i + 1 + j) x = true := by
      constructor
      · rintro ⟨j, hj, hk⟩
        cases j with
        | zero => exact .inl ⟨Option.some.inj hj, hk⟩
        | succ j =>
          refine .inr ⟨j, hj, ?_⟩
          rw [Nat.add_assoc, Nat.add_comm 1 j]
          exact hk
      · rintro (⟨rfl, hk⟩ | ⟨j, hj, hk⟩)
        · exact ⟨0, rfl, hk⟩
        · refine ⟨j + 1, hj, ?_⟩
          rw [Nat.add_assoc, Nat.add_comm 1 j] at hk
          exact hk
    have hcons : kept keep i (y :: l) = if keep i y
        then y :: kept keep (i + 1) l else kept keep (i + 1) l := rfl
    rw [hsplit, ← ih, hcons]
    by_cases hk : keep i y = true
    · rw [if_pos hk, List.mem_cons]
      constructor
      · rintro (rfl | hx)
        · exact .inl ⟨rfl, hk⟩
        · exact .inr hx
      · rintro (⟨rfl, -⟩ | hx)
        · exact .inl rfl
        · exact .inr hx
    · rw [if_neg hk]
      refine ⟨.inr, ?_⟩
      rintro (⟨rfl, hk'⟩ | hx)
      · exact absurd hk' hk
      · exact hx

end InPlace
