/-
Merging sequences by a key: again and again, the least of the heads.

`Merges key rest log` says that `log` is such a merge of the sequences
`rest`, each element with the sequence it comes from; which of two equal
heads comes first is open. Every sequence is in the log as it is
(`Merges.filter`), and the log is in order if the sequences are
(`Merges.sorted`).
-/
import Mathlib.Data.List.Pairwise
import Mathlib.Order.Defs.PartialOrder

namespace Merge

variable {ι ε κ : Type*} [DecidableEq ι] [Preorder κ] {key : ε → κ}
variable {rest : ι → List ε} {log : List (ι × ε)}

inductive Merges (key : ε → κ) : (ι → List ε) → List (ι × ε) → Prop
  | done {rest : ι → List ε} (h : ∀ i, rest i = []) : Merges key rest []
  | take {rest : ι → List ε} {i : ι} {e : ε} {es : List ε} {log : List (ι × ε)}
      (h : rest i = e :: es)
      (hle : ∀ j f fs, rest j = f :: fs → key e ≤ key f)
      (hrest : Merges key (Function.update rest i es) log) :
      Merges key rest ((i, e) :: log)

theorem Merges.filter (h : Merges key rest log) (i : ι) :
    (log.filter fun p => decide (p.1 = i)).map Prod.snd = rest i := by
  induction h with
  | done h => exact (h i).symm
  | @take rest j e es log h hle hrest ih =>
    by_cases hi : j = i
    · subst hi
      rw [Function.update_self] at ih
      rw [List.filter_cons_of_pos (by exact decide_eq_true rfl), List.map_cons, ih, h]
    · rw [Function.update_of_ne (Ne.symm hi)] at ih
      rw [List.filter_cons_of_neg (by simpa using hi), ih]

theorem Merges.mem (h : Merges key rest log) {p : ι × ε} (hp : p ∈ log) :
    p.2 ∈ rest p.1 := by
  rw [← h.filter p.1]
  exact List.mem_map_of_mem (List.mem_filter.mpr ⟨hp, decide_eq_true rfl⟩)

theorem sorted_tail {i : ι} {e : ε} {es : List ε} (h : rest i = e :: es)
    (hs : ∀ j, (rest j).Pairwise fun a b => key a ≤ key b) (j : ι) :
    (Function.update rest i es j).Pairwise fun a b => key a ≤ key b := by
  by_cases hj : j = i
  · subst hj
    rw [Function.update_self]
    exact (List.pairwise_cons.mp (h ▸ hs j)).2
  · rw [Function.update_of_ne hj]
    exact hs j

omit [DecidableEq ι] in
theorem head_le {e : ε} (hle : ∀ j f fs, rest j = f :: fs → key e ≤ key f)
    (hs : ∀ j, (rest j).Pairwise fun a b => key a ≤ key b) {j : ι} {f : ε} (hf : f ∈ rest j) :
    key e ≤ key f := by
  cases hj : rest j with
  | nil =>
    rw [hj] at hf
    cases hf
  | cons g fs =>
    have hg := hle j g fs hj
    rw [hj] at hf
    rcases List.mem_cons.mp hf with rfl | hf
    · exact hg
    · exact le_trans hg ((List.pairwise_cons.mp (hj ▸ hs j)).1 f hf)

theorem Merges.sorted (h : Merges key rest log)
    (hs : ∀ i, (rest i).Pairwise fun a b => key a ≤ key b) :
    log.Pairwise fun p q => key p.2 ≤ key q.2 := by
  induction h with
  | done => exact List.Pairwise.nil
  | @take rest i e es log h hle hrest ih =>
    refine List.pairwise_cons.mpr ⟨fun p hp => ?_, ih (sorted_tail h hs)⟩
    have hmem := hrest.mem hp
    refine head_le hle hs (j := p.1) ?_
    by_cases hi : p.1 = i
    · rw [hi, Function.update_self] at hmem
      rw [hi, h]
      exact List.mem_cons_of_mem e hmem
    · rw [Function.update_of_ne hi] at hmem
      exact hmem

end Merge
