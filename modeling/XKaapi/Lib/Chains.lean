/-
Singly linked chains, as the buckets of a hash table use them: nodes
that each carry one link, and a search from the first one on.

The table keeps a list of all its nodes, the newest first; a bucket is
the sublist of the nodes that hash to it. `Chain next p l` says that the
links from `p` thread exactly the nodes of `l`, in that order.

- `Chain.search`: a search along a chain finds what `List.find?` finds.
- `Chain.push`: the node that is linked in front.
- `find?_bucket`: a bucket is all that a search needs to look at.
-/
import Mathlib.Data.List.Find

namespace Chains

variable {ι : Type*} {next next' : ι → Option ι} {p : Option ι} {l : List ι}

/-- The nodes of `l` are linked in that order, from `p` to the end. -/
def Chain (next : ι → Option ι) : Option ι → List ι → Prop
  | p, [] => p = none
  | p, i :: l => p = some i ∧ Chain next (next i) l

/-- The first node from `p` on that passes the test, if the chain ends
within `fuel` nodes or has one. -/
def search (next : ι → Option ι) (test : ι → Bool) :
    Nat → Option ι → Option (Option ι)
  | _, none => some none
  | 0, some _ => none
  | fuel + 1, some i =>
    if test i then some (some i) else search next test fuel (next i)

theorem Chain.congr (h : Chain next p l) (heq : ∀ i ∈ l, next' i = next i) :
    Chain next' p l := by
  induction l generalizing p with
  | nil => exact h
  | cons i l ih =>
    refine ⟨h.1, ?_⟩
    rw [heq i List.mem_cons_self]
    exact ih h.2 fun j hj => heq j (List.mem_cons_of_mem i hj)

theorem Chain.push [DecidableEq ι] {i : ι} (h : Chain next p l) (hi : i ∉ l) :
    Chain (Function.update next i p) (some i) (i :: l) := by
  refine ⟨rfl, ?_⟩
  rw [Function.update_self]
  exact h.congr fun j hj =>
    Function.update_of_ne (ne_of_mem_of_not_mem hj hi) _ _

theorem Chain.search {test : ι → Bool} {fuel : Nat} (h : Chain next p l)
    (hf : l.length ≤ fuel) :
    search next test fuel p = some (l.find? test) := by
  induction l generalizing p fuel with
  | nil =>
    cases h
    cases fuel <;> rfl
  | cons i l ih =>
    obtain ⟨rfl, h⟩ := h
    cases fuel with
    | zero => exact absurd hf (Nat.not_succ_le_zero _)
    | succ fuel =>
      unfold Chains.search
      cases ht : test i with
      | true => rw [if_pos rfl, List.find?_cons_of_pos ht]
      | false =>
        rw [if_neg Bool.false_ne_true,
          List.find?_cons_of_neg (by rw [ht]; exact Bool.false_ne_true)]
        exact ih h (Nat.le_of_succ_le_succ hf)

theorem find?_bucket {α : Type*} {l : List α} {test bucket : α → Bool}
    (h : ∀ a ∈ l, test a = true → bucket a = true) :
    (l.filter bucket).find? test = l.find? test := by
  rw [List.find?_filter]
  refine List.find?_congr fun a ha => ?_
  cases ht : test a with
  | true => exact decide_eq_true ⟨h a ha ht, rfl⟩
  | false => exact decide_eq_false fun hc => Bool.false_ne_true hc.2

end Chains
