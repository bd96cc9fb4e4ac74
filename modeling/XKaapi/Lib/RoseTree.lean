/-
Trees of workers.

A worker of a tree has a list of others it has given work to, and a step
of the tree is a step of one subtree (`modifyAt`), which may rewrite the
list of its root. What a tree stands for is an evaluation from the leaves
(`fold`): a step of a subtree that keeps its value keeps the value of the
tree (`modifyAt_inv`), and one that lowers its weight lowers the weight of
the tree (`modifyAt_weight`).
-/
import Mathlib.Algebra.GroupWithZero.Nat
import Mathlib.Algebra.Order.BigOperators.Group.List

/-- A worker and those it has given work to. -/
inductive RoseTree (N : Type*) where
  | node (val : N) (kids : List (RoseTree N))

namespace RoseTree

variable {N D : Type*}

def val : RoseTree N → N
  | node v _ => v

def kids : RoseTree N → List (RoseTree N)
  | node _ ks => ks

-- ======== values

/-- The evaluation from the leaves. -/
def fold (g : N → List D → D) : RoseTree N → D
  | node v ks => g v (folds ks)
where
  folds : List (RoseTree N) → List D
    | [] => []
    | k :: ks => fold g k :: folds ks

theorem folds_eq_map (g : N → List D → D) (ks : List (RoseTree N)) :
    fold.folds g ks = ks.map (fold g) := by
  induction ks with
  | nil => rfl
  | cons k ks ih =>
    rw [fold.folds, ih]
    rfl

theorem fold_node (g : N → List D → D) (v : N) (ks : List (RoseTree N)) :
    fold g (node v ks) = g v (ks.map (fold g)) := by
  rw [fold, folds_eq_map]

/-- The workers in depth-first order. -/
def preorder : RoseTree N → List N := fold fun v ds => v :: ds.flatten

theorem preorder_eq (t : RoseTree N) :
    preorder t = t.val :: t.kids.flatMap preorder := by
  cases t with
  | node v ks =>
    rw [preorder, fold_node, ← List.flatMap_def]
    rfl

/-- The length of the longest path down from the root. -/
def depth : RoseTree N → Nat := fold fun _ ds => (ds.map (· + 1)).foldr max 0

theorem depth_lt {t k : RoseTree N} (hk : k ∈ t.kids) : k.depth < t.depth := by
  cases t with
  | node v ks =>
    have hle : ∀ {l : List Nat} {d : Nat}, d ∈ l → d ≤ l.foldr max 0 := by
      intro l d hd
      induction l with
      | nil => cases hd
      | cons a l ih =>
        rcases List.mem_cons.mp hd with rfl | hd
        · exact Nat.le_max_left ..
        · exact (ih hd).trans (Nat.le_max_right ..)
    rw [depth, fold_node]
    refine Nat.lt_of_succ_le (hle ?_)
    exact List.mem_map_of_mem (List.mem_map_of_mem hk)

theorem exists_depth {t : RoseTree N} (hkids : t.kids ≠ []) :
    ∃ k ∈ t.kids, t.depth = k.depth + 1 := by
  cases t with
  | node v ks =>
    have hmax : ∀ {l : List Nat}, l ≠ [] → l.foldr max 0 ∈ l := by
      intro l hl
      induction l with
      | nil => exact absurd rfl hl
      | cons a l ih =>
        rcases Nat.le_total (l.foldr max 0) a with hle | hle
        · rw [List.foldr_cons, Nat.max_eq_left hle]
          exact List.mem_cons_self
        · rw [List.foldr_cons, Nat.max_eq_right hle]
          by_cases hnil : l = []
          · subst hnil
            rw [Nat.le_zero.mp hle]
            exact List.mem_cons_self
          · exact List.mem_cons_of_mem _ (ih hnil)
    have hne : (ks.map depth).map (· + 1) ≠ [] := by
      simpa [kids] using hkids
    have hmem := hmax hne
    obtain ⟨d, hd, hdepth⟩ := List.mem_map.mp hmem
    obtain ⟨k, hk, rfl⟩ := List.mem_map.mp hd
    exact ⟨k, hk, (fold_node ..).trans hdepth.symm⟩

/-- What holds of every worker, told whether it has given work. -/
inductive All (P : N → Bool → Prop) : RoseTree N → Prop where
  | node {v : N} {ks : List (RoseTree N)} (h : P v ks.isEmpty)
      (hkids : ∀ k ∈ ks, All P k) : All P (node v ks)

theorem all_node {P : N → Bool → Prop} {v : N} {ks : List (RoseTree N)} :
    All P (node v ks) ↔ P v ks.isEmpty ∧ ∀ k ∈ ks, All P k := by
  constructor
  · intro ⟨h, hkids⟩
    exact ⟨h, hkids⟩
  · intro ⟨h, hkids⟩
    exact ⟨h, hkids⟩

-- ======== steps

/-- The subtree at the end of a path. -/
def at? : List Nat → RoseTree N → Option (RoseTree N)
  | [], t => some t
  | i :: path, node _ ks =>
    match ks[i]? with
    | none => none
    | some k => at? path k

/-- A step of the subtree at the end of a path. -/
def modifyAt (f : RoseTree N → Option (RoseTree N)) :
    List Nat → RoseTree N → Option (RoseTree N)
  | [], t => f t
  | i :: path, node v ks =>
    match ks[i]? with
    | none => none
    | some k =>
      match modifyAt f path k with
      | none => none
      | some k' => some (node v (ks.set i k'))

variable {f : RoseTree N → Option (RoseTree N)} {t t' : RoseTree N}
  {path : List Nat}

theorem modifyAt_cons {i : Nat} {v : N} {ks : List (RoseTree N)}
    (h : modifyAt f (i :: path) (node v ks) = some t') :
    ∃ k k', ks[i]? = some k ∧ modifyAt f path k = some k'
      ∧ t' = node v (ks.set i k') := by
  unfold modifyAt at h
  cases hk : ks[i]? with
  | none =>
    simp only [hk] at h
    cases h
  | some k =>
    simp only [hk] at h
    cases hm : modifyAt f path k with
    | none =>
      simp only [hm] at h
      cases h
    | some k' =>
      simp only [hm] at h
      cases h
      exact ⟨k, k', rfl, hm, rfl⟩

theorem val_modifyAt (hpath : path ≠ []) (h : modifyAt f path t = some t') :
    t'.val = t.val := by
  cases path with
  | nil => exact absurd rfl hpath
  | cons i path =>
    cases t with
    | node v ks =>
      obtain ⟨k, k', -, -, rfl⟩ := modifyAt_cons h
      rfl

/-- A step that keeps the value of the subtree and a property of its
workers keeps those of the tree. -/
theorem modifyAt_inv {g : N → List D → D} {P : N → Bool → Prop}
    (hf : ∀ u u', t.at? path = some u → All P u → f u = some u' →
      fold g u' = fold g u ∧ All P u')
    (ht : All P t) (h : modifyAt f path t = some t') :
    fold g t' = fold g t ∧ All P t' := by
  induction path generalizing t t' with
  | nil => exact hf t t' rfl ht h
  | cons i path ih =>
    cases t with
    | node v ks =>
      obtain ⟨k, k', hk, hm, rfl⟩ := modifyAt_cons h
      obtain ⟨hP, hkids⟩ := all_node.mp ht
      have hmem : k ∈ ks := List.mem_of_getElem? hk
      have hsub : ∀ u u', k.at? path = some u → All P u → f u = some u' →
          fold g u' = fold g u ∧ All P u' := by
        intro u u' hu
        refine hf u u' ?_
        unfold at?
        simp only [hk]
        exact hu
      obtain ⟨hfold, hall⟩ := ih hsub (hkids k hmem) hm
      refine ⟨?_, all_node.mpr ⟨?_, fun j hj => ?_⟩⟩
      · rw [fold_node, fold_node, List.map_set, hfold]
        congr 1
        apply List.ext_getElem?
        intro j
        rw [List.getElem?_set]
        split
        · next heq =>
            subst heq
            split
            · rw [List.getElem?_map, hk]
              rfl
            · next hlen =>
                rw [List.getElem?_eq_none (Nat.not_lt.mp hlen)]
        · rfl
      · rw [show (ks.set i k').isEmpty = ks.isEmpty from by
          rw [List.isEmpty_eq_false_iff_exists_mem.mpr ⟨k, hmem⟩]
          exact List.isEmpty_eq_false_iff_exists_mem.mpr
            ⟨k', List.mem_set (List.getElem?_eq_some_iff.mp hk).1 k'⟩]
        exact hP
      · rcases List.mem_or_eq_of_mem_set hj with hj | rfl
        · exact hkids j hj
        · exact hall

-- ======== progress

/-- The sum of the weights of the workers. -/
def weight (w : N → Nat) : RoseTree N → Nat := fold fun v ds => w v + ds.sum

theorem weight_node (w : N → Nat) (v : N) (ks : List (RoseTree N)) :
    weight w (node v ks) = w v + (ks.map (weight w)).sum := fold_node _ v ks

theorem modifyAt_weight {w : N → Nat} (v : N) {k k' : RoseTree N}
    (ks : List (RoseTree N)) (h : modifyAt f path k = some k')
    (hw : weight w k' < weight w k) :
    ∃ t', modifyAt f (0 :: path) (node v (k :: ks)) = some t'
      ∧ weight w t' < weight w (node v (k :: ks)) := by
  refine ⟨node v (k' :: ks), ?_, ?_⟩
  · unfold modifyAt
    simp only [List.getElem?_cons_zero, h, List.set_cons_zero]
  · rw [weight_node, weight_node, List.map_cons, List.map_cons, List.sum_cons,
      List.sum_cons]
    omega

end RoseTree
