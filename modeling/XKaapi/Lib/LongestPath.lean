/-
Longest paths of a directed graph given by its successor lists. The
longest path from a node (`IsLongest`) ends at a node without
successors; nodes repeated in a successor list and the order of the list
do not matter to it.

`isLongest_of_succ` is the recursion that computes it, one more than the
longest of the successors; `exists_isLongest` says that a graph without
cycles and with finitely many nodes that have successors has one from
every node, and `exists_rank` orders the nodes of such a graph by it.
-/
import Mathlib.Order.WellFoundedSet

namespace LongestPath

variable {τ : Type*}

-- ======== paths

/-- A path of `n` links. -/
inductive Path (succ : τ → List τ) : τ → τ → Nat → Prop
  | refl (u : τ) : Path succ u u 0
  | cons {u v w : τ} {n : Nat} (hv : v ∈ succ u) (h : Path succ v w n) :
      Path succ u w (n + 1)

/-- Some path leads from `u` to `v`. -/
def Reach (succ : τ → List τ) (u v : τ) : Prop := ∃ n, Path succ u v n

/-- No path of at least one link comes back. -/
def Acyclic (succ : τ → List τ) : Prop := ∀ u n, ¬ Path succ u u (n + 1)

/-- `n` is the length of the longest path from `u`, and of one to a node
without successors. -/
structure IsLongest (succ : τ → List τ) (u : τ) (n : Nat) : Prop where
  exit : ∃ v, succ v = [] ∧ Path succ u v n
  le : ∀ v m, Path succ u v m → m ≤ n

variable {succ : τ → List τ}

theorem Path.trans {u v w : τ} {m n : Nat} (h : Path succ u v m)
    (h' : Path succ v w n) : Path succ u w (m + n) := by
  induction h with
  | refl =>
    rw [Nat.zero_add]
    exact h'
  | cons hv _ ih =>
    rw [Nat.succ_add]
    exact .cons hv (ih h')

theorem Reach.refl (succ : τ → List τ) (u : τ) : Reach succ u u :=
  ⟨0, .refl u⟩

theorem Reach.head {u v w : τ} (hv : v ∈ succ u) (h : Reach succ v w) :
    Reach succ u w := by
  obtain ⟨n, hn⟩ := h
  exact ⟨n + 1, .cons hv hn⟩

theorem Reach.closed {P : τ → Prop}
    (hP : ∀ u, P u → ∀ v ∈ succ u, P v) {u v : τ} (h : Reach succ u v)
    (hu : P u) : P v := by
  obtain ⟨n, hn⟩ := h
  induction hn with
  | refl => exact hu
  | cons hv _ ih => exact ih (hP _ hu _ hv)

theorem acyclic_of_rank (rank : τ → Nat)
    (hrank : ∀ u, ∀ v ∈ succ u, rank u < rank v) : Acyclic succ := by
  have hle : ∀ {u v n}, Path succ u v n → rank u + n ≤ rank v := by
    intro u v n h
    induction h with
    | refl => exact Nat.le_refl _
    | cons hv _ ih =>
      have hlt := hrank _ _ hv
      omega
  intro u n h
  have hu := hle h
  omega

-- ======== longest paths

theorem IsLongest.unique {u : τ} {m n : Nat} (h : IsLongest succ u m)
    (h' : IsLongest succ u n) : m = n := by
  obtain ⟨v, -, hv⟩ := h.exit
  obtain ⟨w, -, hw⟩ := h'.exit
  exact Nat.le_antisymm (h'.le v m hv) (h.le w n hw)

theorem IsLongest.succ_lt {u v : τ} {m n : Nat} (h : IsLongest succ u n)
    (hv : v ∈ succ u) (h' : IsLongest succ v m) : m < n := by
  obtain ⟨w, -, hw⟩ := h'.exit
  exact h.le w (m + 1) (.cons hv hw)

theorem isLongest_of_nil {u : τ} (hu : succ u = []) :
    IsLongest succ u 0 where
  exit := ⟨u, hu, .refl u⟩
  le := by
    intro v m h
    cases h with
    | refl => exact Nat.le_refl 0
    | cons hv _ =>
      rw [hu] at hv
      cases hv

theorem foldl_max_le_iff {l : List τ} {d : τ → Nat} {m b : Nat} :
    l.foldl (fun m v => max m (d v)) m ≤ b ↔ m ≤ b ∧ ∀ v ∈ l, d v ≤ b := by
  induction l generalizing m with
  | nil => simp
  | cons v l ih =>
    rw [List.foldl_cons, ih, max_le_iff, List.forall_mem_cons, and_assoc]

theorem foldl_max_eq (l : List τ) (d : τ → Nat) (m : Nat) :
    l.foldl (fun m v => max m (d v)) m = m
      ∨ ∃ v ∈ l, l.foldl (fun m v => max m (d v)) m = d v := by
  induction l generalizing m with
  | nil => exact .inl rfl
  | cons v l ih =>
    rw [List.foldl_cons]
    rcases ih (max m (d v)) with h | ⟨w, hw, h⟩
    · rw [h]
      rcases max_choice m (d v) with hm | hm
      · exact .inl hm
      · exact .inr ⟨v, List.mem_cons_self, hm⟩
    · exact .inr ⟨w, List.mem_cons_of_mem v hw, h⟩

theorem isLongest_of_succ {u : τ} {d : τ → Nat} (hne : succ u ≠ [])
    (hd : ∀ v ∈ succ u, IsLongest succ v (d v)) :
    IsLongest succ u ((succ u).foldl (fun m v => max m (d v)) 0 + 1) where
  exit := by
    -- some successor has the maximum, also when that is 0
    have hmax : ∃ v ∈ succ u,
        (succ u).foldl (fun m v => max m (d v)) 0 = d v := by
      rcases foldl_max_eq (succ u) d 0 with h0 | h
      · obtain ⟨v, hv⟩ := List.exists_mem_of_ne_nil _ hne
        have hle := (foldl_max_le_iff.mp (Nat.le_of_eq h0)).2 v hv
        exact ⟨v, hv, h0.trans (Nat.le_zero.mp hle).symm⟩
      · exact h
    obtain ⟨v, hv, heq⟩ := hmax
    obtain ⟨w, hw, hpath⟩ := (hd v hv).exit
    rw [heq]
    exact ⟨w, hw, .cons hv hpath⟩
  le := by
    intro w m h
    cases h with
    | refl => exact Nat.zero_le _
    | cons hv hpath =>
      have hle := (hd _ hv).le _ _ hpath
      have hmax := (foldl_max_le_iff.mp
        (Nat.le_refl ((succ u).foldl (fun m v => max m (d v)) 0))).2 _ hv
      exact Nat.succ_le_succ (Nat.le_trans hle hmax)

-- ======== existence

/-- Without cycles, the longest paths exist: by induction along the
links, which only finitely many nodes have. -/
theorem exists_isLongest (hfin : {u | succ u ≠ []}.Finite)
    (hac : Acyclic succ) (u : τ) : ∃ n, IsLongest succ u n := by
  let r : τ → τ → Prop := fun v u => ∃ n, Path succ u v (n + 1)
  have : IsStrictOrder τ r :=
    { irrefl := fun u ⟨n, hn⟩ => hac u n hn
      trans := fun u v w ⟨m, hm⟩ ⟨n, hn⟩ => ⟨n + 1 + m, hn.trans hm⟩ }
  have hstep : ∀ u, (∀ v ∈ succ u, ∃ n, IsLongest succ v n) →
      ∃ n, IsLongest succ u n := by
    intro u hu
    by_cases hne : succ u = []
    · exact ⟨0, isLongest_of_nil hne⟩
    · have hex : ∀ v, ∃ n, v ∈ succ u → IsLongest succ v n := by
        intro v
        by_cases hv : v ∈ succ u
        · obtain ⟨n, hn⟩ := hu v hv
          exact ⟨n, fun _ => hn⟩
        · exact ⟨0, fun h => absurd h hv⟩
      obtain ⟨d, hd⟩ := Classical.axiomOfChoice hex
      exact ⟨_, isLongest_of_succ hne hd⟩
  by_cases hu : succ u = []
  · exact ⟨0, isLongest_of_nil hu⟩
  · have hw : {u | succ u ≠ []}.WellFoundedOn r := hfin.wellFoundedOn
    refine hw.induction (P := fun u => ∃ n, IsLongest succ u n) hu ?_
    intro u _ ih
    refine hstep u ?_
    intro v hv
    by_cases hv0 : succ v = []
    · exact ⟨0, isLongest_of_nil hv0⟩
    · exact ih v hv0 ⟨0, .cons hv (.refl v)⟩

theorem exists_rank {nodes : List τ}
    (hac : ∀ u ∈ nodes, ∀ n, ¬ Path succ u u (n + 1)) :
    ∃ rank : τ → Nat, ∀ u ∈ nodes, ∀ v ∈ succ u, rank u < rank v := by
  classical
  -- the links that leave the nodes, and no others
  let out : τ → List τ := fun u => if u ∈ nodes then succ u else []
  have hout : ∀ u v, v ∈ out u → u ∈ nodes ∧ v ∈ succ u := by
    intro u v hv
    by_cases hu : u ∈ nodes
    · exact ⟨hu, by simpa only [out, if_pos hu] using hv⟩
    · simp only [out, if_neg hu] at hv
      cases hv
  have hpath : ∀ {u v n}, Path out u v n → Path succ u v n := by
    intro u v n h
    induction h with
    | refl u => exact .refl u
    | cons hv _ ih => exact .cons (hout _ _ hv).2 ih
  have hacyclic : Acyclic out := by
    intro u n h
    cases h with
    | cons hv h =>
      exact hac u (hout _ _ hv).1 n (.cons (hout _ _ hv).2 (hpath h))
  have hfin : {u | out u ≠ []}.Finite := by
    refine nodes.finite_toSet.subset fun u hu => ?_
    obtain ⟨v, hv⟩ := List.exists_mem_of_ne_nil _ hu
    exact (hout u v hv).1
  obtain ⟨d, hd⟩ :=
    Classical.axiomOfChoice (exists_isLongest hfin hacyclic)
  refine ⟨fun u => nodes.toFinset.sup d - d u, fun u hu v hv => ?_⟩
  have hlt : d v < d u :=
    (hd u).succ_lt (by simpa only [out, if_pos hu] using hv) (hd v)
  have hle : d u ≤ nodes.toFinset.sup d :=
    Finset.le_sup (List.mem_toFinset.mpr hu)
  show _ - d u < _ - d v
  omega

end LongestPath
