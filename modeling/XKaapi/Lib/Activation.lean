/-
Counter-driven execution of an acyclic graph.

Every node waits for `wait` signals. Executing a node takes it out of the
ready pool and signals its successors one by one; a signal counts up, and
the node it reaches becomes ready when its count is a multiple of what it
waits for. The pool is a bag: any ready node may be executed next.

`Balanced` says that `wait` is the in-degree; the two builder operations
`addNode` and `addEdge` keep it. `WellFormed` adds that edges go up along
some rank and that the initial pool consists of nodes that wait for
nothing, and the results are about every run from the initial pool:

- `inv_run`: nothing is executed twice, and no signal divides by zero;
- `pred_mem`: a node is executed after everything that signals it;
- `run_complete`: when the pool is empty, the executed nodes are all the
  nodes, provided those that wait for nothing were in the initial pool;
- `exists_drained`: every run extends to one that empties the pool.
-/
import XKaapi.Lib.Run
import Mathlib.Data.List.Perm.Subperm
import Mathlib.Data.List.Nodup

namespace Activation

open StepMachine
open Function (update update_of_ne update_self)

variable {τ : Type*} [DecidableEq τ]

-- ======== the machine

/-- Nodes, the nodes each one signals, and how many signals each awaits. -/
structure Graph (τ : Type*) where
  nodes : List τ
  succ : τ → List τ
  wait : τ → Nat

/-- The ready pool, the signals received, and the nodes executed so far,
in order. -/
structure State (τ : Type*) where
  ready : List τ
  counter : τ → Nat
  done : List τ

/-- One signal to `v`: count it, and pool the node when the count is a
multiple of `wait v`. The remainder by 0 is undefined. -/
def signal (wait : τ → Nat) (v : τ) (s : State τ) : Option (State τ) :=
  if wait v = 0 then none
  else
    let c := s.counter v + 1
    some { s with
      counter := update s.counter v c
      ready := if c % wait v = 0 then v :: s.ready else s.ready }

/-- Signals to a list of nodes, in order. -/
def signals (wait : τ → Nat) : List τ → State τ → Option (State τ)
  | [], s => some s
  | v :: vs, s => (signal wait v s).bind (signals wait vs)

/-- Move a ready node to the executed ones. -/
def State.take (s : State τ) (u : τ) : State τ :=
  { s with ready := s.ready.erase u, done := s.done ++ [u] }

/-- Execute a ready node and signal its successors. -/
def step (G : Graph τ) (u : τ) (s : State τ) : Option (State τ) :=
  if u ∈ s.ready then signals G.wait (G.succ u) (s.take u) else none

/-- Nothing executed, nothing signalled. -/
def start (pool : List τ) : State τ where
  ready := pool
  counter := fun _ => 0
  done := []

/-- The signals the execution of a list of nodes sends. -/
def Graph.sent (G : Graph τ) (l : List τ) : List τ := l.flatMap G.succ

/-- Every node waits for as many signals as edges lead to it. -/
structure Balanced (G : Graph τ) : Prop where
  nodup : G.nodes.Nodup
  wait_eq : ∀ v, G.wait v = (G.sent G.nodes).count v
  closed : ∀ u ∈ G.nodes, ∀ v ∈ G.succ u, v ∈ G.nodes

/-- What a builder of graph and pool has to establish. -/
structure WellFormed (G : Graph τ) (pool : List τ) : Prop where
  balanced : Balanced G
  ranked : ∃ rank : τ → Nat, ∀ u ∈ G.nodes, ∀ v ∈ G.succ u, rank u < rank v
  pool_nodup : pool.Nodup
  pool_nodes : ∀ v ∈ pool, v ∈ G.nodes
  pool_wait : ∀ v ∈ pool, G.wait v = 0

-- ======== builders

/-- A new node, without edges. -/
def Graph.addNode (G : Graph τ) (v : τ) : Graph τ where
  nodes := G.nodes ++ [v]
  succ := update G.succ v []
  wait := update G.wait v 0

/-- One more edge, which its target has to wait for. -/
def Graph.addEdge (G : Graph τ) (u v : τ) : Graph τ where
  nodes := G.nodes
  succ := update G.succ u (G.succ u ++ [v])
  wait := update G.wait v (G.wait v + 1)

theorem flatMap_update_of_notMem {f : τ → List τ} {l : List τ} {u : τ}
    (hu : u ∉ l) (x : List τ) :
    l.flatMap (update f u x) = l.flatMap f := by
  rw [List.flatMap_def, List.flatMap_def]
  congr 1
  refine List.map_congr_left fun w hw => ?_
  rw [update_of_ne]
  intro heq
  subst heq
  exact hu hw

theorem count_flatMap_update {f : τ → List τ} {l : List τ} {u v w : τ}
    (hl : l.Nodup) (hu : u ∈ l) :
    (l.flatMap (update f u (f u ++ [v]))).count w
      = (l.flatMap f).count w + if v = w then 1 else 0 := by
  induction l with
  | nil => cases hu
  | cons x l ih =>
    obtain ⟨hx, hl⟩ := List.nodup_cons.mp hl
    rw [List.flatMap_cons, List.flatMap_cons, List.count_append,
      List.count_append]
    by_cases hxu : x = u
    · subst hxu
      rw [update_self, flatMap_update_of_notMem hx,
        List.count_append, List.count_singleton]
      simp only [beq_iff_eq]
      omega
    · rw [update_of_ne hxu,
        ih hl ((List.mem_cons.mp hu).resolve_left (Ne.symm hxu))]
      omega

namespace Balanced

variable {G : Graph τ} {v : τ}

theorem count_zero (h : Balanced G) (hv : v ∉ G.nodes) :
    (G.sent G.nodes).count v = 0 := by
  rw [List.count_eq_zero, Graph.sent, List.mem_flatMap]
  intro ⟨u, hu, hvu⟩
  exact hv (h.closed u hu v hvu)

theorem addNode (h : Balanced G) (hv : v ∉ G.nodes) : Balanced (G.addNode v) where
  nodup := by
    refine List.nodup_append.mpr ⟨h.nodup, by simp, ?_⟩
    rintro a ha b hb rfl
    rw [List.mem_singleton] at hb
    exact hv (hb ▸ ha)
  wait_eq w := by
    have hsent : (G.addNode v).sent (G.addNode v).nodes
        = G.sent G.nodes := by
      rw [Graph.sent, Graph.addNode, List.flatMap_append,
        flatMap_update_of_notMem hv]
      simp [Graph.sent]
    rw [hsent]
    simp only [Graph.addNode]
    by_cases hw : w = v
    · subst hw
      rw [update_self, h.count_zero hv]
    · rw [update_of_ne hw, h.wait_eq]
  closed u hu w hw := by
    simp only [Graph.addNode, List.mem_append, List.mem_singleton] at hu hw ⊢
    by_cases huv : u = v
    · subst huv
      rw [update_self] at hw
      cases hw
    · rw [update_of_ne huv] at hw
      exact .inl (h.closed u (hu.resolve_right huv) w hw)

theorem addEdge (h : Balanced G) {u : τ} (hu : u ∈ G.nodes) (hv : v ∈ G.nodes) :
    Balanced (G.addEdge u v) where
  nodup := h.nodup
  wait_eq w := by
    simp only [Graph.sent, Graph.addEdge]
    rw [count_flatMap_update h.nodup hu]
    by_cases hw : w = v
    · subst hw
      rw [update_self, h.wait_eq, if_pos rfl, Graph.sent]
    · rw [update_of_ne hw, h.wait_eq, if_neg (Ne.symm hw),
        Graph.sent, Nat.add_zero]
  closed x hx w hw := by
    simp only [Graph.addEdge] at hx hw ⊢
    by_cases hxu : x = u
    · subst hxu
      rw [update_self, List.mem_append, List.mem_singleton] at hw
      rcases hw with hw | rfl
      · exact h.closed x hx w hw
      · exact hv
    · rw [update_of_ne hxu] at hw
      exact h.closed x hx w hw

end Balanced

-- ======== one signal run

/-- Signals that do not overshoot are defined; they pool exactly the
nodes whose count they complete. -/
theorem signals_spec {wait : τ → Nat} {vs : List τ} {s : State τ}
    (hle : ∀ v ∈ vs, s.counter v + vs.count v ≤ wait v) :
    ∃ s' new, signals wait vs s = some s' ∧ s'.done = s.done
      ∧ s'.ready = new ++ s.ready ∧ new.Nodup
      ∧ (∀ v, s'.counter v = s.counter v + vs.count v)
      ∧ ∀ v, v ∈ new ↔ v ∈ vs ∧ s.counter v + vs.count v = wait v := by
  induction vs generalizing s with
  | nil => exact ⟨s, [], rfl, rfl, rfl, List.nodup_nil, by simp, by simp⟩
  | cons v vs ih =>
    have hv := hle v List.mem_cons_self
    rw [List.count_cons_self] at hv
    have hw : wait v ≠ 0 := by omega
    let c := s.counter v + 1
    let s₁ : State τ := { s with
      counter := update s.counter v c
      ready := if c % wait v = 0 then v :: s.ready else s.ready }
    have hsig : signal wait v s = some s₁ := by rw [signal, if_neg hw]
    have hc : ∀ w, s₁.counter w + vs.count w
        = s.counter w + (v :: vs).count w := by
      intro w
      by_cases hwv : w = v
      · subst hwv
        simp only [s₁, c, update_self, List.count_cons_self]
        omega
      · simp [s₁, update_of_ne hwv,
          List.count_cons_of_ne (Ne.symm hwv)]
    have hle₁ : ∀ w ∈ vs, s₁.counter w + vs.count w ≤ wait w := by
      intro w hw
      rw [hc]
      exact hle w (List.mem_cons_of_mem v hw)
    obtain ⟨s', new, hrun, hdone, hready, hnodup, hcount, hmem⟩ := ih hle₁
    -- the head is pooled by its own signal iff no later one is for it
    by_cases hlast : c = wait v
    · have hnot : v ∉ vs := by
        intro hin
        have := List.count_pos_iff.mpr hin
        omega
      have hmod : c % wait v = 0 := by rw [hlast, Nat.mod_self]
      refine ⟨s', new ++ [v], ?_, hdone, ?_, ?_, ?_, ?_⟩
      · rw [signals, hsig]
        exact hrun
      · rw [hready]
        simp [s₁, hmod]
      · refine List.nodup_append.mpr ⟨hnodup, by simp, ?_⟩
        rintro a ha b hb rfl
        rw [List.mem_singleton] at hb
        exact hnot (hb ▸ ((hmem a).mp ha).1)
      · intro w
        rw [hcount, hc]
      · intro w
        rw [List.mem_append, List.mem_singleton, hmem, hc, List.mem_cons]
        constructor
        · rintro (⟨h₁, h₂⟩ | rfl)
          · exact ⟨.inr h₁, h₂⟩
          · refine ⟨.inl rfl, ?_⟩
            rw [List.count_cons_self, List.count_eq_zero.mpr hnot]
            exact hlast
        · rintro ⟨rfl | h₁, h₂⟩
          · exact .inr rfl
          · exact .inl ⟨h₁, h₂⟩
    · have hmod : c % wait v ≠ 0 := by
        have hlt : c < wait v := by omega
        rw [Nat.mod_eq_of_lt hlt]
        omega
      refine ⟨s', new, ?_, hdone, ?_, hnodup, ?_, ?_⟩
      · rw [signals, hsig]
        exact hrun
      · rw [hready]
        simp [s₁, hmod]
      · intro w
        rw [hcount, hc]
      · intro w
        rw [hmem, hc, List.mem_cons]
        constructor
        · intro ⟨h₁, h₂⟩
          exact ⟨.inr h₁, h₂⟩
        · rintro ⟨rfl | h₁, h₂⟩
          · refine ⟨?_, h₂⟩
            by_contra hnot
            rw [List.count_cons_self, List.count_eq_zero.mpr hnot] at h₂
            exact hlast h₂
          · exact ⟨h₁, h₂⟩

theorem signals_append {wait : τ → Nat} {us vs : List τ} {s : State τ} :
    signals wait (us ++ vs) s
      = (signals wait us s).bind (signals wait vs) := by
  induction us generalizing s with
  | nil => rfl
  | cons u us ih =>
    rw [List.cons_append, signals, signals]
    cases signal wait u s with
    | none => rfl
    | some s₁ => exact ih

-- ======== invariant

/-- What holds between two executions. -/
structure Inv (G : Graph τ) (pool : List τ) (s : State τ) : Prop where
  counter : ∀ v, s.counter v = (G.sent s.done).count v
  nodup : (s.done ++ s.ready).Nodup
  mem_iff : ∀ v, v ∈ s.done ++ s.ready ↔
    v ∈ pool ∨ 0 < G.wait v ∧ s.counter v = G.wait v

section WellFormed

variable {G : Graph τ} {pool : List τ} (hG : WellFormed G pool) {s : State τ} {l : List τ}
  {u : τ}
include hG

theorem inv_start : Inv G pool (start pool) where
  counter v := by simp [start, Graph.sent]
  nodup := by simpa [start] using hG.pool_nodup
  mem_iff v := by
    simp only [start, List.nil_append]
    constructor
    · exact .inl
    · rintro (h | ⟨h₁, h₂⟩)
      · exact h
      · omega

theorem mem_nodes (h : Inv G pool s) {v : τ} (hv : v ∈ s.done ++ s.ready) :
    v ∈ G.nodes := by
  rcases (h.mem_iff v).mp hv with hp | ⟨hw, -⟩
  · exact hG.pool_nodes v hp
  · rw [hG.balanced.wait_eq] at hw
    obtain ⟨u, hu, hvu⟩ := List.mem_flatMap.mp (List.count_pos_iff.mp hw)
    exact hG.balanced.closed u hu v hvu

theorem wait_split (hl : l.Nodup) (hsub : ∀ v ∈ l, v ∈ G.nodes) :
    ∃ rest, (l ++ rest).Perm G.nodes
      ∧ ∀ v, G.wait v = (G.sent l).count v + (G.sent rest).count v := by
  obtain ⟨l', hperm, hsubl⟩ := List.subperm_of_subset hl hsub
  obtain ⟨rest, hrest⟩ := hsubl.exists_perm_append
  have hall : (l ++ rest).Perm G.nodes :=
    (hperm.symm.append_right rest).trans hrest.symm
  refine ⟨rest, hall, fun v => ?_⟩
  rw [hG.balanced.wait_eq, Graph.sent, ← (hall.flatMap_right G.succ).count_eq,
    List.flatMap_append, List.count_append]
  rfl

theorem sent_le (hl : l.Nodup) (hsub : ∀ v ∈ l, v ∈ G.nodes) (v : τ) :
    (G.sent l).count v ≤ G.wait v := by
  obtain ⟨rest, -, hwait⟩ := wait_split hG hl hsub
  rw [hwait]
  exact Nat.le_add_right _ _

omit hG in
theorem take_nodup (h : Inv G pool s) (hu : u ∈ s.ready) : (s.done ++ [u]).Nodup := by
  obtain ⟨h₁, -, h₂⟩ := List.nodup_append.mp h.nodup
  refine List.nodup_append.mpr ⟨h₁, by simp, ?_⟩
  intro a ha b hb
  rw [List.mem_singleton] at hb
  exact h₂ a ha b (hb ▸ hu)

omit hG in
theorem take_sent (h : Inv G pool s) (u v : τ) :
    s.counter v + (G.succ u).count v
      = (G.sent (s.done ++ [u])).count v := by
  rw [h.counter, Graph.sent, Graph.sent, List.flatMap_append, List.count_append]
  simp

theorem counter_le (h : Inv G pool s) (hu : u ∈ s.ready) (v : τ) :
    s.counter v + (G.succ u).count v ≤ G.wait v := by
  have hnodes : ∀ w ∈ s.done ++ [u], w ∈ G.nodes := by
    intro w hw
    rcases List.mem_append.mp hw with hw | hw
    · exact mem_nodes hG h (List.mem_append_left _ hw)
    · rw [List.mem_singleton] at hw
      exact hw ▸ mem_nodes hG h (List.mem_append_right _ hu)
  rw [take_sent h u v]
  exact sent_le hG (take_nodup h hu) hnodes v

theorem step_spec (h : Inv G pool s) (hu : u ∈ s.ready) :
    ∃ s', step G u s = some s' ∧ Inv G pool s' ∧ s'.done = s.done ++ [u] := by
  have hbound := counter_le hG h hu
  have hsent := take_sent h u
  obtain ⟨s', new, hrun, hdone, hready, hnew, hcount, hmem⟩ :=
    signals_spec (s := s.take u) fun v _ => hbound v
  have hcount' : ∀ v, s'.counter v = s.counter v + (G.succ u).count v := hcount
  have hmem' : ∀ v, v ∈ new ↔ v ∈ G.succ u
      ∧ s.counter v + (G.succ u).count v = G.wait v := hmem
  -- a node completed now was not complete, hence not pooled, before
  have hfresh : ∀ v ∈ new, v ∉ s.done ++ s.ready := by
    intro v hv hin
    obtain ⟨hvu, hfull⟩ := (hmem' v).mp hv
    have hpos := List.count_pos_iff.mpr hvu
    rcases (h.mem_iff v).mp hin with hp | ⟨-, heq⟩
    · have := hG.pool_wait v hp
      omega
    · omega
  have hperm : (s.done ++ [u] ++ s.ready.erase u).Perm
      (s.done ++ s.ready) := by
    rw [List.append_assoc, List.singleton_append]
    exact (List.perm_cons_erase hu).symm.append_left s.done
  have hall : (s'.done ++ s'.ready).Perm
      (new ++ (s.done ++ s.ready)) := by
    rw [hdone, hready]
    simp only [State.take]
    calc s.done ++ [u] ++ (new ++ s.ready.erase u)
        = (s.done ++ [u] ++ new) ++ s.ready.erase u := by simp
      _ |>.Perm ((new ++ (s.done ++ [u])) ++ s.ready.erase u) :=
          (List.perm_append_comm).append_right _
      _ |>.Perm (new ++ (s.done ++ s.ready)) := by
          rw [List.append_assoc]
          exact hperm.append_left new
  refine ⟨s', ?_, ⟨?_, ?_, ?_⟩, by rw [hdone]; rfl⟩
  · rw [step, if_pos hu]
    exact hrun
  · intro v
    rw [hcount', hsent, hdone]
    rfl
  · rw [hall.nodup_iff]
    refine List.nodup_append.mpr ⟨hnew, h.nodup, ?_⟩
    rintro a ha b hb rfl
    exact hfresh a ha hb
  · intro v
    rw [hall.mem_iff, List.mem_append, h.mem_iff, hmem', hcount']
    constructor
    · rintro (⟨hvu, hfull⟩ | hp | ⟨hw, heq⟩)
      · have := List.count_pos_iff.mpr hvu
        exact .inr ⟨by omega, hfull⟩
      · exact .inl hp
      · -- already complete: no signal for it is left
        have hle := hbound v
        exact .inr ⟨hw, by omega⟩
    · rintro (hp | ⟨hw, hfull⟩)
      · exact .inr (.inl hp)
      · by_cases hvu : v ∈ G.succ u
        · exact .inl ⟨hvu, hfull⟩
        · rw [List.count_eq_zero.mpr hvu] at hfull
          exact .inr (.inr ⟨hw, hfull⟩)

omit hG in
theorem run_done {us : List τ} {s' : State τ} (hrun : run (step G) us s = some s') :
    s'.done = s.done ++ us := by
  have hsignals : ∀ (vs : List τ) (s s' : State τ),
      signals G.wait vs s = some s' → s'.done = s.done := by
    intro vs
    induction vs with
    | nil =>
      intro s s' h
      cases h
      rfl
    | cons v vs ih =>
      intro s s' h
      obtain ⟨s₁, h₁, h₂⟩ := Option.bind_eq_some_iff.mp h
      unfold signal at h₁
      split at h₁
      · cases h₁
      · cases h₁
        have hrest := ih _ _ h₂
        exact hrest
  induction us generalizing s with
  | nil =>
    cases hrun
    exact (List.append_nil _).symm
  | cons u us ih =>
    obtain ⟨s₁, h₁, h₂⟩ := (run_cons_eq_some).mp hrun
    unfold step at h₁
    split at h₁
    · rw [ih h₂, hsignals _ _ _ h₁]
      show (s.done ++ [u]) ++ us = _
      rw [List.append_assoc, List.singleton_append]
    · cases h₁

theorem inv_run {us : List τ} (hrun : run (step G) us (start pool) = some s) :
    Inv G pool s := by
  refine run_preserves ?_ (inv_start hG) hrun
  intro u s s' h hstep
  have hu : u ∈ s.ready := by
    by_contra hu
    rw [step, if_neg hu] at hstep
    cases hstep
  obtain ⟨s'', hs'', hinv, -⟩ := step_spec hG h hu
  rw [hs''] at hstep
  injection hstep with hs
  exact hs ▸ hinv

theorem pred_mem {r : List τ} {v : τ}
    (hrun : run (step G) (l ++ v :: r) (start pool) = some s) (hu : u ∈ G.nodes)
    (huv : v ∈ G.succ u) : u ∈ l := by
  obtain ⟨s₁, hl, hr⟩ := run_append_eq_some.mp hrun
  obtain ⟨s₂, hstep, -⟩ := run_cons_eq_some.mp hr
  have h := inv_run hG hl
  have hdone : s₁.done = l := run_done hl
  have hready : v ∈ s₁.ready := by
    by_contra hnot
    rw [step, if_neg hnot] at hstep
    cases hstep
  obtain ⟨hnodup, -, -⟩ := List.nodup_append.mp h.nodup
  obtain ⟨rest, hperm, hwait⟩ := wait_split hG hnodup fun w hw =>
    mem_nodes hG h (List.mem_append_left _ hw)
  rw [hdone] at hperm hwait
  -- `v` has all its signals, so none is left to come from the rest
  have hzero : v ∉ G.sent rest := by
    rw [← List.count_eq_zero]
    have hv := hwait v
    rcases (h.mem_iff v).mp (List.mem_append_right _ hready) with hp | ⟨-, hc⟩
    · rw [hG.pool_wait v hp] at hv
      omega
    · rw [h.counter, hdone] at hc
      omega
  rcases List.mem_append.mp (hperm.mem_iff.mpr hu) with hmem | hmem
  · exact hmem
  · exact absurd (List.mem_flatMap.mpr ⟨u, hmem, huv⟩) hzero

/-- With an empty pool nothing is left, if all that waits for nothing was
pooled at the start. -/
theorem run_complete (h : Inv G pool s) (hempty : s.ready = [])
    (hpool : ∀ v ∈ G.nodes, G.wait v = 0 → v ∈ pool) : s.done.Perm G.nodes := by
  obtain ⟨rank, hrank⟩ := hG.ranked
  have hmem : ∀ v, v ∈ s.done ↔
      v ∈ pool ∨ 0 < G.wait v ∧ s.counter v = G.wait v := by
    intro v
    rw [← h.mem_iff, hempty, List.append_nil]
  have hnodup : s.done.Nodup := by
    have := h.nodup
    rwa [hempty, List.append_nil] at this
  have hnodes : ∀ v ∈ s.done, v ∈ G.nodes := fun v hv =>
    mem_nodes hG h (List.mem_append_left _ hv)
  obtain ⟨rest, hperm, hwait⟩ := wait_split hG hnodup hnodes
  have hnew : ∀ u ∈ rest, u ∈ G.nodes ∧ u ∉ s.done := by
    intro u hu
    refine ⟨hperm.mem_iff.mp (List.mem_append_right _ hu), fun hd => ?_⟩
    exact (List.nodup_append.mp (hperm.nodup_iff.mpr hG.balanced.nodup)).2.2
      u hd u hu rfl
  -- by strong induction on the rank, every node has been executed
  have hall : ∀ n v, rank v = n → v ∈ G.nodes → v ∈ s.done := by
    intro n
    induction n using Nat.strongRecOn with
    | ind n ih =>
      intro v hn hv
      rw [hmem]
      by_cases hw : G.wait v = 0
      · exact .inl (hpool v hv hw)
      · refine .inr ⟨Nat.pos_of_ne_zero hw, ?_⟩
        -- a node not executed has no lower rank, so `v` awaits nothing
        -- from it
        have hzero : (G.sent rest).count v = 0 := by
          rw [List.count_eq_zero, Graph.sent, List.mem_flatMap]
          intro ⟨u, hu, hvu⟩
          obtain ⟨hun, hud⟩ := hnew u hu
          exact hud (ih (rank u) (hn ▸ hrank u hun v hvu) u rfl hun)
        rw [h.counter, hwait, hzero, Nat.add_zero]
  refine (List.perm_ext_iff_of_nodup hnodup hG.balanced.nodup).mpr fun v => ?_
  constructor
  · intro hv
    exact mem_nodes hG h (List.mem_append_left _ hv)
  · exact hall _ v rfl

theorem exists_drained (h : Inv G pool s) :
    ∃ us s', run (step G) us s = some s' ∧ s'.ready = [] := by
  -- each execution leaves fewer nodes unexecuted
  have hbound : ∀ s : State τ, Inv G pool s →
      s.done.length ≤ G.nodes.length := by
    intro s h
    obtain ⟨h₁, -, -⟩ := List.nodup_append.mp h.nodup
    exact (List.subperm_of_subset h₁ fun v hv =>
      mem_nodes hG h (List.mem_append_left _ hv)).length_le
  generalize hn : G.nodes.length - s.done.length = n
  induction n generalizing s with
  | zero =>
    cases hready : s.ready with
    | nil => exact ⟨[], s, rfl, hready⟩
    | cons u rest =>
      obtain ⟨s₁, -, h₁, hdone⟩ :=
        step_spec hG h (u := u) (by rw [hready]; exact List.mem_cons_self)
      have := hbound s₁ h₁
      rw [hdone, List.length_append, List.length_singleton] at this
      omega
  | succ n ih =>
    cases hready : s.ready with
    | nil => exact ⟨[], s, rfl, hready⟩
    | cons u rest =>
      obtain ⟨s₁, hstep, h₁, hdone⟩ :=
        step_spec hG h (u := u) (by rw [hready]; exact List.mem_cons_self)
      have hlen : G.nodes.length - s₁.done.length = n := by
        rw [hdone, List.length_append, List.length_singleton]
        omega
      obtain ⟨us, s', hrun, hempty⟩ := ih h₁ hlen
      exact ⟨u :: us, s', run_cons_eq_some.mpr ⟨s₁, hstep, hrun⟩, hempty⟩

end WellFormed

end Activation
