/-
Step machines: runs of a partial step function, and the two induction
rules every safety argument over them uses.

A machine is `step : α → σ → Option σ`, an action that is disabled in a
state answering `none`. Nothing here knows what the actions are: the
interleavings of a concurrent program are the runs of the machine whose
actions name which party moves.

- `run_preserves`: an invariant kept by one step is kept by every run.
- `run_related`: a preorder on states that one step respects is
  respected by every run (monotone quantities, frame conditions).
- `Along.exists_run`: an invariant under which some action always lowers a
  measure leads to the goal (what a party can still do).
- `Along.run_simulates`: a machine whose steps are taken where they can
  follow a total one does follow it, along the whole run.
-/
import Mathlib.Data.List.Basic

namespace StepMachine

variable {α σ : Type*} (step : α → σ → Option σ)

/-- Run a list of actions, failing on the first disabled one. -/
def run : List α → σ → Option σ
  | [], s => some s
  | a :: as, s =>
    match step a s with
    | some s' => run as s'
    | none => none

/-- Some run leads from `s₀` to `s`. -/
def Reachable (s₀ s : σ) : Prop := ∃ as, run step as s₀ = some s

variable {step} {as : List α} {s s' : σ} {P : σ → Prop} {Q : α → σ → Prop}

@[simp] theorem run_nil (s : σ) : run step [] s = some s := rfl

theorem run_cons_eq_some {a : α} {s'' : σ} :
    run step (a :: as) s = some s''
      ↔ ∃ s', step a s = some s' ∧ run step as s' = some s'' := by
  rw [run]
  cases step a s with
  | none => simp
  | some s' => simp

theorem run_append_eq_some {bs : List α} {s'' : σ} :
    run step (as ++ bs) s = some s''
      ↔ ∃ s', run step as s = some s' ∧ run step bs s' = some s'' := by
  induction as generalizing s with
  | nil => simp
  | cons a as ih =>
    rw [List.cons_append, run_cons_eq_some]
    constructor
    · intro ⟨s₁, h₁, h₂⟩
      obtain ⟨s₂, h₃, h₄⟩ := ih.mp h₂
      exact ⟨s₂, (run_cons_eq_some).mpr ⟨s₁, h₁, h₃⟩, h₄⟩
    · intro ⟨s₂, h₁, h₂⟩
      obtain ⟨s₁, h₃, h₄⟩ := (run_cons_eq_some).mp h₁
      exact ⟨s₁, h₃, ih.mpr ⟨s₂, h₄, h₂⟩⟩

theorem run_preserves (hstep : ∀ {a s s'}, P s → step a s = some s' → P s') (hs : P s)
    (hrun : run step as s = some s') : P s' := by
  induction as generalizing s with
  | nil =>
    injection hrun with h
    exact h ▸ hs
  | cons a as ih =>
    obtain ⟨s₁, h₁, h₂⟩ := (run_cons_eq_some).mp hrun
    exact ih (hstep hs h₁) h₂

theorem run_preserves_of {Q : α → Prop}
    (hstep : ∀ {a s s'}, Q a → P s → step a s = some s' → P s') (hQ : ∀ a ∈ as, Q a)
    (hs : P s) (hrun : run step as s = some s') : P s' := by
  induction as generalizing s with
  | nil =>
    injection hrun with h
    exact h ▸ hs
  | cons a as ih =>
    obtain ⟨s₁, h₁, h₂⟩ := (run_cons_eq_some).mp hrun
    exact ih (fun b hb => hQ b (List.mem_cons_of_mem a hb))
      (hstep (hQ a List.mem_cons_self) hs h₁) h₂

/-- Each action of the run meets `Q` in the state it is taken in. -/
def Along (step : α → σ → Option σ) (Q : α → σ → Prop) :
    List α → σ → Prop
  | [], _ => True
  | a :: as, s =>
    Q a s ∧ ∀ s', step a s = some s' → Along step Q as s'

instance Along.decidable {Q : α → σ → Prop} [∀ a s, Decidable (Q a s)] :
    ∀ as s, Decidable (Along step Q as s)
  | [], _ => isTrue trivial
  | a :: as, s =>
    match hs : step a s with
    | none => decidable_of_iff (Q a s)
        ⟨fun h => ⟨h, fun s' h' => by rw [hs] at h'; cases h'⟩, fun h => h.1⟩
    | some s₁ =>
      have : Decidable (Along step Q as s₁) := Along.decidable as s₁
      decidable_of_iff (Q a s ∧ Along step Q as s₁)
        ⟨fun h => ⟨h.1, fun s' h' => by
          rw [hs] at h'; exact Option.some.inj h' ▸ h.2⟩,
          fun h => ⟨h.1, h.2 s₁ hs⟩⟩

theorem Along.mono {Q' : α → σ → Prop} (hQ : ∀ a s, Q a s → Q' a s)
    (h : Along step Q as s) : Along step Q' as s := by
  induction as generalizing s with
  | nil => trivial
  | cons a as ih => exact ⟨hQ a s h.1, fun s' hs' => ih (h.2 s' hs')⟩

theorem Along.append_left {bs : List α} (h : Along step Q (as ++ bs) s) :
    Along step Q as s := by
  induction as generalizing s with
  | nil => trivial
  | cons a as ih => exact ⟨h.1, fun s' hs' => ih (h.2 s' hs')⟩

theorem along_const_iff {Q : α → Prop} (hrun : run step as s = some s') :
    Along step (fun a _ => Q a) as s ↔ ∀ a ∈ as, Q a := by
  induction as generalizing s with
  | nil => simp [Along]
  | cons a as ih =>
    obtain ⟨s₁, h₁, h₂⟩ := (run_cons_eq_some).mp hrun
    rw [List.forall_mem_cons, ← ih h₂]
    refine and_congr_right fun _ => ⟨fun h => h s₁ h₁, fun h s₂ hs₂ => ?_⟩
    cases h₁.symm.trans hs₂
    exact h

/-- A run whose actions meet a condition under which `R` is kept goes
through, and follows the total machine `f`. -/
theorem Along.run_simulates {τ : Type*} {f : α → τ → τ} {R : σ → τ → Prop}
    (hstep : ∀ {a s t}, Q a s → R s t → ∃ s', step a s = some s' ∧ R s' (f a t)) {t : τ}
    (h : Along step Q as s) (hR : R s t) :
    ∃ s', run step as s = some s'
      ∧ R s' (as.foldl (fun t a => f a t) t) := by
  induction as generalizing s t with
  | nil => exact ⟨s, rfl, hR⟩
  | cons a as ih =>
    obtain ⟨s₁, hs₁, hR₁⟩ := hstep h.1 hR
    obtain ⟨s₂, hs₂, hR₂⟩ := ih (h.2 s₁ hs₁) hR₁
    exact ⟨s₂, (run_cons_eq_some).mpr ⟨s₁, hs₁, hs₂⟩, hR₂⟩

theorem Along.run_inv (hstep : ∀ {a s s'}, Q a s → P s → step a s = some s' → P s')
    (h : Along step Q as s) (hs : P s) (hrun : run step as s = some s') : P s' := by
  induction as generalizing s with
  | nil =>
    injection hrun with h
    exact h ▸ hs
  | cons a as ih =>
    obtain ⟨s₁, h₁, h₂⟩ := (run_cons_eq_some).mp hrun
    exact ih (h.2 s₁ h₁) (hstep h.1 hs h₁) h₂

/-- Where an invariant is kept by the actions that meet a condition, and
the others end in a bad state, a run is good all along iff its actions
meet the condition. -/
theorem Along.iff_good {G : σ → Prop} (hgood : ∀ {s}, P s → G s)
    (hstep : ∀ {a s s'}, Q a s → P s → step a s = some s' → P s')
    (hbad : ∀ {a s s'}, ¬ Q a s → P s → step a s = some s' → ¬ G s') (hs : P s)
    (hrun : run step as s = some s') :
    (∀ bs, bs <+: as → ∀ t, run step bs s = some t → G t) ↔ Along step Q as s := by
  constructor
  · intro h
    induction as generalizing s with
    | nil => trivial
    | cons a as ih =>
      obtain ⟨s₁, h₁, h₂⟩ := (run_cons_eq_some).mp hrun
      have hq : Q a s := by
        by_contra hq
        refine hbad hq hs h₁ (h [a] ⟨as, rfl⟩ s₁ ?_)
        exact (run_cons_eq_some).mpr ⟨s₁, h₁, rfl⟩
      refine ⟨hq, fun s₂ hs₂ => ?_⟩
      cases h₁.symm.trans hs₂
      refine ih (hstep hq hs h₁) h₂ fun bs hbs t ht => ?_
      refine h (a :: bs) ?_ t (run_cons_eq_some.mpr ⟨s₁, h₁, ht⟩)
      exact (List.prefix_cons_inj a).mpr hbs
  · rintro h bs ⟨cs, rfl⟩ t ht
    exact hgood (h.append_left.run_inv hstep hs ht)

/-- The progress rule: where an invariant holds and the goal does not yet,
some allowed action lowers a measure; then a run reaches the goal. -/
theorem Along.exists_run (step : α → σ → Option σ) (Q : α → σ → Prop) (P G : σ → Prop)
    (μ : σ → Nat)
    (hstep : ∀ s, P s → ¬ G s → ∃ a s', Q a s ∧ step a s = some s' ∧ P s' ∧ μ s' < μ s)
    (hs : P s) : ∃ as s', Along step Q as s ∧ run step as s = some s' ∧ P s' ∧ G s' := by
  induction hm : μ s using Nat.strongRecOn generalizing s with
  | ind m ih =>
    by_cases hg : G s
    · exact ⟨[], s, trivial, rfl, hs, hg⟩
    · obtain ⟨a, s₁, hq, h₁, hP, hlt⟩ := hstep s hs hg
      obtain ⟨as, s', hal, hrun, hend⟩ := ih (μ s₁) (hm ▸ hlt) hP rfl
      refine ⟨a :: as, s', ⟨hq, fun s₂ h₂ => ?_⟩,
        (run_cons_eq_some).mpr ⟨s₁, h₁, hrun⟩, hend⟩
      rw [h₁] at h₂
      exact Option.some.inj h₂ ▸ hal

theorem run_related {R : σ → σ → Prop} (hrefl : ∀ s, R s s)
    (htrans : ∀ {s₁ s₂ s₃}, R s₁ s₂ → R s₂ s₃ → R s₁ s₃)
    (hstep : ∀ {a s s'}, step a s = some s' → R s s') (hrun : run step as s = some s') :
    R s s' := by
  induction as generalizing s with
  | nil =>
    injection hrun with h
    exact h ▸ hrefl s
  | cons a as ih =>
    obtain ⟨s₁, h₁, h₂⟩ := (run_cons_eq_some).mp hrun
    exact htrans (hstep h₁) (ih h₂)

theorem run_eq_of_inv {step' : α → σ → Option σ}
    (heq : ∀ a {s}, P s → step' a s = step a s)
    (hstep : ∀ {a s s'}, P s → step a s = some s' → P s') (hs : P s) :
    run step' as s = run step as s := by
  induction as generalizing s with
  | nil => rfl
  | cons a as ih =>
    unfold run
    rw [heq a hs]
    cases ha : step a s with
    | none => rfl
    | some s' => exact ih (hstep hs ha)

theorem Reachable.refl (s : σ) : Reachable step s s := ⟨[], rfl⟩

theorem Reachable.trans {s₁ s₂ s₃ : σ} (h₁ : Reachable step s₁ s₂)
    (h₂ : Reachable step s₂ s₃) : Reachable step s₁ s₃ := by
  obtain ⟨as, has⟩ := h₁
  obtain ⟨bs, hbs⟩ := h₂
  exact ⟨as ++ bs, (run_append_eq_some).mpr ⟨s₂, has, hbs⟩⟩

theorem Reachable.tail {s₁ s₂ s₃ : σ} {a : α} (h : Reachable step s₁ s₂)
    (hstep : step a s₂ = some s₃) : Reachable step s₁ s₃ :=
  h.trans ⟨[a], (run_cons_eq_some).mpr ⟨s₃, hstep, rfl⟩⟩

end StepMachine
