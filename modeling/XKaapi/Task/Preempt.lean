/-
The signal of a preemption.

`__kaapi_try_preempt` locks the state of the stolen task and sets SIGNALED
in the tasksteal task that `reserved` names. While the owner holds the
LOCKED bit `kaapi_taskwrite_body` cannot publish, so the signal is in time
if nothing was published when the bit was taken. The function looks at TERM
and MERGE only when `kaapi_task_trylock` has failed: a result published
after `kaapi_task_markexec` answered STEAL, and before the first trylock, is
not seen, and the signal goes to whatever the slot of the tasksteal task is
used for by then (`late_signal`).
-/
import XKaapi.Task.Exclusive

namespace XKaapi.Task

open StepMachine

/-- Neither TERM nor MERGE. -/
def Unpublished (s : St) : Prop :=
  ¬ Has s.word taskStateTerm ∧ ¬ Has s.word taskStateMerge

instance (s : St) : Decidable (Unpublished s) :=
  inferInstanceAs (Decidable (¬ Has s.word taskStateTerm
    ∧ ¬ Has s.word taskStateMerge))

/-- A signal is sent before the publication, to the task that runs the
stolen one. -/
def SignalOk (a : Act) (s : St) : Prop :=
  a = .owner → ∀ r, s.owner = .signal r →
    Unpublished s ∧ ∀ merge, s.exec r ≠ .done merge

/-- The trylock of the owner is not won after the publication. -/
def Meets (a : Act) (s : St) : Prop :=
  a = .owner → s.owner = .trylock → (taskTrylock s.word).2 = true →
    Unpublished s

instance (a : Act) (s : St) : Decidable (Meets a s) :=
  inferInstanceAs (Decidable (a = .owner → s.owner = .trylock →
    (taskTrylock s.word).2 = true → Unpublished s))

-- ======== invariant

/-- The owner is about to send a signal. -/
def OwnerPc.preempts : OwnerPc → Bool
  | .waitReserved | .signal _ => true
  | _ => false

theorem OwnerPc.locked_of_preempts {pc : OwnerPc} (h : pc.preempts = true) :
    pc.locked = true := by
  cases pc <;> first | rfl | cases h

/-- A preemption goes on before the publication. -/
def InTime (s : St) : Prop := s.owner.preempts = true → Unpublished s

section Steps

variable {s s' : St}

theorem Unpublished.of_word (h : Unpublished s) {m : StateWord}
    (hword : s'.word = s.word ||| m) (hterm : ¬ Has m taskStateTerm)
    (hmerge : ¬ Has m taskStateMerge) : Unpublished s' := by
  rw [Unpublished, hword, has_or, has_or, not_or, not_or]
  exact ⟨⟨h.1, hterm⟩, ⟨h.2, hmerge⟩⟩

theorem ownerMarked_preempts (s : St) (state : StateWord) :
    (ownerMarked s state).owner.preempts = false := by
  rw [ownerMarked_owner]
  repeat' split
  all_goals rfl

theorem InTime.ownerStep (ht : InTime s) (hm : Meets .owner s)
    (h : ownerStep s = some s') : InTime s' := by
  intro hp
  unfold Task.ownerStep at h
  cases ho : s.owner with
  | markexec =>
    simp only [ho] at h
    cases h
    rw [ownerMarked_preempts] at hp
    cases hp
  | trylock =>
    simp only [ho] at h
    cases h
    by_cases hok : (taskTrylock s.word).2 = true
    · exact (hm rfl ho hok).of_word rfl (by decide) (by decide)
    · rw [if_neg hok] at hp
      cases hp
  | waitReserved =>
    have hpub := ht (by rw [ho]; rfl)
    simp only [ho] at h
    split at h
    · cases h
      exact hpub
    · cases h
      exact hpub
  | readState =>
    simp only [ho] at h
    repeat' split at h
    all_goals
      cases h
      cases hp
  | unlock eintr =>
    simp only [ho] at h
    cases h
    cases eintr <;> cases hp
  | suspended =>
    simp only [ho] at h
    cases h
    split at hp <;> cases hp
  | running | signal r | aftersteal =>
    simp only [ho] at h
    cases h
    cases hp
  | passed =>
    simp only [ho] at h
    cases h

theorem thiefStep_word {n : Nat} (h : thiefStep n s = some s') :
    s'.owner = s.owner ∧ (s'.word = s.word
      ∨ s'.word = s.word ||| taskStateSteal) := by
  unfold thiefStep at h
  cases hn : s.thief n with
  | out | held =>
    simp only [hn] at h
    cases h
  | locking pc | unlocking pc =>
    simp only [hn] at h
    split at h <;> cases h <;> exact ⟨rfl, .inl rfl⟩
  | marksteal g =>
    simp only [hn] at h
    by_cases hwon : (taskMarksteal s.word).2 = true
    · rw [if_pos hwon] at h
      cases h
      exact ⟨rfl, .inr rfl⟩
    · rw [if_neg hwon] at h
      cases h
      exact ⟨rfl, .inr rfl⟩
  | initTask g | setReserved g | reply g =>
    simp only [hn] at h
    cases h
    exact ⟨rfl, .inl rfl⟩

theorem execStep_word {r : Nat} (hi : Inv s) (hl : s.owner.locked = true)
    (hpub : Unpublished s) (h : execStep r s = some s') : Unpublished s' := by
  have hx : s.exec r ≠ .none := by
    intro hx
    unfold execStep at h
    rw [hx] at h
    cases h
  obtain ⟨g, hs, rfl⟩ := hi.stolen_of_exec hx
  have hapart := hs.worded.apart hl
  unfold execStep at h
  cases he : s.exec g.requester with
  | none => exact absurd he hx
  | markexec merge =>
    simp only [he] at h
    split at h <;> cases h <;> exact hpub
  | running merge =>
    simp only [he] at h
    cases h
    exact hpub
  | lock merge =>
    simp only [he] at h
    cases h
    exact hpub.of_word rfl (by decide) (by decide)
  | mark merge =>
    rw [he] at hapart
    cases hapart
  | unlock merge =>
    rw [he] at hapart
    cases hapart
  | done merge =>
    simp only [he] at h
    cases h
  | refused =>
    simp only [he] at h
    cases h

theorem execStep_owner {r : Nat} (h : execStep r s = some s') :
    s'.owner = s.owner := by
  unfold execStep at h
  repeat' split at h
  all_goals first | (cases h; done) | (cases h; rfl)

theorem InTime.step {a : Act} (hi : Inv s) (ht : InTime s) (hm : Meets a s)
    (h : step a s = some s') : InTime s' := by
  cases a with
  | owner => exact ht.ownerStep hm h
  | thief n =>
    obtain ⟨howner, hword⟩ := thiefStep_word h
    intro hp
    have hpub := ht (howner ▸ hp)
    rcases hword with hword | hword
    · rw [Unpublished, hword]
      exact hpub
    · exact hpub.of_word hword (by decide) (by decide)
  | exec r =>
    intro hp
    rw [execStep_owner h] at hp
    exact execStep_word hi (OwnerPc.locked_of_preempts hp) (ht hp) h
  | preempt =>
    cases h
    exact fun hp => (ht hp).of_word rfl (by decide) (by decide)
  | enter n | look n g | leave n =>
    unfold Task.step at h
    simp only at h
    split at h
    · cases h
      exact ht
    · cases h
  | reuse r w =>
    unfold Task.step at h
    simp only at h
    split at h
    · cases h
      exact ht
    · cases h

theorem InTime.signalOk {a : Act} (hi : Inv s) (ht : InTime s) :
    SignalOk a s := by
  rintro rfl r ho
  have hpub := ht (by rw [ho]; rfl)
  refine ⟨hpub, fun merge hdone => ?_⟩
  obtain ⟨g, hs, rfl⟩ := hi.stolen_of_exec (r := r) (by rw [hdone]; simp)
  rcases hs.worded.published (by rw [hdone]; rfl) with h | h
  · exact hpub.1 h
  · exact hpub.2 h

end Steps

-- ======== results

/-- In every run in which the owner wins no trylock after the publication,
every signal is sent before it, to the task that runs the stolen one. -/
theorem signals_ok_of_meets {unstealable : Bool} {acts : List Act}
    (h : Along step Meets acts (taskPushed unstealable)) :
    Along step SignalOk acts (taskPushed unstealable) := by
  have hall : ∀ {s : St}, Inv s → InTime s → Along step Meets acts s →
      Along step SignalOk acts s := by
    clear h
    induction acts with
    | nil => exact fun _ _ _ => trivial
    | cons a acts ih =>
      intro s hi ht hm
      exact ⟨ht.signalOk hi, fun s' hstep =>
        ih (inv_step hi hstep) (ht.step hi hm.1 hstep) (hm.2 s' hstep)⟩
  exact hall (inv_taskPushed unstealable) nofun h

/-- A trylock won after the publication sends a late signal two steps
later. -/
theorem late_trylock_signals {unstealable : Bool} {as : List Act} {s : St}
    (hrun : run step as (taskPushed unstealable) = some s) (ho : s.owner = .trylock)
    (hok : (taskTrylock s.word).2 = true) (hpub : ¬ Unpublished s) :
    ∃ s', run step [.owner, .owner] s = some s' ∧ ¬ SignalOk .owner s' := by
  have hi : Inv s := inv_run (inv_taskPushed unstealable) hrun
  have hs : ∃ g, Stolen s g := by
    cases hi.phase with
    | unclaimed h =>
      rw [h.owner] at ho
      cases ho
    | ownerRan h =>
      rcases h.owner with ⟨h, -⟩ | ⟨h, -⟩ <;> rw [h] at ho <;> cases ho
    | stolen g hs => exact ⟨g, hs⟩
  obtain ⟨g, hs⟩ := hs
  have hx : s.exec g.requester ≠ .none := by
    intro hx
    refine hpub ⟨fun ht => ?_, fun hm => ?_⟩
    · have hp := (hs.worded.term.mp ht).1
      rw [hx] at hp
      cases hp
    · have hp := (hs.worded.merge.mp hm).1
      rw [hx] at hp
      cases hp
  obtain ⟨r, hr⟩ := hs.handed.reserved hx
  have h₁ : ownerStep s = some { s with
      word := s.word ||| taskStateLocked
      owner := .waitReserved } := by
    unfold ownerStep
    rw [ho]
    simp only [hok, if_true]
    rfl
  have h₂ : ownerStep { s with
      word := s.word ||| taskStateLocked
      owner := .waitReserved } = some { s with
      word := s.word ||| taskStateLocked
      owner := .signal r } := by
    unfold ownerStep
    simp only [hr]
  refine ⟨_, (run_cons_eq_some).mpr ⟨_, h₁, (run_cons_eq_some).mpr ⟨_, h₂, rfl⟩⟩,
    fun hsig => hpub ?_⟩
  obtain ⟨⟨ht, hm⟩, -⟩ := hsig rfl r rfl
  refine ⟨fun h => ht ?_, fun h => hm ?_⟩
  · exact has_or.mpr (.inl h)
  · exact has_or.mpr (.inl h)

/-- Thief 0 steals the task for requester 1, which terminates it between
the markexec of the owner and its trylock. -/
def lateRun : List Act :=
  [.enter 0, .thief 0, .look 0 ⟨1, false⟩, .thief 0, .owner, .thief 0,
   .thief 0, .thief 0, .exec 1, .exec 1, .exec 1, .exec 1, .exec 1,
   .reuse 1 taskStateExec, .owner, .owner]

theorem late_trylock_signals_lateRun :
    ∃ s, run step (lateRun.take 14) (taskPushed false) = some s
      ∧ ∃ s', run step [.owner, .owner] s = some s' ∧ ¬ SignalOk .owner s' :=
  ⟨_, rfl, late_trylock_signals
    (rfl : run step (lateRun.take 14) (taskPushed false) = some _) rfl rfl (by decide)⟩

/-- The slot of the tasksteal task is in use for a task that runs: the
signal goes to it. -/
theorem late_signal :
    ∃ s s', run step lateRun (taskPushed false) = some s
      ∧ s.owner = .signal 1 ∧ Has s.word taskStateTerm
      ∧ s.exec 1 = .done false ∧ s.tasksteal 1 = taskStateExec
      ∧ step .owner s = some s' ∧ Has (s'.tasksteal 1) taskStateSignaled :=
  ⟨_, _, rfl, rfl, by decide, rfl, rfl, rfl, by decide⟩

/-- The steal of `lateRun` with the trylock of the owner before the end of
the task. -/
def earlyRun : List Act :=
  [.enter 0, .thief 0, .look 0 ⟨1, false⟩, .thief 0, .owner, .thief 0,
   .thief 0, .thief 0, .owner, .owner, .owner, .owner]

theorem signals_ok_earlyRun :
    Along step SignalOk earlyRun (taskPushed false) :=
  signals_ok_of_meets (by decide)

end XKaapi.Task
