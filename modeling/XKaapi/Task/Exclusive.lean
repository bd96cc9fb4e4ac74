/-
Exclusive execution of a stealable task, read off its phases.

# Main results

- `canPass_of_inv`: from every reachable state the owner can be brought
  past the task, so no interleaving leaves the body unexecuted for good.
- `exclusive_execution`: the body is executed exactly once, and the
  owner passes a stolen task only after the publication, running the
  aftersteal body once for a MERGE.
-/
import XKaapi.Task.Phases

namespace XKaapi.Task

open StepMachine

-- ======== progress

/-- Some continuation brings the owner past the task. -/
def CanPass (s : St) : Prop :=
  ∃ acts s', run step acts s = some s' ∧ s'.owner = .passed

variable {s : St}

theorem CanPass.of_step {a : Act} {s' : St} (hstep : step a s = some s') (h : CanPass s') :
    CanPass s := by
  obtain ⟨acts, s'', hrun, hpass⟩ := h
  exact ⟨a :: acts, s'', run_cons_eq_some.mpr ⟨s', hstep, hrun⟩, hpass⟩

/-- How far the owner is from passing, once the result is published. -/
def OwnerPc.rank : OwnerPc → Nat
  | .passed => 0
  | .aftersteal | .running => 1
  | .markexec | .readState => 2
  | .suspended => 3
  | .unlock _ => 4
  | .signal _ => 5
  | .waitReserved => 6
  | .trylock => 7

/-- How far the execution is from its end. -/
def ExecPc.rank : ExecPc → Nat
  | .none | .refused => 0
  | .done _ => 1
  | .unlock _ => 2
  | .mark _ => 3
  | .lock _ => 4
  | .running _ => 5
  | .markexec _ => 6

section Progress

variable {s : St} {h : Handover}

theorem Worded.published {pc : ExecPc} (hw : Worded s h pc)
    (hp : pc.published = true) :
    Has s.word taskStateTerm ∨ Has s.word taskStateMerge := by
  cases hm : h.merge with
  | true => exact .inr (hw.merge.mpr ⟨hp, hm⟩)
  | false => exact .inl (hw.term.mpr ⟨hp, hm⟩)

theorem Handed.reserved (hh : Handed s h)
    (hx : s.exec h.requester ≠ .none) : ∃ r, s.reserved = some r := by
  refine Option.ne_none_iff_exists'.mp fun hr => ?_
  obtain ⟨n, hn⟩ := hh.reserved_none hr
  refine hx (hh.winner n h ?_).2
  rcases hn with hn | hn
  · rw [hn]
    rfl
  · rw [hn]
    rfl

theorem ownerMarked_owner (s : St) (state : StateWord) :
    (ownerMarked s state).owner =
      if state = 0#32 then .running
      else if Has state taskStateTerm then .passed
      else if Has state taskStateMerge then .aftersteal
      else if Has state taskStateSteal then .trylock
      else .passed := by
  unfold ownerMarked
  repeat' split
  all_goals rfl

/-- The owner gets closer, as long as it holds the LOCKED bit or the
result is published. -/
theorem Stolen.owner_closer (hs : Stolen s h) (hx : s.exec h.requester ≠ .none)
    (hgo : s.owner.locked = true ∨ (s.exec h.requester).published = true)
    (hne : s.owner ≠ .passed) :
    ∃ s', Task.ownerStep s = some s' ∧ s'.owner.rank < s.owner.rank := by
  have hw := hs.worded
  -- where the LOCKED bit is not held the result is published
  have hpub : s.owner.locked = false →
      Has s.word taskStateTerm ∨ Has s.word taskStateMerge := by
    intro hl
    refine hw.published (hgo.resolve_left ?_)
    rw [hl]
    exact Bool.false_ne_true
  cases ho : s.owner with
  | passed => exact absurd ho hne
  | running =>
    have := hw.owner
    rw [ho] at this
    exact this.elim
  | markexec =>
    refine ⟨_, ownerStep_markexec ho, ?_⟩
    have hnz : (taskMarkexec s.word).2 ≠ 0#32 :=
      fun hz => (taskMarkexec_eq_zero.mp hz).2.1 hw.steal
    rw [ownerMarked_owner, if_neg hnz]
    rcases hpub (by rw [ho]; rfl) with ht | hm
    · rw [if_pos ((has_taskMarkexec (by decide)).mpr ht)]
      decide
    · rw [if_pos ((has_taskMarkexec (by decide)).mpr hm)]
      split <;> decide
  | trylock =>
    unfold Task.ownerStep
    rw [ho]
    refine ⟨_, rfl, ?_⟩
    show OwnerPc.rank (if (taskTrylock s.word).2 then .waitReserved
      else .readState) < 7
    split <;> decide
  | readState =>
    unfold Task.ownerStep
    rw [ho]
    rcases hpub (by rw [ho]; rfl) with ht | hm
    · exact ⟨_, if_pos ht, (by decide : 0 < 2)⟩
    · by_cases ht : Has s.word taskStateTerm
      · exact ⟨_, if_pos ht, (by decide : 0 < 2)⟩
      · exact ⟨_, (if_neg ht).trans (if_pos hm),
          (by decide : 1 < 2)⟩
  | waitReserved =>
    obtain ⟨r, hr⟩ := hs.handed.reserved hx
    unfold Task.ownerStep
    rw [ho, hr]
    exact ⟨_, rfl, (by decide : 5 < 6)⟩
  | signal r =>
    unfold Task.ownerStep
    rw [ho]
    exact ⟨_, rfl, (by decide : 4 < 5)⟩
  | unlock eintr =>
    unfold Task.ownerStep
    rw [ho]
    cases eintr with
    | true => exact ⟨_, rfl, (by decide : 2 < 4)⟩
    | false => exact ⟨_, rfl, (by decide : 3 < 4)⟩
  | suspended =>
    have hready : taskIsready s.word = true :=
      taskIsready_iff.mpr (.inr (hpub (by rw [ho]; rfl)))
    unfold Task.ownerStep
    rw [ho, hready]
    exact ⟨_, rfl, (by decide : 2 < 3)⟩
  | aftersteal =>
    unfold Task.ownerStep
    rw [ho]
    exact ⟨_, rfl, (by decide : 0 < 1)⟩

theorem Stolen.exec_closer (hs : Stolen s h) (hx : s.exec h.requester ≠ .none)
    (hnd : ∀ m, s.exec h.requester ≠ .done m)
    (hfree : s.owner.locked = false) :
    ∃ s', execStep h.requester s = some s' ∧ s'.owner = s.owner
      ∧ s'.steals = s.steals ∧ s'.exec h.requester ≠ .none
      ∧ (s'.exec h.requester).rank < (s.exec h.requester).rank := by
  have hw := hs.worded
  have hcarry := hs.handed.carries
  unfold execStep
  cases he : s.exec h.requester with
  | none => exact absurd he hx
  | refused =>
    rw [he] at hcarry
    exact hcarry.elim
  | done m => exact absurd he (hnd m)
  | markexec m =>
    have hzero : (taskMarkexec (s.tasksteal h.requester)).2 = 0#32 :=
      taskMarkexec_eq_zero.mpr
        (not_has_executionState.mp (hs.handed.clean_exec m he))
    refine ⟨_, if_pos hzero, rfl, rfl, ?_⟩
    simp [St.setExec, ExecPc.rank]
  | running m =>
    refine ⟨_, rfl, rfl, rfl, ?_⟩
    simp [St.setExec, ExecPc.rank]
  | lock m =>
    have hok : (taskTrylock s.word).2 = true := by
      rw [taskTrylock_snd, hw.locked, he, hfree]
      simp [ExecPc.locked]
    refine ⟨_, rfl, rfl, rfl, ?_⟩
    rw [St.setExec_self]
    split
    next => exact ⟨fun hc => (by cases hc), (by decide : 3 < 4)⟩
    next hno => exact absurd hok hno
  | mark m =>
    refine ⟨_, rfl, rfl, rfl, ?_⟩
    simp [ExecPc.rank]
  | unlock m =>
    refine ⟨_, rfl, rfl, rfl, ?_⟩
    simp [ExecPc.rank]

/-- After the reply the owner can be brought past the task: it runs
while it holds the LOCKED bit, then the requester runs to its end, then
the owner again. -/
theorem Stolen.canPass_replied (hi : Inv s) (hs : Stolen s h)
    (hx : s.exec h.requester ≠ .none) : CanPass s := by
  induction hk : 8 * (s.exec h.requester).rank + s.owner.rank
    using Nat.strongRecOn generalizing s with
  | _ k ih =>
  subst hk
  by_cases hpass : s.owner = .passed
  · exact ⟨[], s, rfl, hpass⟩
  by_cases hgo : s.owner.locked = true ∨ ∃ m, s.exec h.requester = .done m
  · have hgo' : s.owner.locked = true
        ∨ (s.exec h.requester).published = true := by
      refine hgo.imp_right fun hm => ?_
      obtain ⟨m, hm⟩ := hm
      rw [hm]
      rfl
    obtain ⟨s', hstep, hrank⟩ := hs.owner_closer hx hgo' hpass
    obtain ⟨hs', -, -, hexec⟩ := hs.ownerStep hstep
    refine .of_step (a := .owner) hstep
      (ih _ ?_ (inv_ownerStep hi hstep) hs' (by rw [hexec]; exact hx) rfl)
    rw [hexec]
    omega
  · rw [not_or] at hgo
    obtain ⟨s', hstep, howner, hsteals, hx', hrank⟩ :=
      hs.exec_closer hx (fun m hm => hgo.2 ⟨m, hm⟩) (by simpa using hgo.1)
    have hi' := inv_execStep hi hstep
    obtain ⟨g, hs', -⟩ := hi'.stolen_of_exec hx'
    have hg : g = h := by
      have heq := hs'.handed.steals
      rw [hsteals, hs.handed.steals] at heq
      exact (List.head_eq_of_cons_eq heq).symm
    subst hg
    refine .of_step (a := .exec g.requester) hstep (ih _ ?_ hi' hs' hx' rfl)
    rw [howner]
    omega

theorem Stolen.canPass (hi : Inv s) (hs : Stolen s h) : CanPass s := by
  by_cases hx : s.exec h.requester = .none
  · obtain ⟨n, hn⟩ := hs.handed.handed hx
    have hreply : ∀ {s : St}, Inv s → s.thief n = .reply h →
        CanPass s := by
      intro s hi hn
      have hstep : thiefStep n s = some ((s.setExec h.requester
          (.markexec h.merge)).setThief n .held) := by
        unfold thiefStep
        rw [hn]
      have hi' := inv_thiefStep hi hstep
      refine .of_step (a := .thief n) hstep ?_
      have hx' : ((s.setExec h.requester (.markexec h.merge)).setThief n
          .held).exec h.requester = .markexec h.merge :=
        St.setExec_self _ _ _
      have hs := hi.stolen_of_winning (by rw [hn]; rfl)
      exact (hs.reply hi hn).canPass_replied hi' (by
        rw [hx']
        intro hc
        cases hc)
    have hset : ∀ {s : St}, Inv s → s.thief n = .setReserved h →
        CanPass s := by
      intro s hi hn
      have hstep : thiefStep n s = some ({ s with
          reserved := some h.requester }.setThief n (.reply h)) := by
        unfold thiefStep
        rw [hn]
      exact .of_step (a := .thief n) hstep
        (hreply (inv_thiefStep hi hstep) (St.setThief_self _ _ _))
    cases hpc : s.thief n with
    | reply g =>
      rw [hpc] at hn
      cases hn
      exact hreply hi hpc
    | setReserved g =>
      rw [hpc] at hn
      cases hn
      exact hset hi hpc
    | initTask g =>
      rw [hpc] at hn
      cases hn
      have hstep : thiefStep n s = some ((s.setTasksteal h.requester
          taskStateInit).setThief n (.setReserved h)) := by
        unfold thiefStep
        rw [hpc]
      exact .of_step (a := .thief n) hstep
        (hset (inv_thiefStep hi hstep) (St.setThief_self _ _ _))
    | out | held | locking _ | marksteal _ | unlocking _ =>
      rw [hpc] at hn
      cases hn
  · exact hs.canPass_replied hi hx

theorem canPass_of_inv (hi : Inv s) : CanPass s := by
  have hran : ∀ {s : St}, OwnerRan s → CanPass s := by
    intro s ho
    rcases ho.owner with ⟨hrun, -⟩ | ⟨hpass, -⟩
    · have hstep : ownerStep s = some { s with
          owner := .passed, ended := s.ended ++ [.owner] } := by
        unfold ownerStep
        rw [hrun]
      exact .of_step (a := .owner) hstep ⟨[], _, rfl, rfl⟩
    · exact ⟨[], s, rfl, hpass⟩
  cases hi.phase with
  | unclaimed hu =>
    exact .of_step (a := .owner) (ownerStep_markexec hu.owner) (hran hu.run)
  | ownerRan ho => exact hran ho
  | stolen h hs => exact hs.canPass hi

end Progress

-- ======== the whole run

/-- What holds of every run, `s` being the state reached. -/
structure Exclusive (s : St) : Prop where
  /-- At most one party called the body. -/
  once : s.begun.length ≤ 1
  /-- A call that returned is that call. -/
  ended : s.ended <+: s.begun
  /-- Past the task, the body was executed, once. -/
  executed : s.owner = .passed → s.ended.length = 1
  /-- At most one steal succeeds, and then the owner does not call the
  body. -/
  stolen : s.steals.length ≤ 1 ∧ (s.steals ≠ [] → .owner ∉ s.begun)
  /-- The owner passes a stolen task only after the publication. -/
  published : s.steals ≠ [] → s.owner = .passed →
    Has s.word taskStateTerm ∨ Has s.word taskStateMerge
  /-- The aftersteal body runs for a task published as MERGE only, and
  once. -/
  aftersteal : s.aftersteals ≤ 1
    ∧ (s.aftersteals ≠ 0 → Has s.word taskStateMerge)
    ∧ (s.owner = .passed →
        s.aftersteals = if Has s.word taskStateMerge then 1 else 0)

theorem Unclaimed.exclusive (h : Unclaimed s) : Exclusive s where
  once := by simp [h.begun]
  ended := by
    rw [h.ended]
    exact List.nil_prefix
  executed hp := by
    rw [h.owner] at hp
    cases hp
  stolen := by simp [h.quiet.steals]
  published hne := absurd h.quiet.steals hne
  aftersteal := by
    refine ⟨by simp [h.quiet.aftersteals],
      fun hne => absurd h.quiet.aftersteals hne, fun hp => ?_⟩
    rw [h.owner] at hp
    cases hp

theorem OwnerRan.exclusive (h : OwnerRan s) : Exclusive s where
  once := by simp [h.begun]
  ended := by
    rcases h.owner with ⟨-, he⟩ | ⟨-, he⟩
    · rw [he]
      exact List.nil_prefix
    · have heq : s.ended = s.begun := he.trans h.begun.symm
      exact heq ▸ List.prefix_refl s.begun
  executed hp := by
    rcases h.owner with ⟨hrun, -⟩ | ⟨-, he⟩
    · rw [hp] at hrun
      cases hrun
    · rw [he]
      rfl
  stolen := by simp [h.quiet.steals]
  published hne := absurd h.quiet.steals hne
  aftersteal := by
    refine ⟨by simp [h.quiet.aftersteals],
      fun hne => absurd h.quiet.aftersteals hne, fun _ => ?_⟩
    rw [h.quiet.aftersteals, if_neg h.merge]

theorem Stolen.exclusive {h : Handover} (hs : Stolen s h) : Exclusive s := by
  have hw := hs.worded
  have howner := hw.owner
  -- past the task, the execution is past its publication
  have hpass : s.owner = .passed →
      (s.exec h.requester).published = true
        ∧ s.aftersteals = if h.merge then 1 else 0 := by
    intro hp
    rw [hp] at howner
    exact howner
  have hmerge : (s.exec h.requester).published = true →
      (Has s.word taskStateMerge ↔ h.merge = true) := by
    intro hp
    rw [hw.merge]
    exact and_iff_right hp
  refine
    { once := ?_
      ended := ?_
      executed := fun hp => ?_
      stolen := ⟨by simp [hs.handed.steals], fun _ => ?_⟩
      published := fun _ hp => hw.published (hpass hp).1
      aftersteal := ⟨?_, fun hne => ?_, fun hp => ?_⟩ }
  · rw [hw.begun]
    cases s.exec h.requester <;> simp [ExecPc.calls]
  · rw [hw.ended, hw.begun]
    cases s.exec h.requester <;> simp [ExecPc.calls, ExecPc.returns]
  · have hpub := (hpass hp).1
    rw [hw.ended]
    cases hx : s.exec h.requester with
    | unlock _ | done _ => rfl
    | none | refused | markexec _ | running _ | lock _ | mark _ =>
      rw [hx] at hpub
      cases hpub
  · rw [hw.begun]
    cases s.exec h.requester <;> simp [ExecPc.calls]
  · cases ho : s.owner with
    | passed =>
      rw [(hpass ho).2]
      split <;> decide
    | running =>
      rw [ho] at howner
      exact howner.elim
    | aftersteal =>
      rw [ho] at howner
      rw [howner.2.2]
      decide
    | markexec | trylock | readState | waitReserved | signal _ | unlock _
    | suspended =>
      rw [ho] at howner
      have hz : s.aftersteals = 0 := howner
      rw [hz]
      decide
  · cases ho : s.owner with
    | passed =>
      obtain ⟨hpub, hk⟩ := hpass ho
      rw [hmerge hpub]
      by_contra hm
      rw [if_neg hm] at hk
      exact hne hk
    | running =>
      rw [ho] at howner
      exact howner.elim
    | aftersteal =>
      rw [ho] at howner
      exact absurd howner.2.2 hne
    | markexec | trylock | readState | waitReserved | signal _ | unlock _
    | suspended =>
      rw [ho] at howner
      exact absurd howner hne
  · obtain ⟨hpub, hk⟩ := hpass hp
    rw [hk]
    exact if_congr (hmerge hpub).symm rfl rfl

theorem Inv.exclusive (hi : Inv s) : Exclusive s := by
  cases hi.phase with
  | unclaimed h => exact h.exclusive
  | ownerRan h => exact h.exclusive
  | stolen h hs => exact hs.exclusive

/-- Exclusive execution. Whatever the interleaving of the owner, of any
number of thieves and of the executing thread, the body of the task is
called at most once, the owner has passed the task only when the body
was executed exactly once and, if it was stolen, after TERM or MERGE was
published, with one aftersteal body for a MERGE and none otherwise; and
no run is a dead end: it extends to one where the owner has passed. -/
theorem exclusive_execution {unstealable : Bool} {acts : List Act} {s : St}
    (hrun : run step acts (taskPushed unstealable) = some s) :
    Exclusive s ∧ ∃ acts' s', run step acts' s = some s'
      ∧ s'.owner = .passed := by
  have hi := inv_run (inv_taskPushed unstealable) hrun
  exact ⟨hi.exclusive, canPass_of_inv hi⟩

/-- Thief 0 steals for requester 1 a task whose result is to be merged;
the owner finds it stolen, fails to preempt it and suspends; it resumes
after the publication and runs the aftersteal body. -/
def mergeRun : List Act :=
  [.enter 0, .thief 0, .look 0 ⟨1, true⟩, .thief 0, .owner, .thief 0,
   .owner, .owner, .thief 0, .owner, .owner, .owner, .thief 0, .exec 1,
   .exec 1, .exec 1, .exec 1, .exec 1, .owner, .owner, .owner]

theorem exclusive_execution_mergeRun :
    ∃ s, run step mergeRun (taskPushed false) = some s
      ∧ s.owner = .passed ∧ s.ended = [.requester 1] ∧ s.aftersteals = 1
      ∧ Exclusive s :=
  ⟨_, rfl, rfl, rfl, rfl, (exclusive_execution
    (rfl : run step mergeRun (taskPushed false) = some _)).1⟩

end XKaapi.Task
