/-
The phases of a stealable task.

Whatever the number of thieves and the order of their steps, a task
goes through one of two lives:

- `Unclaimed` → `OwnerRan`: the owner's `kaapi_task_markexec` came first,
  and every later `kaapi_task_marksteal` sees EXEC and loses;
- `Unclaimed` → `Stolen`: one thief's `kaapi_task_marksteal` came first.
  `kaapi_task_marksteal` alone would let a second thief win, since it
  only looks at EXEC; what excludes it is the lock of the stack, which
  the winner holds from its test of INIT on, and after which no test of
  INIT succeeds.

In `Stolen` the word, the owner and the thieves are tied together by
where the execution of the tasksteal task stands: TERM or MERGE is in
the word exactly when `kaapi_taskwrite_body` has put it there, and the
LOCKED bit belongs to one of the owner and the executing thread, never
to both.

`inv_run` says that every run keeps the phases.
-/
import XKaapi.Task.Steal

namespace XKaapi.Task

open StepMachine
open Function (update update_of_ne update_self)

-- ======== positions

/-- The thief holds the lock of the stack. -/
def ThiefPc.crit : ThiefPc → Bool
  | .out | .locking _ => false
  | _ => true

/-- The steal that a thief has won and not yet answered. -/
def ThiefPc.winning : ThiefPc → Option Handover
  | .initTask h | .setReserved h | .reply h => some h
  | _ => none

theorem ThiefPc.crit_of_winning {pc : ThiefPc} {h : Handover}
    (hw : pc.winning = some h) : pc.crit = true := by
  cases pc <;> first | rfl | cases hw

/-- The owner holds the LOCKED bit. -/
def OwnerPc.locked : OwnerPc → Bool
  | .waitReserved | .signal _ | .unlock _ => true
  | _ => false

namespace ExecPc

/-- The requester holds the LOCKED bit. -/
def locked : ExecPc → Bool
  | .mark _ | .unlock _ => true
  | _ => false

/-- `kaapi_taskwrite_body` has published TERM or MERGE. -/
def published : ExecPc → Bool
  | .unlock _ | .done _ => true
  | _ => false

/-- The body calls made so far by requester `r`. -/
def calls (r : Nat) : ExecPc → List Runner
  | .none | .markexec _ | .refused => []
  | _ => [.requester r]

/-- The body calls returned so far for requester `r`. -/
def returns (r : Nat) : ExecPc → List Runner
  | .none | .markexec _ | .refused | .running _ => []
  | _ => [.requester r]

/-- The execution carries the merge flag `m` of its handover. -/
def Carries (m : Bool) : ExecPc → Prop
  | .none => True
  | .refused => False
  | .markexec m' | .running m' | .lock m' | .mark m' | .unlock m'
  | .done m' => m' = m

end ExecPc

/-- What the owner of a stolen task may have done, given whether the
publication took place. -/
def OwnerPc.Waits (published merge : Bool) (aftersteals : Nat) :
    OwnerPc → Prop
  | .running => False
  | .aftersteal => published = true ∧ merge = true ∧ aftersteals = 0
  | .passed => published = true ∧ aftersteals = if merge then 1 else 0
  | _ => aftersteals = 0

-- ======== phases

/-- No steal was won. -/
structure Quiet (s : St) : Prop where
  steals : s.steals = []
  winning : ∀ n, (s.thief n).winning = none
  exec : ∀ r, s.exec r = .none
  aftersteals : s.aftersteals = 0

/-- Nobody has marked the task. -/
structure Unclaimed (s : St) : Prop where
  quiet : Quiet s
  word : ¬ Has s.word taskExecutionState
  locked : ¬ Has s.word taskStateLocked
  reserved : s.reserved = none
  owner : s.owner = .markexec
  begun : s.begun = []
  ended : s.ended = []

/-- The owner was first. -/
structure OwnerRan (s : St) : Prop where
  quiet : Quiet s
  exec : Has s.word taskStateExec
  merge : ¬ Has s.word taskStateMerge
  begun : s.begun = [.owner]
  owner : s.owner = .running ∧ s.ended = []
    ∨ s.owner = .passed ∧ s.ended = [.owner]

/-- The thieves' side of a stolen task: who carries out the steal `h`. -/
structure Handed (s : St) (h : Handover) : Prop where
  steals : s.steals = [h]
  no_marksteal : ∀ n h', s.thief n ≠ .marksteal h'
  others : ∀ r, s.exec r ≠ .none → r = h.requester
  carries : (s.exec h.requester).Carries h.merge
  winner : ∀ n h', (s.thief n).winning = some h' →
    h' = h ∧ s.exec h.requester = .none
  handed : s.exec h.requester = .none → ∃ n, (s.thief n).winning = some h
  reserved_none : s.reserved = none →
    ∃ n, s.thief n = .initTask h ∨ s.thief n = .setReserved h
  reserved_some : ∀ r, s.reserved = some r → r = h.requester
  clean : ∀ n, s.thief n = .setReserved h ∨ s.thief n = .reply h →
    ¬ Has (s.tasksteal h.requester) taskExecutionState
  clean_exec : ∀ m, s.exec h.requester = .markexec m →
    ¬ Has (s.tasksteal h.requester) taskExecutionState

/-- The owner's side of a stolen task: what the word says, the execution
of the tasksteal task standing at `pc`. -/
structure Worded (s : St) (h : Handover) (pc : ExecPc) : Prop where
  steal : Has s.word taskStateSteal
  term : Has s.word taskStateTerm ↔ pc.published = true ∧ h.merge = false
  merge : Has s.word taskStateMerge ↔ pc.published = true ∧ h.merge = true
  locked : Has s.word taskStateLocked ↔ s.owner.locked = true ∨ pc.locked = true
  apart : s.owner.locked = true → pc.locked = false
  owner : s.owner.Waits pc.published h.merge s.aftersteals
  signal : ∀ r, s.owner = .signal r → r = h.requester
  begun : s.begun = pc.calls h.requester
  ended : s.ended = pc.returns h.requester

/-- The task was stolen once, by `h`. -/
structure Stolen (s : St) (h : Handover) : Prop where
  handed : Handed s h
  worded : Worded s h (s.exec h.requester)

/-- The phase of the task. -/
inductive Phase (s : St) : Prop
  | unclaimed (h : Unclaimed s)
  | ownerRan (h : OwnerRan s)
  | stolen (h : Handover) (hs : Stolen s h)

/-- The invariant of the whole system. -/
structure Inv (s : St) : Prop where
  lock : LockInv s.lock (fun n => (s.thief n).crit = true)
  phase : Phase s

/-- A task that was just pushed. -/
theorem inv_taskPushed (unstealable : Bool) : Inv (taskPushed unstealable) where
  lock := LockInv.init nofun
  phase := .unclaimed
    { quiet := ⟨rfl, fun _ => rfl, fun _ => rfl, rfl⟩
      word := not_has_init
      locked := not_has_init
      reserved := rfl
      owner := rfl
      begun := rfl
      ended := rfl }

-- ======== the word changes alone

/-- The bits the phases read. -/
def SameBits (w w' : StateWord) : Prop :=
  ∀ m ∈ [taskStateExec, taskStateSteal, taskStateTerm, taskStateMerge,
    taskStateLocked], (Has w' m ↔ Has w m)

namespace SameBits

variable {w w' : StateWord}

/-- The execution bits are among those kept. -/
theorem executionState (h : SameBits w w') :
    Has w' taskExecutionState ↔ Has w taskExecutionState := by
  rw [← not_iff_not, not_has_executionState, not_has_executionState,
    h taskStateExec (by decide), h taskStateSteal (by decide),
    h taskStateTerm (by decide), h taskStateMerge (by decide)]

/-- The preemption bit is not. -/
theorem markpreempted (w : StateWord) :
    SameBits w (taskMarkpreempted w) := by
  intro m hm
  show Has (w ||| taskStateSignaled) m ↔ Has w m
  have hno : ¬ Has taskStateSignaled m := by
    simp only [List.mem_cons, List.not_mem_nil, or_false] at hm
    rcases hm with rfl | rfl | rfl | rfl | rfl <;> decide
  rw [has_or, or_iff_left hno]

end SameBits

variable {s : St}

/-- The phase depends on these bits. -/
theorem Phase.of_sameBits {w : StateWord} (hp : Phase s) (hw : SameBits s.word w) :
    Phase { s with word := w } := by
  cases hp with
  | unclaimed h =>
    exact .unclaimed
      { h with
        word := fun hh => h.word (hw.executionState.mp hh)
        locked := fun hh => h.locked ((hw _ (by decide)).mp hh)
        quiet := { h.quiet with } }
  | ownerRan h =>
    exact .ownerRan
      { h with
        exec := (hw _ (by decide)).mpr h.exec
        merge := fun hh => h.merge ((hw _ (by decide)).mp hh)
        quiet := { h.quiet with } }
  | stolen h hs =>
    refine .stolen h ⟨{ hs.handed with }, ?_⟩
    exact
      { hs.worded with
        steal := (hw _ (by decide)).mpr hs.worded.steal
        term := (hw _ (by decide)).trans hs.worded.term
        merge := (hw _ (by decide)).trans hs.worded.merge
        locked := (hw _ (by decide)).trans hs.worded.locked }

-- ======== the thieves move

section Thief

variable {s : St} {n : Nat} {g : Handover}

/-- One thief at most is past its exchange. -/
theorem Inv.winner_unique (h : Inv s) {m : Nat} (hn : (s.thief n).winning = some g)
    (hm : (s.thief m).crit = true) : m = n :=
  h.lock.unique m n hm (ThiefPc.crit_of_winning hn)

/-- A thief moves before its exchange, or after its reply. -/
theorem Phase.move {l : KaapiLock} {pc : ThiefPc} (hp : Phase s)
    (hold : (s.thief n).winning = none) (hnew : pc.winning = none)
    (hmark : ∀ g, pc ≠ .marksteal g) :
    Phase ({ s with lock := l }.setThief n pc) := by
  have hquiet : Quiet s → Quiet ({ s with lock := l }.setThief n pc) := by
    intro hq
    refine { hq with winning := fun m => ?_ }
    by_cases hm : m = n
    · subst hm
      rw [St.setThief_self]
      exact hnew
    · rw [St.setThief_ne _ _ _ hm]
      exact hq.winning m
  cases hp with
  | unclaimed h => exact .unclaimed { h with quiet := hquiet h.quiet }
  | ownerRan h => exact .ownerRan { h with quiet := hquiet h.quiet }
  | stolen h hs =>
    have hh := hs.handed
    -- a thief at one of the winner's positions is not thief `n`
    have hne : ∀ {m : Nat}, (s.thief m).winning = some h → m ≠ n := by
      intro m hm heq
      rw [heq, hold] at hm
      cases hm
    have hkeep : ∀ {m : Nat}, m ≠ n →
        ({ s with lock := l }.setThief n pc).thief m = s.thief m :=
      fun hm => St.setThief_ne _ _ _ hm
    have hback : ∀ {m : Nat} {q : ThiefPc}, q.winning = some h →
        ({ s with lock := l }.setThief n pc).thief m = q →
        s.thief m = q := by
      intro m q hq hm
      by_cases hmn : m = n
      · subst hmn
        rw [St.setThief_self] at hm
        rw [hm, hq] at hnew
        cases hnew
      · rw [hkeep hmn] at hm
        exact hm
    refine .stolen h ⟨?_, { hs.worded with }⟩
    refine
      { hh with
        no_marksteal := fun m g => ?_
        winner := fun m g hm => ?_
        handed := fun hx => ?_
        reserved_none := fun hx => ?_
        clean := fun m hm => ?_ }
    · by_cases hmn : m = n
      · subst hmn
        rw [St.setThief_self]
        exact hmark g
      · rw [hkeep hmn]
        exact hh.no_marksteal m g
    · by_cases hmn : m = n
      · subst hmn
        rw [St.setThief_self, hnew] at hm
        cases hm
      · rw [hkeep hmn] at hm
        exact hh.winner m g hm
    · obtain ⟨m, hm⟩ := hh.handed hx
      exact ⟨m, by rw [hkeep (hne hm)]; exact hm⟩
    · obtain ⟨m, hm⟩ := hh.reserved_none hx
      have hmn : m ≠ n := hne (by rcases hm with hm | hm <;> rw [hm] <;> rfl)
      exact ⟨m, by rw [hkeep hmn]; exact hm⟩
    · exact hh.clean m (hm.imp (hback rfl) (hback rfl))

theorem crit_update (thief : Nat → ThiefPc) (n : Nat) (pc : ThiefPc)
    (m : Nat) : (update thief n pc m).crit = true
      ↔ m = n ∧ pc.crit = true ∨ m ≠ n ∧ (thief m).crit = true := by
  by_cases hm : m = n
  · subst hm
    simp
  · simp [hm]

variable {thief : Nat → ThiefPc} {l l' : KaapiLock} {pc : ThiefPc}

section

variable (h : LockInv l (fun m => (thief m).crit = true))
include h

theorem lockInv_stay (hsame : pc.crit = (thief n).crit) :
    LockInv l (fun m => (update thief n pc m).crit = true) := by
  refine h.congr fun m => ?_
  rw [crit_update, hsame]
  by_cases hm : m = n
  · subst hm
    simp
  · simp [hm]

theorem lockInv_acquired {lpc : LockPc} (hstep : atomicLock lpc l = (l', none))
    (hpc : pc.crit = true) : LockInv l' (fun m => (update thief n pc m).crit = true) := by
  refine h.lock_acquired hstep (t := n) fun m => ?_
  rw [crit_update, hpc]
  have hno := (h.lock_found_free hstep).2 m
  tauto

theorem lockInv_released {upc : UnlockPc} (hstep : atomicUnlock upc l = (l', none))
    (hcrit : (thief n).crit = true) (hpc : pc.crit = false) :
    LockInv l' (fun m => (update thief n pc m).crit = true) := by
  refine h.unlock_released hstep hcrit fun m => ?_
  rw [crit_update, hpc]
  simp [and_comm]

end

/-- A thief that has won leaves a stolen task. -/
theorem Inv.stolen_of_winning (h : Inv s) (hn : (s.thief n).winning = some g) :
    Stolen s g := by
  cases hp : h.phase with
  | unclaimed hu =>
    rw [hu.quiet.winning n] at hn
    cases hn
  | ownerRan ho =>
    rw [ho.quiet.winning n] at hn
    cases hn
  | stolen g' hs =>
    obtain ⟨rfl, -⟩ := hs.handed.winner n g hn
    exact hs

-- -------------------------------------------------- the winner's steps

/-- A thief wins a task that nobody has claimed. -/
theorem Phase.win (h : Inv s) (hu : Unclaimed s) (hn : s.thief n = .marksteal g) :
    Stolen ({ s with
      word := s.word ||| taskStateSteal
      steals := s.steals ++ [g] }.setThief n (.initTask g)) g := by
  have hne : ∀ {m : Nat} {pc : ThiefPc}, m ≠ n →
      ({ s with
        word := s.word ||| taskStateSteal
        steals := s.steals ++ [g] }.setThief n pc).thief m = s.thief m :=
    fun hm => St.setThief_ne _ _ _ hm
  have hw := not_has_executionState.mp hu.word
  have hx : s.exec g.requester = .none := hu.quiet.exec g.requester
  refine ⟨?_, ?_⟩
  · refine
      { steals := ?_
        no_marksteal := fun m g' => ?_
        others := fun r hr => absurd (hu.quiet.exec r) hr
        carries := ?_
        winner := fun m g' hm => ?_
        handed := fun _ => ⟨n, ?_⟩
        reserved_none := fun _ => ⟨n, .inl ?_⟩
        reserved_some := fun r hr => ?_
        clean := fun m hm => ?_
        clean_exec := fun m hm => ?_ }
    · show s.steals ++ [g] = [g]
      rw [hu.quiet.steals]
      rfl
    · by_cases hm : m = n
      · subst hm
        rw [St.setThief_self]
        intro hc
        cases hc
      · rw [hne hm]
        intro hc
        -- two thieves about to mark would both be in the lock
        exact hm (h.lock.unique m n (by rw [hc]; rfl) (by rw [hn]; rfl))
    · show (s.exec g.requester).Carries g.merge
      rw [hx]
      trivial
    · by_cases hmn : m = n
      · subst hmn
        rw [St.setThief_self] at hm
        exact ⟨(Option.some.inj hm).symm, hx⟩
      · rw [hne hmn, hu.quiet.winning m] at hm
        cases hm
    · rw [St.setThief_self]
      rfl
    · exact St.setThief_self _ _ _
    · have hr' : s.reserved = some r := hr
      rw [hu.reserved] at hr'
      cases hr'
    · by_cases hmn : m = n
      · subst hmn
        rw [St.setThief_self] at hm
        rcases hm with hm | hm <;> cases hm
      · rw [hne hmn] at hm
        have hq := hu.quiet.winning m
        rcases hm with hm | hm <;> rw [hm] at hq <;> cases hq
    · have hm' : s.exec g.requester = .markexec m := hm
      rw [hx] at hm'
      cases hm'
  · show Worded _ g (s.exec g.requester)
    rw [hx]
    exact
      { steal := has_or.mpr (.inr (by decide))
        term := by
          show Has (s.word ||| taskStateSteal) taskStateTerm ↔ _
          simp +decide [hw.2.2.1]
        merge := by
          show Has (s.word ||| taskStateSteal) taskStateMerge ↔ _
          simp +decide [hw.2.2.2]
        locked := by
          show Has (s.word ||| taskStateSteal) taskStateLocked
            ↔ s.owner.locked = true ∨ _
          rw [hu.owner]
          simp +decide [hu.locked]
        apart := fun _ => rfl
        owner := by
          show s.owner.Waits _ _ s.aftersteals
          rw [hu.owner]
          exact hu.quiet.aftersteals
        signal := by
          show ∀ r, s.owner = .signal r → _
          rw [hu.owner]
          intro r hr
          cases hr
        begun := hu.begun
        ended := hu.ended }

/-- The winner's moves up to the reply: only the winner's own position,
`reserved` and the tasksteal word change. -/
theorem Stolen.prepare {h : Handover} {q : Option Nat} {w : Nat → StateWord} (hi : Inv s)
    (hs : Stolen s h) (hn : (s.thief n).winning = some h) (hpc : pc.winning = some h)
    (hres : q = none → pc = .initTask h ∨ pc = .setReserved h)
    (hres' : ∀ r, q = some r → r = h.requester)
    (hclean : pc = .setReserved h ∨ pc = .reply h →
      ¬ Has (w h.requester) taskExecutionState) :
    Stolen ({ s with reserved := q, tasksteal := w }.setThief n pc) h := by
  have hh := hs.handed
  have hx : s.exec h.requester = .none := (hh.winner n h hn).2
  have hself : ({ s with reserved := q, tasksteal := w }.setThief n
      pc).thief n = pc := St.setThief_self _ _ _
  have hne : ∀ {m : Nat}, m ≠ n → ({ s with
      reserved := q, tasksteal := w }.setThief n pc).thief m
      = s.thief m := fun hm => St.setThief_ne _ _ _ hm
  -- nobody else is at one of the winner's positions
  have honly : ∀ {m : Nat} {g : Handover},
      (s.thief m).winning = some g → m = n :=
    fun hm => hi.winner_unique hn (ThiefPc.crit_of_winning hm)
  refine ⟨?_, { hs.worded with }⟩
  refine
    { hh with
      no_marksteal := fun m g => ?_
      winner := fun m g hm => ?_
      handed := fun _ => ⟨n, by rw [hself]; exact hpc⟩
      reserved_none := fun hr => ⟨n, by rw [hself]; exact hres hr⟩
      reserved_some := hres'
      clean := fun m hm => ?_
      clean_exec := fun m hm => ?_ }
  · by_cases hmn : m = n
    · subst hmn
      rw [hself]
      intro hc
      rw [hc] at hpc
      cases hpc
    · rw [hne hmn]
      exact hh.no_marksteal m g
  · by_cases hmn : m = n
    · subst hmn
      rw [hself, hpc] at hm
      exact ⟨(Option.some.inj hm).symm, hx⟩
    · rw [hne hmn] at hm
      exact absurd (honly hm) hmn
  · by_cases hmn : m = n
    · subst hmn
      rw [hself] at hm
      exact hclean hm
    · rw [hne hmn] at hm
      refine absurd (honly (g := h) ?_) hmn
      rcases hm with hm | hm <;> rw [hm] <;> rfl
  · have hm' : s.exec h.requester = .markexec m := hm
    rw [hx] at hm'
    cases hm'

/-- The thief replies. -/
theorem Stolen.reply {h : Handover} (hi : Inv s) (hs : Stolen s h)
    (hn : s.thief n = .reply h) :
    Stolen ((s.setExec h.requester (.markexec h.merge)).setThief n .held)
      h := by
  have hh := hs.handed
  have hwin : (s.thief n).winning = some h := by rw [hn]; rfl
  have hx : s.exec h.requester = .none := (hh.winner n h hwin).2
  have hself : ((s.setExec h.requester (.markexec h.merge)).setThief n
      .held).thief n = .held := St.setThief_self _ _ _
  have hne : ∀ {m : Nat}, m ≠ n →
      ((s.setExec h.requester (.markexec h.merge)).setThief n
        .held).thief m = s.thief m := fun hm => St.setThief_ne _ _ _ hm
  have hx' : ((s.setExec h.requester (.markexec h.merge)).setThief n
      .held).exec h.requester = .markexec h.merge := St.setExec_self _ _ _
  have honly : ∀ {m : Nat} {g : Handover},
      (s.thief m).winning = some g → m = n :=
    fun hm => hi.winner_unique hwin (ThiefPc.crit_of_winning hm)
  refine ⟨?_, ?_⟩
  · refine
      { hh with
        no_marksteal := fun m g => ?_
        others := fun r hr => ?_
        carries := by rw [hx']; rfl
        winner := fun m g hm => ?_
        handed := fun hc => by rw [hx'] at hc; cases hc
        reserved_none := fun hr => ?_
        clean := fun m hm => ?_
        clean_exec := fun _ _ => hh.clean n (.inr hn) }
    · by_cases hmn : m = n
      · subst hmn
        rw [hself]
        intro hc
        cases hc
      · rw [hne hmn]
        exact hh.no_marksteal m g
    · by_contra hrne
      have hr' : (s.setExec h.requester (.markexec h.merge)).exec r
          ≠ .none := hr
      rw [St.setExec_ne _ _ _ hrne] at hr'
      exact hrne (hh.others r hr')
    · by_cases hmn : m = n
      · subst hmn
        rw [hself] at hm
        cases hm
      · rw [hne hmn] at hm
        exact absurd (honly hm) hmn
    · -- `reserved` was set before the reply
      obtain ⟨m, hm⟩ := hh.reserved_none hr
      have hmn : m = n :=
        honly (g := h) (by rcases hm with hm | hm <;> rw [hm] <;> rfl)
      subst hmn
      rw [hn] at hm
      rcases hm with hm | hm <;> cases hm
    · by_cases hmn : m = n
      · subst hmn
        rw [hself] at hm
        rcases hm with hm | hm <;> cases hm
      · rw [hne hmn] at hm
        refine absurd (honly (g := h) ?_) hmn
        rcases hm with hm | hm <;> rw [hm] <;> rfl
  · rw [hx']
    have hw := hs.worded
    rw [hx] at hw
    exact { hw with apart := fun _ => rfl }

/-- The exchange of a thief, won or lost. -/
theorem inv_marksteal (h : Inv s) (hn : s.thief n = .marksteal g) :
    Inv (if (taskMarksteal s.word).2 then
        { s with
          word := s.word ||| taskStateSteal
          steals := s.steals ++ [g] }.setThief n (.initTask g)
      else { s with
        word := s.word ||| taskStateSteal }.setThief n .held) := by
  have hcrit : (s.thief n).crit = true := by rw [hn]; rfl
  have hold : (s.thief n).winning = none := by rw [hn]; rfl
  split
  next hwon =>
    refine ⟨lockInv_stay h.lock hcrit.symm, ?_⟩
    -- only an unclaimed task lacks EXEC while a thief is about to mark
    cases hp : h.phase with
    | unclaimed hu => exact .stolen g (Phase.win h hu hn)
    | ownerRan ho => exact absurd ho.exec (taskMarksteal_snd.mp hwon)
    | stolen g' hs => exact absurd hn (hs.handed.no_marksteal n g)
  next hlost =>
    refine ⟨lockInv_stay h.lock hcrit.symm, ?_⟩
    cases hp : h.phase with
    | unclaimed hu =>
      refine absurd (taskMarksteal_snd.mpr ?_) hlost
      exact (not_has_executionState.mp hu.word).1
    | ownerRan ho =>
      have ho' : OwnerRan { s with word := s.word ||| taskStateSteal } :=
        { ho with
          quiet := { ho.quiet with }
          exec := has_or.mpr (.inl ho.exec)
          merge := by
            rw [has_or, not_or]
            exact ⟨ho.merge, by decide⟩ }
      exact (Phase.ownerRan ho').move (l := s.lock) hold rfl nofun
    | stolen g' hs => exact absurd hn (hs.handed.no_marksteal n g)

/-- Every step of a thief keeps the invariant. -/
theorem inv_thiefStep {s' : St} (h : Inv s)
    (hstep : thiefStep n s = some s') : Inv s' := by
  unfold thiefStep at hstep
  cases hn : s.thief n with
  | out => simp [hn] at hstep
  | held => simp [hn] at hstep
  | locking lpc =>
    have hold : (s.thief n).winning = none := by rw [hn]; rfl
    simp only [hn] at hstep
    split at hstep
    next l lpc' hl =>
      cases hstep
      refine ⟨lockInv_stay (h.lock.lock_pending hl) (by rw [hn]; rfl), ?_⟩
      exact h.phase.move hold rfl nofun
    next l hl =>
      cases hstep
      refine ⟨lockInv_acquired h.lock hl rfl, ?_⟩
      exact h.phase.move hold rfl nofun
  | marksteal g =>
    have hcases := inv_marksteal h hn
    simp only [hn] at hstep
    by_cases hwon : (taskMarksteal s.word).2 = true
    · rw [if_pos hwon] at hstep hcases
      injection hstep with hs'
      exact hs' ▸ hcases
    · rw [if_neg hwon] at hstep hcases
      injection hstep with hs'
      exact hs' ▸ hcases
  | initTask g =>
    have hwin : (s.thief n).winning = some g := by rw [hn]; rfl
    have hcrit := ThiefPc.crit_of_winning hwin
    have hs := h.stolen_of_winning hwin
    simp only [hn] at hstep
    cases hstep
    refine ⟨lockInv_stay h.lock hcrit.symm, ?_⟩
    refine .stolen g (hs.prepare h (q := s.reserved) hwin rfl
      (fun _ => .inr rfl) hs.handed.reserved_some fun _ => ?_)
    rw [update_self]
    exact not_has_init
  | setReserved g =>
    have hwin : (s.thief n).winning = some g := by rw [hn]; rfl
    have hcrit := ThiefPc.crit_of_winning hwin
    have hs := h.stolen_of_winning hwin
    simp only [hn] at hstep
    cases hstep
    refine ⟨lockInv_stay h.lock hcrit.symm, ?_⟩
    exact .stolen g (hs.prepare h (w := s.tasksteal) hwin rfl
      nofun (fun r hr => (Option.some.inj hr).symm)
      fun _ => hs.handed.clean n (.inl hn))
  | reply g =>
    have hwin : (s.thief n).winning = some g := by rw [hn]; rfl
    have hcrit := ThiefPc.crit_of_winning hwin
    simp only [hn] at hstep
    cases hstep
    refine ⟨lockInv_stay h.lock hcrit.symm, ?_⟩
    exact .stolen g ((h.stolen_of_winning hwin).reply h hn)
  | unlocking upc =>
    have hold : (s.thief n).winning = none := by rw [hn]; rfl
    simp only [hn] at hstep
    split at hstep
    next l upc' hl =>
      cases hstep
      refine ⟨lockInv_stay (h.lock.unlock_pending hl) (by rw [hn]; rfl), ?_⟩
      exact h.phase.move hold rfl nofun
    next l hl =>
      cases hstep
      refine ⟨lockInv_released h.lock hl (by rw [hn]; rfl) rfl, ?_⟩
      exact h.phase.move hold rfl nofun

/-- A visit of the task by a scan keeps the invariant: a thief that goes
on to mark has seen INIT, so the task is unclaimed. -/
theorem inv_look (h : Inv s) (hn : s.thief n = .held) :
    Inv (s.setThief n (if taskIsstealable s.word s.unstealable
      then .marksteal g else .held)) := by
  refine ⟨lockInv_stay h.lock ?_, ?_⟩
  · rw [hn]
    split <;> rfl
  · have hold : (s.thief n).winning = none := by rw [hn]; rfl
    split
    next hok =>
      obtain ⟨hinit, -⟩ := taskIsstealable_iff.mp hok
      cases hp : h.phase with
      | unclaimed hu =>
        refine .unclaimed { hu with quiet := { hu.quiet with winning := ?_ } }
        intro m
        by_cases hm : m = n
        · subst hm
          rw [St.setThief_self]
          rfl
        · rw [St.setThief_ne _ _ _ hm]
          exact hu.quiet.winning m
      | ownerRan ho =>
        have := ho.exec
        rw [hinit] at this
        exact absurd this not_has_init
      | stolen g' hs =>
        have := hs.worded.steal
        rw [hinit] at this
        exact absurd this not_has_init
    next =>
      exact h.phase.move (l := s.lock) hold rfl nofun

end Thief

-- ======== the requester moves

section Exec

variable {s s' : St} {r : Nat} {h : Handover}

/-- A task that a requester executes was stolen for it. -/
theorem Inv.stolen_of_exec (h : Inv s) (hx : s.exec r ≠ .none) :
    ∃ g, Stolen s g ∧ r = g.requester := by
  cases h.phase with
  | unclaimed hu => exact absurd (hu.quiet.exec r) hx
  | ownerRan ho => exact absurd (ho.quiet.exec r) hx
  | stolen g hs => exact ⟨g, hs, hs.handed.others r hx⟩

theorem Handed.setExec {pc : ExecPc} (hh : Handed s h) (hx : s.exec h.requester ≠ .none)
    (hexec : s'.exec = update s.exec h.requester pc) (hpc : pc.Carries h.merge)
    (hne : pc ≠ .none) (hmark : ∀ m, pc ≠ .markexec m) (hthief : s'.thief = s.thief)
    (hsteals : s'.steals = s.steals) (hreserved : s'.reserved = s.reserved) :
    Handed s' h := by
  have hx' : s'.exec h.requester = pc := by rw [hexec, update_self]
  have hnowin : ∀ {m : Nat}, (s.thief m).winning ≠ some h :=
    fun hm => hx (hh.winner _ h hm).2
  refine
    { steals := by rw [hsteals]; exact hh.steals
      no_marksteal := by rw [hthief]; exact hh.no_marksteal
      others := fun r hr => ?_
      carries := by rw [hx']; exact hpc
      winner := fun m g hm => ?_
      handed := fun hc => absurd (hx'.symm.trans hc) hne
      reserved_none := by rw [hreserved, hthief]; exact hh.reserved_none
      reserved_some := by rw [hreserved]; exact hh.reserved_some
      clean := fun m hm => ?_
      clean_exec := fun m hm => absurd (hx'.symm.trans hm) (hmark m) }
  · by_contra hrne
    rw [hexec, update_of_ne hrne] at hr
    exact hrne (hh.others r hr)
  · rw [hthief] at hm
    exact absurd (hh.winner m g hm).2 hx
  · rw [hthief] at hm
    refine absurd ?_ (hnowin (m := m))
    rcases hm with hm | hm <;> rw [hm] <;> rfl

theorem OwnerPc.Waits.publish {pc : OwnerPc} {merge : Bool} {k : Nat}
    (h : pc.Waits false merge k) : pc.Waits true merge k := by
  cases pc with
  | aftersteal => cases h.1
  | passed => cases h.1
  | running => exact h
  | markexec | trylock | readState | waitReserved | signal _ | unlock _
  | suspended => exact h

theorem Worded.lock {m : Bool} (hw : Worded s h (.lock m)) :
    Worded { s with word := (taskTrylock s.word).1 } h
      (if (taskTrylock s.word).2 then .mark m else .lock m) := by
  have hbits : ∀ {b : StateWord}, ¬ Has taskStateLocked b →
      (Has (s.word ||| taskStateLocked) b ↔ Has s.word b) :=
    fun hb => by rw [has_or, or_iff_left hb]
  have hterm := (hbits (by decide)).trans hw.term
  have hmerge := (hbits (by decide)).trans hw.merge
  have hsteal := (hbits (by decide)).mpr hw.steal
  have hset : Has (s.word ||| taskStateLocked) taskStateLocked :=
    has_or.mpr (.inr (by decide))
  split
  next hok =>
    have hfree := taskTrylock_snd.mp hok
    have hno : s.owner.locked = false := by
      rw [hw.locked, not_or] at hfree
      simpa using hfree.1
    exact
      { hw with
        steal := hsteal
        term := hterm
        merge := hmerge
        locked := ⟨fun _ => .inr rfl, fun _ => hset⟩
        apart := fun hc => by rw [hno] at hc; cases hc }
  next hfail =>
    have htaken : Has s.word taskStateLocked :=
      not_not.mp fun hc => hfail (taskTrylock_snd.mpr hc)
    exact
      { hw with
        steal := hsteal
        term := hterm
        merge := hmerge
        locked := ⟨fun _ => hw.locked.mp htaken, fun _ => hset⟩ }

theorem Worded.publish (hw : Worded s h (.mark h.merge)) :
    Worded { s with
      word := if h.merge then taskMarkaftersteal s.word
        else taskMarkterm s.word } h (.unlock h.merge) := by
  have hno : ¬ Has s.word taskStateTerm ∧ ¬ Has s.word taskStateMerge := by
    rw [hw.term, hw.merge]
    simp [ExecPc.published]
  obtain ⟨r, merge⟩ := h
  cases merge with
  | true =>
    exact
      { hw with
        steal := has_or.mpr (.inl hw.steal)
        term := by
          show Has (s.word ||| taskStateMerge) taskStateTerm ↔ _
          simp +decide [hno.1]
        merge := by
          show Has (s.word ||| taskStateMerge) taskStateMerge ↔ _
          simp +decide
        locked := by
          show Has (s.word ||| taskStateMerge) taskStateLocked ↔ _
          rw [has_or, or_iff_left (by decide)]
          exact hw.locked
        owner := hw.owner.publish }
  | false =>
    exact
      { hw with
        steal := has_or.mpr (.inl hw.steal)
        term := by
          show Has (s.word ||| taskStateTerm) taskStateTerm ↔ _
          simp +decide
        merge := by
          show Has (s.word ||| taskStateTerm) taskStateMerge ↔ _
          simp +decide [hno.2]
        locked := by
          show Has (s.word ||| taskStateTerm) taskStateLocked ↔ _
          rw [has_or, or_iff_left (by decide)]
          exact hw.locked
        owner := hw.owner.publish }

theorem Worded.unlock {m : Bool} (hw : Worded s h (.unlock m)) :
    Worded { s with word := taskUnlock s.word } h (.done m) :=
  { hw with
    steal := (has_unlock (by decide)).mpr hw.steal
    term := (has_unlock (by decide)).trans hw.term
    merge := (has_unlock (by decide)).trans hw.merge
    locked := by
      -- the LOCKED bit was the requester's
      have hno : ¬ s.owner.locked = true := fun hc => by cases hw.apart hc
      simp [hno, ExecPc.locked]
    apart := fun _ => rfl }

/-- Every step of a requester keeps the invariant. -/
theorem inv_execStep (h : Inv s) (hstep : execStep r s = some s') :
    Inv s' := by
  unfold execStep at hstep
  have hx0 : s.exec r ≠ .none := by
    intro hc
    rw [hc] at hstep
    cases hstep
  obtain ⟨g, hs, rfl⟩ := h.stolen_of_exec hx0
  have hh := hs.handed
  have hw := hs.worded
  have hcarry := hh.carries
  cases hx : s.exec g.requester with
  | none => exact absurd hx hx0
  | refused =>
    rw [hx] at hcarry
    exact hcarry.elim
  | markexec m =>
    rw [hx] at hcarry hw
    simp only [hx] at hstep
    have hzero : (taskMarkexec (s.tasksteal g.requester)).2 = 0#32 :=
      taskMarkexec_eq_zero.mpr (not_has_executionState.mp (hh.clean_exec m hx))
    rw [if_pos hzero] at hstep
    cases hstep
    refine ⟨h.lock, .stolen g ⟨?_, ?_⟩⟩
    · exact hh.setExec hx0 rfl hcarry nofun
        nofun rfl rfl rfl
    · show Worded _ g (update s.exec g.requester _ g.requester)
      rw [update_self]
      exact { hw with begun := congrArg (· ++ [_]) hw.begun }
  | running m =>
    rw [hx] at hcarry hw
    simp only [hx] at hstep
    cases hstep
    refine ⟨h.lock, .stolen g ⟨?_, ?_⟩⟩
    · exact hh.setExec hx0 rfl hcarry nofun
        nofun rfl rfl rfl
    · show Worded _ g (update s.exec g.requester _ g.requester)
      rw [update_self]
      exact { hw with ended := congrArg (· ++ [_]) hw.ended }
  | lock m =>
    rw [hx] at hcarry hw
    simp only [hx] at hstep
    cases hstep
    refine ⟨h.lock, .stolen g ⟨?_, ?_⟩⟩
    · refine hh.setExec hx0 rfl ?_ ?_ ?_ rfl rfl rfl
      · split <;> exact hcarry
      · split <;> (intro hc; cases hc)
      · intro _
        split <;> (intro hc; cases hc)
    · show Worded _ g (update s.exec g.requester _ g.requester)
      rw [update_self]
      exact { hw.lock with }
  | mark m =>
    rw [hx] at hcarry hw
    cases hcarry
    simp only [hx] at hstep
    cases hstep
    refine ⟨h.lock, .stolen g ⟨?_, ?_⟩⟩
    · exact hh.setExec hx0 rfl rfl nofun
        nofun rfl rfl rfl
    · show Worded _ g (update s.exec g.requester _ g.requester)
      rw [update_self]
      exact { hw.publish with }
  | unlock m =>
    rw [hx] at hcarry hw
    simp only [hx] at hstep
    cases hstep
    refine ⟨h.lock, .stolen g ⟨?_, ?_⟩⟩
    · exact hh.setExec hx0 rfl hcarry nofun
        nofun rfl rfl rfl
    · show Worded _ g (update s.exec g.requester _ g.requester)
      rw [update_self]
      exact { hw.unlock with }
  | done m => simp [hx] at hstep

end Exec

-- ======== the owner moves

section Owner

variable {s s' : St} {h : Handover}

/-- The owner runs the task itself. -/
theorem Unclaimed.run (hu : Unclaimed s) :
    OwnerRan (ownerMarked { s with word := (taskMarkexec s.word).1 }
      (taskMarkexec s.word).2) := by
  have hbits := not_has_executionState.mp hu.word
  unfold ownerMarked
  rw [if_pos (taskMarkexec_eq_zero.mpr hbits)]
  exact
    { quiet := { hu.quiet with }
      exec := has_or.mpr (.inr (by decide))
      merge := by
        show ¬ Has (s.word ||| taskStateExec) taskStateMerge
        rw [has_or, not_or]
        exact ⟨hbits.2.2.2, by decide⟩
      begun := congrArg (· ++ [Runner.owner]) hu.begun
      owner := .inl ⟨rfl, hu.ended⟩ }

namespace Worded

variable {h : Handover} {pc : ExecPc}

section

variable (hw : Worded s h pc)
include hw

theorem move {w : StateWord} {o : OwnerPc} {k : Nat} (hold : s.owner.locked = false)
    (hnew : o.locked = false) (hwaits : o.Waits pc.published h.merge k)
    (hbits : ∀ m ∈ [taskStateSteal, taskStateTerm, taskStateMerge,
      taskStateLocked], (Has w m ↔ Has s.word m)) :
    Worded { s with word := w, owner := o, aftersteals := k } h pc :=
  { hw with
    steal := (hbits _ (by decide)).mpr hw.steal
    term := (hbits _ (by decide)).trans hw.term
    merge := (hbits _ (by decide)).trans hw.merge
    locked := by
      refine (hbits _ (by decide)).trans (hw.locked.trans ?_)
      show s.owner.locked = true ∨ _ ↔ o.locked = true ∨ _
      rw [hold, hnew]
    apart := fun hc => by
      have hc' : o.locked = true := hc
      rw [hnew] at hc'
      cases hc'
    owner := hwaits
    signal := fun r hr => by
      have hr' : o = .signal r := hr
      rw [hr'] at hnew
      cases hnew }

/-- The owner passes a terminated task. -/
theorem waits_term (hk : s.aftersteals = 0) (ht : Has s.word taskStateTerm) :
    OwnerPc.passed.Waits pc.published h.merge s.aftersteals := by
  obtain ⟨hp, hm⟩ := hw.term.mp ht
  exact ⟨hp, by rw [hm]; exact hk⟩

/-- The owner merges a task that is to be merged. -/
theorem waits_merge (hk : s.aftersteals = 0) (hm : Has s.word taskStateMerge) :
    OwnerPc.aftersteal.Waits pc.published h.merge s.aftersteals := by
  obtain ⟨hp, hm'⟩ := hw.merge.mp hm
  exact ⟨hp, hm', hk⟩

/-- The owner marks the task, which was stolen. -/
theorem marked (ho : s.owner = .markexec) :
    Worded (ownerMarked { s with word := (taskMarkexec s.word).1 }
      (taskMarkexec s.word).2) h pc := by
  have hk : s.aftersteals = 0 := by
    have := hw.owner
    rw [ho] at this
    exact this
  have hold : s.owner.locked = false := by rw [ho]; rfl
  have hbits : ∀ m ∈ [taskStateSteal, taskStateTerm, taskStateMerge,
      taskStateLocked], (Has (taskMarkexec s.word).1 m ↔ Has s.word m) := by
    intro m hm
    have hno : ¬ Has taskStateExec m := by
      simp only [List.mem_cons, List.not_mem_nil, or_false] at hm
      rcases hm with rfl | rfl | rfl | rfl <;> decide
    rw [taskMarkexec_fst, has_or, or_iff_left hno]
  have hne : (taskMarkexec s.word).2 ≠ 0#32 :=
    fun hz => (taskMarkexec_eq_zero.mp hz).2.1 hw.steal
  unfold ownerMarked
  rw [if_neg hne]
  split
  next ht =>
    rw [has_taskMarkexec (by decide)] at ht
    exact hw.move hold rfl (hw.waits_term hk ht) hbits
  next =>
    split
    next hm =>
      rw [has_taskMarkexec (by decide)] at hm
      exact hw.move hold rfl (hw.waits_merge hk hm) hbits
    next =>
      rw [if_pos ((has_taskMarkexec (by decide)).mpr hw.steal)]
      exact hw.move hold rfl hk hbits

/-- `__kaapi_try_preempt` tries the LOCKED bit. -/
theorem trylock (ho : s.owner = .trylock) :
    Worded { s with
      word := (taskTrylock s.word).1
      owner := if (taskTrylock s.word).2 then .waitReserved
        else .readState } h pc := by
  have hk : s.aftersteals = 0 := by
    have := hw.owner
    rw [ho] at this
    exact this
  have hkeep : ∀ {m : StateWord}, ¬ Has taskStateLocked m →
      (Has (s.word ||| taskStateLocked) m ↔ Has s.word m) :=
    fun hb => by rw [has_or, or_iff_left hb]
  split
  next hok =>
    have hfree := taskTrylock_snd.mp hok
    rw [hw.locked, not_or] at hfree
    exact
      { hw with
        steal := (hkeep (by decide)).mpr hw.steal
        term := (hkeep (by decide)).trans hw.term
        merge := (hkeep (by decide)).trans hw.merge
        locked := ⟨fun _ => .inl rfl, fun _ => has_or.mpr (.inr (by decide))⟩
        apart := fun _ => by simpa using hfree.2
        owner := hk
        signal := fun r hr => by cases hr }
  next hfail =>
    have htaken : Has s.word taskStateLocked :=
      not_not.mp fun hc => hfail (taskTrylock_snd.mpr hc)
    refine hw.move (by rw [ho]; rfl) rfl hk fun m hm => ?_
    rw [taskTrylock_fst]
    by_cases hl : Has taskStateLocked m
    · -- the only bit of the list that the operation may set was set
      have : m = taskStateLocked := by
        simp only [List.mem_cons, List.not_mem_nil, or_false] at hm
        rcases hm with rfl | rfl | rfl | rfl <;> first | rfl | (revert hl; decide)
      subst this
      exact iff_of_true (has_or.mpr (.inr hl)) htaken
    · exact hkeep hl

theorem unlockOwner {o : OwnerPc} {eintr : Bool} (ho : s.owner = .unlock eintr)
    (ho' : o = .markexec ∨ o = .suspended) :
    Worded { s with word := taskUnlock s.word, owner := o } h pc := by
  have hk : s.aftersteals = 0 := by
    have := hw.owner
    rw [ho] at this
    exact this
  have hfree := hw.apart (by rw [ho]; rfl)
  have hnew : o.locked = false := by
    rcases ho' with rfl | rfl <;> rfl
  exact
    { hw with
      steal := (has_unlock (by decide)).mpr hw.steal
      term := (has_unlock (by decide)).trans hw.term
      merge := (has_unlock (by decide)).trans hw.merge
      locked := by simp [hnew, hfree]
      apart := fun _ => hfree
      owner := by rcases ho' with rfl | rfl <;> exact hk
      signal := fun r hr => by
        rcases ho' with rfl | rfl <;> cases hr }

end

end Worded

theorem Handed.signal {r : Nat} {o : OwnerPc} (hh : Handed s h) (hr : r = h.requester) :
    Handed { s.setTasksteal r (s.tasksteal r ||| taskStateSignaled) with
      owner := o } h := by
  subst hr
  have hkeep : ¬ Has (s.tasksteal h.requester) taskExecutionState →
      ¬ Has (update s.tasksteal h.requester
        (s.tasksteal h.requester ||| taskStateSignaled) h.requester)
        taskExecutionState := by
    intro hc
    rw [update_self, has_or, not_or]
    exact ⟨hc, by decide⟩
  exact
    { hh with
      clean := fun m hm => hkeep (hh.clean m hm)
      clean_exec := fun m hm => hkeep (hh.clean_exec m hm) }

theorem Handed.marked {w state : StateWord} (hh : Handed s h) :
    Handed (ownerMarked { s with word := w } state) h
      ∧ (ownerMarked { s with word := w } state).exec = s.exec
      ∧ (ownerMarked { s with word := w } state).thief = s.thief
      ∧ (ownerMarked { s with word := w } state).lock = s.lock := by
  unfold ownerMarked
  repeat' split
  all_goals exact ⟨{ hh with }, rfl, rfl, rfl⟩

/-- What its exchange does. -/
theorem ownerStep_markexec (ho : s.owner = .markexec) : ownerStep s
    = some (ownerMarked { s with word := (taskMarkexec s.word).1 }
      (taskMarkexec s.word).2) := by
  unfold ownerStep
  rw [ho]

/-- A stolen task stays stolen under the owner's steps. -/
theorem Stolen.ownerStep (hs : Stolen s h) (hstep : ownerStep s = some s') :
    Stolen s' h ∧ s'.thief = s.thief ∧ s'.lock = s.lock
      ∧ s'.exec = s.exec := by
  have hh := hs.handed
  have hw := hs.worded
  have howner := hw.owner
  cases ho : s.owner with
  | markexec =>
    rw [ownerStep_markexec ho] at hstep
    cases hstep
    obtain ⟨hh', hexec, hthief, hlock⟩ := hh.marked
    refine ⟨⟨hh', ?_⟩, hthief, hlock, hexec⟩
    rw [hexec]
    exact hw.marked ho
  | running =>
    rw [ho] at howner
    exact howner.elim
  | trylock =>
    simp only [Task.ownerStep, ho] at hstep
    cases hstep
    exact ⟨⟨{ hh with }, hw.trylock ho⟩, rfl, rfl, rfl⟩
  | readState =>
    rw [ho] at howner
    have hold : s.owner.locked = false := by rw [ho]; rfl
    simp only [Task.ownerStep, ho] at hstep
    split at hstep
    next ht =>
      cases hstep
      exact ⟨⟨{ hh with }, hw.move hold rfl (hw.waits_term howner ht)
        fun _ _ => Iff.rfl⟩, rfl, rfl, rfl⟩
    next =>
      split at hstep
      next hm =>
        cases hstep
        exact ⟨⟨{ hh with }, hw.move hold rfl (hw.waits_merge howner hm)
          fun _ _ => Iff.rfl⟩, rfl, rfl, rfl⟩
      next =>
        cases hstep
        exact ⟨⟨{ hh with }, hw.move hold rfl howner fun _ _ => Iff.rfl⟩,
          rfl, rfl, rfl⟩
  | waitReserved =>
    simp only [Task.ownerStep, ho] at hstep
    split at hstep
    next =>
      cases hstep
      exact ⟨hs, rfl, rfl, rfl⟩
    next r hr =>
      cases hstep
      rw [ho] at howner
      have hlocked := hw.locked
      have hapart := hw.apart
      rw [ho] at hlocked hapart
      refine ⟨⟨{ hh with }, ?_⟩, rfl, rfl, rfl⟩
      exact
        { hw with
          locked := hlocked
          apart := hapart
          owner := howner
          signal := fun r' hr' => by
            cases hr'
            exact hh.reserved_some r hr }
  | signal r =>
    simp only [Task.ownerStep, ho] at hstep
    cases hstep
    rw [ho] at howner
    have hlocked := hw.locked
    have hapart := hw.apart
    rw [ho] at hlocked hapart
    refine ⟨⟨hh.signal (hw.signal r ho), ?_⟩, rfl, rfl, rfl⟩
    exact
      { hw with
        locked := hlocked
        apart := hapart
        owner := howner
        signal := fun r' hr' => by cases hr' }
  | unlock eintr =>
    simp only [Task.ownerStep, ho] at hstep
    cases hstep
    refine ⟨⟨{ hh with }, hw.unlockOwner ho ?_⟩, rfl, rfl, rfl⟩
    cases eintr with
    | true => exact .inl rfl
    | false => exact .inr rfl
  | suspended =>
    rw [ho] at howner
    simp only [Task.ownerStep, ho] at hstep
    cases hstep
    refine ⟨⟨{ hh with }, hw.move (by rw [ho]; rfl) ?_ ?_
      fun _ _ => Iff.rfl⟩, rfl, rfl, rfl⟩
    · split <;> rfl
    · split <;> exact howner
  | aftersteal =>
    rw [ho] at howner
    simp only [Task.ownerStep, ho] at hstep
    cases hstep
    refine ⟨⟨{ hh with }, hw.move (by rw [ho]; rfl) rfl
      ⟨howner.1, ?_⟩ fun _ _ => Iff.rfl⟩, rfl, rfl, rfl⟩
    rw [howner.2.1, howner.2.2]
    rfl
  | passed =>
    simp only [Task.ownerStep, ho] at hstep
    cases hstep

/-- Every step of the owner keeps the invariant. -/
theorem inv_ownerStep (h : Inv s) (hstep : ownerStep s = some s') :
    Inv s' := by
  cases hp : h.phase with
  | unclaimed hu =>
    rw [ownerStep_markexec hu.owner] at hstep
    cases hstep
    refine ⟨?_, .ownerRan hu.run⟩
    unfold ownerMarked
    repeat' split
    all_goals exact h.lock
  | ownerRan ho =>
    unfold ownerStep at hstep
    rcases ho.owner with ⟨hrun, hended⟩ | ⟨hpass, -⟩
    · simp only [hrun] at hstep
      cases hstep
      exact ⟨h.lock, .ownerRan
        { ho with
          quiet := { ho.quiet with }
          owner := .inr ⟨rfl, congrArg (· ++ [Runner.owner]) hended⟩ }⟩
    · simp only [hpass] at hstep
      cases hstep
  | stolen g hs =>
    obtain ⟨hs', hthief, hlock, -⟩ := hs.ownerStep hstep
    refine ⟨?_, .stolen g hs'⟩
    rw [hthief, hlock]
    exact h.lock

end Owner

-- ======== runs

/-- Every step keeps it. -/
theorem inv_step {a : Act} {s' : St} (h : Inv s) (hstep : step a s = some s') :
    Inv s' := by
  cases a with
  | owner => exact inv_ownerStep h hstep
  | thief n => exact inv_thiefStep h hstep
  | exec r => exact inv_execStep h hstep
  | preempt =>
    cases hstep
    exact ⟨h.lock, h.phase.of_sameBits (.markpreempted s.word)⟩
  | enter n =>
    simp only [step] at hstep
    split at hstep
    next hn =>
      cases hstep
      exact ⟨lockInv_stay h.lock (by rw [hn]; rfl),
        h.phase.move (l := s.lock) (by rw [hn]; rfl) rfl
          nofun⟩
    next => cases hstep
  | look n g =>
    simp only [step] at hstep
    split at hstep
    next hn =>
      injection hstep with hs'
      exact hs' ▸ inv_look h hn
    next => cases hstep
  | leave n =>
    simp only [step] at hstep
    split at hstep
    next hn =>
      cases hstep
      exact ⟨lockInv_stay h.lock (by rw [hn]; rfl),
        h.phase.move (l := s.lock) (by rw [hn]; rfl) rfl
          nofun⟩
    next => cases hstep
  | reuse r w =>
    simp only [step] at hstep
    split at hstep
    next m hx =>
      cases hstep
      obtain ⟨g, hs, rfl⟩ := h.stolen_of_exec (r := r) (by
        rw [hx]
        intro hc
        cases hc)
      have hnowin : ∀ {n : Nat}, (s.thief n).winning ≠ some g := by
        intro n hn
        have := (hs.handed.winner n g hn).2
        rw [hx] at this
        cases this
      refine ⟨h.lock, .stolen g ⟨?_, { hs.worded with }⟩⟩
      exact
        { hs.handed with
          clean := fun n hn => by
            refine absurd ?_ (hnowin (n := n))
            rcases hn with hn | hn
            · exact congrArg ThiefPc.winning hn
            · exact congrArg ThiefPc.winning hn
          clean_exec := fun m' hm' => by
            have hm : s.exec g.requester = .markexec m' := hm'
            rw [hx] at hm
            cases hm }
    next => cases hstep

/-- Every run keeps the invariant. -/
theorem inv_run {acts : List Act} {s' : St} (h : Inv s) (hrun : run step acts s = some s') :
    Inv s' :=
  run_preserves inv_step h hrun

end XKaapi.Task
