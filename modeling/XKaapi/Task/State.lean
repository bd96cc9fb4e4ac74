/-
The state word of a task (src/kaapi_task.h).

`kaapi_task_t::u.s.state` is one atomic word, a `kaapi_atomic8_t`; all
its bits are among the first eight, and the masks of the functions are
C ints, so that it is modelled on 32 bits. Every operation on it is a
single fetch-and-or or fetch-and-and; what a caller may conclude it reads
off the old value the operation returns. The functions below are these
operations, each answering the new word together with what the C function
returns.

All proofs talk about the word through `Has w m` ("`w` has a bit of
`m`"), which distributes over the two operations (`has_or`,
`has_unlock`), so that no proof computes with words.
-/
import Mathlib.Tactic.Common

namespace XKaapi.Task

/-- The atomic word `state`. -/
abbrev StateWord := BitVec 32

-- ======== the bits

/-- `KAAPI_TASK_STATE_INIT` -/
def taskStateInit : StateWord := 0x0
/-- `KAAPI_TASK_STATE_EXEC` -/
def taskStateExec : StateWord := 0x1
/-- `KAAPI_TASK_STATE_STEAL` -/
def taskStateSteal : StateWord := 0x2
/-- `KAAPI_TASK_STATE_TERM` -/
def taskStateTerm : StateWord := 0x4
/-- `KAAPI_TASK_STATE_MERGE` -/
def taskStateMerge : StateWord := 0x8
/-- `KAAPI_TASK_STATE_SIGNALED` -/
def taskStateSignaled : StateWord := 0x20
/-- `KAAPI_TASK_STATE_LOCKED` -/
def taskStateLocked : StateWord := 0x40

/-- `KAAPI_TASK_EXECUTION_STATE` -/
def taskExecutionState : StateWord :=
  taskStateExec ||| taskStateSteal ||| taskStateTerm ||| taskStateMerge

/-- The test `(w & m) != 0`. -/
def Has (w m : StateWord) : Prop := w &&& m ≠ 0#32

instance (w m : StateWord) : Decidable (Has w m) :=
  inferInstanceAs (Decidable (w &&& m ≠ 0#32))

-- ======== the operations

/-- `kaapi_task_orstate`: the new word and the old one. -/
def taskOrstate (w mask : StateWord) : StateWord × StateWord :=
  (w ||| mask, w)

/-- `kaapi_task_andstate`: the new word and the old one. -/
def taskAndstate (w mask : StateWord) : StateWord × StateWord :=
  (w &&& mask, w)

/-- `kaapi_task_markexec`: 0 iff the caller is first to mark. -/
def taskMarkexec (w : StateWord) : StateWord × StateWord :=
  let (w', old) := taskOrstate w taskStateExec
  (w', old &&& taskExecutionState)

/-- `kaapi_task_marksteal`: true iff the owner had not marked before. -/
def taskMarksteal (w : StateWord) : StateWord × Bool :=
  let (w', old) := taskOrstate w taskStateSteal
  (w', decide (¬ Has old taskStateExec))

/-- `kaapi_task_markterm` -/
def taskMarkterm (w : StateWord) : StateWord := w ||| taskStateTerm

/-- `kaapi_task_markaftersteal` -/
def taskMarkaftersteal (w : StateWord) : StateWord := w ||| taskStateMerge

/-- `kaapi_task_markpreempted` -/
def taskMarkpreempted (w : StateWord) : StateWord := w ||| taskStateSignaled

/-- `kaapi_task_trylock`, also one turn of the loop of `kaapi_task_lock`. -/
def taskTrylock (w : StateWord) : StateWord × Bool :=
  let (w', old) := taskOrstate w taskStateLocked
  (w', decide (¬ Has old taskStateLocked))

/-- `kaapi_task_unlock` -/
def taskUnlock (w : StateWord) : StateWord :=
  (taskAndstate w (~~~ taskStateLocked)).1

/-- `kaapi_task_isstealable`; `unstealable` is the flag of the task. -/
def taskIsstealable (w : StateWord) (unstealable : Bool) : Bool :=
  decide (w = taskStateInit) && !unstealable

/-- `kaapi_task_isready` -/
def taskIsready (w : StateWord) : Bool :=
  decide (¬ Has w taskExecutionState) || decide (Has w taskStateTerm)
    || decide (Has w taskStateMerge)

-- ======== reading the word

section Has

variable {w m m' : StateWord}

@[simp] theorem has_or : Has (w ||| m') m ↔ Has w m ∨ Has m' m := by
  unfold Has
  rw [BitVec.and_or_distrib_right, ne_eq, BitVec.or_eq_zero_iff, not_and_or]

theorem has_or_right : Has w (m ||| m') ↔ Has w m ∨ Has w m' := by
  unfold Has
  rw [BitVec.and_or_distrib_left, ne_eq, BitVec.or_eq_zero_iff, not_and_or]

@[simp] theorem not_has_init : ¬ Has taskStateInit m := by
  unfold Has taskStateInit
  simp

theorem not_has_executionState :
    ¬ Has w taskExecutionState ↔ ¬ Has w taskStateExec
      ∧ ¬ Has w taskStateSteal ∧ ¬ Has w taskStateTerm
      ∧ ¬ Has w taskStateMerge := by
  unfold taskExecutionState
  rw [has_or_right, has_or_right, has_or_right]
  tauto

theorem has_and_of_le (h : m' &&& m = m) : Has (w &&& m') m ↔ Has w m := by
  unfold Has
  rw [BitVec.and_assoc, h]

theorem has_andNot (h : ~~~ m' &&& m = m) :
    Has (w &&& ~~~ m') m ↔ Has w m := has_and_of_le h

-- ------------------------------------------------ what callers conclude

@[simp] theorem taskMarkexec_fst :
    (taskMarkexec w).1 = w ||| taskStateExec := rfl

theorem taskMarkexec_eq_zero : (taskMarkexec w).2 = 0#32
    ↔ ¬ Has w taskStateExec ∧ ¬ Has w taskStateSteal
      ∧ ¬ Has w taskStateTerm ∧ ¬ Has w taskStateMerge := by
  rw [← not_has_executionState]
  show w &&& taskExecutionState = 0#32 ↔ ¬ (w &&& taskExecutionState ≠ 0#32)
  rw [not_not]

theorem has_taskMarkexec (h : taskExecutionState &&& m = m) :
    Has (taskMarkexec w).2 m ↔ Has w m := has_and_of_le h

theorem taskMarksteal_snd :
    (taskMarksteal w).2 = true ↔ ¬ Has w taskStateExec :=
  decide_eq_true_iff

@[simp] theorem taskTrylock_fst :
    (taskTrylock w).1 = w ||| taskStateLocked := rfl

theorem taskTrylock_snd :
    (taskTrylock w).2 = true ↔ ¬ Has w taskStateLocked :=
  decide_eq_true_iff

theorem has_unlock (h : ~~~ taskStateLocked &&& m = m) :
    Has (taskUnlock w) m ↔ Has w m := has_andNot h

@[simp] theorem not_has_unlock : ¬ Has (taskUnlock w) taskStateLocked := by
  intro h
  apply h
  show w &&& ~~~ taskStateLocked &&& taskStateLocked = 0#32
  rw [BitVec.and_assoc, show ~~~ taskStateLocked &&& taskStateLocked = 0#32
    from by decide, BitVec.and_zero]

theorem taskIsstealable_iff {unstealable : Bool} :
    taskIsstealable w unstealable = true
      ↔ w = taskStateInit ∧ unstealable = false := by
  unfold taskIsstealable
  simp

theorem taskIsready_iff : taskIsready w = true
    ↔ ¬ Has w taskExecutionState ∨ Has w taskStateTerm
      ∨ Has w taskStateMerge := by
  unfold taskIsready
  simp [or_assoc]

end Has

end XKaapi.Task
