/-
Any number of threads on one scheduler lock: each calls
`kaapi_atomic_lock`, `trylock`, `unlock` and `waitlock` as it likes
(`unlock` only when it holds the lock, as its assertion on the owner
demands), and the steps of the calls interleave in any way.

Safety is `LockInv` along every run: one holder at a time, a trylock
that succeeds found none, and after the last store of an unlock the next
decrement takes the lock. A waiter is released by the holder it found
(`waitlock_released`): either that holder has cleared `_sync`, which
`kaapi_atomic_unlock` does before it frees the lock, or it has freed it.
So a waiter may be back while the lock is still taken by the same holder
(`waitlock_back_before_store`).

The counter, a C int, is an integer here.
-/
import XKaapi.Atomic.Lock
import XKaapi.Lib.Run
import XKaapi.Lib.Tally

namespace XKaapi.LockRuns

open StepMachine
open Function (update update_of_ne update_self)

-- ======== the machine

/-- The call a thread is in. -/
inductive LockCall where
  | idle
  | lock (pc : LockPc)
  | trylock (pc : TrylockPc)
  | unlock (pc : UnlockPc)
  | waitlock (pc : WaitlockPc)
  deriving DecidableEq

/-- The lock, who is between a successful acquire and the end of its
unlock, and the calls. -/
structure State (τ : Type) where
  lock : KaapiLock
  holds : τ → Bool
  call : τ → LockCall

/-- A thread begins a call, or takes the next step of the one it is in. -/
inductive Action (τ : Type) where
  | lock (t : τ)
  | trylock (t : τ)
  | unlock (t : τ)
  | waitlock (t : τ)
  | step (t : τ)

variable {τ : Type} [DecidableEq τ]

/-- A free lock, and no call. -/
def State.init : State τ where
  lock := atomicInitlock
  holds := fun _ => false
  call := fun _ => .idle

namespace State

/-- The call of thread `t`, and the lock, change. -/
def set (s : State τ) (t : τ) (l : KaapiLock) (c : LockCall) : State τ :=
  { s with
    lock := l
    call := update s.call t c }

/-- The call of thread `t` is over and it holds the lock, or not. -/
def finish (s : State τ) (t : τ) (l : KaapiLock) (holds : Bool) : State τ :=
  { lock := l
    holds := update s.holds t holds
    call := update s.call t .idle }

/-- A call begins. -/
def begin (s : State τ) (t : τ) (c : LockCall) : Option (State τ) :=
  if s.call t = .idle then some (s.set t s.lock c) else none

/-- What a step of `kaapi_atomic_lock` makes of the state. -/
def afterLock (s : State τ) (t : τ) : KaapiLock × Option LockPc → State τ
  | (l, some pc) => s.set t l (.lock pc)
  | (l, none) => s.finish t l true

/-- The same for `kaapi_atomic_trylock`. -/
def afterTrylock (s : State τ) (t : τ) :
    KaapiLock × (TrylockPc ⊕ Bool) → State τ
  | (l, .inl pc) => s.set t l (.trylock pc)
  | (l, .inr true) => s.finish t l true
  | (l, .inr false) => s.set t l .idle

/-- The same for `kaapi_atomic_unlock`. -/
def afterUnlock (s : State τ) (t : τ) : KaapiLock × Option UnlockPc → State τ
  | (l, some pc) => s.set t l (.unlock pc)
  | (l, none) => s.finish t l false

/-- The same for `kaapi_atomic_waitlock`. -/
def afterWaitlock (s : State τ) (t : τ) :
    KaapiLock × Option WaitlockPc → State τ
  | (l, some pc) => s.set t l (.waitlock pc)
  | (l, none) => s.set t l .idle

/-- The next step of a call. -/
def next (s : State τ) (t : τ) : Option (State τ) :=
  match s.call t with
  | .idle => none
  | .lock pc => some (s.afterLock t (atomicLock pc s.lock))
  | .trylock pc => some (s.afterTrylock t (atomicTrylock pc s.lock))
  | .unlock pc => some (s.afterUnlock t (atomicUnlock pc s.lock))
  | .waitlock pc => some (s.afterWaitlock t (atomicWaitlock pc s.lock))

end State

def step : Action τ → State τ → Option (State τ)
  | .lock t, s => s.begin t (.lock .decr)
  | .trylock t, s => s.begin t (.trylock .read)
  | .unlock t, s => if s.holds t then s.begin t (.unlock .testSync) else none
  | .waitlock t, s => s.begin t (.waitlock .setSync)
  | .step t, s => s.next t

-- ======== what one step can do

/-- What a step of thread `t` does to the lock and its holders. -/
inductive Moved (s : State τ) (t : τ) (s' : State τ) : Prop
  /-- a call begins, or goes on, or is over, without touching the word -/
  | quiet (c : LockCall) (h : s' = s.set t s.lock c)
      (hc : ∀ pc, c = .unlock pc → s.holds t = true)
  /-- a decrement in vain -/
  | vain (c : LockCall) (hbefore : s.lock.counter ≠ 1)
      (hfrom : s.call t = .lock .decr ∧ c = .lock .spin
        ∨ s.call t = .trylock .decr ∧ c = .idle)
      (h : s' = s.set t { s.lock with counter := s.lock.counter - 1 } c)
  /-- the decrement that takes the lock -/
  | take (hbefore : s.lock.counter = 1)
      (hfrom : s.call t = .lock .decr ∨ s.call t = .trylock .decr)
      (h : s' = s.finish t { s.lock with counter := 0 } true)
  /-- a waiter is released -/
  | clear (hfrom : s.call t = .unlock .clearSync)
      (h : s' = s.set t { s.lock with sync := false } (.unlock .write))
  /-- the lock is freed -/
  | free (hfrom : s.call t = .unlock .write)
      (h : s' = s.finish t { s.lock with counter := 1 } false)
  /-- a waiter asks for a wake-up -/
  | ask (hfrom : s.call t = .waitlock .setSync)
      (h : s' = s.set t { s.lock with sync := true } (.waitlock .testSync))

/-- The lock word agrees with the holders, and who unlocks holds. -/
structure Inv (s : State τ) : Prop where
  lock : LockInv s.lock fun t => s.holds t = true
  unlock : ∀ t pc, s.call t = .unlock pc → s.holds t = true

omit [DecidableEq τ] in
theorem inv_init : Inv (State.init : State τ) where
  lock := LockInv.init nofun
  unlock := by
    intro t pc h
    cases h

/-- The thread that moves. -/
def Action.thread : Action τ → τ
  | .lock t => t
  | .trylock t => t
  | .unlock t => t
  | .waitlock t => t
  | .step t => t

variable {s s' : State τ} {t u w : τ} {a : Action τ} {as : List (Action τ)}

theorem begin_eq_some {c : LockCall} (h : s.begin t c = some s') :
    s.call t = .idle ∧ s' = s.set t s.lock c := by
  unfold State.begin at h
  split at h
  next hidle =>
    cases h
    exact ⟨hidle, rfl⟩
  next => cases h

theorem next_lock {pc : LockPc} (hc : s.call t = .lock pc)
    (hr : s.next t = some s') : Moved s t s' := by
  unfold State.next at hr
  rw [hc] at hr
  replace hr : s.afterLock t (atomicLock pc s.lock) = s' := Option.some.inj hr
  cases pc with
  | decr =>
    by_cases h1 : s.lock.counter = 1
    · have hlock : atomicLock .decr s.lock
          = ({ s.lock with counter := 0 }, none) := by
        unfold atomicLock
        rw [h1]
        rfl
      rw [hlock] at hr
      subst hr
      exact .take h1 (.inl hc) rfl
    · have hlock : atomicLock .decr s.lock
          = ({ s.lock with counter := s.lock.counter - 1 }, some .spin) :=
        if_neg (by
          show ¬ s.lock.counter - 1 = 0
          omega)
      rw [hlock] at hr
      subst hr
      exact .vain _ h1 (.inl ⟨hc, rfl⟩) rfl
  | spin =>
    have hlock : ∃ pc', atomicLock .spin s.lock = (s.lock, some pc') := by
      unfold atomicLock
      by_cases h0 : s.lock.counter ≤ 0
      · exact ⟨.spin, if_pos h0⟩
      · exact ⟨.decr, if_neg h0⟩
    obtain ⟨pc', hlock⟩ := hlock
    rw [hlock] at hr
    subst hr
    exact .quiet _ rfl nofun

theorem next_trylock {pc : TrylockPc} (hc : s.call t = .trylock pc)
    (hr : s.next t = some s') : Moved s t s' := by
  unfold State.next at hr
  rw [hc] at hr
  replace hr : s.afterTrylock t (atomicTrylock pc s.lock) = s' := Option.some.inj hr
  cases pc with
  | read =>
    by_cases h1 : s.lock.counter = 1
    · have hlock : atomicTrylock .read s.lock = (s.lock, .inl .decr) :=
        if_pos h1
      rw [hlock] at hr
      subst hr
      exact .quiet _ rfl nofun
    · have hlock : atomicTrylock .read s.lock = (s.lock, .inr false) :=
        if_neg h1
      rw [hlock] at hr
      subst hr
      exact .quiet _ rfl nofun
  | decr =>
    by_cases h1 : s.lock.counter = 1
    · have hlock : atomicTrylock .decr s.lock
          = ({ s.lock with counter := 0 }, .inr true) := by
        unfold atomicTrylock
        rw [h1]
        rfl
      rw [hlock] at hr
      subst hr
      exact .take h1 (.inr hc) rfl
    · have hlock : atomicTrylock .decr s.lock
          = ({ s.lock with counter := s.lock.counter - 1 }, .inr false) := by
        have hne : ¬ s.lock.counter - 1 = 0 := by omega
        unfold atomicTrylock
        dsimp only
        rw [decide_eq_false hne]
      rw [hlock] at hr
      subst hr
      exact .vain _ h1 (.inr ⟨hc, rfl⟩) rfl

theorem next_unlock {pc : UnlockPc} (h : Inv s) (hc : s.call t = .unlock pc)
    (hr : s.next t = some s') : Moved s t s' := by
  unfold State.next at hr
  rw [hc] at hr
  replace hr : s.afterUnlock t (atomicUnlock pc s.lock) = s' := Option.some.inj hr
  cases pc with
  | testSync =>
    have hlock : ∃ pc', atomicUnlock .testSync s.lock = (s.lock, some pc') := by
      unfold atomicUnlock
      by_cases hs : s.lock.sync = true
      · exact ⟨.clearSync, if_pos hs⟩
      · exact ⟨.write, if_neg hs⟩
    obtain ⟨pc', hlock⟩ := hlock
    rw [hlock] at hr
    subst hr
    exact .quiet _ rfl fun _ _ => h.unlock t _ hc
  | clearSync =>
    subst hr
    exact .clear hc rfl
  | write =>
    subst hr
    exact .free hc rfl

theorem quiet_waitlock {r : Option WaitlockPc}
    (hr : s.afterWaitlock t (s.lock, r) = s') : Moved s t s' := by
  cases r with
  | none =>
    subst hr
    exact .quiet _ rfl nofun
  | some pc' =>
    subst hr
    exact .quiet _ rfl nofun

theorem next_waitlock {pc : WaitlockPc} (hc : s.call t = .waitlock pc)
    (hr : s.next t = some s') : Moved s t s' := by
  unfold State.next at hr
  rw [hc] at hr
  replace hr : s.afterWaitlock t (atomicWaitlock pc s.lock) = s' := Option.some.inj hr
  cases pc with
  | setSync =>
    subst hr
    exact .ask hc rfl
  | testSync =>
    have hlock : ∃ r, atomicWaitlock .testSync s.lock = (s.lock, r) := by
      unfold atomicWaitlock
      by_cases hs : s.lock.sync = true
      · exact ⟨_, if_pos hs⟩
      · exact ⟨_, if_neg hs⟩
    obtain ⟨r, hlock⟩ := hlock
    rw [hlock] at hr
    exact quiet_waitlock hr
  | testCounter =>
    have hlock : ∃ r, atomicWaitlock .testCounter s.lock = (s.lock, r) := by
      unfold atomicWaitlock
      by_cases h0 : s.lock.counter ≤ 0
      · exact ⟨_, if_pos h0⟩
      · exact ⟨_, if_neg h0⟩
    obtain ⟨r, hlock⟩ := hlock
    rw [hlock] at hr
    exact quiet_waitlock hr

theorem step_moved (h : Inv s) (hr : step a s = some s') : Moved s a.thread s' := by
  cases a with
  | lock t =>
    obtain ⟨hidle, rfl⟩ := begin_eq_some hr
    exact .quiet _ rfl nofun
  | trylock t =>
    obtain ⟨hidle, rfl⟩ := begin_eq_some hr
    exact .quiet _ rfl nofun
  | unlock t =>
    change (if s.holds t then s.begin t (.unlock .testSync) else none) = _ at hr
    split at hr
    next hholds =>
      obtain ⟨hidle, rfl⟩ := begin_eq_some hr
      exact .quiet _ rfl (fun _ _ => hholds)
    next => cases hr
  | waitlock t =>
    obtain ⟨hidle, rfl⟩ := begin_eq_some hr
    exact .quiet _ rfl nofun
  | step t =>
    change s.next t = some s' at hr
    show Moved s t s'
    cases hc : s.call t with
    | idle =>
      unfold State.next at hr
      rw [hc] at hr
      cases hr
    | lock pc => exact next_lock hc hr
    | trylock pc => exact next_trylock hc hr
    | unlock pc => exact next_unlock h hc hr
    | waitlock pc => exact next_waitlock hc hr

-- ======== safety

theorem Moved.inv (h : Inv s) (hm : Moved s t s') : Inv s' := by
  -- a call changes, the holders do not
  have hcalls : ∀ c, (∀ pc, c = .unlock pc → s.holds t = true) →
      ∀ u pc, update s.call t c u = .unlock pc →
        s.holds u = true := by
    intro c hc u pc hu
    by_cases heq : u = t
    · subst heq
      rw [update_self] at hu
      exact hc pc hu
    · rw [update_of_ne heq] at hu
      exact h.unlock u pc hu
  cases hm with
  | quiet c heq hc =>
    subst heq
    exact ⟨h.lock, hcalls c hc⟩
  | vain c hbefore hfrom heq =>
    subst heq
    have hle := h.lock.le_one
    refine ⟨⟨?_, ?_, h.lock.unique⟩, hcalls c ?_⟩
    · show s.lock.counter - 1 ≤ 1
      omega
    · show s.lock.counter - 1 = 1 ↔ _
      refine Iff.trans ?_ h.lock.free_iff
      omega
    · intro pc hpc
      rcases hfrom with ⟨-, hc⟩ | ⟨-, hc⟩ <;> rw [hc] at hpc <;> cases hpc
  | take hbefore hfrom heq =>
    subst heq
    have hfree := h.lock.free_iff.mp hbefore
    have hholds : ∀ u, update s.holds t true u = true ↔ u = t := by
      intro u
      by_cases heq : u = t
      · simp [heq]
      · rw [update_of_ne heq]
        simp [heq, hfree u]
    refine ⟨LockInv.taken rfl hholds, ?_⟩
    intro u pc hu
    by_cases heq : u = t
    · exact (hholds u).mpr heq
    · have hu' : s.call u = .unlock pc := by
        rw [← hu]
        exact (update_of_ne heq ..).symm
      exact absurd (h.unlock u pc hu') (hfree u)
  | clear hfrom heq =>
    subst heq
    exact ⟨⟨h.lock.le_one, h.lock.free_iff, h.lock.unique⟩,
      hcalls _ fun _ _ => h.unlock t _ hfrom⟩
  | free hfrom heq =>
    subst heq
    have hno : ∀ u, ¬ update s.holds t false u = true := by
      intro u hu
      by_cases heq : u = t
      · subst heq
        rw [update_self] at hu
        cases hu
      · rw [update_of_ne heq] at hu
        exact heq (h.lock.unique u t hu (h.unlock t _ hfrom))
    refine ⟨⟨Int.le_refl 1, ⟨fun _ => hno, fun _ => rfl⟩,
      fun u _ hu => absurd hu (hno u)⟩, ?_⟩
    intro u pc hu
    by_cases heq : u = t
    · subst heq
      change update s.call u .idle u = _ at hu
      rw [update_self] at hu
      cases hu
    · have hu' : s.call u = .unlock pc := by
        rw [← hu]
        exact (update_of_ne heq ..).symm
      have hut := h.lock.unique u t (h.unlock u pc hu') (h.unlock t _ hfrom)
      exact absurd hut heq
  | ask hfrom heq =>
    subst heq
    exact ⟨⟨h.lock.le_one, h.lock.free_iff, h.lock.unique⟩, hcalls _ nofun⟩

theorem inv_run (h : Inv s) (hr : run step as s = some s') : Inv s' :=
  run_preserves (fun h hr => (step_moved h hr).inv h) h hr

/-- Thread `t` gets the lock if it is the only one to move from here: it
calls `kaapi_atomic_lock` or `kaapi_atomic_trylock`, or is inside one of
them. -/
def CanTake (s : State τ) (t : τ) : Prop :=
  (s.call t = .idle →
    (∃ s', run step [.lock t, .step t] s = some s' ∧ s'.holds t = true)
    ∧ ∃ s', run step [.trylock t, .step t, .step t] s = some s'
      ∧ s'.holds t = true)
  ∧ (∀ pc, s.call t = .lock pc →
    ∃ as, (∀ a ∈ as, a = .step t) ∧ ∃ s', run step as s = some s'
      ∧ s'.holds t = true)
  ∧ ∀ pc, s.call t = .trylock pc →
    ∃ as, (∀ a ∈ as, a = .step t) ∧ ∃ s', run step as s = some s'
      ∧ s'.holds t = true

theorem next_decr (h1 : s.lock.counter = 1)
    (hc : s.call t = .lock .decr ∨ s.call t = .trylock .decr) :
    s.next t = some (s.finish t { s.lock with counter := 0 } true) := by
  unfold State.next
  rcases hc with hc | hc
  · rw [hc]
    show some (s.afterLock t (atomicLock .decr s.lock)) = _
    unfold atomicLock
    rw [h1]
    rfl
  · rw [hc]
    show some (s.afterTrylock t (atomicTrylock .decr s.lock)) = _
    unfold atomicTrylock
    rw [h1]
    rfl

theorem next_read (h1 : s.lock.counter = 1) :
    (s.call t = .lock .spin → s.next t = some (s.set t s.lock (.lock .decr)))
    ∧ (s.call t = .trylock .read →
      s.next t = some (s.set t s.lock (.trylock .decr))) := by
  constructor
  · intro hc
    unfold State.next
    rw [hc]
    show some (s.afterLock t (atomicLock .spin s.lock)) = _
    unfold atomicLock
    rw [h1]
    rfl
  · intro hc
    unfold State.next
    rw [hc]
    show some (s.afterTrylock t (atomicTrylock .read s.lock)) = _
    unfold atomicTrylock
    rw [h1]
    rfl

@[simp] theorem set_call (s : State τ) (t : τ) (l : KaapiLock)
    (c : LockCall) : (s.set t l c).call t = c := update_self ..

@[simp] theorem finish_holds (s : State τ) (t : τ) (l : KaapiLock)
    (b : Bool) : (s.finish t l b).holds t = b := update_self ..

theorem canTake_of_free (h1 : s.lock.counter = 1) (t : τ) : CanTake s t := by
  have hdecr : ∀ s₁ : State τ, s₁.lock.counter = 1 →
      s₁.call t = .lock .decr ∨ s₁.call t = .trylock .decr →
      ∃ s', run step [.step t] s₁ = some s' ∧ s'.holds t = true := by
    intro s₁ h₁ hc
    refine ⟨_, run_cons_eq_some.mpr ⟨_, next_decr h₁ hc, rfl⟩, ?_⟩
    exact finish_holds ..
  have hread : ∀ s₁ : State τ, s₁.lock.counter = 1 →
      s₁.call t = .lock .spin ∨ s₁.call t = .trylock .read →
      ∃ s', run step [.step t, .step t] s₁ = some s'
        ∧ s'.holds t = true := by
    intro s₁ h₁ hc
    rcases hc with hc | hc
    · obtain ⟨s', hr, hh⟩ := hdecr (s₁.set t s₁.lock (.lock .decr)) h₁
        (.inl (set_call ..))
      exact ⟨s', run_cons_eq_some.mpr ⟨_, (next_read h₁).1 hc, hr⟩, hh⟩
    · obtain ⟨s', hr, hh⟩ := hdecr (s₁.set t s₁.lock (.trylock .decr)) h₁
        (.inr (set_call ..))
      exact ⟨s', run_cons_eq_some.mpr ⟨_, (next_read h₁).2 hc, hr⟩, hh⟩
  have hone : ∀ a ∈ [Action.step t], a = .step t := by simp
  have htwo : ∀ a ∈ [Action.step t, .step t], a = .step t := by simp
  refine ⟨?_, ?_, ?_⟩
  · intro hidle
    have hbegin : ∀ c, s.begin t c = some (s.set t s.lock c) :=
      fun c => if_pos hidle
    constructor
    · obtain ⟨s', hr, hh⟩ := hdecr (s.set t s.lock (.lock .decr)) h1
        (.inl (set_call ..))
      exact ⟨s', run_cons_eq_some.mpr ⟨_, hbegin _, hr⟩, hh⟩
    · obtain ⟨s', hr, hh⟩ := hread (s.set t s.lock (.trylock .read)) h1
        (.inr (set_call ..))
      exact ⟨s', run_cons_eq_some.mpr ⟨_, hbegin _, hr⟩, hh⟩
  · intro pc hc
    cases pc with
    | decr => exact ⟨_, hone, hdecr s h1 (.inl hc)⟩
    | spin => exact ⟨_, htwo, hread s h1 (.inl hc)⟩
  · intro pc hc
    cases pc with
    | read => exact ⟨_, htwo, hread s h1 (.inr hc)⟩
    | decr => exact ⟨_, hone, hdecr s h1 (.inr hc)⟩

-- ======== waiters

/-- Thread `t` is about to release the waiters of its critical section:
it clears `_sync`, or frees the lock. -/
def Releases (s : State τ) (t : τ) : Prop :=
  s.call t = .unlock .clearSync ∨ s.call t = .unlock .write

/-- Thread `w` waits for the critical section of `t`, and cannot miss its
end. -/
structure Waits (s : State τ) (w t : τ) : Prop where
  holds : s.holds t = true
  call : ∃ pc, s.call w = .waitlock pc
  sync : s.call w ≠ .waitlock .setSync → s.lock.sync = true

theorem eq_step_of_call (hr : step a s = some s') (hc : s.call a.thread ≠ .idle) :
    a = .step a.thread := by
  cases a with
  | lock t => exact absurd (begin_eq_some hr).1 hc
  | trylock t => exact absurd (begin_eq_some hr).1 hc
  | unlock t =>
    change (if s.holds t then s.begin t (.unlock .testSync) else none) = _ at hr
    split at hr
    next => exact absurd (begin_eq_some hr).1 hc
    next => cases hr
  | waitlock t => exact absurd (begin_eq_some hr).1 hc
  | step t => rfl

section

variable (hi : Inv s) (h : Waits s w t)
include hi h

theorem Waits.next_self (hr : s.next w = some s') : Waits s' w t := by
  obtain ⟨pc, hc⟩ := h.call
  have hle := hi.lock.counter_le_zero h.holds
  unfold State.next at hr
  rw [hc] at hr
  replace hr : s.afterWaitlock w (atomicWaitlock pc s.lock) = s' :=
    Option.some.inj hr
  cases pc with
  | setSync =>
    subst hr
    exact ⟨h.holds, ⟨_, set_call ..⟩, fun _ => rfl⟩
  | testSync =>
    have hsync := h.sync (by
      rw [hc]
      decide)
    have hlock : atomicWaitlock .testSync s.lock
        = (s.lock, some .testCounter) := if_pos hsync
    rw [hlock] at hr
    subst hr
    exact ⟨h.holds, ⟨_, set_call ..⟩, fun _ => hsync⟩
  | testCounter =>
    have hsync := h.sync (by
      rw [hc]
      decide)
    have hlock : atomicWaitlock .testCounter s.lock
        = (s.lock, some .testSync) := if_pos hle
    rw [hlock] at hr
    subst hr
    exact ⟨h.holds, ⟨_, set_call ..⟩, fun _ => hsync⟩

theorem Waits.moved_other (hne : w ≠ u) (hnot : ¬ (u = t ∧ Releases s t))
    (hm : Moved s u s') : Waits s' w t := by
  have hcall : ∀ c, update s.call u c w = s.call w :=
    fun c => update_of_ne hne ..
  -- only the call of `u` changes
  have hquiet : ∀ (l : KaapiLock) c,
      (s.lock.sync = true → l.sync = true) →
      Waits (s.set u l c) w t := by
    intro l c hl
    have hc : (s.set u l c).call w = s.call w := hcall c
    refine ⟨h.holds, ?_, ?_⟩
    · rw [hc]
      exact h.call
    · rw [hc]
      exact fun hne => hl (h.sync hne)
  cases hm with
  | quiet c heq hc =>
    subst heq
    exact hquiet s.lock c fun hs => hs
  | vain c hbefore hfrom heq =>
    subst heq
    exact hquiet _ c fun hs => hs
  | take hbefore hfrom heq =>
    exact absurd h.holds (hi.lock.free_iff.mp hbefore t)
  | clear hfrom heq =>
    have hut := hi.lock.unique u t (hi.unlock u _ hfrom) h.holds
    subst hut
    exact absurd ⟨rfl, .inl hfrom⟩ hnot
  | free hfrom heq =>
    have hut := hi.lock.unique u t (hi.unlock u _ hfrom) h.holds
    subst hut
    exact absurd ⟨rfl, .inr hfrom⟩ hnot
  | ask hfrom heq =>
    subst heq
    exact hquiet _ _ fun _ => rfl

theorem Waits.of_step (hr : step a s = some s') (hnot : ¬ (a = .step t ∧ Releases s t)) :
    Waits s' w t := by
  by_cases hw : w = a.thread
  · obtain ⟨pc, hc⟩ := h.call
    have hstep := eq_step_of_call hr (by
      rw [← hw, hc]
      exact nofun)
    rw [← hw] at hstep
    subst hstep
    exact h.next_self hi hr
  · refine h.moved_other hi hw ?_ (step_moved hi hr)
    intro hrel
    refine hnot ⟨?_, hrel.2⟩
    have hc : s.call a.thread ≠ .idle := by
      rw [hrel.1]
      rcases hrel.2 with hc | hc <;> rw [hc] <;> exact nofun
    rw [eq_step_of_call hr hc, hrel.1]

theorem Waits.of_run (hr : run step as s = some s') :
    Waits s' w t ∨ ∃ pre post u, as = pre ++ .step t :: post
      ∧ run step pre s = some u ∧ u.holds t = true ∧ Releases u t := by
  induction as generalizing s with
  | nil =>
    cases hr
    exact .inl h
  | cons a as ih =>
    obtain ⟨s₁, hs₁, hr⟩ := run_cons_eq_some.mp hr
    by_cases hrel : a = .step t ∧ Releases s t
    · exact .inr ⟨[], as, s, by rw [hrel.1]; rfl, rfl, h.holds, hrel.2⟩
    · have hi₁ := (step_moved hi hs₁).inv hi
      rcases ih hi₁ (h.of_step hi hs₁ hrel) hr with hend | hex
      · exact .inl hend
      · obtain ⟨pre, post, u, rfl, hu, hh, hrel⟩ := hex
        exact .inr ⟨a :: pre, post, u, rfl,
          run_cons_eq_some.mpr ⟨s₁, hs₁, hu⟩, hh, hrel⟩

end

/-- A waiter that is back was released by the holder it found: that
thread has cleared `_sync`, or freed the lock, since. -/
theorem waitlock_released {s₁ : State τ} (hi : Inv s) (ht : s.holds t = true)
    (hw : step (.waitlock w) s = some s₁) (hr : run step as s₁ = some s')
    (hback : ∀ pc, s'.call w ≠ .waitlock pc) :
    ∃ pre post u, as = pre ++ .step t :: post
      ∧ run step pre s₁ = some u ∧ u.holds t = true
      ∧ Releases u t := by
  have hi₁ := (step_moved hi hw).inv hi
  obtain ⟨-, rfl⟩ := begin_eq_some hw
  have hwait : Waits (s.set w s.lock (.waitlock .setSync)) w t :=
    ⟨ht, ⟨_, set_call ..⟩, fun hne => absurd (set_call ..) hne⟩
  rcases hwait.of_run hi₁ hr with hend | hex
  · obtain ⟨pc, hc⟩ := hend.call
    exact absurd hc (hback pc)
  · exact hex

-- ======== the lock

/-- The scheduler lock in every state of every run: one holder; a trylock
that succeeds finds none; the end of an unlock leaves a lock that any
thread can take; and a waiter that is back was released by the holder it
found. -/
theorem schedLock_spec (as : List (Action τ)) (s : State τ)
    (hr : run step as State.init = some s) :
    (∀ t u, s.holds t = true → s.holds u = true → t = u)
    ∧ (∀ t pc, s.call t = .trylock pc →
      (atomicTrylock pc s.lock).2 = .inr true → ∀ u, s.holds u = false)
    ∧ (∀ t s', s.call t = .unlock .write → step (.step t) s = some s' →
      (∀ u, s'.holds u = false) ∧ ∀ u, CanTake s' u)
    ∧ ∀ w t s₁ bs s', s.holds t = true → step (.waitlock w) s = some s₁ →
      run step bs s₁ = some s' → (∀ pc, s'.call w ≠ .waitlock pc) →
      ∃ pre post u, bs = pre ++ .step t :: post
        ∧ run step pre s₁ = some u ∧ u.holds t = true ∧ Releases u t := by
  have hi := inv_run inv_init hr
  refine ⟨hi.lock.unique, ?trylock, ?unlock, ?waitlock⟩
  case trylock =>
    intro t pc _ hanswer u
    have htry : atomicTrylock pc s.lock
        = ((atomicTrylock pc s.lock).1, .inr true) := Prod.ext rfl hanswer
    have hfree := (hi.lock.trylock_found_free htry).2 u
    rw [Bool.not_eq_true] at hfree
    exact hfree
  case unlock =>
    intro t s' hc hstep
    have hi' := (step_moved hi hstep).inv hi
    change s.next t = some s' at hstep
    unfold State.next at hstep
    rw [hc] at hstep
    cases hstep
    refine ⟨?_, canTake_of_free rfl⟩
    intro u
    have hno := hi'.lock.free_iff.mp rfl u
    rw [Bool.not_eq_true] at hno
    exact hno
  case waitlock =>
    intro w t s₁ bs s' ht hw hbs hback
    exact waitlock_released hi ht hw hbs hback

/-- One thread holds the lock while another asks for it and a third
waits: only the first one has it. -/
theorem schedLock_three :
    ∃ s : State (Fin 3), run step [.lock 0, .step 0, .lock 1, .step 1,
        .waitlock 2, .step 2, .unlock 0, .step 0] State.init = some s
      ∧ s.holds 0 = true ∧ ∀ t, s.holds t = true → t = 0 := by
  refine ⟨_, rfl, rfl, ?_⟩
  intro t ht
  exact (schedLock_spec [.lock 0, .step 0, .lock 1, .step 1, .waitlock 2,
    .step 2, .unlock 0, .step 0] _ rfl).1 t 0 ht rfl

/-- A waiter may be back before the holder it found has freed the lock:
`kaapi_atomic_unlock` clears `_sync` first. -/
theorem waitlock_back_before_store :
    ¬ ∀ (as : List (Action Bool)) (s : State Bool),
      run step as State.init = some s →
      ∀ w t s₁ bs s', s.holds t = true → step (.waitlock w) s = some s₁ →
      run step bs s₁ = some s' → (∀ pc, s'.call w ≠ .waitlock pc) →
      ∃ pre post u, bs = pre ++ .step t :: post
        ∧ run step pre s₁ = some u ∧ u.call t = .unlock .write := by
  intro h
  obtain ⟨pre, post, u, hbs, hu, hc⟩ := h [.lock false, .step false] _ rfl
    true false _ [.step true, .unlock false, .step false, .step false,
      .step true] _ rfl rfl rfl (fun pc hpc => nomatch hpc)
  -- the two steps of the unlock that were taken are not its last one
  match pre with
  | [] => cases hbs
  | [_] => cases hbs
  | [_, _] =>
    cases hbs
    cases hu
    cases hc
  | [_, _, _] =>
    cases hbs
    cases hu
    cases hc
  | [_, _, _, _] => cases hbs
  | _ :: _ :: _ :: _ :: _ :: _ =>
    have hlen := congrArg List.length hbs
    simp only [List.cons_append, List.length_cons, List.length_append,
      List.length_nil] at hlen
    omega

end XKaapi.LockRuns
