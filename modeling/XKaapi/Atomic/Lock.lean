/-
The scheduler lock `kaapi_lock_t` (src/kaapi_atomic.h, the default
variant: neither `KAAPI_SCHED_LOCK_PTHREAD` nor `KAAPI_SCHED_LOCK_CAS`),
one shared access per step.

`_counter` is 1 when the lock is free. `kaapi_atomic_lock` decrements it
atomically and owns the lock iff the new value is 0; otherwise it spins
reading the counter until it is positive and tries again, so the counter
goes below 0 under contention and `kaapi_atomic_unlock` puts it back by
storing 1. `_sync` serves `kaapi_atomic_waitlock` alone: the waiter sets
it, and leaves as soon as an unlocker has cleared it or the counter is
positive.

Each function is a step function on its own little program counter,
`none` meaning that it returned. `LockInv` is what all of them keep:
the counter never exceeds 1, and it is 1 exactly when nobody is between
its successful decrement and its final store.
-/
import Mathlib.Tactic.Common

namespace XKaapi

/-- `kaapi_lock_t`, the debug fields left out. -/
structure KaapiLock where
  counter : Int
  sync : Bool
deriving DecidableEq, Repr

/-- `kaapi_atomic_initlock`: free, nobody waiting. -/
def atomicInitlock : KaapiLock := { counter := 1, sync := false }

-- ======== the four functions

/-- Where a party stands inside `kaapi_atomic_lock`. -/
inductive LockPc
  | decr
  | spin
deriving DecidableEq, Repr

/-- `kaapi_atomic_lock`: decrement and test, else spin on reads. -/
def atomicLock (pc : LockPc) (l : KaapiLock) : KaapiLock × Option LockPc :=
  match pc with
  | .decr =>
    let l' := { l with counter := l.counter - 1 }
    if l'.counter = 0 then (l', none) else (l', some .spin)
  | .spin => if l.counter ≤ 0 then (l, some .spin) else (l, some .decr)

/-- Where a party stands inside `kaapi_atomic_trylock`. -/
inductive TrylockPc
  | read
  | decr
deriving DecidableEq, Repr

/-- `kaapi_atomic_trylock`: read, and only then decrement. The answer of
a finished call is whether the lock was taken. -/
def atomicTrylock (pc : TrylockPc) (l : KaapiLock) :
    KaapiLock × (TrylockPc ⊕ Bool) :=
  match pc with
  | .read => if l.counter = 1 then (l, .inl .decr) else (l, .inr false)
  | .decr =>
    let l' := { l with counter := l.counter - 1 }
    (l', .inr (decide (l'.counter = 0)))

/-- Where a party stands inside `kaapi_atomic_unlock`. -/
inductive UnlockPc
  | testSync
  | clearSync
  | write
deriving DecidableEq, Repr

/-- `kaapi_atomic_unlock`: release a waiter if there is one, then store 1. -/
def atomicUnlock (pc : UnlockPc) (l : KaapiLock) :
    KaapiLock × Option UnlockPc :=
  match pc with
  | .testSync => if l.sync then (l, some .clearSync) else (l, some .write)
  | .clearSync => ({ l with sync := false }, some .write)
  | .write => ({ l with counter := 1 }, none)

/-- Where a party stands inside `kaapi_atomic_waitlock`. -/
inductive WaitlockPc
  | setSync
  | testSync
  | testCounter
deriving DecidableEq, Repr

/-- `kaapi_atomic_waitlock`: ask for a wake-up, then poll `_sync` and the
counter in turn. -/
def atomicWaitlock (pc : WaitlockPc) (l : KaapiLock) :
    KaapiLock × Option WaitlockPc :=
  match pc with
  | .setSync => ({ l with sync := true }, some .testSync)
  | .testSync => if l.sync then (l, some .testCounter) else (l, none)
  | .testCounter =>
    if l.counter ≤ 0 then (l, some .testSync) else (l, none)

-- ======== mutual exclusion

/-- The lock word agrees with the critical sections: `crit t` says that
party `t` holds the lock. -/
structure LockInv {τ : Type*} (l : KaapiLock) (crit : τ → Prop) : Prop where
  le_one : l.counter ≤ 1
  free_iff : l.counter = 1 ↔ ∀ t, ¬ crit t
  unique : ∀ t u, crit t → crit u → t = u

namespace LockInv

variable {τ : Type*} {l l' : KaapiLock} {crit crit' : τ → Prop} {t : τ} {pc : LockPc}

theorem init (hno : ∀ t, ¬ crit t) : LockInv atomicInitlock crit where
  le_one := Int.le_refl _
  free_iff := ⟨fun _ => hno, fun _ => rfl⟩
  unique t _ ht := absurd ht (hno t)

theorem congr (h : LockInv l crit) (heq : ∀ u, crit' u ↔ crit u) :
    LockInv l crit' where
  le_one := h.le_one
  free_iff := by simpa only [heq] using h.free_iff
  unique u v hu hv := h.unique u v ((heq u).mp hu) ((heq v).mp hv)

theorem counter_le_zero (h : LockInv l crit) (ht : crit t) :
    l.counter ≤ 0 := by
  have hne : l.counter ≠ 1 := fun h1 => h.free_iff.mp h1 t ht
  have hle := h.le_one
  omega

theorem lock_pending (h : LockInv l crit) {pc' : LockPc}
    (hstep : atomicLock pc l = (l', some pc')) : LockInv l' crit := by
  have hle := h.le_one
  cases pc with
  | decr =>
    simp only [atomicLock] at hstep
    split at hstep
    · cases hstep
    next hne =>
      injection hstep with hl _
      subst hl
      -- the counter was not 1, so it is not 1 after the decrement either
      have hne1 : l.counter ≠ 1 := fun h1 => hne (by rw [h1]; rfl)
      refine ⟨by simp only; omega, ?_, h.unique⟩
      rw [← h.free_iff]
      simp only
      omega
  | spin =>
    simp only [atomicLock] at hstep
    split at hstep <;> (injection hstep with hl _; exact hl ▸ h)

theorem lock_found_free (h : LockInv l crit) (hstep : atomicLock pc l = (l', none)) :
    l'.counter = 0 ∧ ∀ u, ¬ crit u := by
  cases pc with
  | decr =>
    simp only [atomicLock] at hstep
    split at hstep
    next hz =>
      injection hstep with hl _
      subst hl
      exact ⟨hz, h.free_iff.mp (by omega)⟩
    · cases hstep
  | spin =>
    simp only [atomicLock] at hstep
    split at hstep <;> cases hstep

theorem taken (hz : l'.counter = 0) (hcrit : ∀ u, crit' u ↔ u = t) :
    LockInv l' crit' where
  le_one := by omega
  free_iff := by
    constructor
    · intro hc
      omega
    · intro hno
      exact absurd ((hcrit t).mpr rfl) (hno t)
  unique u v hu hv := by rw [(hcrit u).mp hu, (hcrit v).mp hv]

section

variable (h : LockInv l crit)
include h

theorem lock_acquired (hstep : atomicLock pc l = (l', none))
    (hcrit : ∀ u, crit' u ↔ u = t) : LockInv l' crit' :=
  taken (h.lock_found_free hstep).1 hcrit

theorem trylock_pending {pc : TrylockPc} {r : TrylockPc ⊕ Bool} (hr : r ≠ .inr true)
    (hstep : atomicTrylock pc l = (l', r)) : LockInv l' crit := by
  have hle := h.le_one
  cases pc with
  | read =>
    simp only [atomicTrylock] at hstep
    split at hstep <;> (injection hstep with hl _; exact hl ▸ h)
  | decr =>
    simp only [atomicTrylock] at hstep
    injection hstep with hl hr'
    subst hl hr'
    have hne1 : l.counter ≠ 1 := by
      intro h1
      apply hr
      simp [h1]
    refine ⟨by simp only; omega, ?_, h.unique⟩
    rw [← h.free_iff]
    simp only
    omega

theorem trylock_found_free {pc : TrylockPc} (hstep : atomicTrylock pc l = (l', .inr true)) :
    l'.counter = 0 ∧ ∀ u, ¬ crit u := by
  cases pc with
  | read =>
    simp only [atomicTrylock] at hstep
    split at hstep <;> simp at hstep
  | decr =>
    have hlock : atomicLock .decr l = (l', none) := by
      simp only [atomicTrylock, Prod.mk.injEq, Sum.inr.injEq,
        decide_eq_true_eq] at hstep
      simp only [atomicLock]
      rw [if_pos hstep.2, hstep.1]
    exact h.lock_found_free hlock

theorem trylock_acquired {pc : TrylockPc} (hstep : atomicTrylock pc l = (l', .inr true))
    (hcrit : ∀ u, crit' u ↔ u = t) : LockInv l' crit' :=
  taken (h.trylock_found_free hstep).1 hcrit

theorem unlock_pending {pc pc' : UnlockPc} (hstep : atomicUnlock pc l = (l', some pc')) :
    LockInv l' crit := by
  cases pc with
  | testSync =>
    simp only [atomicUnlock] at hstep
    split at hstep <;> (injection hstep with hl _; exact hl ▸ h)
  | clearSync =>
    simp only [atomicUnlock] at hstep
    injection hstep with hl _
    subst hl
    exact ⟨h.le_one, h.free_iff, h.unique⟩
  | write => simp [atomicUnlock] at hstep

theorem unlock_released {pc : UnlockPc} (hstep : atomicUnlock pc l = (l', none))
    (ht : crit t) (hcrit : ∀ u, crit' u ↔ crit u ∧ u ≠ t) : LockInv l' crit' := by
  cases pc with
  | testSync =>
    simp only [atomicUnlock] at hstep
    split at hstep <;> simp at hstep
  | clearSync => simp [atomicUnlock] at hstep
  | write =>
    simp only [atomicUnlock] at hstep
    injection hstep with hl _
    subst hl
    have hno : ∀ u, ¬ crit' u := fun u hu =>
      ((hcrit u).mp hu).2 (h.unique u t ((hcrit u).mp hu).1 ht)
    exact ⟨Int.le_refl _, ⟨fun _ => hno, fun _ => rfl⟩,
      fun u _ hu => absurd hu (hno u)⟩

end

end LockInv

end XKaapi
