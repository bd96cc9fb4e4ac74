/-
The OpenMP locks (libgomp_lock.c), one access to the lock per step, and
what a lock is for.

A simple lock is its counter: 1 when it is free, taken by the decrement
that makes it 0, put back by the store of 1. A nestable lock has an owner,
which is read without holding the lock, and a count, which only the owner
touches. The owner is the context of a task (`komp_get_ctxt`).

`count` is an `int`. The counter is one too: contenders take it down by two
each at most between two stores of 1, as in Atomic/LockRuns, so that it
stays an `Int` here.

The abstract lock is the history of the calls that are over: who holds it
and how many acquisitions are in progress.
-/
import XKaapi.Atomic.Lock
import XKaapi.Foreach.Run

namespace XKaapi.Omp

open XKaapi.Foreach (toInt32)

-- ======== simple locks

/-- `komp_init_lock_30` -/
def kompInitLock : Int := 1

/-- `komp_set_lock_30`: decrement and test, else spin on reads. -/
def kompSetLock (pc : LockPc) (lock : Int) : Int × Option LockPc :=
  match pc with
  | .decr => (lock - 1, if lock - 1 = 0 then none else some .spin)
  | .spin => (lock, if lock ≤ 0 then some .spin else some .decr)

/-- `komp_unset_lock_30` -/
def kompUnsetLock : Int := 1

/-- `komp_test_lock_30`: read, and only then decrement. -/
def kompTestLock (pc : TrylockPc) (lock : Int) : Int × (TrylockPc ⊕ Bool) :=
  match pc with
  | .read => (lock, if lock = 1 then .inl .decr else .inr false)
  | .decr => (lock - 1, .inr (decide (lock - 1 = 0)))

-- ======== nestable locks

/-- `omp_nest_lock_t`; the tasks are known by their contexts. -/
structure NestLock (τ : Type) where
  lock : Int
  count : Int
  owner : Option τ
deriving DecidableEq, Repr

/-- `komp_init_nest_lock_30` -/
def kompInitNestLock {τ : Type} : NestLock τ where
  lock := kompInitLock
  count := 0
  owner := none

inductive LockKind
  | simple
  | nest
deriving DecidableEq, Repr

/-- Where a task stands in its call. The inner calls of
`komp_set_nest_lock_30` and the like are those of the simple lock. -/
inductive LockCall
  | out
  | set (pc : LockPc)
  | test (pc : TrylockPc)
  | unset
  /-- `lock->owner != me` -/
  | setOwner
  /-- `lock->owner = me` -/
  | setClaim
  /-- `lock->count++`, its read and its write -/
  | setCount
  | setStore (count : Int)
  | testOwner
  | testCount
  | testStore (count : Int)
  /-- `return lock->count` -/
  | testReturn
  | testClaim
  /-- `lock->count=1` -/
  | testOne
  /-- `--lock->count`, its read and its write -/
  | unsetCount
  | unsetStore (count : Int)
  /-- `lock->owner = NULL` -/
  | unsetOwner
deriving DecidableEq, Repr

-- ======== the abstract lock

/-- A call that is over: a test with its result, an unset with whether it
released the lock. -/
inductive LockEvent (τ : Type)
  | set (t : τ)
  | tested (t : τ) (result : Int)
  | unset (t : τ) (released : Bool)
deriving DecidableEq, Repr

/-- Who holds the lock, and the acquisitions in progress. -/
abbrev Holding (τ : Type) := Option (τ × Nat)

section Holding

variable {τ : Type} [DecidableEq τ]

/-- The acquisitions of a task that are in progress. -/
def Holding.nesting (h : Holding τ) (t : τ) : Nat :=
  match h with
  | none => 0
  | some (u, n) => if u = t then n else 0

/-- A task acquires the lock: it is free, or nestable and its own. -/
def Holding.acquire (k : LockKind) (t : τ) : Holding τ → Option (Holding τ)
  | none => some (some (t, 1))
  | some (u, n) => if k = .nest ∧ u = t then some (some (t, n + 1)) else none

/-- What may happen to a lock: the test of a nestable lock returns the
acquisitions in progress, and fails only for a task that has none; the lock
is released by the unset of the last one. -/
def LockEvent.apply (k : LockKind) : LockEvent τ → Holding τ → Option (Holding τ)
  | .set t, h => h.acquire k t
  | .tested t result, h =>
    if result = 0 then
      if k = .nest ∧ h.nesting t ≠ 0 then none else some h
    else
      match h.acquire k t with
      | some (some (u, n)) => if result = n then some (some (u, n)) else none
      | _ => none
  | .unset _ _, none => none
  | .unset t released, some (u, n) =>
    if u = t ∧ released = (n == 1) then
      some (if n = 1 then none else some (u, n - 1))
    else none

/-- Who holds the lock after the calls. -/
def holding (k : LockKind) (log : List (LockEvent τ)) : Option (Holding τ) :=
  log.foldlM (fun h e => e.apply k h) none

end Holding

-- ======== the machine

/-- The lock, the calls and what has returned. -/
structure LockState (τ : Type) where
  lock : NestLock τ
  call : τ → LockCall
  log : List (LockEvent τ)

inductive LockAction (τ : Type)
  | set (t : τ)
  | test (t : τ)
  | unset (t : τ)
  /-- the next access of the call of a task -/
  | step (t : τ)
deriving DecidableEq, Repr

def LockState.init {τ : Type} : LockState τ where
  lock := kompInitNestLock
  call _ := .out
  log := []

namespace LockState

variable {τ : Type} [DecidableEq τ]

/-- The call of a task goes on, with the lock that it leaves. -/
def goes (s : LockState τ) (t : τ) (lock : NestLock τ) (c : LockCall) : LockState τ where
  lock := lock
  call := Function.update s.call t c
  log := s.log

/-- The call of a task is over. -/
def returns (s : LockState τ) (t : τ) (lock : NestLock τ) (e : LockEvent τ) :
    LockState τ where
  lock := lock
  call := Function.update s.call t .out
  log := s.log ++ [e]

/-- The acquisitions of a task in progress. -/
def nesting (k : LockKind) (s : LockState τ) (t : τ) : Nat :=
  ((holding k s.log).getD none).nesting t

/-- A task begins a call. -/
def begins (s : LockState τ) (t : τ) (c : LockCall) : Option (LockState τ) :=
  if s.call t = .out then some (s.goes t s.lock c) else none

/-- After an access of `komp_set_lock_30`. -/
def afterSet (k : LockKind) (s : LockState τ) (t : τ) :
    Int × Option LockPc → LockState τ
  | (w, some pc) => s.goes t { s.lock with lock := w } (.set pc)
  | (w, none) =>
    match k with
    | .simple => s.returns t { s.lock with lock := w } (.set t)
    | .nest => s.goes t { s.lock with lock := w } .setClaim

/-- After an access of `komp_test_lock_30`. -/
def afterTest (k : LockKind) (s : LockState τ) (t : τ) :
    Int × (TrylockPc ⊕ Bool) → LockState τ
  | (w, .inl pc) => s.goes t { s.lock with lock := w } (.test pc)
  | (w, .inr false) => s.returns t { s.lock with lock := w } (.tested t 0)
  | (w, .inr true) =>
    match k with
    | .simple => s.returns t { s.lock with lock := w } (.tested t 1)
    | .nest => s.goes t { s.lock with lock := w } .testClaim

/-- The next access of a call. -/
def access (k : LockKind) (s : LockState τ) (t : τ) (c : LockCall) :
    Option (LockState τ) :=
  let l := s.lock
  match c with
  | .out => none
  | .set pc => some (s.afterSet k t (kompSetLock pc l.lock))
  | .test pc => some (s.afterTest k t (kompTestLock pc l.lock))
  | .unset => some (s.returns t { l with lock := kompUnsetLock } (.unset t true))
  | .setOwner =>
    some (s.goes t l (if l.owner ≠ some t then .set .decr else .setCount))
  | .setClaim => some (s.goes t { l with owner := some t } .setCount)
  | .setCount => some (s.goes t l (.setStore (toInt32 (l.count + 1))))
  | .setStore v => some (s.returns t { l with count := v } (.set t))
  | .testOwner =>
    some (s.goes t l (if l.owner = some t then .testCount else .test .read))
  | .testCount => some (s.goes t l (.testStore (toInt32 (l.count + 1))))
  | .testStore v => some (s.goes t { l with count := v } .testReturn)
  | .testReturn => some (s.returns t l (.tested t l.count))
  | .testClaim => some (s.goes t { l with owner := some t } .testOne)
  | .testOne => some (s.returns t { l with count := 1 } (.tested t 1))
  | .unsetCount => some (s.goes t l (.unsetStore (toInt32 (l.count - 1))))
  | .unsetStore v =>
    some (if v = 0 then s.goes t { l with count := v } .unsetOwner
      else s.returns t { l with count := v } (.unset t false))
  | .unsetOwner => some (s.goes t { l with owner := none } .unset)

def next (k : LockKind) (s : LockState τ) (t : τ) : Option (LockState τ) :=
  s.access k t (s.call t)

/-- Any interleaving of the calls. The unset of a lock that the task does
not hold is no call of OpenMP. -/
def step (k : LockKind) : LockAction τ → LockState τ → Option (LockState τ)
  | .set t, s => s.begins t (match k with | .simple => .set .decr | .nest => .setOwner)
  | .test t, s => s.begins t (match k with | .simple => .test .read | .nest => .testOwner)
  | .unset t, s =>
    if s.nesting k t = 0 then none
    else s.begins t (match k with | .simple => .unset | .nest => .unsetCount)
  | .step t, s => s.next k t

end LockState

end XKaapi.Omp
