/-
The adaptive work queue `kaapi_workqueue_t` and its T.H.E. protocol
(src/kaapi.h, src/misc/kaapi_wq_slowpop.c), one shared access per step.

The queue is a range `[rep.li.beg, rep.li.end)`. Its owner pops from the
front without a lock: `kaapi_workqueue_pop` stores the advanced `beg`,
then reads `end`, and on a conflict restores `beg` and retries under the
lock in `kaapi_workqueue_slowpop`. Thieves hold the lock and mirror it
from the back: `kaapi_workqueue_steal` stores the lowered `end`, then
reads `beg`, and on a conflict restores `end`.

# The machine

`step` interleaves one owner and any number of thieves, sequentially
consistently: an action is either a call (`popCall`, `lockCall`, ...) or
one party's next atomic step. A thief may steal as often as it likes
between its lock and its unlock. Return values are recorded in `pops`
and `steals`, the most recent steal first.

The indices are `Int`: `kaapi_workqueue_index_t` is a signed `long`, so
on the ranges whose additions do not overflow this is its arithmetic,
and on the others C gives the code no meaning. `kwq->lock` is set, as
`kaapi_workqueue_init_with_lock` asserts, so the `ESRCH` exit of the
slow path is not taken.
-/
import XKaapi.Lib.Run
import XKaapi.Atomic.Lock

namespace XKaapi.Workqueue

-- ======== state

/-- Where the owner stands in `kaapi_workqueue_pop` and
`kaapi_workqueue_slowpop`. The arguments are the C locals that are live
there. -/
inductive OwnerPc
  | idle
  | popReadBeg (maxSize : Int)
  | popWriteBeg (maxSize locInit : Int)
  | popReadEnd (maxSize locInit : Int)
  | popRollback (maxSize locInit : Int)
  | slowLock (maxSize : Int) (pc : LockPc)
  | slowReadBeg (maxSize : Int)
  | slowReadEnd (maxSize locBeg : Int)
  | slowWriteBeg (size locBeg : Int)
  | slowUnlock (res : Option (Int × Int)) (pc : UnlockPc)
deriving DecidableEq, Repr

/-- Where a thief stands: outside the lock, taking it, holding it between
two steals, inside `kaapi_workqueue_steal`, or releasing it. -/
inductive ThiefPc
  | out
  | locking (pc : LockPc)
  | trylocking (pc : TrylockPc)
  | held
  | stealReadEnd (size : Int)
  | stealWriteEnd (size locInit : Int)
  | stealReadBeg (size locInit : Int)
  | stealRollback (size locInit : Int)
  | unlocking (pc : UnlockPc)
deriving DecidableEq, Repr

/-- The shared queue, every party's position, and what was returned. -/
structure St where
  liBeg : Int
  liEnd : Int
  lock : KaapiLock
  owner : OwnerPc
  thief : Nat → ThiefPc
  pops : List (Int × Int)
  steals : List (Int × Int)

/-- `kaapi_workqueue_init_with_lock` on `[b, e)`, nobody started yet. -/
def workqueueInit (b e : Int) : St where
  liBeg := b
  liEnd := e
  lock := atomicInitlock
  owner := .idle
  thief := fun _ => .out
  pops := []
  steals := []

/-- Move thief `t` to another position. -/
def St.setThief (s : St) (t : Nat) (pc : ThiefPc) : St :=
  { s with thief := Function.update s.thief t pc }

-- ======== steps

/-- The owner's next shared access. -/
def ownerStep (s : St) : Option St :=
  match s.owner with
  | .idle => none
  | .popReadBeg maxSize =>
    some { s with owner := .popWriteBeg maxSize s.liBeg }
  | .popWriteBeg maxSize locInit =>
    some { s with
      liBeg := locInit + maxSize
      owner := .popReadEnd maxSize locInit }
  | .popReadEnd maxSize locInit =>
    let locBeg := locInit + maxSize
    if locBeg < s.liEnd then
      some { s with
        owner := .idle
        pops := s.pops ++ [(locBeg - maxSize, locBeg)] }
    else some { s with owner := .popRollback maxSize locInit }
  | .popRollback maxSize locInit =>
    some { s with liBeg := locInit, owner := .slowLock maxSize .decr }
  | .slowLock maxSize pc =>
    match atomicLock pc s.lock with
    | (l, some pc') =>
      some { s with lock := l, owner := .slowLock maxSize pc' }
    | (l, none) => some { s with lock := l, owner := .slowReadBeg maxSize }
  | .slowReadBeg maxSize =>
    some { s with owner := .slowReadEnd maxSize s.liBeg }
  | .slowReadEnd maxSize locBeg =>
    let size := s.liEnd - locBeg
    -- empty_case: unlock and return EBUSY
    if size = 0 then some { s with owner := .slowUnlock none .testSync }
    else
      let size := if size > maxSize then maxSize else size
      some { s with owner := .slowWriteBeg size locBeg }
  | .slowWriteBeg size locBeg =>
    let locBeg := locBeg + size
    some { s with
      liBeg := locBeg
      owner := .slowUnlock (some (locBeg - size, locBeg)) .testSync }
  | .slowUnlock res pc =>
    match atomicUnlock pc s.lock with
    | (l, some pc') =>
      some { s with lock := l, owner := .slowUnlock res pc' }
    | (l, none) =>
      some { s with
        lock := l
        owner := .idle
        pops := s.pops ++ res.toList }

/-- Thief `t`'s next shared access. -/
def thiefStep (t : Nat) (s : St) : Option St :=
  match s.thief t with
  | .out => none
  | .held => none
  | .locking pc =>
    match atomicLock pc s.lock with
    | (l, some pc') => some ({ s with lock := l }.setThief t (.locking pc'))
    | (l, none) => some ({ s with lock := l }.setThief t .held)
  | .trylocking pc =>
    match atomicTrylock pc s.lock with
    | (l, .inl pc') =>
      some ({ s with lock := l }.setThief t (.trylocking pc'))
    | (l, .inr true) => some ({ s with lock := l }.setThief t .held)
    | (l, .inr false) => some ({ s with lock := l }.setThief t .out)
  | .stealReadEnd size => some (s.setThief t (.stealWriteEnd size s.liEnd))
  | .stealWriteEnd size locInit =>
    some ({ s with liEnd := locInit - size }.setThief t
      (.stealReadBeg size locInit))
  | .stealReadBeg size locInit =>
    let locEnd := locInit - size
    if locEnd < s.liBeg then
      some (s.setThief t (.stealRollback size locInit))
    else
      some ({ s with
        steals := (locEnd, locEnd + size) :: s.steals }.setThief t .held)
  | .stealRollback _ locInit =>
    -- return ERANGE
    some ({ s with liEnd := locInit }.setThief t .held)
  | .unlocking pc =>
    match atomicUnlock pc s.lock with
    | (l, some pc') =>
      some ({ s with lock := l }.setThief t (.unlocking pc'))
    | (l, none) => some ({ s with lock := l }.setThief t .out)

/-- A call, or one party's next atomic step. -/
inductive Act
  | popCall (maxSize : Int)
  | owner
  | lockCall (t : Nat)
  | trylockCall (t : Nat)
  | stealCall (t : Nat) (size : Int)
  | unlockCall (t : Nat)
  | thief (t : Nat)
deriving DecidableEq, Repr

/-- One step of the whole system. Sizes are positive, as both functions
assert, and `kaapi_workqueue_steal` is only called under the lock. -/
def step (a : Act) (s : St) : Option St :=
  match a with
  | .popCall maxSize =>
    if s.owner = .idle ∧ 0 < maxSize then
      some { s with owner := .popReadBeg maxSize }
    else none
  | .owner => ownerStep s
  | .lockCall t =>
    if s.thief t = .out then some (s.setThief t (.locking .decr)) else none
  | .trylockCall t =>
    if s.thief t = .out then
      some (s.setThief t (.trylocking .read))
    else none
  | .stealCall t size =>
    if s.thief t = .held ∧ 0 < size then
      some (s.setThief t (.stealReadEnd size))
    else none
  | .unlockCall t =>
    if s.thief t = .held then
      some (s.setThief t (.unlocking .testSync))
    else none
  | .thief t => thiefStep t s

-- ======== critical sections

/-- The owner holds the lock. -/
def OwnerPc.crit : OwnerPc → Bool
  | .slowReadBeg _ | .slowReadEnd _ _ | .slowWriteBeg _ _
  | .slowUnlock _ _ => true
  | _ => false

/-- The thief holds the lock. -/
def ThiefPc.crit : ThiefPc → Bool
  | .out | .locking _ | .trylocking _ => false
  | _ => true

/-- The thief is inside `kaapi_workqueue_steal`. -/
def ThiefPc.stealing : ThiefPc → Bool
  | .stealReadEnd _ | .stealWriteEnd _ _ | .stealReadBeg _ _
  | .stealRollback _ _ => true
  | _ => false

/-- Who holds the lock: `none` is the owner, `some t` thief `t`. -/
def St.crit (s : St) : Option Nat → Prop
  | none => s.owner.crit = true
  | some t => (s.thief t).crit = true

/-- No pop and no steal is in flight. -/
def St.Quiescent (s : St) : Prop :=
  s.owner = .idle ∧ ∀ t, (s.thief t).stealing = false

-- ======== frame facts

namespace St

variable (s : St) (t : Nat) (pc : ThiefPc)

@[simp] theorem setThief_liBeg : (s.setThief t pc).liBeg = s.liBeg := rfl
@[simp] theorem setThief_liEnd : (s.setThief t pc).liEnd = s.liEnd := rfl
@[simp] theorem setThief_lock : (s.setThief t pc).lock = s.lock := rfl
@[simp] theorem setThief_owner : (s.setThief t pc).owner = s.owner := rfl
@[simp] theorem setThief_pops : (s.setThief t pc).pops = s.pops := rfl
@[simp] theorem setThief_steals : (s.setThief t pc).steals = s.steals := rfl

@[simp] theorem setThief_self : (s.setThief t pc).thief t = pc := by
  simp [setThief]

theorem setThief_ne {u : Nat} (hne : u ≠ t) :
    (s.setThief t pc).thief u = s.thief u := by
  simp [setThief, hne]

theorem crit_setThief (p : Option Nat) :
    (s.setThief t pc).crit p
      ↔ (p = some t ∧ pc.crit = true) ∨ (p ≠ some t ∧ s.crit p) := by
  cases p with
  | none => simp [crit]
  | some u =>
    by_cases hu : u = t
    · subst hu
      simp [crit]
    · simp [crit, setThief_ne s t pc hu, hu]

end St

end XKaapi.Workqueue
