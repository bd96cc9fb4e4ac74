/-
The work queue of the loops, `work_queue_t<64>`
(api/kastl/kastl/kastl_workqueue.h), one shared access per step.

The queue is a range `[_beg, _end)`. Its owner pops from the front: `pop`
advances `_beg`, then reads `_end`, and on a conflict `slow_pop` takes the
advance back and tries again under the lock. A thief holds the lock: it
lowers `_end`, then reads `_beg`, and on a conflict takes all but one of
the lowering back and tries again for one element. `set` and `clear` are
the owner's, under the lock.

# The machine

`step` interleaves one owner and any number of thieves, sequentially
consistently: an action is either a call or one party's next read or write
of `_beg`, `_end` or `_lock`. Operands are read from left to right.

`pops` and `steals` are what was returned since the range was last set: a
pop is recorded where it returns, a steal where it reads `r.first`, which
decides its result and is still under the lock, so that no `set` comes
between. `first` and `last` are that range.

# The words

`index_type` is `int64_t`, and a size is an index too. An addition that
leaves the range has no meaning in C; the machine takes the word the
processor stores, and nothing proved here rests on it.
-/
import Mathlib.Algebra.Group.Int.Defs
import Mathlib.Algebra.Group.Nat.Defs
import XKaapi.Lib.Run

namespace XKaapi.Kastl.WorkQueue

-- ======== words

/-- `std::numeric_limits<index_type>::min()`. -/
def indexMin : Int := -2 ^ 63

/-- `std::numeric_limits<index_type>::max()`. -/
def indexMax : Int := 2 ^ 63 - 1

/-- A value of `index_type`. -/
def IsIndex (x : Int) : Prop := indexMin ≤ x ∧ x ≤ indexMax

instance (x : Int) : Decidable (IsIndex x) :=
  inferInstanceAs (Decidable (_ ∧ _))

/-- The word stored for `x`. -/
def toIndex (x : Int) : Int := x.bmod (2 ^ 64)

theorem toIndex_of_isIndex {x : Int} (h : IsIndex x) : toIndex x = x := by
  simp only [IsIndex, indexMin, indexMax] at h
  exact Int.bmod_eq_of_le (by omega) (by omega)

-- ======== state

/-- The two `pop`s: of one element, with the `item` read first, and of a
range. -/
inductive Pop
  | item (i : Int)
  | range (size : Int)
deriving DecidableEq, Repr

/-- How far the fast path advances `_beg`. -/
def Pop.size : Pop → Int
  | .item _ => 1
  | .range size => size

/-- What `slow_pop`'s range becomes: `item = r.first`, or `r`. -/
def Pop.result (first last : Int) : Pop → Int × Int
  | .item _ => (first, first + 1)
  | .range _ => (first, last)

/-- Where the owner stands in `pop`, `slow_pop`, `set` and `clear`. The
arguments are the C locals that are live there, and a value read for the
access that follows. -/
inductive OwnerPc
  | idle
  | itemRead
  | popRead (w : Pop)
  | popWrite (w : Pop) (b : Int)
  | popTestBeg (w : Pop)
  | popTestEnd (w : Pop) (b : Int)
  | popLast (size : Int)
  | abortRead (w : Pop)
  | abortWrite (w : Pop) (b : Int)
  | slowLock (w : Pop)
  | slowFirst (w : Pop)
  | slowTestBeg (w : Pop) (first : Int)
  | slowTestEnd (w : Pop) (first b : Int)
  | slowSizeEnd (w : Pop) (first : Int)
  | slowSizeBeg (w : Pop) (first e : Int)
  | slowRead (w : Pop) (sizeMax first : Int)
  | slowWrite (w : Pop) (sizeMax first b : Int)
  | slowUnlock (w : Pop) (first : Int)
  | slowLast (w : Pop) (first : Int)
  | slowFail
  | setLock (first last : Int)
  | setMin (first last : Int)
  | setBeg (first last : Int)
  | setEnd (first last : Int)
  | clearLock
  | clearEnd
  | clearBeg
  | unlock
deriving DecidableEq, Repr

/-- Where a thief stands in `steal`: outside, taking the lock, in its
first attempt, in its second one, restoring, or releasing the lock. -/
inductive ThiefPc
  | out
  | locking (size : Int)
  | lowerRead (size : Int)
  | lowerWrite (size e : Int)
  | testEnd (size : Int)
  | testBeg (size e : Int)
  | takeFirst (size : Int)
  | retryRead (size : Int)
  | retryWrite (size e : Int)
  | retestBeg (size : Int)
  | retestEnd (size b : Int)
  | oneFirst (size : Int)
  | restoreRead
  | restoreWrite (e : Int)
  | unlocking
deriving DecidableEq, Repr

/-- The shared words, every party's position, the range last set and what
was returned since: the popped ranges, and the stolen ones, the most
recent first, each with the size asked for. -/
structure St where
  beg : Int
  fin : Int
  lock : Int
  owner : OwnerPc
  thief : Nat → ThiefPc
  first : Int
  last : Int
  pops : List (Int × Int)
  steals : List (Int × (Int × Int))

/-- `work_queue_t( r )` for `r = [first, last)`, nobody started yet. -/
def queueInit (first last : Int) : St where
  beg := first
  fin := last
  lock := 0
  owner := .idle
  thief := fun _ => .out
  first := first
  last := last
  pops := []
  steals := []

/-- Move thief `t` to another position. -/
def St.setThief (s : St) (t : Nat) (pc : ThiefPc) : St :=
  { s with thief := Function.update s.thief t pc }

-- ======== steps

/-- The owner's next shared access. -/
def ownerStep (s : St) : Option St :=
  match s.owner with
  | .idle => none
  | .itemRead => some { s with owner := .popRead (.item s.beg) }
  | .popRead w => some { s with owner := .popWrite w s.beg }
  | .popWrite w b =>
    some { s with
      beg := toIndex (b + w.size)
      owner := .popTestBeg w }
  | .popTestBeg w => some { s with owner := .popTestEnd w s.beg }
  | .popTestEnd w b =>
    if b > s.fin then some { s with owner := .abortRead w }
    else
      match w with
      | .item i => some { s with owner := .idle, pops := s.pops ++ [(i, i + 1)] }
      | .range size => some { s with owner := .popLast size }
  | .popLast size =>
    let last := s.beg
    some { s with
      owner := .idle
      pops := s.pops ++ [(toIndex (last - size), last)] }
  -- `slow_pop`: abort the transaction, then retry under the lock
  | .abortRead w => some { s with owner := .abortWrite w s.beg }
  | .abortWrite w b =>
    some { s with
      beg := toIndex (b - w.size)
      owner := .slowLock w }
  | .slowLock w =>
    if s.lock = 0 then some { s with lock := 1, owner := .slowFirst w }
    else some s
  | .slowFirst w => some { s with owner := .slowTestBeg w s.beg }
  | .slowTestBeg w first =>
    some { s with owner := .slowTestEnd w first (toIndex (s.beg + w.size)) }
  | .slowTestEnd w first b =>
    if b > s.fin then some { s with owner := .slowSizeEnd w first }
    else some { s with owner := .slowRead w w.size first }
  | .slowSizeEnd w first => some { s with owner := .slowSizeBeg w first s.fin }
  | .slowSizeBeg w first e =>
    let sizeMax := toIndex (e - s.beg)
    if sizeMax = 0 then some { s with owner := .slowFail }
    else some { s with owner := .slowRead w sizeMax first }
  | .slowRead w sizeMax first =>
    some { s with owner := .slowWrite w sizeMax first s.beg }
  | .slowWrite w sizeMax first b =>
    some { s with
      beg := toIndex (b + sizeMax)
      owner := .slowUnlock w first }
  | .slowUnlock w first => some { s with lock := 0, owner := .slowLast w first }
  | .slowLast w first =>
    some { s with
      owner := .idle
      pops := s.pops ++ [w.result first s.beg] }
  | .slowFail => some { s with lock := 0, owner := .idle }
  -- `set`: the queue is empty until its last write
  | .setLock first last =>
    if s.lock = 0 then some { s with lock := 1, owner := .setMin first last }
    else some s
  | .setMin first last =>
    some { s with fin := indexMin, owner := .setBeg first last }
  | .setBeg first last => some { s with beg := first, owner := .setEnd first last }
  | .setEnd first last =>
    some { s with
      fin := last
      owner := .unlock
      first := first
      last := last
      pops := []
      steals := [] }
  | .clearLock =>
    if s.lock = 0 then some { s with lock := 1, owner := .clearEnd }
    else some s
  | .clearEnd => some { s with fin := 0, owner := .clearBeg }
  | .clearBeg =>
    some { s with
      beg := 0
      owner := .unlock
      first := 0
      last := 0
      pops := []
      steals := [] }
  | .unlock => some { s with lock := 0, owner := .idle }

/-- Thief `t`'s next shared access. -/
def thiefStep (t : Nat) (s : St) : Option St :=
  match s.thief t with
  | .out => none
  | .locking size =>
    if s.lock = 0 then some ({ s with lock := 1 }.setThief t (.lowerRead size))
    else some s
  | .lowerRead size => some (s.setThief t (.lowerWrite size s.fin))
  | .lowerWrite size e =>
    some ({ s with fin := toIndex (e - size) }.setThief t (.testEnd size))
  | .testEnd size => some (s.setThief t (.testBeg size s.fin))
  | .testBeg size e =>
    if e < s.beg then some (s.setThief t (.retryRead size))
    else some (s.setThief t (.takeFirst size))
  | .takeFirst size =>
    let first := s.fin
    some ({ s with
      steals := (size, (first, toIndex (first + size))) :: s.steals }.setThief t
        .unlocking)
  -- the second attempt: all but one element are given back
  | .retryRead size => some (s.setThief t (.retryWrite size s.fin))
  | .retryWrite size e =>
    some ({ s with fin := toIndex (e + toIndex (size - 1)) }.setThief t
      (.retestBeg size))
  | .retestBeg size => some (s.setThief t (.retestEnd size s.beg))
  | .retestEnd size b =>
    if b < s.fin then some (s.setThief t (.oneFirst size))
    else some (s.setThief t .restoreRead)
  | .oneFirst size =>
    let first := s.fin
    some ({ s with
      steals := (size, (first, toIndex (first + 1))) :: s.steals }.setThief t
        .unlocking)
  | .restoreRead => some (s.setThief t (.restoreWrite s.fin))
  | .restoreWrite e =>
    some ({ s with fin := toIndex (e + 1) }.setThief t .unlocking)
  | .unlocking => some ({ s with lock := 0 }.setThief t .out)

/-- A call, or one party's next shared access. -/
inductive Act
  | popItem
  | pop (size : Int)
  | set (first last : Int)
  | clear
  | steal (t : Nat) (size : Int)
  | owner
  | thief (t : Nat)
deriving DecidableEq, Repr

/-- One step of the whole system: a party calls when its last call has
returned. -/
def step (a : Act) (s : St) : Option St :=
  match a with
  | .popItem =>
    if s.owner = .idle then some { s with owner := .itemRead } else none
  | .pop size =>
    if s.owner = .idle ∧ IsIndex size then
      some { s with owner := .popRead (.range size) }
    else none
  | .set first last =>
    if s.owner = .idle ∧ IsIndex first ∧ IsIndex last then
      some { s with owner := .setLock first last }
    else none
  | .clear =>
    if s.owner = .idle then some { s with owner := .clearLock } else none
  | .steal t size =>
    if s.thief t = .out ∧ IsIndex size then
      some (s.setThief t (.locking size))
    else none
  | .owner => ownerStep s
  | .thief t => thiefStep t s

-- ======== positions

/-- The owner holds the lock. -/
def OwnerPc.crit : OwnerPc → Bool
  | .slowFirst _ | .slowTestBeg _ _ | .slowTestEnd _ _ _ | .slowSizeEnd _ _
  | .slowSizeBeg _ _ _ | .slowRead _ _ _ | .slowWrite _ _ _ _
  | .slowUnlock _ _ | .slowFail | .setMin _ _ | .setBeg _ _ | .setEnd _ _
  | .clearEnd | .clearBeg | .unlock => true
  | _ => false

/-- The owner is in `set` or `clear`, before its last write. -/
def OwnerPc.resetting : OwnerPc → Bool
  | .setLock _ _ | .setMin _ _ | .setBeg _ _ | .setEnd _ _
  | .clearLock | .clearEnd | .clearBeg => true
  | _ => false

/-- The owner is in a `pop`. -/
def OwnerPc.popping : OwnerPc → Bool
  | .idle | .unlock => false
  | pc => !pc.resetting

/-- The thief holds the lock. -/
def ThiefPc.crit : ThiefPc → Bool
  | .out | .locking _ => false
  | _ => true

/-- The thief has lowered `_end` and neither kept nor restored it. -/
def ThiefPc.lowered : ThiefPc → Bool
  | .out | .locking _ | .lowerRead _ | .lowerWrite _ _ | .unlocking => false
  | _ => true

/-- Who holds the lock: `none` is the owner, `some t` thief `t`. -/
def St.crit (s : St) : Option Nat → Prop
  | none => s.owner.crit = true
  | some t => (s.thief t).crit = true

/-- No operation is in flight. -/
def St.Quiescent (s : St) : Prop :=
  s.owner = .idle ∧ ∀ t, s.thief t = .out

/-- `_end` is not in the middle of a change: no thief has it lowered, and
no `set` or `clear` has begun. So it is right after a thief took the lock
and when it releases it. -/
def St.Settled (s : St) : Prop :=
  s.owner.resetting = false ∧ ∀ t, (s.thief t).lowered = false

/-- The ranges returned since the range was last set. -/
def St.returned (s : St) : List (Int × Int) :=
  s.pops ++ s.steals.map Prod.snd

-- ======== frame facts

namespace St

variable (s : St) (t : Nat) (pc : ThiefPc)

@[simp] theorem setThief_beg : (s.setThief t pc).beg = s.beg := rfl
@[simp] theorem setThief_fin : (s.setThief t pc).fin = s.fin := rfl
@[simp] theorem setThief_lock : (s.setThief t pc).lock = s.lock := rfl
@[simp] theorem setThief_owner : (s.setThief t pc).owner = s.owner := rfl
@[simp] theorem setThief_first : (s.setThief t pc).first = s.first := rfl
@[simp] theorem setThief_last : (s.setThief t pc).last = s.last := rfl
@[simp] theorem setThief_pops : (s.setThief t pc).pops = s.pops := rfl
@[simp] theorem setThief_steals : (s.setThief t pc).steals = s.steals := rfl

@[simp] theorem setThief_self : (s.setThief t pc).thief t = pc := by
  simp [setThief]

theorem setThief_ne {u : Nat} (hne : u ≠ t) :
    (s.setThief t pc).thief u = s.thief u := by
  simp [setThief, hne]

theorem crit_setThief (p : Option Nat) :
    (s.setThief t pc).crit p
      ↔ (p = some t ∧ pc.crit = true) ∨ (p ≠ some t ∧ s.crit p) := by
  cases p with
  | none => simp [crit]
  | some u =>
    by_cases hu : u = t
    · subst hu
      simp [crit]
    · simp [crit, setThief_ne s t pc hu, hu]

end St

end XKaapi.Kastl.WorkQueue
