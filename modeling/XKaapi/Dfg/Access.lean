/-
Access modes, as the bit words they are (src/kaapi.h, enum
`kaapi_access_mode_t` and the `KAAPI_ACCESS_*` macros), and a task as the
data-flow analyses see it: the list of its parameters.

`getMode` drops the flags T, P and IP, so after it a mode is one of V, R,
W, RW, CW or a combination with the stack bit S. `IsDfgMode` says that it
is one of the five without S; the lemmas at the end evaluate the macros
on them, once and for all.
-/
import Mathlib.Tactic.Common

namespace XKaapi.Dfg

-- ======== modes

/-- `kaapi_access_mode_t`. -/
abbrev AccessMode := BitVec 8

def modeVoid : AccessMode := 0
def modeV : AccessMode := 1
def modeR : AccessMode := 2
def modeW : AccessMode := 4
def modeCW : AccessMode := 8
def modeS : AccessMode := 16
def modeP : AccessMode := 64
def modeRW : AccessMode := modeR ||| modeW

/-- `KAAPI_ACCESS_MASK_MODE`: without T, P, IP. -/
def maskMode : AccessMode := 0x1F

/-- `KAAPI_ACCESS_GET_MODE`. -/
def getMode (m : AccessMode) : AccessMode := m &&& maskMode

/-- `KAAPI_ACCESS_IS_READ`. -/
def accessIsRead (m : AccessMode) : Bool := m &&& modeR != 0

/-- `KAAPI_ACCESS_IS_WRITE`. CW has a bit of its own: it is no W. -/
def accessIsWrite (m : AccessMode) : Bool := m &&& modeW != 0

/-- `KAAPI_ACCESS_IS_CUMULWRITE`. -/
def accessIsCumulwrite (m : AccessMode) : Bool := m &&& modeCW != 0

/-- `KAAPI_ACCESS_IS_STACK`. -/
def accessIsStack (m : AccessMode) : Bool := m &&& modeS != 0

/-- `KAAPI_ACCESS_IS_ONLYWRITE`. -/
def accessIsOnlywrite (m : AccessMode) : Bool :=
  accessIsWrite m && !accessIsRead m

/-- `KAAPI_ACCESS_IS_READWRITE`. -/
def accessIsReadwrite (m : AccessMode) : Bool :=
  m &&& maskMode == modeW ||| modeR

/-- `KAAPI_ACCESS_IS_CONCURRENT`: both R, both CW, or one postponed. -/
def accessIsConcurrent (a b : AccessMode) : Bool :=
  (a == b && (b == modeR || b == modeCW)) || (a ||| b) &&& modeP != 0

/-- The address of a datum. -/
abbrev Addr := Nat

/-- One parameter of a task: its mode and the datum its access points to.
The two together are what `kaapi_format_get_mode_param` and
`kaapi_format_get_access_param` answer for it. -/
structure Param where
  mode : AccessMode
  data : Addr
deriving DecidableEq, Repr

namespace Param

/-- The mode the analyses work on. -/
def m (p : Param) : AccessMode := getMode p.mode

/-- The parameter is one of R, W, RW, CW: it goes through a datum. -/
def shared (p : Param) : Bool := p.m != modeV

/-- The parameter's mode is V, R, W, RW or CW. -/
def IsDfgMode (p : Param) : Prop :=
  p.m = modeV ∨ p.m = modeR ∨ p.m = modeW ∨ p.m = modeRW ∨ p.m = modeCW

instance (p : Param) : Decidable p.IsDfgMode :=
  inferInstanceAs (Decidable
    (p.m = modeV ∨ p.m = modeR ∨ p.m = modeW ∨ p.m = modeRW ∨ p.m = modeCW))

/-- The task uses the value it finds in the datum: R or RW. -/
def reads (p : Param) : Bool := p.m == modeR || p.m == modeRW

/-- The task changes the datum: W, RW or CW. -/
def writes (p : Param) : Bool :=
  p.m == modeW || p.m == modeRW || p.m == modeCW

end Param

-- ======== the five modes

variable {p : Param}

theorem Param.IsDfgMode.ne_void (h : p.IsDfgMode) : p.m ≠ modeVoid := by
  rcases h with h | h | h | h | h <;> rw [h] <;> decide

theorem Param.IsDfgMode.cases_shared (h : p.IsDfgMode) (hs : p.shared = true) :
    p.m = modeR ∨ p.m = modeW ∨ p.m = modeRW ∨ p.m = modeCW := by
  rcases h with h | h
  · simp [Param.shared, h] at hs
  · exact h

theorem Param.shared_of_writes (h : p.writes = true) : p.shared = true := by
  simp only [Param.writes, Bool.or_eq_true, beq_iff_eq] at h
  rcases h with (h | h) | h <;> rw [Param.shared, h] <;> decide

theorem Param.shared_of_reads (h : p.reads = true) : p.shared = true := by
  simp only [Param.reads, Bool.or_eq_true, beq_iff_eq] at h
  rcases h with h | h <;> rw [Param.shared, h] <;> decide

end XKaapi.Dfg
