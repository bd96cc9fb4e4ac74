/-
The processor sets of KAAPI_CPUSET and its kin (kaapi_procinfo.c): the
parser, as the source has it, and the list that is made of what it marks.

A string is the characters before its final 0. `strtoul` skips blanks and
reads a sign, and its result is cut to 32 bits. Nothing compares an index
or a cpu with the size of an array, so an access may be outside of it:
this is the outcome `fault`.

The loop over a range would not end for the upper bound 2^32 - 1. It never
gets there: the index `max_count` is outside of the arrays.
-/
import Mathlib.Algebra.Group.Int.Defs
import Mathlib.Data.List.TakeDrop
import XKaapi.Steal.SuspendedQueue

namespace XKaapi.Machine

open XKaapi.Suspended (Cpuset)
open Function (update)

/-- Why there is no result: `EINVAL`, or an access outside of an array. -/
inductive Stop
  | einval
  | fault
deriving DecidableEq, Repr

-- ======== numbers

/-- `isspace` -/
def isSpace (c : Char) : Bool := c.toNat == 32 || (9 ≤ c.toNat && c.toNat ≤ 13)

def decimal (digits : List Char) : Nat :=
  digits.foldl (fun n c => 10 * n + (c.toNat - 48)) 0

/-- The `unsigned long` of a number and its sign: the greatest one for a
number that is too large. -/
def ulong (negative : Bool) (n : Nat) : Nat :=
  if 2 ^ 64 ≤ n then 2 ^ 64 - 1
  else if negative then (2 ^ 64 - n) % 2 ^ 64
  else n

/-- The sign of a number, which is negative or not. -/
def readSign : List Char → Bool × List Char
  | '-' :: rest => (true, rest)
  | '+' :: rest => (false, rest)
  | str => (false, str)

/-- `strtoul` in base 10, and the end of the number; `none` when there are
no digits. -/
def strtoul (str : List Char) : Option (Nat × List Char) :=
  let (negative, str) := readSign (str.dropWhile isSpace)
  let digits := str.takeWhile Char.isDigit
  if digits = [] then none
  else some (ulong negative (decimal digits), str.dropWhile Char.isDigit)

-- ======== parser

/-- The flags of a processor. -/
structure ProcBits where
  disabled : Bool
  usable : Bool
deriving DecidableEq, Repr

/-- `procset_parser_t` without the position. -/
structure Parser where
  procBits : Nat → ProcBits
  procBinding : Nat → Nat
  procCount : Nat

/-- `init_parser`; the bindings are not set. -/
def initParser (binding : Nat → Nat) : Parser where
  procBits _ := ⟨false, false⟩
  procBinding := binding
  procCount := 0

/-- The body of `parse_proc_index` and `parse_proc_binding`. -/
def parseNumber (str : List Char) : Except Stop (Nat × List Char) :=
  match strtoul str with
  | none => .error .einval
  | some (n, rest) => .ok (n % 2 ^ 32, rest)

/-- `parse_proc_index` -/
def parseProcIndex : List Char → Except Stop (Nat × List Char) := parseNumber

/-- `parse_proc_binding` -/
def parseProcBinding : List Char → Except Stop (Nat × List Char) := parseNumber

/-- `is_digit` of the next character -/
def isDigit (str : List Char) : Bool := str.head?.any Char.isDigit

/-- `is_eol` of the next character -/
def isEol (str : List Char) : Bool := str.head?.all (· == ',')

/-- `max_count - 1`, of an `unsigned int`. -/
def lastIndex (maxCount : Nat) : Nat :=
  if maxCount = 0 then 2 ^ 32 - 1 else maxCount - 1

/-- `index_low`, 0 without a digit. -/
def parseLow (str : List Char) : Except Stop (Nat × List Char) :=
  if isDigit str then parseProcIndex str else .ok (0, str)

/-- `index_high`, which is `index_low` without a `:`. -/
def parseHigh (maxCount low : Nat) : List Char → Except Stop (Nat × List Char)
  | ':' :: rest =>
    if isEol rest then .ok (lastIndex maxCount, rest) else parseProcIndex rest
  | str => .ok (low, str)

/-- `parse_proc_list`: the lower and the upper index. -/
def parseProcList (maxCount : Nat) (str : List Char) :
    Except Stop ((Nat × Nat) × List Char) := do
  let (low, str) ← parseLow str
  let (high, str) ← parseHigh maxCount low str
  .ok (if high < low then (high, low) else (low, high), str)

/-- The `!` at the front, each of which inverts `is_enabled`. -/
def parseNot (isEnabled : Bool) : List Char → Bool × List Char
  | '!' :: rest => parseNot (!isEnabled) rest
  | str => (isEnabled, str)

/-- What `parse_proc_expr` has read before its loop. -/
structure ProcExpr where
  isEnabled : Bool
  low : Nat
  high : Nat
  binding : Nat
deriving DecidableEq, Repr

/-- `index_binding`, which is `index_low` without a `~`. -/
def parseBound (low : Nat) : List Char → Except Stop (Nat × List Char)
  | '~' :: rest => parseProcBinding rest
  | str => .ok (low, str)

/-- `parse_proc_expr`, up to its loop. -/
def readProcExpr (maxCount : Nat) (str : List Char) :
    Except Stop (ProcExpr × List Char) := do
  let (isEnabled, str) := parseNot true str
  let ((low, high), str) ← parseProcList maxCount str
  let (binding, str) ← parseBound low str
  .ok (⟨isEnabled, low, high, binding⟩, str)

/-- The processor `i` is disabled, and no longer used. -/
def Parser.disable (i : Nat) (p : Parser) : Parser where
  procBits := update p.procBits i ⟨true, false⟩
  procBinding := p.procBinding
  procCount := if (p.procBits i).usable then p.procCount - 1 else p.procCount

/-- The processor `i` is used, on the cpu `binding`. -/
def Parser.use (i binding : Nat) (p : Parser) : Parser where
  procBits := update p.procBits i { p.procBits i with usable := true }
  procBinding := update p.procBinding i binding
  procCount := p.procCount + 1

/-- The loop of `parse_proc_expr`, with the number of indices that are
left. -/
def markLoop (maxCount : Nat) (isEnabled : Bool) :
    Nat → Nat → Nat → Parser → Except Stop Parser
  | 0, _, _, p => .ok p
  | left + 1, i, binding, p =>
    if i < maxCount then
      let next := markLoop maxCount isEnabled left (i + 1) ((binding + 1) % 2 ^ 32)
      if !isEnabled || (p.procBits i).disabled then next (p.disable i)
      else if !(p.procBits i).usable then
        let p := p.use i binding
        if p.procCount = maxCount then .ok p else next p
      else next p
    else .error .fault

def ProcExpr.mark (maxCount : Nat) (e : ProcExpr) (p : Parser) :
    Except Stop Parser :=
  markLoop maxCount e.isEnabled (e.high + 1 - e.low) e.low e.binding p

/-- `parse_proc_expr` -/
def parseProcExpr (maxCount : Nat) (str : List Char) (p : Parser) :
    Except Stop (Parser × List Char) := do
  let (e, rest) ← readProcExpr maxCount str
  let p ← e.mark maxCount p
  .ok (p, rest)

-- ======== what is left to read

theorem length_dropWhile_le {α : Type*} (P : α → Bool) (l : List α) :
    (l.dropWhile P).length ≤ l.length :=
  (List.dropWhile_suffix P).length_le

theorem length_readSign (str : List Char) : (readSign str).2.length ≤ str.length := by
  unfold readSign
  split
  next r => exact Nat.le_succ _
  next r => exact Nat.le_succ _
  next => exact Nat.le_refl _

variable {rest str : List Char} {n max : Nat}

theorem length_strtoul (h : strtoul str = some (n, rest)) : rest.length ≤ str.length := by
  have hsign := length_readSign (str.dropWhile isSpace)
  have hblank := length_dropWhile_le isSpace str
  obtain ⟨-, h⟩ := Option.ite_none_left_eq_some.mp h
  cases h
  exact Nat.le_trans (length_dropWhile_le _ _) (Nat.le_trans hsign hblank)

theorem length_parseNumber (h : parseNumber str = .ok (n, rest)) :
    rest.length ≤ str.length := by
  unfold parseNumber at h
  split at h
  next => cases h
  next v r hr =>
    cases h
    exact length_strtoul hr

theorem bind_eq_ok {α β : Type} {x : Except Stop α} {f : α → Except Stop β} {b : β} :
    (x >>= f) = .ok b ↔ ∃ a, x = .ok a ∧ f a = .ok b := by
  cases x with
  | error e =>
    constructor
    · intro h
      cases h
    · rintro ⟨a, h, -⟩
      cases h
  | ok a =>
    refine ⟨fun h => ⟨a, rfl, h⟩, ?_⟩
    rintro ⟨a', h, hf⟩
    cases h
    exact hf

theorem length_parseLow (h : parseLow str = .ok (n, rest)) :
    rest.length ≤ str.length := by
  unfold parseLow at h
  split at h
  next => exact length_parseNumber h
  next =>
    cases h
    exact Nat.le_refl _

theorem length_parseHigh {low : Nat} (h : parseHigh max low str = .ok (n, rest)) :
    rest.length ≤ str.length := by
  unfold parseHigh at h
  split at h
  next r =>
    refine Nat.le_succ_of_le ?_
    split at h
    next =>
      cases h
      exact Nat.le_refl _
    next => exact length_parseNumber h
  next =>
    cases h
    exact Nat.le_refl _

theorem length_parseBound {low : Nat} (h : parseBound low str = .ok (n, rest)) :
    rest.length ≤ str.length := by
  unfold parseBound at h
  split at h
  next r => exact Nat.le_succ_of_le (length_parseNumber h)
  next =>
    cases h
    exact Nat.le_refl _

theorem length_parseProcList {r : Nat × Nat} (h : parseProcList max str = .ok (r, rest)) :
    rest.length ≤ str.length := by
  obtain ⟨⟨low, str₁⟩, h₁, h⟩ := bind_eq_ok.mp h
  obtain ⟨⟨high, str₂⟩, h₂, h⟩ := bind_eq_ok.mp h
  cases h
  exact Nat.le_trans (length_parseHigh h₂) (length_parseLow h₁)

theorem length_parseNot (isEnabled : Bool) (str : List Char) :
    (parseNot isEnabled str).2.length ≤ str.length := by
  induction str generalizing isEnabled with
  | nil => exact Nat.le_refl _
  | cons c str ih =>
    unfold parseNot
    split
    next rest heq =>
      cases heq
      exact Nat.le_succ_of_le (ih _)
    next => exact Nat.le_refl _

theorem length_readProcExpr {e : ProcExpr} (h : readProcExpr max str = .ok (e, rest)) :
    rest.length ≤ str.length := by
  obtain ⟨⟨⟨low, high⟩, str₁⟩, h₁, h⟩ := bind_eq_ok.mp h
  obtain ⟨⟨binding, str₂⟩, h₂, h⟩ := bind_eq_ok.mp h
  cases h
  have hlist := Nat.le_trans (length_parseProcList h₁) (length_parseNot true str)
  exact Nat.le_trans (length_parseBound h₂) hlist

theorem length_parseProcExpr {p p' : Parser}
    (h : parseProcExpr max str p = .ok (p', rest)) : rest.length ≤ str.length := by
  obtain ⟨⟨e, str₁⟩, h₁, h⟩ := bind_eq_ok.mp h
  obtain ⟨p₁, -, h⟩ := bind_eq_ok.mp h
  cases h
  exact length_readProcExpr h₁

/-- `parse_string` -/
def parseString (maxCount : Nat) (str : List Char) (p : Parser) :
    Except Stop Parser :=
  match _h : parseProcExpr maxCount str p with
  | .error e => .error e
  | .ok (p, []) => .ok p
  | .ok (p, c :: rest) =>
    if c = ',' then parseString maxCount rest p else .error .einval
termination_by str.length
decreasing_by
  exact length_parseProcExpr _h

-- ======== list

/-- `kaapi_procinfo_t`; the kid of a processor that is not a cpu is not
set. -/
structure ProcInfo where
  boundCpu : Nat
  procType : Nat
  procIndex : Nat
  kid : Option Nat
deriving DecidableEq, Repr

/-- KAAPI_PROC_TYPE_CPU -/
def procTypeCpu : Nat := 1

/-- KAAPI_MAX_PROCESSOR_LIMIT, the size of `kid2cpu` and `cpu2kid`: 256 in the
generic build and for a KAAPI_MAX_PROCESSOR of 193 to 256. A build for fewer
processors has 32, 64, 128 or 192. -/
def maxProcessorLimit : Nat := 256

/-- The fields of `kaapi_default_param` that are written. -/
structure Params where
  usedcpu : Cpuset
  kid2cpu : Nat → Nat
  cpu2kid : Nat → Nat

/-- `kaapi_hw_standardinit` before it registers the processors. -/
def Params.init : Params where
  usedcpu := ⟨fun _ => 0⟩
  kid2cpu _ := 2 ^ 32 - 1
  cpu2kid _ := 2 ^ 32 - 1

/-- `kaapi_cpuset_set`; from 256 on the shift is too large. -/
def cpusetSet (s : Cpuset) (i : Nat) : Except Stop Cpuset :=
  let or (w : Fin 4) (n : Nat) : Cpuset :=
    ⟨update s.bits64 w (s.bits64 w ||| 1#64 <<< n)⟩
  if i < 64 then .ok (or 0 i)
  else if i < 128 then .ok (or 1 (i - 64))
  else if i < 192 then .ok (or 2 (i - 128))
  else if i < 256 then .ok (or 3 (i - 192))
  else .error .fault

/-- A cpu gets the next kid. -/
def Params.setKid (kid cpu : Nat) (q : Params) : Except Stop Params := do
  let usedcpu ← cpusetSet q.usedcpu cpu
  if kid < maxProcessorLimit ∧ cpu < maxProcessorLimit then
    .ok
      { usedcpu := usedcpu
        kid2cpu := update q.kid2cpu kid cpu
        cpu2kid := update q.cpu2kid cpu kid }
  else .error .fault

/-- The loop of `kaapi_procinfo_list_parse_string`, with the number of
indices that are left: the entries that it adds, in this order. -/
def listLoop (p : Parser) (procType : Nat) :
    Nat → Nat → Nat → Nat → Params → Except Stop (List ProcInfo × Params)
  | 0, _, _, _, q => .ok ([], q)
  | _ + 1, _, 0, _, q => .ok ([], q)
  | left + 1, i, count + 1, kid, q =>
    if !(p.procBits i).usable then listLoop p procType left (i + 1) (count + 1) kid q
    else
      let cpu := p.procBinding i
      if procType = procTypeCpu then do
        let q ← q.setKid kid cpu
        let (l, q) ← listLoop p procType left (i + 1) count (kid + 1) q
        .ok (⟨cpu, procType, i, some kid⟩ :: l, q)
      else do
        let (l, q) ← listLoop p procType left (i + 1) count kid q
        .ok (⟨cpu, procType, i, none⟩ :: l, q)

/-- `kaapi_procinfo_list_parse_string`, in a memory where `malloc` finds the
bindings `binding`. -/
def procinfoListParseString (binding : Nat → Nat) (procType maxCount : Nat)
    (str : List Char) (q : Params) : Except Stop (List ProcInfo × Params) := do
  let p := initParser binding
  let p ← if str = [] then .ok p else parseString maxCount str p
  listLoop p procType maxCount 0 p.procCount 0 q

end XKaapi.Machine
