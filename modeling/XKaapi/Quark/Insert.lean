/-
`QUARK_Insert_Task` (api/quark/quark_xkaapi.c): the variadic arguments are
put into the array of parameters of a task record.

Every parameter has a pointer field `addr.data`. A value of at most eight
bytes is stored in the field itself, a larger one behind the record in the
data stack, the field being its address. For the other directions the field
is the pointer that was given.

Addresses are numbers and memory is a function from them to bytes; the
record is kept apart from it. The stack has a debug assertion that the data
fits: a call that fails it is stopped, as one that fails `kaapi_assert` or
aborts. The first write of a turn comes before the check of the number of
parameters, and the writes are listed (`written`) to tell them from the ones
inside the array.

`insertTask_spec` says what an accepted list leaves: each parameter
separately (`Encoded`), in any memory that agrees with the final one on the
data pushed.
-/
import Mathlib.Data.List.Induction
import Mathlib.Tactic.IntervalCases
import XKaapi.Dfg.Access

namespace XKaapi.Quark

open Dfg (AccessMode modeV modeR modeW modeRW)

-- ======== memory

abbrev Mem := Nat → UInt8

/-- The pointer-sized word at `a`, least byte first. -/
def load64 (m : Mem) (a : Nat) : Nat :=
  (List.range 8).foldr (fun k w => (m (a + k)).toNat + 256 * w) 0

/-- Byte `k` of a word in memory. -/
def byteOf (w k : Nat) : UInt8 := UInt8.ofNat (w / 256 ^ k)

theorem byteOf_load64 (m : Mem) (a : Nat) {k : Nat} (hk : k < 8) :
    byteOf (load64 m a) k = m (a + k) := by
  have hbyte : ∀ j, (m (a + j)).toNat < 256 := fun j => (m (a + j)).toNat_lt
  refine UInt8.toNat_inj.mp ?_
  rw [byteOf, UInt8.toNat_ofNat']
  have hword : load64 m a = (m (a + 0)).toNat + 256 * ((m (a + 1)).toNat
      + 256 * ((m (a + 2)).toNat + 256 * ((m (a + 3)).toNat + 256 * ((m (a + 4)).toNat
      + 256 * ((m (a + 5)).toNat + 256 * ((m (a + 6)).toNat
      + 256 * ((m (a + 7)).toNat + 256 * 0))))))) := rfl
  have h0 := hbyte 0
  have h1 := hbyte 1
  have h2 := hbyte 2
  have h3 := hbyte 3
  have h4 := hbyte 4
  have h5 := hbyte 5
  have h6 := hbyte 6
  have h7 := hbyte 7
  rw [hword]
  interval_cases k <;> omega

def memcpy (m : Mem) (dst src n : Nat) : Mem := fun a =>
  if dst ≤ a ∧ a < dst + n then m (src + (a - dst)) else m a

theorem memcpy_inside (m : Mem) (dst src : Nat) {n k : Nat} (hk : k < n) :
    memcpy m dst src n (dst + k) = m (src + k) := by
  unfold memcpy
  rw [if_pos (by omega), Nat.add_sub_cancel_left]

theorem memcpy_below (m : Mem) (src n : Nat) {dst a : Nat} (ha : a < dst) :
    memcpy m dst src n a = m a := if_neg (by omega)

theorem memcpy_outside (m : Mem) (src : Nat) {dst n a : Nat} (h : ¬(dst ≤ a ∧ a < dst + n)) :
    memcpy m dst src n a = m a := if_neg h

-- ======== the record

/-- `KAAPI_ACCESS_MODE_SCRATCH`, that is T and V. -/
def modeScratch : AccessMode := 33
def modeT : AccessMode := 32

/-- `quark_one_param_t` -/
structure OneParam where
  data : Nat
  version : Nat
  size : Nat
  mode : AccessMode
deriving DecidableEq, Repr, Inhabited

def MAX_PARAMQUARK : Nat := 32

/-- `kaapi_quark_task_t`, its function apart. The array of parameters is
what lies from its start on, so that a write past it can be told. -/
structure QuarkTask where
  callitwithHandle : Bool
  scratchbit : BitVec 32
  nparam : Nat
  param : Nat → OneParam

/-- `sizeof(kaapi_quark_task_t)` -/
def sizeofQuarkTask : Nat := 24 + MAX_PARAMQUARK * 32

/-- The data part of a frame: `sp_data` and `sp`. -/
structure DataStack where
  spData : Nat
  sp : Nat
deriving DecidableEq, Repr

/-- `kaapi_thread_pushdata` -/
def pushdata (s : DataStack) (count : Nat) : Option (Nat × DataStack) :=
  if s.spData + count ≤ s.sp then some (s.spData, { s with spData := s.spData + count })
  else none

-- ======== the arguments

/-- `quark_direction_t` -/
inductive Direction
  | input | output | inout | value | nodep | scratch
deriving DecidableEq, Repr

/-- `arg_flags & QUARK_DIRECTION_BITMASK`; none for an unknown one. -/
def Direction.ofFlags (flags : BitVec 32) : Option Direction :=
  match (flags &&& 0xF00).toNat with
  | 0x100 => some .input
  | 0x200 => some .output
  | 0x300 => some .inout
  | 0x400 => some .value
  | 0x500 => some .nodep
  | 0x600 => some .scratch
  | _ => none

def ACCUMULATOR : BitVec 32 := 1 <<< 13

/-- The three variadic arguments of a parameter. A size 0 ends the list. -/
structure Arg where
  size : Nat
  ptr : Nat
  flags : BitVec 32
  size_pos : 0 < size
deriving DecidableEq, Repr

def Arg.direction (a : Arg) : Option Direction := Direction.ofFlags a.flags

-- ======== the loop

/-- Why a call does not come to its end. -/
inductive Stop
  | stackFull | accumulator | unknownMode | tooManyParams
deriving DecidableEq, Repr

structure Inserting where
  mem : Mem
  stack : DataStack
  task : QuarkTask
  nparam : Nat
  -- the indices of `param` that have been written, the last one first
  written : List Nat

namespace Inserting

def write (st : Inserting) (p : OneParam) : Inserting :=
  { st with
    task := { st.task with param := Function.update st.task.param st.nparam p }
    written := st.nparam :: st.written }

/-- The two assignments before the switch. -/
def begin (st : Inserting) (a : Arg) : Inserting :=
  st.write { st.task.param st.nparam with
    size := a.size
    version := 0 }

/-- The assignments to `addr.data` and `mode`. -/
def put (st : Inserting) (data : Nat) (mode : AccessMode) : Inserting :=
  st.write { st.task.param st.nparam with
    data := data
    mode := mode }

/-- `++nparam` and the assertion. -/
def next (st : Inserting) : Except (Stop × Inserting) Inserting :=
  let st := { st with nparam := st.nparam + 1 }
  if st.nparam ≤ MAX_PARAMQUARK then .ok st else .error (.tooManyParams, st)

end Inserting

/-- One turn of the loop over the arguments. -/
def insertArg (st : Inserting) (a : Arg) : Except (Stop × Inserting) Inserting :=
  let st := st.begin a
  match a.direction with
  | some .value =>
    if a.size ≤ 8 then (st.put (load64 st.mem a.ptr) modeV).next
    else
      match pushdata st.stack a.size with
      | none => .error (.stackFull, st)
      | some (data, stack) =>
        let st := { st with
          mem := memcpy st.mem data a.ptr a.size
          stack := stack }
        (st.put data modeV).next
  | some .nodep => (st.put a.ptr modeV).next
  | some .input => (st.put a.ptr modeR).next
  | some .output =>
    if a.flags &&& ACCUMULATOR ≠ 0 then .error (.accumulator, st)
    else (st.put a.ptr modeW).next
  | some .scratch =>
    let st := st.put a.ptr modeScratch
    let bit := st.task.scratchbit ||| (1#32 <<< st.nparam)
    { st with task := { st.task with scratchbit := bit } }.next
  | some .inout => (st.put a.ptr modeRW).next
  | none => .error (.unknownMode, st)

def insertArgs (st : Inserting) : List Arg → Except (Stop × Inserting) Inserting
  | [] => .ok st
  | a :: args => (insertArg st a).bind fun st => insertArgs st args

/-- The record before the first argument: what the stack holds there, with
the fields that are set. -/
def start (m : Mem) (stack : DataStack) (garbage : QuarkTask) : Inserting where
  mem := m
  stack := stack
  task := { garbage with
    scratchbit := 0
    nparam := 0 }
  nparam := 0
  written := []

/-- `QUARK_Insert_Task` up to the push of the task. -/
def insertTask (m : Mem) (stack : DataStack) (garbage : QuarkTask) (args : List Arg) :
    Except (Stop × Inserting) Inserting :=
  match pushdata stack sizeofQuarkTask with
  | none => .error (.stackFull, start m stack garbage)
  | some (_, stack) =>
    (insertArgs (start m stack garbage) args).map fun st =>
      { st with task := { st.task with nparam := st.nparam } }

-- ======== what a turn leaves

/-- The access mode of a direction. -/
def Direction.mode : Direction → AccessMode
  | .input => modeR
  | .output => modeW
  | .inout => modeRW
  | .value => modeV
  | .nodep => modeV
  | .scratch => modeScratch

/-- A parameter holds an argument: its value, of the memory `orig`, when
memory is `m`, or its pointer. -/
structure Encoded (orig m : Mem) (a : Arg) (p : OneParam) : Prop where
  size : p.size = a.size
  mode : a.direction.map Direction.mode = some p.mode
  small : a.direction = some .value → a.size ≤ 8 →
    ∀ k < a.size, byteOf p.data k = orig (a.ptr + k)
  large : a.direction = some .value → 8 < a.size →
    ∀ k < a.size, m (p.data + k) = orig (a.ptr + k)
  pointer : a.direction ≠ some .value → p.data = a.ptr

/-- The data of a value lies in the stack, from `lo` to `hi`. -/
def InStack (lo hi : Nat) (a : Arg) (p : OneParam) : Prop :=
  a.direction = some .value → 8 < a.size → lo ≤ p.data ∧ p.data + a.size ≤ hi

/-- The value of an argument is not in the free part of the stack. -/
def Arg.Live (stack : DataStack) (a : Arg) : Prop :=
  a.direction = some .value →
    ∀ k < a.size, ¬(stack.spData ≤ a.ptr + k ∧ a.ptr + k < stack.sp)

theorem Arg.live_of_below {stack : DataStack} (a : Arg)
    (h : a.ptr + a.size ≤ stack.spData) : a.Live stack := by
  intro _ k hk
  omega

namespace Inserting

variable {st st' : Inserting} {a : Arg} {data : Nat} {mode : AccessMode}

theorem put_begin_param (st : Inserting) (a : Arg) (data : Nat) (mode : AccessMode) :
    ((st.begin a).put data mode).task.param
      = Function.update st.task.param st.nparam ⟨data, 0, a.size, mode⟩ := by
  have hbegin : (st.begin a).task.param st.nparam
      = { st.task.param st.nparam with
          size := a.size
          version := 0 } := Function.update_self ..
  change Function.update (Function.update st.task.param st.nparam _) st.nparam
    { (st.begin a).task.param st.nparam with
      data := data
      mode := mode } = _
  rw [Function.update_idem, hbegin]

theorem next_eq_ok_iff : st.next = .ok st' ↔
    st.nparam + 1 ≤ MAX_PARAMQUARK ∧ st' = { st with nparam := st.nparam + 1 } := by
  unfold next
  dsimp only
  split
  case isTrue h => exact ⟨fun h' => ⟨h, (Except.ok.inj h').symm⟩, fun h' => h'.2 ▸ rfl⟩
  case isFalse h => exact ⟨(fun h' => nomatch h'), fun h' => absurd h'.1 h⟩

end Inserting

/-- What an accepted turn leaves. -/
structure Turn (st st' : Inserting) (a : Arg) (d : Direction) (data : Nat) : Prop where
  direction : a.direction = some d
  nparam : st'.nparam = st.nparam + 1
  bound : st.nparam + 1 ≤ MAX_PARAMQUARK
  written : st'.written = st.nparam :: st.nparam :: st.written
  param : st'.task.param
    = Function.update st.task.param st.nparam ⟨data, 0, a.size, d.mode⟩
  stored : d ≠ .value ∧ data = a.ptr ∧ st'.mem = st.mem ∧ st'.stack = st.stack
    ∨ d = .value ∧ a.size ≤ 8 ∧ data = load64 st.mem a.ptr
      ∧ st'.mem = st.mem ∧ st'.stack = st.stack
    ∨ d = .value ∧ 8 < a.size ∧ data = st.stack.spData
      ∧ st.stack.spData + a.size ≤ st.stack.sp
      ∧ st'.mem = memcpy st.mem data a.ptr a.size
      ∧ st'.stack = { st.stack with spData := st.stack.spData + a.size }

variable {st : Inserting}

theorem Turn.of_pointer {st' : Inserting} {a : Arg} {d : Direction}
    (hd : a.direction = some d) (hv : d ≠ .value)
    (h : ((st.begin a).put a.ptr d.mode).next = .ok st') : Turn st st' a d a.ptr := by
  obtain ⟨hbound, rfl⟩ := Inserting.next_eq_ok_iff.mp h
  exact ⟨hd, rfl, hbound, rfl, st.put_begin_param a a.ptr d.mode, .inl ⟨hv, rfl, rfl, rfl⟩⟩

theorem insertArg_turn {st' : Inserting} {a : Arg} (h : insertArg st a = .ok st') :
    ∃ d data, Turn st st' a d data := by
  unfold insertArg at h
  split at h
  case h_1 hd =>
    split at h
    case isTrue hsize =>
      obtain ⟨hbound, rfl⟩ := Inserting.next_eq_ok_iff.mp h
      exact ⟨.value, _, hd, rfl, hbound, rfl, st.put_begin_param a _ modeV,
        .inr (.inl ⟨rfl, hsize, rfl, rfl, rfl⟩)⟩
    case isFalse hsize =>
      dsimp only at h
      split at h
      case h_1 => cases h
      case h_2 data stack hpush =>
        unfold pushdata at hpush
        split at hpush
        case isFalse => cases hpush
        case isTrue hfits =>
          cases hpush
          obtain ⟨hbound, rfl⟩ := Inserting.next_eq_ok_iff.mp h
          exact ⟨.value, _, hd, rfl, hbound, rfl, st.put_begin_param a _ modeV,
            .inr (.inr ⟨rfl, not_le.mp hsize, rfl, hfits, rfl, rfl⟩)⟩
  case h_2 hd => exact ⟨.nodep, _, .of_pointer hd (by decide) h⟩
  case h_3 hd => exact ⟨.input, _, .of_pointer hd (by decide) h⟩
  case h_4 hd =>
    split at h
    case isTrue => cases h
    case isFalse => exact ⟨.output, _, .of_pointer hd (by decide) h⟩
  case h_5 hd =>
    obtain ⟨hbound, rfl⟩ := Inserting.next_eq_ok_iff.mp h
    exact ⟨.scratch, _, hd, rfl, hbound, rfl, st.put_begin_param a _ modeScratch,
      .inl ⟨by decide, rfl, rfl, rfl⟩⟩
  case h_6 hd => exact ⟨.inout, _, .of_pointer hd (by decide) h⟩
  case h_7 => cases h

-- ======== the whole loop

/-- After the arguments `done`, from the memory `m₀` and the stack `s₀`. -/
structure Inserted (m₀ : Mem) (s₀ : DataStack) (done : List Arg) (st : Inserting) :
    Prop where
  count : st.nparam = done.length
  bound : st.nparam ≤ MAX_PARAMQUARK
  sp : st.stack.sp = s₀.sp
  lo : s₀.spData ≤ st.stack.spData
  hi : st.stack.spData ≤ s₀.sp
  frame : ∀ a, ¬(s₀.spData ≤ a ∧ a < st.stack.spData) → st.mem a = m₀ a
  encoded : ∀ i a, done[i]? = some a → Encoded m₀ st.mem a (st.task.param i)
  inStack : ∀ i a, done[i]? = some a →
    InStack s₀.spData st.stack.spData a (st.task.param i)
  written : ∀ k ∈ st.written, k < st.nparam

section Loop

variable {m₀ : Mem} {s₀ : DataStack} {done args : List Arg} {st st' : Inserting} {a : Arg}
  {data : Nat} {d : Direction}

theorem Inserted.source (h : Inserted m₀ s₀ done st) (ha : a.Live s₀)
    (hv : a.direction = some .value) {k : Nat} (hk : k < a.size) :
    st.mem (a.ptr + k) = m₀ (a.ptr + k) := by
  refine h.frame _ fun hin => ha hv k hk ⟨hin.1, ?_⟩
  exact lt_of_lt_of_le hin.2 h.hi

theorem Encoded.mono {m m' : Mem} {p : OneParam} (h : Encoded m₀ m a p)
    (hm : a.direction = some .value → 8 < a.size →
      ∀ k < a.size, m' (p.data + k) = m (p.data + k)) : Encoded m₀ m' a p :=
  { h with
    large := fun hv hsize k hk => (hm hv hsize k hk).trans (h.large hv hsize k hk) }

theorem InStack.mono {lo hi hi' : Nat} {p : OneParam} (h : InStack lo hi a p)
    (hle : hi ≤ hi') : InStack lo hi' a p :=
  fun hv hsize => ⟨(h hv hsize).1, (h hv hsize).2.trans hle⟩

section

variable (h : Inserted m₀ s₀ done st)
include h

theorem Inserted.param_of_lt {i : Nat} {b : Arg} (ht : Turn st st' a d data)
    (hi : done[i]? = some b) : st'.task.param i = st.task.param i := by
  obtain ⟨hlt, -⟩ := List.getElem?_eq_some_iff.mp hi
  rw [ht.param, Function.update_of_ne]
  exact (hlt.trans_eq h.count.symm).ne

theorem Inserted.encoded_turn (ha : a.Live s₀) (ht : Turn st st' a d data) :
    Encoded m₀ st'.mem a ⟨data, 0, a.size, d.mode⟩ := by
  have hdir := ht.direction
  refine ⟨rfl, by rw [hdir]; rfl, fun hv hsize k hk => ?_, fun hv hsize k hk => ?_,
    fun hv => ?_⟩
  · obtain rfl : d = .value := Option.some.inj (hdir.symm.trans hv)
    obtain ⟨hne, -⟩ | ⟨-, -, rfl, -⟩ | ⟨-, hlarge, -⟩ := ht.stored
    · exact absurd rfl hne
    · exact (byteOf_load64 st.mem a.ptr (hk.trans_le hsize)).trans
        (h.source ha hdir hk)
    · exact absurd hsize (not_le.mpr hlarge)
  · obtain rfl : d = .value := Option.some.inj (hdir.symm.trans hv)
    obtain ⟨hne, -⟩ | ⟨-, hsmall, -⟩ | ⟨-, -, -, -, hmem, -⟩ := ht.stored
    · exact absurd rfl hne
    · exact absurd hsmall (not_le.mpr hsize)
    · rw [hmem, memcpy_inside st.mem data a.ptr hk]
      exact h.source ha hdir hk
  · obtain ⟨-, hdata, -⟩ | ⟨rfl, -⟩ | ⟨rfl, -⟩ := ht.stored
    · exact hdata
    · exact absurd hdir hv
    · exact absurd hdir hv

theorem Inserted.stack_turn (ht : Turn st st' a d data) :
    st'.stack.sp = s₀.sp ∧ st.stack.spData ≤ st'.stack.spData
      ∧ st'.stack.spData ≤ s₀.sp
      ∧ (∀ x < st.stack.spData, st'.mem x = st.mem x)
      ∧ ∀ x, ¬(s₀.spData ≤ x ∧ x < st'.stack.spData) → st'.mem x = m₀ x := by
  obtain ⟨-, -, hmem, hstack⟩ | ⟨-, -, -, hmem, hstack⟩ | ⟨-, -, hdata, hfits, hmem, hstack⟩ :=
    ht.stored
  · rw [hmem, hstack]
    exact ⟨h.sp, le_rfl, h.hi, fun _ _ => rfl, h.frame⟩
  · rw [hmem, hstack]
    exact ⟨h.sp, le_rfl, h.hi, fun _ _ => rfl, h.frame⟩
  · have hlo := h.lo
    rw [hmem, hstack, hdata]
    refine ⟨h.sp, Nat.le_add_right _ _, h.sp ▸ hfits, fun x hx => memcpy_below _ _ _ hx,
      fun x hx => ?_⟩
    change ¬(s₀.spData ≤ x ∧ x < st.stack.spData + a.size) at hx
    rw [memcpy_outside _ _ (by omega)]
    exact h.frame x (by omega)

/-- One turn: the arguments so far and the new one are encoded. -/
theorem Inserted.insertArg (ha : a.Live s₀) (hturn : insertArg st a = .ok st') :
    Inserted m₀ s₀ (done ++ [a]) st' := by
  obtain ⟨d, data, ht⟩ := insertArg_turn hturn
  obtain ⟨hsp, hgrow, hhi, hbelow, hframe⟩ := h.stack_turn ht
  -- the arguments before this one, and this one
  have hsplit : ∀ {P : Nat → Arg → Prop}, (∀ i b, done[i]? = some b → P i b) →
      P done.length a → ∀ i b, (done ++ [a])[i]? = some b → P i b := by
    intro P hold hnew i b hib
    rcases lt_or_ge i done.length with hi | hi
    · exact hold i b (List.getElem?_append_left hi ▸ hib)
    · rw [List.getElem?_append_right hi, List.getElem?_singleton] at hib
      split at hib
      case isTrue h0 =>
        cases hib
        exact (by omega : i = done.length) ▸ hnew
      case isFalse => cases hib
  have hparam : st'.task.param done.length = ⟨data, 0, a.size, d.mode⟩ := by
    rw [ht.param, h.count, Function.update_self]
  refine ⟨?_, ht.nparam ▸ ht.bound, hsp, h.lo.trans hgrow, hhi, hframe, ?_, ?_, ?_⟩
  · rw [ht.nparam, h.count, List.length_append, List.length_singleton]
  · refine hsplit (fun i b hib => ?_) (hparam ▸ h.encoded_turn ha ht)
    rw [h.param_of_lt ht hib]
    refine (h.encoded i b hib).mono fun hv hsize k hk => hbelow _ ?_
    exact (Nat.add_lt_add_left hk _).trans_le (h.inStack i b hib hv hsize).2
  · refine hsplit (fun i b hib => ?_) (hparam ▸ fun hv hsize => ?_)
    · rw [h.param_of_lt ht hib]
      exact (h.inStack i b hib).mono hgrow
    · obtain rfl : d = .value := Option.some.inj (ht.direction.symm.trans hv)
      obtain ⟨hne, -⟩ | ⟨-, hsmall, -⟩ | ⟨-, -, rfl, -, -, hstack⟩ := ht.stored
      · exact absurd rfl hne
      · exact absurd hsmall (not_le.mpr hsize)
      · exact ⟨h.lo, by rw [hstack]⟩
  · intro k hk
    rw [ht.written, List.mem_cons, List.mem_cons] at hk
    rw [ht.nparam]
    rcases hk with rfl | rfl | hk
    · exact Nat.lt_succ_self _
    · exact Nat.lt_succ_self _
    · exact Nat.lt_succ_of_lt (h.written k hk)

theorem Inserted.insertArgs (hargs : ∀ a ∈ args, a.Live s₀)
    (hrun : insertArgs st args = .ok st') : Inserted m₀ s₀ (done ++ args) st' := by
  induction args generalizing done st with
  | nil =>
    cases hrun
    rw [List.append_nil]
    exact h
  | cons a args ih =>
    cases hturn : Quark.insertArg st a with
    | error e =>
      rw [Quark.insertArgs, hturn] at hrun
      cases hrun
    | ok st₁ =>
      rw [Quark.insertArgs, hturn] at hrun
      have hstep := h.insertArg (hargs a List.mem_cons_self) hturn
      rw [List.append_cons]
      exact ih hstep (fun b hb => hargs b (List.mem_cons_of_mem a hb)) hrun

end

end Loop

/-- The stack after the record has been pushed. -/
def DataStack.afterRecord (s : DataStack) : DataStack :=
  { s with spData := s.spData + sizeofQuarkTask }

theorem insertTask_spec {m : Mem} {stack : DataStack} {garbage : QuarkTask}
    {args : List Arg} (h : insertTask m stack garbage args = .ok st)
    (hlive : ∀ a ∈ args, a.Live stack.afterRecord) :
    Inserted m stack.afterRecord args st ∧ st.task.nparam = args.length := by
  unfold insertTask at h
  split at h
  case h_1 => cases h
  case h_2 data stack₁ hpush =>
    unfold pushdata at hpush
    split at hpush
    case isFalse => cases hpush
    case isTrue hfits =>
      cases hpush
      cases hrun : insertArgs (start m stack.afterRecord garbage) args with
      | error e =>
        change Except.map _ (insertArgs (start m stack.afterRecord garbage) args) = _ at h
        rw [hrun] at h
        cases h
      | ok st₁ =>
        change Except.map _ (insertArgs (start m stack.afterRecord garbage) args) = _ at h
        rw [hrun] at h
        cases h
        have hstart : Inserted m stack.afterRecord []
            (start m stack.afterRecord garbage) :=
          ⟨rfl, Nat.zero_le _, rfl, le_rfl, hfits, fun _ _ => rfl, nofun, nofun,
            nofun⟩
        have hend := hstart.insertArgs hlive hrun
        rw [List.nil_append] at hend
        exact ⟨⟨hend.count, hend.bound, hend.sp, hend.lo, hend.hi, hend.frame,
          hend.encoded, hend.inStack, hend.written⟩, hend.count⟩

end XKaapi.Quark
