/-
Spawning a task of the C API (kaapic_spawn.c): the variadic arguments
MODE, [REDOP,] TYPE, count, data of each parameter are parsed into a
signature and a task record. The signature of the first call of a body
is stored in a hash map under the body; a later call that finds one
parses its arguments again, with the `SIG_PROVIDED` feature, and writes
only the record.

One definition, `spawnArg`, is the body of the arguments loop in both
modes, as in the source; `provided` is the argument signature found, if
any. Of the features only `SIG_PROVIDED` varies under `kaapic_spawn`
(the others it sets: PUT_SIG_IN_HASH, KEEP_SIG, DO_SPAWN and the four
PARSE flags). Sizes are those of a 64-bit machine where pointers have 8
bytes and a long double 16.
-/
import Mathlib.Algebra.Group.Nat.Defs
import XKaapi.Lib.ByteBlock

namespace XKaapi
namespace Kaapic

-- ======== types and modes

/-- The argument types of kaapic.h, in the order of their numbers. -/
inductive KaapicType
  | char | schar | shrt | int | long | llong
  | int8 | int16 | int32 | int64
  | uchar | ushrt | uint | ulong | ullong
  | uint8 | uint16 | uint32 | uint64
  | flt | dbl | ldbl | ptr
  deriving DecidableEq, Repr

def KaapicType.all : List KaapicType :=
  [.char, .schar, .shrt, .int, .long, .llong, .int8, .int16, .int32, .int64,
    .uchar, .ushrt, .uint, .ulong, .ullong, .uint8, .uint16, .uint32, .uint64,
    .flt, .dbl, .ldbl, .ptr]

/-- The type of a number; none when
`typec >= _KAAPIC_TYPE_MAX || typec < 0`. -/
def KaapicType.ofInt (typec : BitVec 32) : Option KaapicType :=
  if typec.toInt < 0 then none else KaapicType.all[typec.toInt.toNat]?

structure TypeInfo where
  size : Nat
  align : Nat
  vArgInAccess : Bool
  useFfi : Bool
  deriving DecidableEq, Repr

def sizeof : KaapicType → Nat
  | .char | .schar | .int8 | .uchar | .uint8 => 1
  | .shrt | .int16 | .ushrt | .uint16 => 2
  | .int | .int32 | .uint | .uint32 | .flt => 4
  | .long | .llong | .int64 | .ulong | .ullong | .uint64 | .dbl | .ptr => 8
  | .ldbl => 16

/-- `_USE_FFI`: the integers when larger than a pointer, the floats
always, the others never. -/
def useFfi : KaapicType → Bool
  | .flt | .dbl | .ldbl => true
  | .ptr => false
  | t => !decide (sizeof t ≤ 8)

/-- The alignment of a type is its size. -/
def alignof : KaapicType → Nat := sizeof

def typeInfo (t : KaapicType) : TypeInfo where
  size := sizeof t
  align := alignof t
  vArgInAccess := decide (sizeof t ≤ 8) && decide (alignof t ≤ 8)
  useFfi := useFfi t

inductive KaapicMode
  | r | w | rw | cw | v | t | s
  deriving DecidableEq, Repr

def KaapicMode.all : List KaapicMode := [.r, .w, .rw, .cw, .v, .t, .s]

/-- The mode of a number; none when
`modec >= _KAAPIC_MODE_MAX || modec < 0`. -/
def KaapicMode.ofInt (modec : BitVec 32) : Option KaapicMode :=
  if modec.toInt < 0 then none else KaapicMode.all[modec.toInt.toNat]?

def KAAPI_ACCESS_MODE_V : Nat := 1
def KAAPI_ACCESS_MODE_R : Nat := 2
def KAAPI_ACCESS_MODE_W : Nat := 4
def KAAPI_ACCESS_MODE_CW : Nat := 8
def KAAPI_ACCESS_MODE_S : Nat := 16
def KAAPI_ACCESS_MODE_T : Nat := 32
def KAAPI_ACCESS_MODE_P : Nat := 64
def KAAPI_ACCESS_MODE_RW : Nat := KAAPI_ACCESS_MODE_R ||| KAAPI_ACCESS_MODE_W
def KAAPI_ACCESS_MODE_SCRATCH : Nat := KAAPI_ACCESS_MODE_T ||| KAAPI_ACCESS_MODE_V
def KAAPI_ACCESS_MODE_STACK : Nat :=
  KAAPI_ACCESS_MODE_S ||| KAAPI_ACCESS_MODE_P ||| KAAPI_ACCESS_MODE_RW

def modec2modek : KaapicMode → Nat
  | .r => KAAPI_ACCESS_MODE_R
  | .w => KAAPI_ACCESS_MODE_W
  | .rw => KAAPI_ACCESS_MODE_RW
  | .cw => KAAPI_ACCESS_MODE_CW
  | .v => KAAPI_ACCESS_MODE_V
  | .t => KAAPI_ACCESS_MODE_SCRATCH
  | .s => KAAPI_ACCESS_MODE_STACK

def KAAPIC_REDOP_VOID : BitVec 32 := 0
def KAAPIC_REDOP_MIN : BitVec 32 := 10
def KAAPIC_MAX_ARGS : Nat := 32

-- ======== signatures and tasks

/-- A one dimensional view: `size[0]` words of `wordsize` bytes. -/
structure MemoryView where
  size0 : Nat
  wordsize : Nat
  deriving DecidableEq, Repr

/-- `kaapi_memory_view_make1d(count, wordsize)`, the `int` count
converted to `size_t`. -/
def memoryViewMake1d (count : BitVec 32) (wordsize : Nat) : MemoryView :=
  ⟨(count.signExtend 64).toNat, wordsize⟩

def memoryViewSize (v : MemoryView) : Nat :=
  v.size0 * v.wordsize % 2 ^ 64

/-- `kaapic_arg_sig_t`. The format is told by the type it is the format
of; `voffset` is `none` for -1, the value stored in the access. -/
structure ArgSig where
  mode : Nat
  type : KaapicType
  redop : BitVec 32
  view : MemoryView
  format : KaapicType
  voffset : Option Nat
  deriving DecidableEq, Repr

/-- `kaapic_task_sig_t`, its flags USE_FFI and HAS_SCRATCH apart. The
call interface of libffi is computed from the modes and types. -/
structure TaskSig where
  nargs : Nat
  useFfi : Bool
  hasScratch : Bool
  valuesSize : Nat
  valuesAlign : Nat
  args : List ArgSig
  deriving DecidableEq, Repr

/-- Where `access.data` points: to the user's data, to the own `version`
field, into the block of the values, to a block pushed for this value
alone, to a temporary of the processor, or to where a read past the end of
the processor's temporaries makes it point. -/
inductive Addr
  | user (p : Nat)
  | version
  | values (off : Nat)
  | block
  | temporary (size : Nat)
  | wild
  deriving DecidableEq, Repr

/-- `kaapic_arg_info_t`, with the content of the `version` field and of
the block `data` points to when it is a `block`. -/
structure ArgInfo where
  data : Addr
  version : List UInt8
  block : List UInt8
  deriving DecidableEq, Repr

/-- `kaapic_task_info_t`. A signature never changes once it is in the
map, so that the pointer `sig` is the signature itself. -/
structure TaskInfo where
  body : Nat
  sig : TaskSig
  args : List ArgInfo
  values : ByteBlock UInt8

-- ======== the variadic arguments

/-- What a parameter passes: a pointer, or an object of its type. -/
inductive Arg
  | pointer (p : Nat)
  | value (bs : List UInt8)
  deriving DecidableEq, Repr

inductive VaArg
  | int (n : BitVec 32)
  | data (a : Arg)
  deriving DecidableEq, Repr

/-- A call returns an error code, or reads arguments of another type
than were given. -/
inductive Fault
  | einval
  | undefined
  deriving DecidableEq, Repr

/-- `va_arg(*va_args, int)`. -/
def vaInt : List VaArg → Except Fault (BitVec 32 × List VaArg)
  | .int n :: va => .ok (n, va)
  | _ => .error .undefined

/-- `va_arg(*va_args, void* )`. -/
def vaPtr : List VaArg → Except Fault (Nat × List VaArg)
  | .data (.pointer p) :: va => .ok (p, va)
  | _ => .error .undefined

/-- `va_arg` of the promoted type, converted back: an object of `size`
bytes. -/
def vaValue (size : Nat) : List VaArg → Except Fault (List UInt8 × List VaArg)
  | .data (.value bs) :: va =>
    if bs.length = size then .ok (bs, va) else .error .undefined
  | _ => .error .undefined

-- ======== the arguments loop

def parseMode (provided : Option ArgSig) (ts : TaskSig) (va : List VaArg) :
    Except Fault (Nat × TaskSig × List VaArg) := do
  let (modec, va) ← vaInt va
  match provided with
  | some as => .ok (as.mode, ts, va)
  | none =>
    match KaapicMode.ofInt modec with
    | none => .error .einval
    | some m =>
      let ts := if m = .t then { ts with hasScratch := true } else ts
      .ok (modec2modek m, ts, va)

def parseRedop (provided : Option ArgSig) (mode : Nat) (va : List VaArg) :
    Except Fault (BitVec 32 × List VaArg) :=
  if mode = KAAPI_ACCESS_MODE_CW then do
    let (redop, va) ← vaInt va
    if provided.isNone && (decide (KAAPIC_REDOP_MIN.toInt < redop.toInt)
        || decide (redop.toInt ≤ 0)) then .error .einval
    else .ok (redop, va)
  else .ok (KAAPIC_REDOP_VOID, va)

def parseType (provided : Option ArgSig) (va : List VaArg) :
    Except Fault (KaapicType × List VaArg) := do
  let (typec, va) ← vaInt va
  match provided with
  | some as => .ok (as.type, va)
  | none =>
    match KaapicType.ofInt typec with
    | none => .error .einval
    | some t => .ok (t, va)

/-- The place of a by-value argument, `-1` or an offset in the block of
the values. The offset is `(size + (align - 1)) & (align - 1)`: the
remainder the block would have to be padded from, not the padded size. -/
def computeVoffset (ts : TaskSig) (mode : Nat)
    (info : TypeInfo) : TaskSig × Option Nat :=
  if mode = KAAPI_ACCESS_MODE_V then
    let ts := { ts with useFfi := ts.useFfi || info.useFfi }
    if info.vArgInAccess then (ts, none)
    else
      let voffset := (ts.valuesSize + (info.align - 1)) &&& (info.align - 1)
      let ts := { ts with
                  valuesSize := voffset + info.size
                  valuesAlign := if ts.valuesAlign < info.align then info.align
                                 else ts.valuesAlign }
      (ts, some voffset)
  else (ts, none)

/-- With a signature the values share one block allocated before the
loop, without one each gets its own. -/
def parseArg (sigProvided : Bool) (mode : Nat) (info : TypeInfo)
    (voffset : Option Nat)
    (values : ByteBlock UInt8) (va : List VaArg) :
    Except Fault (ArgInfo × ByteBlock UInt8 × List VaArg) :=
  if mode ≠ KAAPI_ACCESS_MODE_V then do
    let (addr, va) ← vaPtr va
    .ok (⟨.user addr, [], []⟩, values, va)
  else do
    let (bs, va) ← vaValue info.size va
    match voffset with
    | none => .ok (⟨.version, bs, []⟩, values, va)
    | some off =>
      if sigProvided then .ok (⟨.values off, [], []⟩, values.write (off, bs), va)
      else .ok (⟨.block, [], bs⟩, values, va)

/-- The body of the arguments loop. -/
def spawnArg (provided : Option ArgSig) (ts : TaskSig) (values : ByteBlock UInt8)
    (va : List VaArg) :
    Except Fault (ArgSig × TaskSig × ArgInfo × ByteBlock UInt8 × List VaArg) := do
  let (mode, ts, va) ← parseMode provided ts va
  let (redop, va) ← parseRedop provided mode va
  let (type, va) ← parseType provided va
  let info := typeInfo type
  let (count, va) ← vaInt va
  match provided with
  | some as =>
    let (ai, values, va) ← parseArg true mode info as.voffset values va
    .ok (as, ts, ai, values, va)
  | none =>
    let (ts, voffset) := computeVoffset ts mode info
    let (ai, values, va) ← parseArg false mode info voffset values va
    .ok (⟨mode, type, redop, memoryViewMake1d count info.size, type, voffset⟩,
      ts, ai, values, va)

/-- The arguments loop. With a signature it walks the signature's
arguments, without one it appends to them. -/
def spawnArgs : Nat → Option (List ArgSig) → TaskSig → ByteBlock UInt8
    → List VaArg →
    Except Fault (TaskSig × List ArgInfo × ByteBlock UInt8)
  | 0, _, ts, values, _ => .ok (ts, [], values)
  | _ + 1, some [], _, _, _ => .error .undefined
  | n + 1, some (as :: rest), ts, values, va => do
    let (_, ts, ai, values, va) ← spawnArg (some as) ts values va
    let (ts, ais, values) ← spawnArgs n (some rest) ts values va
    .ok (ts, ai :: ais, values)
  | n + 1, none, ts, values, va => do
    let (as, ts, ai, values, va) ← spawnArg none ts values va
    let (ts, ais, values) ←
      spawnArgs n none { ts with args := ts.args ++ [as] } values va
    .ok (ts, ai :: ais, values)

-- ======== the spawn

/-- The hash map of the signatures, keyed by the body. -/
abbrev HashTaskSig := Nat → Option TaskSig

/-- An empty signature: `nargs` is stored on 16 bits. -/
def initSig (nargs : Nat) : TaskSig where
  nargs := nargs % 2 ^ 16
  useFfi := decide (KAAPIC_MAX_ARGS < nargs)
  hasScratch := false
  valuesSize := 0
  valuesAlign := 0
  args := []

/-- A block of a given size, its content not set. -/
def pushdata (size : Nat) : ByteBlock UInt8 := ⟨size, fun _ => 0⟩

/-- `__kaapic_spawn2`: the task pushed, and the map after the call. -/
def kaapicSpawn2 (provided : Option TaskSig) (hash : HashTaskSig) (body nargs : Nat)
    (va : List VaArg) : Except Fault (TaskInfo × HashTaskSig) :=
  match provided with
  | some ts => do
    let (ts, args, values) ← spawnArgs nargs (some ts.args) ts
      (pushdata ts.valuesSize) va
    .ok (⟨body, ts, args, values⟩, hash)
  | none => do
    let (ts, args, values) ← spawnArgs nargs none (initSig nargs) (pushdata 0) va
    match hash body with
    -- several registrations of the body: the first one stays
    | some ts' => .ok (⟨body, ts', args, values⟩, hash)
    | none => .ok (⟨body, ts, args, values⟩, Function.update hash body (some ts))

/-- `__kaapic_spawn`: look the body up. -/
def kaapicSpawn (hash : HashTaskSig) (body nargs : Nat) (va : List VaArg) :
    Except Fault (TaskInfo × HashTaskSig) :=
  kaapicSpawn2 (hash body) hash body nargs va

-- ======== the body and the format

/-- What the user's function receives for a parameter. -/
inductive Received
  | pointer (p : Nat)
  | value (bs : List UInt8)
  | temporary (size : Nat)
  deriving DecidableEq, Repr

/-- `_kaapi_gettemporary_data`: a buffer of the processor, null when
`id > 16`. The processor has sixteen, 16 passes the test and is past them. -/
def gettemporaryData (id size : Nat) : Addr :=
  if 16 < id then .user 0
  else if id = 16 then .wild
  else .temporary size

/-- The pass over the scratch parameters before the call of the body. -/
def setScratch : Nat → List ArgSig → List ArgInfo → List ArgInfo
  | scratchCount, as :: ass, ai :: ais =>
    if as.mode &&& KAAPI_ACCESS_MODE_T ≠ 0 then
      { ai with data := gettemporaryData scratchCount (memoryViewSize as.view) }
        :: setScratch (scratchCount + 1) ass ais
    else ai :: setScratch scratchCount ass ais
  | _, _, _ => []

/-- The object of `n` bytes at the start of a field or of a block. -/
def readObject (bs : List UInt8) (n : Nat) : Option (List UInt8) :=
  if n ≤ bs.length then some (bs.take n) else none

/-- `get_arg` and the use of its result by the call of the body. Without
libffi a value is passed as a pointer is, which is right only for the
integers up to its size. -/
def getArg (ffi : Bool) (values : ByteBlock UInt8) (as : ArgSig) (ai : ArgInfo) :
    Option Received :=
  if as.mode = KAAPI_ACCESS_MODE_V then
    if !ffi && useFfi as.type then none
    else
      match ai.data with
      | .version => (readObject ai.version (sizeof as.type)).map .value
      | .block => (readObject ai.block (sizeof as.type)).map .value
      | .values off => (values.read off (sizeof as.type)).map .value
      | _ => none
  else
    match ai.data with
    | .user p => some (.pointer p)
    | .temporary size => some (.temporary size)
    | _ => none

def getArgs (ffi : Bool) (values : ByteBlock UInt8) :
    List ArgSig → List ArgInfo → Option (List Received)
  | as :: ass, ai :: ais => do
    let x ← getArg ffi values as ai
    let xs ← getArgs ffi values ass ais
    some (x :: xs)
  | _, _ => some []

/-- `kaapic_dfg_body`: what the user's function is called with. The
switch without libffi has a case for each number of arguments up to
`KAAPIC_MAX_ARGS` and aborts on the others. -/
def dfgBody (ti : TaskInfo) : Option (List Received) :=
  let ass := ti.sig.args.take ti.sig.nargs
  let ais := ti.args.take ti.sig.nargs
  let ais := if ti.sig.hasScratch then setScratch 0 ass ais else ais
  if ti.sig.useFfi || decide (ti.sig.nargs ≤ KAAPIC_MAX_ARGS) then
    getArgs ti.sig.useFfi ti.values ass ais
  else none

def taskformatGetCountParams (ti : TaskInfo) : Nat := ti.sig.nargs

def taskformatGetModeParam (ti : TaskInfo) (i : Nat) : Option Nat :=
  ti.sig.args[i]?.map ArgSig.mode

def taskformatGetFmtParam (ti : TaskInfo) (i : Nat) : Option KaapicType :=
  ti.sig.args[i]?.map ArgSig.format

def taskformatGetViewParam (ti : TaskInfo) (i : Nat) : Option MemoryView :=
  ti.sig.args[i]?.map ArgSig.view

/-- The reduction the format applies: on which type and with which
operator (`kaapic_taskformat_reducor`, `kaapic_taskformat_redinit`). -/
def taskformatReducor (ti : TaskInfo) (i : Nat) : Option (KaapicType × BitVec 32) :=
  ti.sig.args[i]?.map fun as => (as.type, as.redop)

end Kaapic
end XKaapi
