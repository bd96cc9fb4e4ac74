/-
Is the signature cache of kaapic_spawn transparent? A sequence of calls
runs on the map the calls before it left; what the map holds for a body
is the signature of the first accepted call of that body (`hashAfter`),
a closed function of that call (`sigOf`). A later call of the body keeps
the count, and the reduction operator, of the first one, and shares one
block among its by-value long doubles, which the computation of the
offsets puts on top of each other. So the cache is transparent for the
calls that repeat these fields and have at most one such value, and for
no others (`spawns_ok_iff`).
-/
import XKaapi.Kaapic.Spawn
import Mathlib.Data.List.Forall2

namespace XKaapi
namespace Kaapic

open ByteBlock

-- ======== the calls

/-- The argument is what the mode and the type of its parameter ask for:
an object of the type for a value, a pointer for the other modes. -/
def Arg.fits (mode type : BitVec 32) (a : Arg) : Bool :=
  match KaapicMode.ofInt mode, KaapicType.ofInt type, a with
  | some .v, some t, .value bs => decide (bs.length = sizeof t)
  | some .v, some _, .pointer _ => false
  | some .v, none, _ => true
  | some _, _, .pointer _ => true
  | some _, _, .value _ => false
  | none, _, _ => true

/-- A parameter of a call, as the caller gives it. -/
structure Param where
  mode : BitVec 32
  redop : BitVec 32
  type : BitVec 32
  count : BitVec 32
  arg : Arg
  fits : arg.fits mode type = true

def Param.modec (p : Param) : KaapicMode := (KaapicMode.ofInt p.mode).getD .r

def Param.typec (p : Param) : KaapicType := (KaapicType.ofInt p.type).getD .char

/-- A parameter the spawn takes: mode and type are in range, and so is
the operator of a reduction. -/
def Param.accepted (p : Param) : Bool :=
  (KaapicMode.ofInt p.mode).isSome && (KaapicType.ofInt p.type).isSome
    && (decide (p.modec ≠ .cw) || decide (0 < p.redop.toInt)
        && decide (p.redop.toInt ≤ KAAPIC_REDOP_MIN.toInt))

/-- The variadic arguments of a parameter: MODE, [REDOP,] TYPE, count, data. -/
def Param.va (p : Param) : List VaArg :=
  .int p.mode :: ((if KaapicMode.ofInt p.mode
    = some .cw then [.int p.redop] else [])
    ++ [.int p.type, .int p.count, .data p.arg])

structure Call where
  body : Nat
  params : List Param

def Call.accepted (c : Call) : Bool := c.params.all Param.accepted

def Call.va (c : Call) : List VaArg := c.params.flatMap Param.va

/-- The calls one after the other, each on the map the last one left. An
error leaves the map as it is. -/
def spawns (hash : HashTaskSig) : List Call → List (Except Fault TaskInfo)
  | [] => []
  | c :: cs =>
    match kaapicSpawn hash c.body c.params.length c.va with
    | .ok (ti, hash') => .ok ti :: spawns hash' cs
    | .error e => .error e :: spawns hash cs

-- ======== what a task must have

def Param.view (p : Param) : MemoryView := memoryViewMake1d p.count (sizeof p.typec)

def Param.isScratch (p : Param) : Bool := decide (p.modec = .t)

/-- What the user's function has to receive: the value or the pointer
given, for a scratch parameter a temporary of the size given. -/
def Param.received (p : Param) : Received :=
  if p.modec = .t then .temporary (memoryViewSize p.view)
  else
    match p.arg with
    | .pointer q => .pointer q
    | .value bs => .value bs

/-- The task has exactly the parameters of the call. -/
structure HasParams (ti : TaskInfo) (ps : List Param) : Prop where
  received : dfgBody ti = some (ps.map Param.received)
  count : taskformatGetCountParams ti = ps.length
  mode : ∀ i p, ps[i]? = some p → taskformatGetModeParam ti i = some
    (modec2modek p.modec)
  type : ∀ i p, ps[i]? = some p → taskformatGetFmtParam ti i = some p.typec
  redop : ∀ i p, ps[i]? = some p → p.modec = .cw →
    taskformatReducor ti i = some (p.typec, p.redop)
  view : ∀ i p, ps[i]? = some p → taskformatGetViewParam ti i = some p.view

/-- Every call that is accepted makes a task with its parameters, and
the others make a task with their parameters or none. -/
def SpawnOk (c : Call) : Except Fault TaskInfo → Prop
  | .ok ti => HasParams ti c.params
  | .error e => e = .einval ∧ c.accepted = false

def SpawnsOk (cs : List Call) : Prop :=
  List.Forall₂ SpawnOk cs (spawns (fun _ => none) cs)

-- ======== the parameters read one by one

variable {p q : Param} {m : KaapicMode} {β α : Type} {k : Nat} {ts : TaskSig}
  {ps qs : List Param} {hash : HashTaskSig} {c f : Call} {ffi : Bool} {before : List Call}

/-- kaapic_spawn accepts a parameter whose mode and type it knows and whose
operator, for CW, is in range. -/
theorem Param.accepted_iff : p.accepted = true ↔
    KaapicMode.ofInt p.mode = some p.modec ∧ KaapicType.ofInt p.type
      = some p.typec ∧
      (p.modec = .cw → 0 < p.redop.toInt ∧ p.redop.toInt
        ≤ KAAPIC_REDOP_MIN.toInt) := by
  unfold Param.accepted Param.modec Param.typec
  cases KaapicMode.ofInt p.mode with
  | none => simp
  | some m =>
    cases KaapicType.ofInt p.type with
    | none => simp
    | some t =>
      simp [← imp_iff_not_or]

/-- Mode and type are in range, whatever the operator. -/
structure Param.InRange (p : Param) : Prop where
  mode : KaapicMode.ofInt p.mode = some p.modec
  type : KaapicType.ofInt p.type = some p.typec

/-- An accepted parameter is in the range of its type. -/
theorem Param.inRange_of_accepted (hp : p.accepted = true) : p.InRange :=
  ⟨(Param.accepted_iff.mp hp).1, (Param.accepted_iff.mp hp).2.1⟩

/-- A V argument is a value of the size of its type. -/
theorem Param.arg_value (hp : p.InRange) (hm : p.modec = .v) :
    ∃ bs, p.arg = .value bs ∧ bs.length = sizeof p.typec := by
  rcases hp with ⟨hmode, htype⟩
  have hfits := p.fits
  unfold Arg.fits at hfits
  rw [hmode, hm, htype] at hfits
  cases harg : p.arg with
  | pointer q => rw [harg] at hfits; cases hfits
  | value bs =>
    rw [harg] at hfits
    exact ⟨bs, rfl, of_decide_eq_true hfits⟩

/-- Any other argument is a pointer. -/
theorem Param.arg_pointer (hp : p.InRange) (hm : p.modec ≠ .v) :
    ∃ q, p.arg = .pointer q := by
  rcases hp with ⟨hmode, htype⟩
  have hfits := p.fits
  unfold Arg.fits at hfits
  rw [hmode, htype] at hfits
  cases harg : p.arg with
  | pointer q => exact ⟨q, rfl⟩
  | value bs =>
    rw [harg] at hfits
    cases hmc : p.modec <;> rw [hmc] at hfits
    all_goals first | exact absurd hmc hm | cases hfits

/-- Only V becomes the mode V of the task. -/
theorem modec2modek_eq_v : modec2modek m = KAAPI_ACCESS_MODE_V
    ↔ m = .v := by
  cases m <;> decide

/-- Only CW becomes the mode CW of the task. -/
theorem modec2modek_eq_cw : modec2modek m = KAAPI_ACCESS_MODE_CW ↔ m = .cw := by
  cases m <;> decide

/-- Only T has the scratch bit. -/
theorem modec2modek_and_t : modec2modek m &&& KAAPI_ACCESS_MODE_T ≠ 0 ↔ m = .t := by
  cases m <;> decide

/-- Only a long double does not fit where a pointer does. -/
theorem vArgInAccess_iff {t : KaapicType} : (typeInfo t).vArgInAccess = true
    ↔ t ≠ .ldbl := by
  cases t <;> decide

-- ======== the signature of a call

/-- A by-value long double: the values kept outside the access. -/
def Param.inBlock (p : Param) : Bool := decide (p.modec = .v) && decide
    (p.typec = .ldbl)

/-- The offset the source computes for the value with `k` others before
it in the block. -/
def voffsetAt (k : Nat) : Nat := 15 - k % 16

def valuesSizeAt : Nat → Nat
  | 0 => 0
  | k + 1 => voffsetAt k + 16

def valuesAlignAt : Nat → Nat
  | 0 => 0
  | _ + 1 => 16

def Param.storedRedop (p : Param) : BitVec 32 :=
  if p.modec = .cw then p.redop else KAAPIC_REDOP_VOID

def Param.argSig (k : Nat) (p : Param) : ArgSig where
  mode := modec2modek p.modec
  type := p.typec
  redop := p.storedRedop
  view := p.view
  format := p.typec
  voffset := if p.inBlock then some (voffsetAt k) else none

/-- The argument signatures of the parameters after `k` values in the
block. -/
def sigArgs : Nat → List Param → List ArgSig
  | _, [] => []
  | k, p :: ps => p.argSig k :: sigArgs (k + p.inBlock.toNat) ps

/-- The signature after one more parameter. -/
def TaskSig.grow (ts : TaskSig) (k : Nat) (p : Param) : TaskSig where
  nargs := ts.nargs
  useFfi := ts.useFfi || decide (p.modec = .v) && Kaapic.useFfi p.typec
  hasScratch := ts.hasScratch || p.isScratch
  valuesSize := valuesSizeAt (k + p.inBlock.toNat)
  valuesAlign := valuesAlignAt (k + p.inBlock.toNat)
  args := ts.args

/-- The record of a parameter: `provided` tells whether its value goes
to the common block. -/
def Param.info (provided : Bool) (k : Nat) (p : Param) : ArgInfo :=
  match p.arg with
  | .pointer q => ⟨.user q, [], []⟩
  | .value bs =>
    if p.inBlock then
      if provided then ⟨.values (voffsetAt k), [], []⟩ else ⟨.block, [], bs⟩
    else ⟨.version, bs, []⟩

/-- The write to the common block for a parameter, if any. -/
def Param.places (k : Nat) (p : Param) : List (Place UInt8) :=
  match p.arg with
  | .pointer _ => []
  | .value bs => if p.inBlock then [(voffsetAt k, bs)] else []

/-- The offset that the code computes is the one of the record. -/
theorem voffset_eq (k : Nat) : (valuesSizeAt k + 15) &&& 15 = voffsetAt k := by
  have hand : ∀ n : Nat, n &&& 15 = n % 16 := fun n =>
    Nat.and_two_pow_sub_one_eq_mod n 4
  rw [hand]
  cases k with
  | zero => rfl
  | succ k =>
    show (voffsetAt k + 16 + 15) % 16 = voffsetAt (k + 1)
    unfold voffsetAt
    omega

-- ======== one turn of the loop

theorem ok_bind {ε : Type} (x : α) (f : α → Except ε β) : (Except.ok x >>= f) = f x := rfl

theorem error_bind {ε : Type} (e : ε) (f : α → Except ε β) :
    ((Except.error e : Except ε α) >>= f) = .error e := rfl

/-- The arguments of a parameter after its mode. -/
def Param.vaRedop (p : Param) (rest : List VaArg) : List VaArg :=
  (if p.modec = .cw then [.int p.redop] else [])
    ++ .int p.type :: .int p.count :: .data p.arg :: rest

section

variable (hmode : KaapicMode.ofInt p.mode = some p.modec)
include hmode

/-- What the first va_arg of a parameter reads. -/
theorem Param.va_append (rest : List VaArg) :
    p.va ++ rest = .int p.mode :: p.vaRedop rest := by
  unfold Param.va Param.vaRedop
  rw [hmode, List.cons_append, List.append_assoc]
  by_cases hcw : p.modec = .cw
  · rw [if_pos (by rw [hcw]), if_pos hcw]
    rfl
  · rw [if_neg (fun h => hcw (Option.some.inj h)), if_neg hcw]
    rfl

/-- The mode read while the signature is built. -/
theorem parseMode_build (ts : TaskSig) (rest : List VaArg) :
    parseMode none ts (p.va ++ rest) = .ok (modec2modek p.modec,
      (if p.modec = .t then { ts with hasScratch := true } else ts),
        p.vaRedop rest) := by
  rw [Param.va_append hmode]
  unfold parseMode vaInt
  simp only [ok_bind, hmode]

/-- The mode read with a signature. -/
theorem parseMode_provided (as : ArgSig) (ts : TaskSig) (rest : List VaArg) :
    parseMode (some as) ts (p.va ++ rest) = .ok (as.mode, ts, p.vaRedop rest) := by
  rw [Param.va_append hmode]
  unfold parseMode vaInt
  simp only [ok_bind]

end

/-- Past the check of the operator, which only the building mode makes,
the redop of a reduction is read and nothing for the other modes. -/
theorem parseRedop_ok {provided : Option ArgSig}
    (hredop : provided.isNone = true → p.modec = .cw →
      0 < p.redop.toInt ∧ p.redop.toInt ≤ KAAPIC_REDOP_MIN.toInt) (rest : List VaArg) :
    parseRedop provided (modec2modek p.modec) (p.vaRedop rest) = .ok (p.storedRedop,
      .int p.type :: .int p.count :: .data p.arg :: rest) := by
  unfold parseRedop Param.vaRedop Param.storedRedop
  by_cases hcw : p.modec = .cw
  · rw [if_pos (modec2modek_eq_cw.mpr hcw), if_pos hcw, if_pos hcw]
    show (if _ then _ else _) = _
    rw [if_neg]
    · rfl
    · intro hbad
      simp only [Bool.and_eq_true, Bool.or_eq_true, decide_eq_true_eq] at hbad
      have hrange := hredop hbad.1 hcw
      omega
  · rw [if_neg (fun h => hcw (modec2modek_eq_cw.mp h)), if_neg hcw, if_neg hcw]
    rfl

/-- The type read while the signature is built. -/
theorem parseType_build (htype : KaapicType.ofInt p.type = some p.typec)
    (rest : List VaArg) : parseType none (.int p.type :: rest) = .ok
      (p.typec, rest) := by
  unfold parseType vaInt
  simp only [ok_bind, htype]

/-- The type read with a signature. -/
theorem parseType_provided (p : Param) (as : ArgSig) (rest : List VaArg) :
    parseType (some as) (.int p.type :: rest) = .ok (as.type, rest) := rfl

/-- The place of a value in the block of the values. -/
theorem computeVoffset_eq (hsize : ts.valuesSize = valuesSizeAt k)
    (halign : ts.valuesAlign = valuesAlignAt k) (p : Param) :
    computeVoffset (if p.modec = .t then { ts with hasScratch := true } else ts)
        (modec2modek p.modec) (typeInfo p.typec) =
      (ts.grow k p, if p.inBlock then some (voffsetAt k) else none) := by
  unfold computeVoffset TaskSig.grow Param.isScratch Param.inBlock
  by_cases hv : p.modec = .v
  · have ht : p.modec ≠ .t := fun h => by rw [hv] at h; cases h
    rw [if_pos (modec2modek_eq_v.mpr hv), if_neg ht]
    by_cases hl : p.typec = .ldbl
    · rw [if_neg (fun h => vArgInAccess_iff.mp h hl), hl]
      show (_, some ((ts.valuesSize + 15) &&& 15)) = _
      have halign' : 16 ≤ valuesAlignAt k → valuesAlignAt k = 16 := by
        cases k with
        | zero => exact fun h => absurd h (by decide)
        | succ k => exact fun _ => rfl
      have hgrow : valuesSizeAt (k + 1) = voffsetAt k + 16 := rfl
      have hgrow' : valuesAlignAt (k + 1) = 16 := rfl
      rw [hsize, voffset_eq]
      simp [hv, halign, typeInfo, sizeof, alignof, hgrow, hgrow', voffset_eq]
      exact halign'
    · rw [if_pos (vArgInAccess_iff.mpr hl)]
      simp [hv, hl, hsize, halign, typeInfo]
  · rw [if_neg (fun h => hv (modec2modek_eq_v.mp h))]
    by_cases ht : p.modec = .t
    · simp [ht, ← hsize, ← halign]
    · simp [hv, ht, ← hsize, ← halign]

/-- What the last part of the loop stores of an argument. -/
theorem parseArg_eq (hp : p.InRange) (provided : Bool) (k : Nat)
    (values : ByteBlock UInt8) (rest : List VaArg) :
    parseArg provided (modec2modek p.modec) (typeInfo p.typec)
        (if p.inBlock then some (voffsetAt k) else none) values
          (.data p.arg :: rest) =
      .ok (p.info provided k,
        (if provided then values.writes (p.places k) else values),
        rest) := by
  unfold parseArg Param.info Param.places
  by_cases hv : p.modec = .v
  · rcases Param.arg_value hp hv with ⟨bs, harg, hlen⟩
    rw [if_neg (fun h => h (modec2modek_eq_v.mpr hv)), harg]
    unfold vaValue
    show (if bs.length = sizeof p.typec then _ else _ : Except Fault _) >>= _ = _
    rw [if_pos hlen, ok_bind]
    cases p.inBlock <;> cases provided <;> rfl
  · rcases Param.arg_pointer hp hv with ⟨q, harg⟩
    rw [if_pos (fun h => hv (modec2modek_eq_v.mp h)), harg]
    cases provided <;> rfl

/-- One turn of the loop that builds the signature. -/
theorem spawnArg_build (hp : p.accepted = true) (hsize : ts.valuesSize = valuesSizeAt k)
    (halign : ts.valuesAlign = valuesAlignAt k) (values : ByteBlock UInt8)
    (rest : List VaArg) :
    spawnArg none ts values (p.va ++ rest) =
      .ok (p.argSig k, ts.grow k p, p.info false k, values, rest) := by
  rcases Param.accepted_iff.mp hp with ⟨hmode, htype, hredop⟩
  unfold spawnArg
  rw [parseMode_build hmode, ok_bind]
  dsimp only
  rw [parseRedop_ok (fun _ => hredop), ok_bind]
  dsimp only
  rw [parseType_build htype, ok_bind]
  unfold vaInt
  simp only [ok_bind, computeVoffset_eq hsize halign,
    parseArg_eq (Param.inRange_of_accepted hp)]
  rfl

/-- A turn with the signature of a parameter of the same mode and type:
the count and the operator are read and dropped. -/
theorem spawnArg_provided (hp : p.InRange) (hm : p.modec = q.modec)
    (ht : p.typec = q.typec) (k : Nat) (ts : TaskSig) (values : ByteBlock UInt8)
    (rest : List VaArg) :
    spawnArg (some (q.argSig k)) ts values (p.va ++ rest) =
      .ok (q.argSig k, ts, p.info true k, values.writes (p.places k), rest) := by
  rcases hp with ⟨hmode, htype⟩
  have hblock : q.inBlock = p.inBlock := by unfold Param.inBlock; rw [hm, ht]
  unfold spawnArg
  rw [parseMode_provided hmode, ok_bind]
  show parseRedop (some (q.argSig k)) (modec2modek q.modec) _ >>= _ = _
  rw [← hm, parseRedop_ok (fun h => Bool.noConfusion h), ok_bind]
  dsimp only
  rw [parseType_provided, ok_bind]
  unfold vaInt
  rw [ok_bind]
  show parseArg true (modec2modek q.modec) (typeInfo q.typec)
    (if q.inBlock then some (voffsetAt k) else none) values
      (.data p.arg :: rest) >>= _ = _
  rw [← hm, ← ht, hblock, parseArg_eq ⟨hmode, htype⟩, ok_bind]
  rfl

/-- A parameter out of range ends the call with an error. -/
theorem spawnArg_reject (hp : p.accepted = false) (ts : TaskSig)
    (values : ByteBlock UInt8) (rest : List VaArg) :
    spawnArg none ts values (p.va ++ rest) = .error .einval := by
  unfold spawnArg
  cases hmode : KaapicMode.ofInt p.mode with
  | none =>
    have hva : p.va ++ rest
      = .int p.mode :: (([.int p.type, .int p.count, .data p.arg] ++ rest)) := by
      unfold Param.va
      rw [hmode, if_neg (by simp)]
      rfl
    rw [hva]
    unfold parseMode vaInt
    simp only [ok_bind, hmode, error_bind]
  | some m =>
    have hmode' : KaapicMode.ofInt p.mode = some p.modec := by
      unfold Param.modec
      rw [hmode]
      rfl
    rw [parseMode_build hmode', ok_bind]
    dsimp only
    by_cases hredop : p.modec = .cw → 0 < p.redop.toInt ∧ p.redop.toInt
      ≤ KAAPIC_REDOP_MIN.toInt
    · rw [parseRedop_ok (fun _ => hredop), ok_bind]
      have htype : KaapicType.ofInt p.type = none := by
        cases ht : KaapicType.ofInt p.type with
        | none => rfl
        | some t =>
          have htypec : KaapicType.ofInt p.type = some p.typec := by
            unfold Param.typec
            rw [ht]
            rfl
          rw [Param.accepted_iff.mpr ⟨hmode', htypec, hredop⟩] at hp
          cases hp
      dsimp only
      unfold parseType vaInt
      simp only [ok_bind, htype, error_bind]
    · rcases Classical.not_imp.mp hredop with ⟨hcw, hrange⟩
      unfold parseRedop Param.vaRedop
      rw [if_pos (modec2modek_eq_cw.mpr hcw), if_pos hcw]
      show (if _ then _ else _ : Except Fault _) >>= _ = _
      rw [if_pos]
      · rfl
      · simp only [Option.isNone_none, Bool.true_and, Bool.or_eq_true,
          decide_eq_true_eq]
        omega

-- ======== the whole loop

/-- How many of the parameters go to the block. -/
def blocks : List Param → Nat
  | [] => 0
  | p :: ps => p.inBlock.toNat + blocks ps

def infos (provided : Bool) : Nat → List Param → List ArgInfo
  | _, [] => []
  | k, p :: ps => p.info provided k :: infos provided (k + p.inBlock.toNat) ps

/-- The writes to the common block, in the order of the loop. -/
def places : Nat → List Param → List (Place UInt8)
  | _, [] => []
  | k, p :: ps => p.places k ++ places (k + p.inBlock.toNat) ps

/-- The signature after some more parameters. -/
def TaskSig.growAll (ts : TaskSig) (k : Nat) (ps : List Param) : TaskSig where
  nargs := ts.nargs
  useFfi := ts.useFfi || ps.any fun p =>
    decide (p.modec = .v) && Kaapic.useFfi p.typec
  hasScratch := ts.hasScratch || ps.any Param.isScratch
  valuesSize := valuesSizeAt (k + blocks ps)
  valuesAlign := valuesAlignAt (k + blocks ps)
  args := ts.args ++ sigArgs k ps

/-- Two parameters of one mode and type. -/
def SameShape (p q : Param) : Prop := p.mode = q.mode ∧ p.type = q.type

/-- Parameters of one shape have one mode. -/
theorem SameShape.modec (h : SameShape p q) : p.modec = q.modec := by
  unfold Param.modec
  rw [h.1]

/-- They have one type. -/
theorem SameShape.typec (h : SameShape p q) : p.typec = q.typec := by
  unfold Param.typec
  rw [h.2]

/-- They are both in the block of the values, or neither is. -/
theorem SameShape.inBlock (h : SameShape p q) : p.inBlock
    = q.inBlock := by
  unfold Param.inBlock
  rw [h.modec, h.typec]

/-- They are both in range, or neither is. -/
theorem SameShape.inRange (h : SameShape p q) (hq : q.InRange) : p.InRange :=
  ⟨by rw [h.1, h.modec]; exact hq.mode, by rw [h.2, h.typec]; exact hq.type⟩

/-- The loop builds the signature of the accepted parameters. -/
theorem spawnArgs_build (hps : ∀ p ∈ ps, p.accepted = true)
    (hsize : ts.valuesSize = valuesSizeAt k) (halign : ts.valuesAlign = valuesAlignAt k)
    (values : ByteBlock UInt8) :
    spawnArgs ps.length none ts values (ps.flatMap Param.va) =
      .ok (ts.growAll k ps, infos false k ps, values) := by
  induction ps generalizing ts k with
  | nil =>
    unfold TaskSig.growAll
    simp only [List.any_nil, Bool.or_false, blocks, Nat.add_zero, sigArgs,
      List.append_nil,
      ← hsize, ← halign]
    rfl
  | cons p ps ih =>
    rw [List.flatMap_cons, List.length_cons]
    unfold spawnArgs
    rw [spawnArg_build (hps p List.mem_cons_self) hsize halign, ok_bind]
    dsimp only
    rw [ih (fun q hq => hps q (List.mem_cons_of_mem _ hq))
      (k := k + p.inBlock.toNat) rfl rfl,
      ok_bind]
    simp only [TaskSig.growAll, TaskSig.grow, infos, blocks, sigArgs, List.any_cons,
      Bool.or_assoc, Nat.add_assoc, List.append_assoc, List.cons_append,
        List.nil_append]

/-- The loop stops at the first parameter that is not accepted. -/
theorem spawnArgs_reject (hps : ps.all Param.accepted = false) (ts : TaskSig)
    (hsize : ts.valuesSize = valuesSizeAt k) (halign : ts.valuesAlign = valuesAlignAt k)
    (values : ByteBlock UInt8) :
    spawnArgs ps.length none ts values (ps.flatMap Param.va) = .error .einval := by
  induction ps generalizing ts k with
  | nil => cases hps
  | cons p ps ih =>
    rw [List.flatMap_cons, List.length_cons]
    unfold spawnArgs
    cases hp : p.accepted with
    | false => rw [spawnArg_reject hp, error_bind]
    | true =>
      rw [List.all_cons, hp, Bool.true_and] at hps
      rw [spawnArg_build hp hsize halign, ok_bind]
      dsimp only
      rw [ih hps _ (k := k + p.inBlock.toNat) rfl rfl, error_bind]

/-- With a signature the loop stores the arguments of the call. -/
theorem spawnArgs_provided (hshape : List.Forall₂ SameShape ps qs)
    (hqs : ∀ q ∈ qs, q.InRange) (ts : TaskSig) (k : Nat) (values : ByteBlock UInt8) :
    spawnArgs ps.length (some (sigArgs k qs)) ts values (ps.flatMap Param.va) =
      .ok (ts, infos true k ps, values.writes (places k ps)) := by
  induction hshape generalizing k values with
  | nil => rfl
  | @cons p q ps qs hpq hrest ih =>
    rw [List.flatMap_cons, List.length_cons]
    unfold sigArgs spawnArgs
    rw [spawnArg_provided
      (hpq.inRange (hqs q List.mem_cons_self)) hpq.modec hpq.typec, ok_bind]
    dsimp only
    rw [← hpq.inBlock, ih (fun q' hq' => hqs q' (List.mem_cons_of_mem _ hq')),
      ok_bind,
      places, writes_append]
    rfl

-- ======== one call

/-- The signature a call builds. -/
def sigOf (c : Call) : TaskSig := (initSig c.params.length).growAll 0 c.params

/-- The task of a call, with the signature it built or was given. -/
def taskOf (provided : Bool) (ts : TaskSig) (c : Call) : TaskInfo where
  body := c.body
  sig := ts
  args := infos provided 0 c.params
  values := if provided then (pushdata ts.valuesSize).writes (places 0 c.params)
            else pushdata 0

/-- The first accepted spawn of a body enters its signature. -/
theorem kaapicSpawn_build (hhash : hash c.body = none) (hc : c.accepted = true) :
    kaapicSpawn hash c.body c.params.length c.va =
      .ok (taskOf false (sigOf c) c,
        Function.update hash c.body (some (sigOf c))) := by
  have hps : ∀ p ∈ c.params, p.accepted = true := List.all_eq_true.mp hc
  unfold kaapicSpawn kaapicSpawn2 Call.va
  rw [hhash]
  dsimp only
  rw [spawnArgs_build hps (k := 0) rfl rfl, ok_bind]
  rfl

/-- A spawn that is not accepted enters nothing. -/
theorem kaapicSpawn_reject (hhash : hash c.body = none) (hc : c.accepted = false) :
    kaapicSpawn hash c.body c.params.length c.va = .error .einval := by
  unfold kaapicSpawn kaapicSpawn2 Call.va
  rw [hhash]
  dsimp only
  rw [spawnArgs_reject hc _ (k := 0) rfl rfl, error_bind]

/-- A later spawn of the body takes the signature that is there. -/
theorem kaapicSpawn_found (hhash : hash c.body = some (sigOf f)) (hf : f.accepted = true)
    (hshape : List.Forall₂ SameShape c.params f.params) :
    kaapicSpawn hash c.body c.params.length c.va = .ok
      (taskOf true (sigOf f) c, hash) := by
  have hqs : ∀ q ∈ f.params, q.InRange :=
    fun q hq => Param.inRange_of_accepted (List.all_eq_true.mp hf q hq)
  unfold kaapicSpawn kaapicSpawn2 Call.va
  rw [hhash]
  dsimp only
  rw [show (sigOf f).args = sigArgs 0 f.params from rfl,
    spawnArgs_provided hshape hqs, ok_bind]
  rfl

-- ======== what the body receives

def scratches : List Param → Nat
  | [] => 0
  | p :: ps => p.isScratch.toNat + scratches ps

/-- The body gets its arguments one by one. -/
theorem getArgs_cons {values : ByteBlock UInt8} {as : ArgSig} {ass : List ArgSig}
    {ai : ArgInfo} {ais : List ArgInfo} {x : Received} {xs : List Received} :
    getArgs ffi values (as :: ass) (ai :: ais) = some (x :: xs) ↔
      getArg ffi values as ai = some x ∧ getArgs ffi values ass ais = some xs := by
  rw [getArgs]
  cases getArg ffi values as ai with
  | none => simp
  | some y =>
    cases getArgs ffi values ass ais with
    | none => simp
    | some ys => simp

/-- The bytes of an object are read back. -/
theorem readObject_self (bs : List UInt8) : readObject bs bs.length = some bs := by
  unfold readObject
  rw [if_pos (Nat.le_refl _), List.take_length]

/-- A V argument arrives iff its place still holds its bytes. -/
theorem getArg_value (hp : p.InRange) (hpq : SameShape p q) (hm : p.modec = .v)
    (hffi : useFfi p.typec = true → ffi = true) (provided : Bool) (k : Nat)
    (values : ByteBlock UInt8) :
    getArg ffi values (q.argSig k) (p.info provided k) = some p.received ↔
      (provided = true →
        ∀ w ∈ p.places k, values.read w.1 w.2.length = some w.2) := by
  rcases Param.arg_value hp hm with ⟨bs, harg, hlen⟩
  have hffi' : ¬(!ffi && useFfi p.typec) = true := by
    cases hu : useFfi p.typec with
    | false => simp
    | true => simp [hffi hu]
  have hmode : (q.argSig k).mode = KAAPI_ACCESS_MODE_V :=
    modec2modek_eq_v.mpr (hpq.modec ▸ hm)
  unfold getArg Param.received Param.info Param.places
  rw [if_pos hmode, harg]
  show (if (!ffi && useFfi q.typec) = true then _ else _) = _ ↔ _
  rw [← hpq.typec, if_neg hffi', if_neg (by rw [hm]; decide)]
  cases hblock : p.inBlock with
  | false =>
    show (readObject bs (sizeof q.typec)).map Received.value = _ ↔ _
    rw [← hpq.typec, ← hlen, readObject_self]
    simp
  | true =>
    cases provided with
    | false =>
      show (readObject bs (sizeof q.typec)).map Received.value = _ ↔ _
      rw [← hpq.typec, ← hlen, readObject_self]
      simp
    | true =>
      show (values.read (voffsetAt k) (sizeof q.typec)).map Received.value = _ ↔ _
      rw [← hpq.typec, ← hlen]
      simp

/-- A pointer arrives as it was given. -/
theorem getArg_pointer (hp : p.InRange) (hpq : SameShape p q) (hm : p.modec ≠ .v)
    (ht : p.modec ≠ .t) (ffi provided : Bool) (k : Nat) (values : ByteBlock UInt8) :
    getArg ffi values (q.argSig k) (p.info provided k) = some p.received := by
  rcases Param.arg_pointer hp hm with ⟨r, harg⟩
  have hmode : ¬(q.argSig k).mode = KAAPI_ACCESS_MODE_V :=
    fun h => hm (hpq.modec.trans (modec2modek_eq_v.mp h))
  unfold getArg Param.received Param.info
  rw [if_neg hmode, harg, if_neg ht]

/-- A scratch argument arrives as a block of its size. -/
theorem getArg_scratch (hpq : SameShape p q) (ht : p.modec = .t)
    (hcount : p.count = q.count) (ffi provided : Bool) (k n : Nat)
    (values : ByteBlock UInt8) :
    getArg ffi values (q.argSig k) { p.info provided k with
        data := gettemporaryData n (memoryViewSize (q.argSig k).view) }
          = some p.received ↔
      n < 16 := by
  have hview : (q.argSig k).view = p.view := by
    show q.view = p.view
    unfold Param.view
    rw [hcount, hpq.typec]
  have hmode : ¬(q.argSig k).mode = KAAPI_ACCESS_MODE_V := by
    intro h
    have hqv := modec2modek_eq_v.mp h
    rw [← hpq.modec, ht] at hqv
    cases hqv
  unfold getArg Param.received gettemporaryData
  rw [if_neg hmode, if_pos ht, hview]
  by_cases hn : 16 < n
  · simp [hn]
    omega
  by_cases hlast : n = 16
  · simp [hlast]
  · simp [hn, hlast]
    omega

/-- A pointer takes no place in the block. -/
theorem Param.places_eq_nil (hm : p.modec ≠ .v) (k : Nat) : p.places k = [] := by
  unfold Param.places Param.inBlock
  cases p.arg with
  | pointer q => rfl
  | value bs => simp [hm]

/-- All parameters are received as given, when the counts are those of
the signature, iff there are temporaries for all the scratch parameters
and the values in the common block read back. -/
theorem getArgs_iff
    (hshape : List.Forall₂ (fun p q => SameShape p q ∧ p.count = q.count) ps qs)
    (hps : ∀ p ∈ ps, p.InRange)
    (hffi : ∀ p ∈ ps, p.modec = .v → useFfi p.typec = true → ffi = true) (provided : Bool)
    (k n : Nat) (values : ByteBlock UInt8) :
    getArgs ffi values (sigArgs k qs)
      (setScratch n (sigArgs k qs) (infos provided k ps)) =
        some (ps.map Param.received) ↔
      (scratches ps = 0 ∨ n + scratches ps ≤ 16) ∧
        (provided = true →
          ∀ w ∈ places k ps, values.read w.1 w.2.length = some w.2) := by
  induction hshape generalizing k n with
  | nil => simp [sigArgs, infos, setScratch, getArgs, scratches, places]
  | @cons p q ps qs hpq hrest ih =>
    have hp : p.InRange := hps p List.mem_cons_self
    have ih' := ih (fun p' hp' => hps p' (List.mem_cons_of_mem _ hp'))
      (fun p' hp' => hffi p' (List.mem_cons_of_mem _ hp')) (k + p.inBlock.toNat)
    rw [sigArgs, infos, places, List.map_cons, ← hpq.1.inBlock, setScratch]
    by_cases ht : p.modec = .t
    · have hmode : (q.argSig k).mode &&& KAAPI_ACCESS_MODE_T ≠ 0 :=
        modec2modek_and_t.mpr (hpq.1.modec ▸ ht)
      have hv : p.modec ≠ .v := by
        rw [ht]
        decide
      have hscratch : scratches (p :: ps) = 1 + scratches ps := by
        rw [scratches, Param.isScratch, decide_eq_true ht]
        rfl
      rw [if_pos hmode, getArgs_cons, getArg_scratch hpq.1 ht hpq.2, ih', hscratch,
        Param.places_eq_nil hv, List.nil_append, ← and_assoc]
      refine and_congr_left fun _ => ?_
      omega
    · have hmode : ¬(q.argSig k).mode &&& KAAPI_ACCESS_MODE_T ≠ 0 :=
        fun h => ht (hpq.1.modec.trans (modec2modek_and_t.mp h))
      have hscratch : scratches (p :: ps) = scratches ps := by
        rw [scratches, Param.isScratch, decide_eq_false ht]
        exact Nat.zero_add _
      rw [if_neg hmode, getArgs_cons, ih', hscratch]
      by_cases hv : p.modec = .v
      · rw [getArg_value hp hpq.1 hv (hffi p List.mem_cons_self hv)]
        simp only [List.mem_append, or_imp, forall_and]
        tauto
      · rw [Param.places_eq_nil hv, List.nil_append]
        exact and_iff_right (getArg_pointer hp hpq.1 hv ht ffi provided k values)

/-- Without scratch argument no block is allocated. -/
theorem setScratch_of_none (hshape : List.Forall₂ SameShape ps qs)
    (hnone : qs.any Param.isScratch = false) (provided : Bool) (k n : Nat) :
    setScratch n (sigArgs k qs) (infos provided k ps) = infos provided k ps := by
  induction hshape generalizing k with
  | nil => rfl
  | @cons p q ps qs hpq hrest ih =>
    rw [List.any_cons, Bool.or_eq_false_iff] at hnone
    have hmode : ¬(q.argSig k).mode &&& KAAPI_ACCESS_MODE_T ≠ 0 :=
      fun h => of_decide_eq_false hnone.1 (modec2modek_and_t.mp h)
    rw [sigArgs, infos, setScratch, if_neg hmode, ← hpq.inBlock, ih hnone.2]

-- ======== the long doubles of a call

/-- The objects the call passes in the block, in their order. -/
def longDoubles : List Param → List (List UInt8)
  | [] => []
  | p :: ps =>
    match p.arg with
    | .pointer _ => longDoubles ps
    | .value bs => if p.inBlock then bs :: longDoubles ps else longDoubles ps

/-- The objects at the offsets of the source: 15, 14, … -/
def stacked : Nat → List (List UInt8) → List (Place UInt8)
  | _, [] => []
  | k, bs :: rest => (voffsetAt k, bs) :: stacked (k + 1) rest

/-- The values in the block are the long doubles. -/
theorem Param.inBlock_iff : p.inBlock = true ↔ p.modec = .v
    ∧ p.typec = .ldbl := by
  unfold Param.inBlock
  rw [Bool.and_eq_true, decide_eq_true_eq, decide_eq_true_eq]

/-- A long double is 16 bytes of the block. -/
theorem longDoubles_cons_inBlock (hp : p.InRange) (hb : p.inBlock = true)
    (ps : List Param) : ∃ bs, p.arg = .value bs ∧ bs.length = 16 ∧
      longDoubles (p :: ps) = bs :: longDoubles ps := by
  rcases Param.inBlock_iff.mp hb with ⟨hm, ht⟩
  rcases Param.arg_value hp hm with ⟨bs, harg, hlen⟩
  refine ⟨bs, harg, by rw [hlen, ht]; rfl, ?_⟩
  rw [longDoubles, harg]
  exact if_pos hb

/-- Any other parameter is none of them. -/
theorem longDoubles_cons_other (hb : p.inBlock = false) (ps : List Param) :
    longDoubles (p :: ps) = longDoubles ps := by
  rw [longDoubles]
  cases p.arg with
  | pointer q => rfl
  | value bs => exact if_neg (by rw [hb]; decide)

/-- A parameter that is not in the block takes no place there. -/
theorem Param.places_other (hb : p.inBlock = false) (k : Nat) : p.places k = [] := by
  unfold Param.places
  cases p.arg with
  | pointer q => rfl
  | value bs => exact if_neg (by rw [hb]; decide)

/-- The places in the block are those of the long doubles. -/
theorem places_eq_stacked (hps : ∀ p ∈ ps, p.InRange) (k : Nat) :
    places k ps = stacked k (longDoubles ps) := by
  induction ps generalizing k with
  | nil => rfl
  | cons p ps ih =>
    have ih' := ih (fun p' hp' => hps p' (List.mem_cons_of_mem _ hp'))
    rw [places]
    cases hb : p.inBlock with
    | false =>
      rw [Param.places_other hb, longDoubles_cons_other hb, ih']
      rfl
    | true =>
      rcases longDoubles_cons_inBlock
        (hps p List.mem_cons_self) hb ps with ⟨bs, harg, -, hlong⟩
      rw [hlong, stacked, ih', Param.places, harg]
      show (if p.inBlock = true then _ else _) ++ _ = _
      rw [if_pos hb]
      rfl

/-- So are their numbers. -/
theorem blocks_eq_length (hps : ∀ p ∈ ps, p.InRange) :
    blocks ps = (longDoubles ps).length := by
  induction ps with
  | nil => rfl
  | cons p ps ih =>
    have ih' := ih (fun p' hp' => hps p' (List.mem_cons_of_mem _ hp'))
    rw [blocks, ih']
    cases hb : p.inBlock with
    | false =>
      rw [longDoubles_cons_other hb]
      exact Nat.zero_add _
    | true =>
      rcases longDoubles_cons_inBlock
        (hps p List.mem_cons_self) hb ps with ⟨bs, -, -, hlong⟩
      rw [hlong, List.length_cons]
      exact Nat.add_comm _ _

theorem length_of_mem_longDoubles (hps : ∀ p ∈ ps, p.InRange) {bs : List UInt8}
    (hbs : bs ∈ longDoubles ps) : bs.length = 16 := by
  induction ps with
  | nil => cases hbs
  | cons p ps ih =>
    have ih' := ih (fun p' hp' => hps p' (List.mem_cons_of_mem _ hp'))
    cases hb : p.inBlock with
    | false =>
      rw [longDoubles_cons_other hb] at hbs
      exact ih' hbs
    | true =>
      rcases longDoubles_cons_inBlock (hps p List.mem_cons_self) hb ps with
        ⟨bs', -, hlen, hlong⟩
      rw [hlong] at hbs
      rcases List.mem_cons.mp hbs with rfl | hmem
      · exact hlen
      · exact ih' hmem

/-- Where a long double is written: at offset 15 at most. -/
theorem mem_stacked {w : Place UInt8} {ls : List (List UInt8)} (hw : w ∈ stacked k ls) :
    w.2 ∈ ls ∧ w.1 ≤ 15 := by
  induction ls generalizing k with
  | nil => cases hw
  | cons l ls ih =>
    rcases List.mem_cons.mp hw with rfl | hmem
    · exact ⟨List.mem_cons_self, Nat.sub_le _ _⟩
    · rcases ih hmem with ⟨hin, hle⟩
      exact ⟨List.mem_cons_of_mem _ hin, hle⟩

/-- The first value ends at 31, and the block ends after the last one:
they all lie in it iff the last one is where the first one is. -/
theorem stacked_fits {ls : List (List UInt8)} (hlen : ∀ l ∈ ls, l.length = 16) :
    (∀ w ∈ stacked 0 ls, w.1 + w.2.length ≤ valuesSizeAt ls.length) ↔
      ls = [] ∨ ls.length % 16 = 1 := by
  cases ls with
  | nil => simp [stacked]
  | cons l ls =>
    have hsize : valuesSizeAt (l :: ls).length = 31 - ls.length % 16 := by
      show voffsetAt ls.length + 16 = _
      unfold voffsetAt
      omega
    rw [hsize, List.length_cons]
    constructor
    · intro h
      have hfirst : 15 + l.length ≤ 31 - ls.length % 16 := h
        (15, l) List.mem_cons_self
      rw [hlen l List.mem_cons_self] at hfirst
      exact .inr (by omega)
    · rintro (hnil | hmod) w hw
      · cases hnil
      · rcases mem_stacked hw with ⟨hin, hle⟩
        rw [hlen _ hin]
        omega

/-- The by-value long doubles of the parameters survive in the common
block: there is at most one, or one more than a multiple of sixteen, and
those put on top of each other agree on the bytes they share. -/
structure LongDoublesFit (ps : List Param) : Prop where
  number : longDoubles ps = [] ∨ (longDoubles ps).length % 16 = 1
  agree : ∀ w ∈ stacked 0 (longDoubles ps), ∀ w' ∈ stacked 0 (longDoubles ps),
    Agree w w'

/-- One long double is not overwritten. -/
theorem longDoublesFit_of_le_one (h : (longDoubles ps).length ≤ 1) :
    LongDoublesFit ps := by
  match hls : longDoubles ps, h with
  | [], _ =>
    exact ⟨.inl hls, fun w hw => by rw [hls] at hw; cases hw⟩
  | [l], _ =>
    refine ⟨.inr (by rw [hls]; rfl), fun w hw w' hw' a x y hx hy => ?_⟩
    rw [hls] at hw hw'
    rw [List.mem_singleton.mp hw] at hx
    rw [List.mem_singleton.mp hw', hx] at hy
    exact Option.some.inj hy

/-- The places hold their bytes iff the long doubles fit. -/
theorem places_read_iff (hps : ∀ p ∈ ps, p.InRange) :
    (∀ w ∈ places 0 ps, ((pushdata (valuesSizeAt (blocks ps))).writes
      (places 0 ps)).read
        w.1 w.2.length = some w.2) ↔ LongDoublesFit ps := by
  rw [read_writes_iff, places_eq_stacked hps, blocks_eq_length hps]
  show (∀ w ∈ stacked 0 (longDoubles ps), _ ≤ valuesSizeAt _) ∧ _ ↔ _
  rw [stacked_fits fun l hl => length_of_mem_longDoubles hps hl]
  exact ⟨fun h => ⟨h.1, h.2⟩, fun h => ⟨h.1, h.2⟩⟩

-- ======== the parameters of one task

/-- What every call has to keep to: the number of arguments is stored on
16 bits, and a processor has sixteen temporaries. -/
structure Call.Small (c : Call) : Prop where
  nargs : c.params.length < 2 ^ 16
  scratches : scratches c.params ≤ 16

/-- The call repeats the fields the signature of `f` keeps. -/
structure Call.Repeats (c f : Call) : Prop where
  count : ∀ (i : Nat) p q, c.params[i]? = some p → f.params[i]? = some q
    → p.count = q.count
  redop : ∀ (i : Nat) p q, c.params[i]? = some p → f.params[i]? = some q →
    p.modec = .cw → p.redop = q.redop

/-- The signature keeps a property of its parameters. -/
theorem sigArgs_get {g : ArgSig → α} {m : Param → α} (hg : ∀ k q, g (q.argSig k) = m q)
    (k : Nat) (qs : List Param) (i : Nat) : (sigArgs k qs)[i]?.map g = qs[i]?.map m := by
  induction qs generalizing k i with
  | nil => rfl
  | cons q qs ih =>
    cases i with
    | zero =>
      show some (g (q.argSig k)) = some (m q)
      rw [hg]
    | succ i => exact ih _ i

theorem forall₂_and_of_get {R S : α → β → Prop} {ps : List α} {qs : List β}
    (hR : List.Forall₂ R ps qs)
    (hS : ∀ (i : Nat) p q, ps[i]? = some p → qs[i]? = some q → S p q) :
    List.Forall₂ (fun p q => R p q ∧ S p q) ps qs := by
  induction hR with
  | nil => exact .nil
  | cons hpq _ ih =>
    exact .cons ⟨hpq, hS 0 _ _ rfl rfl⟩ (ih fun i p q hp hq => hS (i + 1) p q hp hq)

/-- Lists related one by one have related elements. -/
theorem forall₂_get {R : α → β → Prop} {ps : List α} {qs : List β}
    (hR : List.Forall₂ R ps qs) {i : Nat} {p : α} (hp : ps[i]? = some p) :
    ∃ q, qs[i]? = some q ∧ R p q := by
  induction hR generalizing i with
  | nil => cases hp
  | cons hpq _ ih =>
    cases i with
    | zero =>
      cases hp
      exact ⟨_, rfl, hpq⟩
    | succ i => exact ih hp

theorem memoryViewMake1d_inj {m n : BitVec 32} {s s' : Nat}
    (h : memoryViewMake1d m s = memoryViewMake1d n s') : m = n := by
  have hsize := congrArg MemoryView.size0 h
  have hext : m.signExtend 64 = n.signExtend 64 := BitVec.eq_of_toNat_eq hsize
  have hint := congrArg BitVec.toInt hext
  rw [BitVec.toInt_signExtend_of_le (by decide),
    BitVec.toInt_signExtend_of_le (by decide)] at hint
  exact BitVec.eq_of_toInt_eq hint

/-- A small task is called with what its arguments hold. -/
theorem dfgBody_taskOf (hshape : List.Forall₂ SameShape c.params f.params)
    (hsmall : c.params.length < 2 ^ 16) (provided : Bool) :
    dfgBody (taskOf provided (sigOf f) c) = getArgs (sigOf f).useFfi
      (taskOf provided (sigOf f) c).values (sigArgs 0 f.params)
      (setScratch 0 (sigArgs 0 f.params) (infos provided 0 c.params)) := by
  have hlen : c.params.length = f.params.length := hshape.length_eq
  have hnargs : (sigOf f).nargs = f.params.length := by
    show f.params.length % 2 ^ 16 = _
    rw [← hlen]
    exact Nat.mod_eq_of_lt hsmall
  have hsig : (sigArgs 0 f.params).length = f.params.length := by
    have hmap : ∀ k qs, (sigArgs k qs).length = qs.length := fun k qs => by
      induction qs generalizing k with
      | nil => rfl
      | cons q qs ih => rw [sigArgs, List.length_cons, List.length_cons, ih]
    exact hmap 0 _
  have hinfos : (infos provided 0 c.params).length = c.params.length := by
    have hmap : ∀ k ps, (infos provided k ps).length = ps.length := fun k ps => by
      induction ps generalizing k with
      | nil => rfl
      | cons p ps ih => rw [infos, List.length_cons, List.length_cons, ih]
    exact hmap 0 _
  have hffi : ((sigOf f).useFfi || decide (f.params.length ≤ KAAPIC_MAX_ARGS))
    = true := by
    show ((decide (KAAPIC_MAX_ARGS < f.params.length) || _) || _) = true
    by_cases hle : f.params.length ≤ KAAPIC_MAX_ARGS
    · rw [decide_eq_true hle, Bool.or_true]
    · rw [decide_eq_true (Nat.lt_of_not_le hle), Bool.true_or, Bool.true_or]
  unfold dfgBody
  show (if ((sigOf f).useFfi || decide ((sigOf f).nargs ≤ KAAPIC_MAX_ARGS))
    = true then
    getArgs (sigOf f).useFfi (taskOf provided (sigOf f) c).values
      ((sigArgs 0 f.params).take (sigOf f).nargs)
      (if (sigOf f).hasScratch = true then
        setScratch 0 ((sigArgs 0 f.params).take (sigOf f).nargs)
          ((infos provided 0 c.params).take (sigOf f).nargs)
      else (infos provided 0 c.params).take (sigOf f).nargs) else none) = _
  rw [hnargs, if_pos hffi, List.take_of_length_le (Nat.le_of_eq hsig),
    List.take_of_length_le (Nat.le_of_eq (hinfos.trans hlen))]
  by_cases hs : (sigOf f).hasScratch = true
  · rw [if_pos hs]
  · rw [if_neg hs, setScratch_of_none hshape]
    show f.params.any Param.isScratch = false
    exact Bool.eq_false_iff.mpr hs

/-- A task has the parameters of its call iff the call is small, repeats
the call of the signature, and its long doubles fit when they went to
the common block. -/
theorem hasParams_iff (hf : f.accepted = true)
    (hshape : List.Forall₂ SameShape c.params f.params) (provided : Bool) :
    HasParams (taskOf provided (sigOf f) c) c.params ↔
      c.Small ∧ c.Repeats f ∧ (provided = true → LongDoublesFit c.params) := by
  have hlen : c.params.length = f.params.length := hshape.length_eq
  have hqs : ∀ q ∈ f.params, q.InRange :=
    fun q hq => Param.inRange_of_accepted (List.all_eq_true.mp hf q hq)
  have hps : ∀ p ∈ c.params, p.InRange := by
    intro p hp
    rcases List.getElem?_of_mem hp with ⟨i, hi⟩
    rcases forall₂_get hshape hi with ⟨q, hq, hpq⟩
    exact hpq.inRange (hqs q (List.mem_of_getElem? hq))
  have hblocks : blocks f.params = blocks c.params := by
    have hgen : ∀ {ps qs : List Param},
      List.Forall₂ SameShape ps qs → blocks qs = blocks ps := by
      intro ps qs h
      induction h with
      | nil => rfl
      | cons hpq _ ih => rw [blocks, blocks, ih, hpq.inBlock]
    exact hgen hshape
  have hffi : ∀ p ∈ c.params, p.modec = .v → useFfi p.typec = true →
      (sigOf f).useFfi = true := by
    intro p hp hm hu
    rcases List.getElem?_of_mem hp with ⟨i, hi⟩
    rcases forall₂_get hshape hi with ⟨q, hq, hpq⟩
    show (_ || f.params.any _) = true
    rw [Bool.or_eq_true]
    refine .inr (List.any_eq_true.mpr ⟨q, List.mem_of_getElem? hq, ?_⟩)
    rw [← hpq.modec, ← hpq.typec, hm, hu]
    rfl
  have hreceived : ∀ hcount : (∀ (i : Nat) p q, c.params[i]? = some p →
      f.params[i]? = some q → p.count = q.count), c.params.length < 2 ^ 16 →
      (dfgBody (taskOf provided (sigOf f) c) = some (c.params.map Param.received) ↔
        scratches c.params ≤ 16 ∧ (provided = true → LongDoublesFit c.params)) := by
    intro hcount hsmall
    rw [dfgBody_taskOf hshape hsmall,
      getArgs_iff (forall₂_and_of_get hshape hcount) hps hffi provided 0 0]
    refine and_congr (by omega) (imp_congr_right fun hprov => ?_)
    subst hprov
    rw [← places_read_iff hps, ← hblocks, ← Nat.zero_add (blocks f.params)]
    rfl
  have hget : ∀ {α : Type} {g : ArgSig → α} {m : Param → α},
      (∀ k q, g (q.argSig k) = m q) → ∀ {i : Nat} {q : Param},
        f.params[i]? = some q →
        (sigOf f).args[i]?.map g = some (m q) := by
    intro α g m hg i q hq
    show (sigArgs 0 f.params)[i]?.map g = _
    rw [sigArgs_get hg, hq]
    rfl
  constructor
  · intro h
    have hnargs : f.params.length % 2 ^ 16 = c.params.length := h.count
    have hsmall : c.params.length < 2 ^ 16 := by omega
    have hcount : ∀ (i : Nat) p q, c.params[i]? = some p → f.params[i]? = some q →
        p.count = q.count := by
      intro i p q hp hq
      have hview := (hget (g := ArgSig.view) (m := Param.view)
        (fun _ _ => rfl) hq).symm.trans
        (h.view i p hp)
      exact (memoryViewMake1d_inj (Option.some.inj hview)).symm
    have hrecv := (hreceived hcount hsmall).mp h.received
    refine ⟨⟨hsmall, hrecv.1⟩, ⟨hcount, fun i p q hp hq hcw => ?_⟩, hrecv.2⟩
    rcases forall₂_get hshape hp with ⟨q', hq', hpq⟩
    rw [hq] at hq'
    cases hq'
    have hred := (hget (g := fun as => (as.type, as.redop))
      (m := fun q => (q.typec, q.storedRedop)) (fun _ _ => rfl) hq).symm.trans
      (h.redop i p hp hcw)
    have hstored : q.storedRedop = p.redop := congrArg Prod.snd
      (Option.some.inj hred)
    rw [← hstored]
    exact if_pos (hpq.modec ▸ hcw)
  · intro ⟨hsmall, hrep, hlong⟩
    refine ⟨(hreceived hrep.count hsmall.nargs).mpr ⟨hsmall.scratches, hlong⟩,
      ?_, ?_, ?_, ?_, ?_⟩
    · show f.params.length % 2 ^ 16 = _
      rw [← hlen]
      exact Nat.mod_eq_of_lt hsmall.nargs
    · intro i p hp
      rcases forall₂_get hshape hp with ⟨q, hq, hpq⟩
      rw [hpq.modec]
      exact hget (g := ArgSig.mode) (m := fun q => modec2modek q.modec)
        (fun _ _ => rfl) hq
    · intro i p hp
      rcases forall₂_get hshape hp with ⟨q, hq, hpq⟩
      rw [hpq.typec]
      exact hget (g := ArgSig.format) (m := Param.typec) (fun _ _ => rfl) hq
    · intro i p hp hcw
      rcases forall₂_get hshape hp with ⟨q, hq, hpq⟩
      have hstored : q.storedRedop = p.redop := by
        rw [hrep.redop i p q hp hq hcw]
        exact if_pos (hpq.modec ▸ hcw)
      rw [hpq.typec, ← hstored]
      exact hget (g := fun as => (as.type, as.redop))
        (m := fun q => (q.typec, q.storedRedop)) (fun _ _ => rfl) hq
    · intro i p hp
      rcases forall₂_get hshape hp with ⟨q, hq, hpq⟩
      have hview : p.view = q.view := by
        unfold Param.view
        rw [hrep.count i p q hp hq, hpq.typec]
      rw [hview]
      exact hget (g := ArgSig.view) (m := Param.view) (fun _ _ => rfl) hq

-- ======== sequences of calls

/-- The call whose signature the map holds for a body: the first one of
the body that was accepted. -/
def firstSpawn (before : List Call) (body : Nat) : Option Call :=
  before.find? fun c => decide (c.body = body) && c.accepted

/-- The map after some calls. -/
def hashAfter (before : List Call) : HashTaskSig :=
  fun body => (firstSpawn before body).map sigOf

/-- A body is spawned with the modes and types of its first spawn. -/
def SameShapes (cs : List Call) : Prop :=
  ∀ before c after f, cs = before ++ c :: after → firstSpawn before c.body
    = some f →
    List.Forall₂ SameShape c.params f.params

/-- What a call has to meet after the calls before it. -/
def CallMeets (before : List Call) (c : Call) : Prop :=
  match firstSpawn before c.body with
  | none => c.accepted = true → c.Small
  | some f => c.Small ∧ c.Repeats f ∧ LongDoublesFit c.params

def CallsMeet (cs : List Call) : Prop :=
  ∀ before c after, cs = before ++ c :: after → CallMeets before c

/-- The spawn that entered a signature was accepted. -/
theorem firstSpawn_some {body : Nat} (h : firstSpawn before body = some f) :
    f.body = body ∧ f.accepted = true := by
  have hf := List.find?_some h
  rw [Bool.and_eq_true, decide_eq_true_eq] at hf
  exact hf

/-- The first accepted spawn stays the first. -/
theorem firstSpawn_append (before : List Call) (c : Call) (body : Nat) :
    firstSpawn (before ++ [c]) body =
      (firstSpawn before body).or
        (if c.body = body ∧ c.accepted = true then some c else none) := by
  unfold firstSpawn
  rw [List.find?_append, List.find?_singleton]
  simp only [Bool.and_eq_true, decide_eq_true_eq]

/-- A later spawn of a body does not change the cache. -/
theorem hashAfter_found (h : firstSpawn before c.body = some f) :
    hashAfter (before ++ [c]) = hashAfter before := by
  funext body
  unfold hashAfter
  rw [firstSpawn_append]
  by_cases hb : c.body = body
  · rw [← hb, h]
    rfl
  · rw [if_neg (fun hc => hb hc.1), Option.or_none]

/-- Neither does one that is not accepted. -/
theorem hashAfter_rejected (hc : c.accepted = false) :
    hashAfter (before ++ [c]) = hashAfter before := by
  funext body
  unfold hashAfter
  rw [firstSpawn_append, if_neg (fun h => by rw [hc] at h; cases h.2),
    Option.or_none]

/-- The first accepted one does. -/
theorem hashAfter_built (h : firstSpawn before c.body = none) (hc : c.accepted = true) :
    hashAfter (before ++ [c]) =
      Function.update (hashAfter before) c.body (some (sigOf c)) := by
  funext body
  unfold hashAfter
  rw [firstSpawn_append]
  by_cases hb : body = c.body
  · rw [hb, Function.update_self, h, if_pos ⟨rfl, hc⟩]
    rfl
  · rw [Function.update_of_ne hb, if_neg (fun h' => hb h'.1.symm), Option.or_none]

/-- One call: it ends well iff it meets what the calls before it ask,
and leaves the map of one call more. -/
theorem kaapicSpawn_ok
    (hshape : ∀ f, firstSpawn before c.body = some f →
      List.Forall₂ SameShape c.params f.params) :
    (∃ ti, kaapicSpawn (hashAfter before) c.body c.params.length c.va =
        .ok (ti, hashAfter (before ++ [c]))
          ∧ (SpawnOk c (.ok ti) ↔ CallMeets before c)) ∨
      (kaapicSpawn (hashAfter before) c.body c.params.length c.va = .error .einval ∧
        hashAfter (before ++ [c]) = hashAfter before ∧ SpawnOk c (.error .einval) ∧
        CallMeets before c) := by
  unfold CallMeets
  cases hfirst : firstSpawn before c.body with
  | none =>
    have hhash : hashAfter before c.body = none := by
      unfold hashAfter
      rw [hfirst]
      rfl
    cases hc : c.accepted with
    | false =>
      exact .inr ⟨kaapicSpawn_reject hhash hc, hashAfter_rejected hc, ⟨rfl, hc⟩,
        fun h => Bool.noConfusion h⟩
    | true =>
      refine .inl ⟨taskOf false (sigOf c) c, ?_, ?_⟩
      · rw [hashAfter_built hfirst hc]
        exact kaapicSpawn_build hhash hc
      · have hself : List.Forall₂ SameShape c.params c.params :=
          List.forall₂_same.mpr fun _ _ => ⟨rfl, rfl⟩
        have hrep : c.Repeats c :=
          ⟨fun i p q hp hq => by rw [hp] at hq; cases hq; rfl,
            fun i p q hp hq _ => by rw [hp] at hq; cases hq; rfl⟩
        show HasParams _ c.params ↔ _
        rw [hasParams_iff hc hself]
        exact ⟨fun h _ => h.1, fun h =>
          ⟨h rfl, hrep, fun h' => Bool.noConfusion h'⟩⟩
  | some f =>
    have hhash : hashAfter before c.body = some (sigOf f) := by
      unfold hashAfter
      rw [hfirst]
      rfl
    rcases firstSpawn_some hfirst with ⟨-, hf⟩
    refine .inl ⟨taskOf true (sigOf f) c, ?_, ?_⟩
    · rw [hashAfter_found hfirst]
      exact kaapicSpawn_found hhash hf (hshape f hfirst)
    · show HasParams _ c.params ↔ _
      rw [hasParams_iff hf (hshape f hfirst)]
      exact ⟨fun h => ⟨h.1, h.2.1, h.2.2 rfl⟩, fun h =>
        ⟨h.1, h.2.1, fun _ => h.2.2⟩⟩

/-- A run of calls after others. -/
theorem spawns_iff (cs before : List Call)
    (hshape : ∀ pre c post f, cs = pre ++ c :: post →
      firstSpawn (before ++ pre) c.body = some f
        → List.Forall₂ SameShape c.params f.params) :
    List.Forall₂ SpawnOk cs (spawns (hashAfter before) cs) ↔
      ∀ pre c post, cs = pre ++ c :: post → CallMeets (before ++ pre) c := by
  induction cs generalizing before with
  | nil =>
    refine ⟨fun _ pre c post h => ?_, fun _ => .nil⟩
    exact absurd h.symm (by simp)
  | cons c cs ih =>
    have hrest : List.Forall₂ SpawnOk cs (spawns (hashAfter (before ++ [c])) cs) ↔
        ∀ pre c' post, cs = pre ++ c' :: post → CallMeets
          (before ++ [c] ++ pre) c' := by
      refine ih (before ++ [c]) fun pre c' post f hcs hf => ?_
      refine hshape (c :: pre) c' post f (by rw [hcs]; rfl) ?_
      rwa [List.append_assoc] at hf
    have hall : (∀ pre c' post, c :: cs = pre ++ c' :: post → CallMeets
      (before ++ pre) c') ↔
        CallMeets before c ∧
          ∀ pre c' post, cs = pre ++ c' :: post → CallMeets
            (before ++ [c] ++ pre) c' := by
      constructor
      · intro h
        refine ⟨by simpa using h [] c cs rfl, fun pre c' post hcs => ?_⟩
        rw [List.append_assoc]
        exact h (c :: pre) c' post (by rw [hcs]; rfl)
      · rintro ⟨hc, h⟩ pre c' post hcs
        cases pre with
        | nil =>
          cases hcs
          simpa using hc
        | cons d pre =>
          rw [List.cons_append] at hcs
          cases hcs
          have hmeets := h pre c' post rfl
          rw [List.append_assoc] at hmeets
          exact hmeets
    rw [hall, ← hrest, spawns]
    have hc : ∀ f, firstSpawn before c.body = some f →
        List.Forall₂ SameShape c.params f.params :=
      fun f hf => hshape [] c cs f rfl (by simpa using hf)
    rcases kaapicSpawn_ok hc with ⟨ti, hrun, hok⟩ | ⟨hrun, hhash, hok, hmeets⟩
    · rw [hrun]
      show List.Forall₂ SpawnOk (c :: cs) (Except.ok ti :: _) ↔ _
      rw [List.forall₂_cons, hok]
    · rw [hrun, hhash]
      show List.Forall₂ SpawnOk (c :: cs) (Except.error Fault.einval :: _) ↔ _
      rw [List.forall₂_cons]
      exact and_congr_left' ⟨fun _ => hmeets, fun _ => hok⟩

/-- In a sequence of calls, each body spawned with the modes and types
of its first spawn, every task has the parameters of its call iff every
call that finds a signature gives the counts and the operators of the
call that built it, and by-value long doubles that survive on top of
each other. -/
theorem spawns_ok_iff (cs : List Call) (hshape : SameShapes cs) : SpawnsOk cs
    ↔ CallsMeet cs :=
  spawns_iff cs [] hshape

-- ======== concrete calls

/-- Spawns of one shape for each body. -/
theorem sameShapes_of_forall {cs : List Call}
    (h : ∀ c ∈ cs, ∀ f ∈ cs,
      c.body = f.body → List.Forall₂ SameShape c.params f.params) :
    SameShapes cs := by
  rintro before c after f rfl hf
  have hmem : f ∈ before := List.mem_of_find?_eq_some hf
  exact h c (by simp) f (List.mem_append_left _ hmem) (firstSpawn_some hf).1.symm

/-- A read parameter: an array of ints of a given count. -/
def readInts (count : BitVec 32) (p : Nat) : Param :=
  ⟨0, 0, 3, count, .pointer p, rfl⟩

/-- A long double passed by value: number 4 is the mode V, 21 the type. -/
def longDoubleOf (b : UInt8) : Param :=
  ⟨4, 0, 21, 1, .value (List.replicate 16 b), rfl⟩

/-- A body on one array, spawned on one int and then on two. -/
def otherCount : List Call := [⟨1, [readInts 1 64]⟩, ⟨1, [readInts 2 128]⟩]

/-- A body on two long doubles, spawned twice. -/
def twoLongDoubles : List Call :=
  [⟨1, [longDoubleOf 3, longDoubleOf 5]⟩, ⟨1, [longDoubleOf 3, longDoubleOf 5]⟩]

/-- What a result shows of its first view, and what its body receives. -/
def shown : Except Fault TaskInfo → Option MemoryView × Option (List Received)
  | .ok ti => (taskformatGetViewParam ti 0, dfgBody ti)
  | .error _ => (none, none)

/-- What a task shows of an accepted spawn. -/
theorem shown_of_ok {r : Except Fault TaskInfo} (h : SpawnOk c r) (hc : c.accepted = true)
    (hp : c.params[0]? = some p) :
    shown r = (some p.view, some (c.params.map Param.received)) := by
  cases r with
  | ok ti => exact Prod.ext (h.view 0 p hp) h.received
  | error e =>
    have hbad := h.2
    rw [hc] at hbad
    cases hbad

/-- The second spawn keeps the count of the first; and two by-value long
doubles found in the map do not both lie in their block. -/
theorem spawns_fail :
    (SameShapes otherCount ∧ ¬SpawnsOk otherCount) ∧
      (SameShapes twoLongDoubles ∧ ¬SpawnsOk twoLongDoubles) := by
  have hself : ∀ cs : List Call, ∀ p q, cs = otherCount ∨ cs = twoLongDoubles →
      p ∈ cs → q ∈ cs → List.Forall₂ SameShape p.params q.params := by
    rintro cs p q (rfl | rfl) hp hq
    · rcases List.mem_pair.mp hp with rfl | rfl
      all_goals rcases List.mem_pair.mp hq with rfl | rfl
      all_goals exact .cons ⟨rfl, rfl⟩ .nil
    · rcases List.mem_pair.mp hp with rfl | rfl
      all_goals rcases List.mem_pair.mp hq with rfl | rfl
      all_goals exact .cons ⟨rfl, rfl⟩ (.cons ⟨rfl, rfl⟩ .nil)
  refine ⟨⟨sameShapes_of_forall fun c hc f hf _ =>
    hself _ c f (.inl rfl) hc hf, fun h => ?_⟩,
    ⟨sameShapes_of_forall fun c hc f hf _ => hself _ c f (.inr rfl) hc hf,
      fun h => ?_⟩⟩
  · have hrun : (spawns (fun _ => none) otherCount)[1]?.map (fun r => (shown r).1) =
        some (some ⟨1, 4⟩) := by decide +kernel
    rcases forall₂_get h (i := 1) rfl with ⟨r, hr, hok⟩
    rw [hr, Option.map_some, shown_of_ok hok (by decide +kernel) rfl] at hrun
    revert hrun
    decide +kernel
  · have hrun : (spawns (fun _ => none) twoLongDoubles)[1]?.map
      (fun r => (shown r).2) =
        some none := by decide +kernel
    rcases forall₂_get h (i := 1) rfl with ⟨r, hr, hok⟩
    rw [hr, Option.map_some, shown_of_ok hok (by decide +kernel) rfl] at hrun
    cases hrun

/-- A body spawned twice on an array of one count and a long double. -/
theorem spawns_ok_twice :
    SpawnsOk [⟨1, [readInts 7 64, longDoubleOf 3]⟩,
      ⟨1, [readInts 7 128, longDoubleOf 5]⟩] := by
  refine (spawns_ok_iff _ (sameShapes_of_forall fun c hc f hf _ => ?_)).mpr ?_
  · rcases List.mem_pair.mp hc with rfl | rfl
    all_goals rcases List.mem_pair.mp hf with rfl | rfl
    all_goals exact .cons ⟨rfl, rfl⟩ (.cons ⟨rfl, rfl⟩ .nil)
  · intro before c after hcs
    match before with
    | [] =>
      cases hcs
      exact fun _ => ⟨by decide, by decide +kernel⟩
    | [d] =>
      cases hcs
      refine ⟨⟨by decide, by decide +kernel⟩,
        ⟨fun i p q hp hq => ?_, fun i p q hp _ hcw => ?_⟩,
        longDoublesFit_of_le_one (by decide +kernel)⟩
      · match i with
        | 0 => cases hp; cases hq; rfl
        | 1 => cases hp; cases hq; rfl
        | i + 2 => cases hp
      · match i with
        | 0 => cases hp; cases hcw
        | 1 => cases hp; cases hcw
        | i + 2 => cases hp
    | d :: e :: rest =>
      have hlen := congrArg List.length hcs
      simp at hlen

end Kaapic
end XKaapi
