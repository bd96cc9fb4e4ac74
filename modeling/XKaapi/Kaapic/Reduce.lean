/-
The reductions of the integer types (api/kaapic/kaapic_spawn.c).

A CW parameter names one of ten operators. The tasks that run in place
accumulate into the data itself; a stolen task accumulates into storage
that `redinit` has initialised, and `redop` merges it into the data when
the owner passes the task (`Share.apply`).

- PLUS, MUL, AND, OR, XOR, MAX, MIN start from their neutral element and
  give the result of the tasks in place.
- LAND and LOR do so on truth values. Their results are 0 and 1, so that
  a stolen task which accumulates nothing still turns another initial
  value into 1 (`land_sequential_iff`, `lor_sequential_iff`).
- MINUS merges by subtraction what has been subtracted from 0: the values
  of a stolen task are added (`minus_sequential_iff`).

Sizes and signs are those of x86-64.
-/
import Mathlib.Data.BitVec
import XKaapi.Lib.Reduce
import XKaapi.Kaapic.Spawn

namespace XKaapi.Kaapic

open Reduce

-- ======== the types

/-- The types of `_KAAPIC_TYPE_ITER_INTEGERS`. -/
def KaapicType.isInteger : KaapicType → Bool
  | .flt | .dbl | .ldbl | .ptr => false
  | _ => true

def KaapicType.isSigned : KaapicType → Bool
  | .char | .schar | .shrt | .int | .long | .llong => true
  | .int8 | .int16 | .int32 | .int64 => true
  | _ => false

/-- A type with integer reductions. -/
structure IntType where
  type : KaapicType
  integer : type.isInteger = true
deriving DecidableEq, Repr

namespace IntType

def bits (t : IntType) : Nat := 8 * sizeof t.type

theorem bits_pos (t : IntType) : 0 < t.bits := by
  have hsize : 0 < sizeof t.type := by
    cases t.type <;> decide
  exact Nat.mul_pos (by decide) hsize

/-- A value of the type. -/
abbrev Val (t : IntType) : Type := BitVec t.bits

/-- `*r < *d` -/
def lt (t : IntType) (r d : t.Val) : Bool :=
  if t.type.isSigned then r.slt d else r.ult d

/-- `C##_MIN` -/
def min (t : IntType) : t.Val :=
  if t.type.isSigned then BitVec.intMin t.bits else 0

/-- `C##_MAX` -/
def max (t : IntType) : t.Val :=
  if t.type.isSigned then BitVec.intMax t.bits else BitVec.allOnes t.bits

/-- The value of a condition. -/
def ofBool (t : IntType) (b : Bool) : t.Val := if b then 1 else 0

end IntType

-- ======== the operators

/-- `enum kaapic_reducop_t`, VOID apart. -/
inductive KaapicReducop
  | plus | mul | minus | and | or | xor | land | lor | max | min
deriving DecidableEq, Repr

section Reducor

variable (t : IntType)

/-- `_KAAPIC_DECL_REDOP_BASE`: the new value of `*r`. -/
def redop (op : KaapicReducop) (r d : t.Val) : t.Val :=
  match op with
  | .plus => r + d
  | .mul => r * d
  | .minus => r - d
  | .and => r &&& d
  | .or => r ||| d
  | .xor => r ^^^ d
  | .land => t.ofBool (r != 0 && d != 0)
  | .lor => t.ofBool (r != 0 || d != 0)
  | .max => if t.lt r d then d else r
  | .min => if t.lt d r then d else r

def redinit (op : KaapicReducop) : t.Val :=
  match op with
  | .plus => 0
  | .mul => 1
  | .minus => 0
  | .and => ~~~0
  | .or => 0
  | .xor => 0
  | .land => 1
  | .lor => 0
  | .max => t.min
  | .min => t.max

/-- The tasks one after the other on the data. -/
def sequential (op : KaapicReducop) (x : t.Val) (tasks : List (Share t.Val)) : t.Val :=
  tasks.foldl (Share.inPlace (redop t op)) x

/-- The data after the tasks in place and the merges of the stolen ones, in
the order `order`. -/
def withSteals (op : KaapicReducop) (x : t.Val) (order : List (Share t.Val)) : t.Val :=
  order.foldl (Share.apply (redop t op) (redinit t op)) x

end Reducor

-- ======== what the values mean

section Meanings

variable (t : IntType)

/-- The number a value stands for. -/
def IntType.toInt (v : t.Val) : Int :=
  if t.type.isSigned then BitVec.toInt v else (v.toNat : Int)

theorem IntType.toInt_inj {v w : t.Val} (h : t.toInt v = t.toInt w) : v = w := by
  unfold IntType.toInt at h
  split at h
  · exact BitVec.eq_of_toInt_eq h
  · exact BitVec.eq_of_toNat_eq (Int.ofNat.inj h)

theorem IntType.lt_iff (r d : t.Val) : t.lt r d = true ↔ t.toInt r < t.toInt d := by
  unfold IntType.lt IntType.toInt
  split
  · exact BitVec.slt_iff_toInt_lt
  · rw [BitVec.ult_iff_lt, BitVec.lt_def, Int.ofNat_lt]

theorem IntType.toInt_min_le (v : t.Val) : t.toInt t.min ≤ t.toInt v := by
  unfold IntType.min IntType.toInt
  split
  · rw [BitVec.toInt_intMin_of_pos t.bits_pos]
    exact BitVec.le_toInt v
  · simp

theorem IntType.toInt_le_max (v : t.Val) : t.toInt v ≤ t.toInt t.max := by
  unfold IntType.max IntType.toInt
  split
  · rw [BitVec.toInt_intMax]
    have := @BitVec.toInt_lt t.bits v
    omega
  · rw [BitVec.toNat_allOnes]
    have := v.isLt
    omega

theorem plus_meaning : Meaning (redop t .plus) (redinit t .plus) id (· + ·) where
  den_op := fun _ _ => rfl
  assoc := BitVec.add_assoc
  comm := BitVec.add_comm
  neutral := BitVec.add_zero

theorem mul_meaning : Meaning (redop t .mul) (redinit t .mul) id (· * ·) where
  den_op := fun _ _ => rfl
  assoc := BitVec.mul_assoc
  comm := BitVec.mul_comm
  neutral := fun a => BitVec.mul_one a

theorem and_meaning : Meaning (redop t .and) (redinit t .and) id (· &&& ·) where
  den_op := fun _ _ => rfl
  assoc := BitVec.and_assoc
  comm := BitVec.and_comm
  neutral := fun a => by
    change a &&& ~~~0#t.bits = a
    rw [BitVec.not_zero, BitVec.and_allOnes]

theorem or_meaning : Meaning (redop t .or) (redinit t .or) id (· ||| ·) where
  den_op := fun _ _ => rfl
  assoc := BitVec.or_assoc
  comm := BitVec.or_comm
  neutral := fun _ => BitVec.or_zero

theorem xor_meaning : Meaning (redop t .xor) (redinit t .xor) id (· ^^^ ·) where
  den_op := fun _ _ => rfl
  assoc := BitVec.xor_assoc
  comm := BitVec.xor_comm
  neutral := fun _ => BitVec.xor_zero

theorem IntType.one_ne_zero : (1 : t.Val) ≠ 0 := by
  intro h
  have hn := congrArg BitVec.toNat h
  have hone : (1 : t.Val).toNat = 1 := BitVec.toNat_ofNat _ _ ▸
    Nat.mod_eq_of_lt (Nat.one_lt_two_pow t.bits_pos.ne')
  rw [hone] at hn
  exact Nat.one_ne_zero hn

@[simp] theorem IntType.ofBool_ne_zero (b : Bool) : (t.ofBool b != 0) = b := by
  cases b with
  | false => exact bne_self_eq_false _
  | true => exact bne_iff_ne.mpr t.one_ne_zero

theorem land_meaning :
    Meaning (redop t .land) (redinit t .land) (· != 0) Bool.and where
  den_op := fun _ _ => t.ofBool_ne_zero _
  assoc := Bool.and_assoc
  comm := Bool.and_comm
  neutral := fun a => by
    have hone : (redinit t .land != 0) = true := bne_iff_ne.mpr t.one_ne_zero
    exact hone ▸ Bool.and_true (a != 0)

theorem lor_meaning :
    Meaning (redop t .lor) (redinit t .lor) (· != 0) Bool.or where
  den_op := fun _ _ => t.ofBool_ne_zero _
  assoc := Bool.or_assoc
  comm := Bool.or_comm
  neutral := fun a => by
    have hzero : (redinit t .lor != 0) = false := bne_self_eq_false _
    exact hzero ▸ Bool.or_false (a != 0)

theorem max_meaning :
    Meaning (redop t .max) (redinit t .max) t.toInt Max.max where
  den_op := fun r d => by
    change t.toInt (if t.lt r d then d else r) = _
    split
    case isTrue h => exact (max_eq_right (t.lt_iff r d |>.mp h).le).symm
    case isFalse h => exact (max_eq_left (not_lt.mp (mt (t.lt_iff r d).mpr h))).symm
  assoc := max_assoc
  comm := max_comm
  neutral := fun a => max_eq_left (t.toInt_min_le a)

theorem min_meaning :
    Meaning (redop t .min) (redinit t .min) t.toInt Min.min where
  den_op := fun r d => by
    change t.toInt (if t.lt d r then d else r) = _
    split
    case isTrue h => exact (min_eq_right (t.lt_iff d r |>.mp h).le).symm
    case isFalse h => exact (min_eq_left (not_lt.mp (mt (t.lt_iff d r).mpr h))).symm
  assoc := min_assoc
  comm := min_comm
  neutral := fun a => min_eq_left (t.toInt_le_max a)

end Meanings

-- ======== the results

section Results

variable {t : IntType} {tasks order : List (Share t.Val)}

/-- When the meaning tells all values apart and the initial value is kept,
nothing depends on the steals. -/
theorem withSteals_eq_of_meaning {D : Type*} {op : KaapicReducop} {den : t.Val → D}
    {f : D → D → D} (hm : Meaning (redop t op) (redinit t op) den f)
    (hinj : ∀ v w, den v = den w → v = w) (h : order.Perm tasks) (x : t.Val) :
    withSteals t op x order = sequential t op x tasks := by
  refine (shares_eq_iff hm (fun v w _ _ => hinj v w) h x).mpr (.inl ?_)
  exact hinj _ _ (by rw [hm.den_op, hm.neutral])

theorem IntType.ofBool_eq_of_ne_zero {a b : Bool}
    (h : (t.ofBool a != 0) = (t.ofBool b != 0)) : t.ofBool a = t.ofBool b := by
  rw [t.ofBool_ne_zero, t.ofBool_ne_zero] at h
  rw [h]

theorem IntType.ofBool_eq_self_iff (x : t.Val) : t.ofBool (x != 0) = x ↔ x = 0 ∨ x = 1 := by
  by_cases hx : x = 0
  · rw [hx, bne_self_eq_false]
    exact iff_of_true rfl (.inl rfl)
  · have hone : t.ofBool (x != 0) = 1 := if_pos (bne_iff_ne.mpr hx)
    rw [hone, or_iff_right hx, eq_comm]

/-- The initial value is a truth value, or a task accumulates a value, or no
task is stolen. -/
def TruthKept (t : IntType) (x : t.Val) (tasks : List (Share t.Val)) : Prop :=
  x = 0 ∨ x = 1 ∨ (∃ s ∈ tasks, s.values ≠ []) ∨ ∀ s ∈ tasks, s.apart = false

theorem land_sequential_iff (h : order.Perm tasks) (x : t.Val) :
    withSteals t .land x order = sequential t .land x tasks ↔ TruthKept t x tasks := by
  have hinj : ∀ v w, Settled (redop t .land) v → Settled (redop t .land) w →
      (v != 0) = (w != 0) → v = w := by
    rintro _ _ ⟨_, _, rfl⟩ ⟨_, _, rfl⟩ hne
    exact IntType.ofBool_eq_of_ne_zero hne
  have hkept : redop t .land x (redinit t .land) = x ↔ x = 0 ∨ x = 1 := by
    have hone : (redinit t .land != 0) = true := bne_iff_ne.mpr t.one_ne_zero
    change t.ofBool (x != 0 && redinit t .land != 0) = x ↔ _
    rw [hone, Bool.and_true, IntType.ofBool_eq_self_iff]
  rw [withSteals, sequential, shares_eq_iff (land_meaning t) hinj h, hkept, TruthKept,
    or_assoc]

theorem lor_sequential_iff (h : order.Perm tasks) (x : t.Val) :
    withSteals t .lor x order = sequential t .lor x tasks ↔ TruthKept t x tasks := by
  have hinj : ∀ v w, Settled (redop t .lor) v → Settled (redop t .lor) w →
      (v != 0) = (w != 0) → v = w := by
    rintro _ _ ⟨_, _, rfl⟩ ⟨_, _, rfl⟩ hne
    exact IntType.ofBool_eq_of_ne_zero hne
  have hkept : redop t .lor x (redinit t .lor) = x ↔ x = 0 ∨ x = 1 := by
    have hzero : (redinit t .lor != 0) = false := bne_self_eq_false _
    change t.ofBool (x != 0 || redinit t .lor != 0) = x ↔ _
    rw [hzero, Bool.or_false, IntType.ofBool_eq_self_iff]
  rw [withSteals, sequential, shares_eq_iff (lor_meaning t) hinj h, hkept, TruthKept,
    or_assoc]

theorem minus_sequential_iff (h : order.Perm tasks) (x : t.Val) :
    withSteals t .minus x order = sequential t .minus x tasks
      ↔ apartSum tasks + apartSum tasks = 0 :=
  sub_shares_eq_iff h x

/-- When the steals do not change the result. -/
def SameResult (t : IntType) (op : KaapicReducop) (x : t.Val)
    (tasks : List (Share t.Val)) : Prop :=
  match op with
  | .minus => apartSum tasks + apartSum tasks = 0
  | .land | .lor => TruthKept t x tasks
  | _ => True

/-- The tasks, the stolen ones among them merged in any order, leave the
value of the sequential execution if and only if the operator is not one of
the three, or its condition is met. -/
theorem cw_sequential_iff (t : IntType) (op : KaapicReducop) (x : t.Val)
    (tasks order : List (Share t.Val)) (h : order.Perm tasks) :
    withSteals t op x order = sequential t op x tasks ↔ SameResult t op x tasks := by
  cases op with
  | plus => exact iff_of_true (withSteals_eq_of_meaning (plus_meaning t) (fun _ _ => id) h x) ⟨⟩
  | mul => exact iff_of_true (withSteals_eq_of_meaning (mul_meaning t) (fun _ _ => id) h x) ⟨⟩
  | minus => exact minus_sequential_iff h x
  | and => exact iff_of_true (withSteals_eq_of_meaning (and_meaning t) (fun _ _ => id) h x) ⟨⟩
  | or => exact iff_of_true (withSteals_eq_of_meaning (or_meaning t) (fun _ _ => id) h x) ⟨⟩
  | xor => exact iff_of_true (withSteals_eq_of_meaning (xor_meaning t) (fun _ _ => id) h x) ⟨⟩
  | land => exact land_sequential_iff h x
  | lor => exact lor_sequential_iff h x
  | max =>
    exact iff_of_true (withSteals_eq_of_meaning (max_meaning t) (fun _ _ => t.toInt_inj) h x) ⟨⟩
  | min =>
    exact iff_of_true (withSteals_eq_of_meaning (min_meaning t) (fun _ _ => t.toInt_inj) h x) ⟨⟩

def int8 : IntType := ⟨.int8, rfl⟩

/-- A stolen task and one in place that take 3 and 4 from 20: the merge of
the stolen one comes last. -/
theorem cw_sequential_iff_int8 :
    withSteals int8 .minus (20#8) [⟨[4#8], false⟩, ⟨[3#8], true⟩]
        = sequential int8 .minus (20#8) [⟨[3#8], true⟩, ⟨[4#8], false⟩]
      ↔ SameResult int8 .minus (20#8) [⟨[3#8], true⟩, ⟨[4#8], false⟩] :=
  cw_sequential_iff int8 .minus (20#8) [⟨[3#8], true⟩, ⟨[4#8], false⟩]
    [⟨[4#8], false⟩, ⟨[3#8], true⟩] (.swap ..)

/-- A stolen task that takes 1 from 0 leaves 1, and one that accumulates
nothing under LAND turns 5 into 1. -/
theorem cw_not_sequential :
    withSteals int8 .minus (0#8) [⟨[1#8], true⟩] = (1#8)
      ∧ sequential int8 .minus (0#8) [⟨[1#8], true⟩] = (-1#8)
      ∧ withSteals int8 .land (5#8) [⟨[], true⟩] = (1#8)
      ∧ sequential int8 .land (5#8) [⟨[], true⟩] = (5#8)
      ∧ (1#8) ≠ (-1#8) ∧ (1#8) ≠ (5#8) :=
  ⟨rfl, rfl, rfl, rfl, by decide, by decide⟩

end Results

end XKaapi.Kaapic
