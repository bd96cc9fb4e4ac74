/-
What a processor set says, and when its string is parsed to that.

The numbers of this file are the written ones, of any size and sign: the
parser keeps 32 bits of them. `Field.InRange` compares the indices with
`max_count`, which the parser does not do, and `denoted` is the set, by the
union of the enabled ranges without the disabled ones.

# Method

For indices in range the expressions that the parser stores are the fields
(`Field.InRange.expr_high`), so that `Marked` speaks of `denoted`; the cpus
are the same as far as 32 bits hold them. `outcome` puts the parser and the
loop of the list together.
-/
import XKaapi.Machine.ProcSet

namespace XKaapi.Machine

-- ======== the meaning

/-- The lower index, 0 when there is none. -/
def Field.lowValue (f : Field) : Int := decimal f.low

def Field.highValue (maxCount : Nat) (f : Field) : Int :=
  match f.range with
  | none => f.lowValue
  | some none => maxCount - 1
  | some (some n) => n.value

/-- The indices are below `max_count`. -/
structure Field.InRange (maxCount : Nat) (f : Field) : Prop where
  low : f.lowValue < maxCount
  nonneg : 0 ≤ f.highValue maxCount
  high : f.highValue maxCount < maxCount

def Field.first (maxCount : Nat) (f : Field) : Int :=
  min f.lowValue (f.highValue maxCount)

def Field.last (maxCount : Nat) (f : Field) : Int :=
  max f.lowValue (f.highValue maxCount)

def Field.enables (f : Field) : Bool := f.bangs % 2 == 0

def Field.covers (maxCount : Nat) (f : Field) (i : Nat) : Bool :=
  f.first maxCount ≤ i && i ≤ f.last maxCount

/-- The cpu of a processor of the range: the first one is on the cpu after
the `~`, or on that of its own index. -/
def Field.cpu (maxCount : Nat) (f : Field) (i : Nat) : Int :=
  match f.binding with
  | none => i
  | some n => n.value + (i - f.first maxCount)

def disabledIn (maxCount : Nat) (fs : List Field) (i : Nat) : Bool :=
  fs.any fun f => !f.enables && f.covers maxCount i

def enabledIn (maxCount : Nat) (fs : List Field) (i : Nat) : Option Field :=
  fs.find? fun f => f.enables && f.covers maxCount i

/-- The processors of a set in increasing order, with their cpus. -/
def denoted (maxCount : Nat) (fs : List Field) : List (Nat × Int) :=
  (List.range maxCount).filterMap fun i =>
    if disabledIn maxCount fs i then none
    else (enabledIn maxCount fs i).map fun f => (i, f.cpu maxCount i)

/-- A number of the grammar. -/
def Num.Plain (n : Num) : Prop := n.blanks = [] ∧ n.sign = none

/-- An expression of the grammar. -/
structure Field.Plain (f : Field) : Prop where
  proc_list : f.low ≠ [] ∨ f.range ≠ none
  range : ∀ n, f.range = some (some n) → n.Plain
  binding : ∀ n, f.binding = some n → n.Plain

/-- A string of the grammar, with its indices below `max_count`. -/
structure Valid (maxCount : Nat) (str : List Char) (fs : List Field) : Prop where
  ne : fs ≠ []
  plain : ∀ f ∈ fs, f.Plain
  text : str = fieldsText fs
  inRange : ∀ f ∈ fs, f.InRange maxCount

example :
    let n : Num := ⟨[], none, ['5'], by simp, List.forall_mem_singleton.mpr rfl, by simp⟩
    let f : Field := ⟨0, ['1'], some none, some n, List.forall_mem_singleton.mpr rfl⟩
    let g : Field := ⟨1, ['2'], none, none, List.forall_mem_singleton.mpr rfl⟩
    denoted 4 [f, g] = [(1, 5), (3, 7)] := by decide

-- ======== stored as written

variable {max procType : Nat} {f : Field} {fs : List Field} {i : Nat}

theorem Num.stored_add (n : Num) {m : Nat} (hm : m < 2 ^ 32) (hpos : 0 ≤ n.value + m)
    (hlt : n.value + m < 2 ^ 32) : (((n.stored + m) % 2 ^ 32 : Nat) : Int) = n.value + m := by
  unfold Num.value at hpos hlt ⊢
  unfold Num.stored ulong
  match hs : n.sign with
  | some true =>
    rw [hs, if_pos rfl] at hpos hlt
    rw [if_pos rfl, if_neg (by omega), if_pos (by rfl)]
    omega
  | some false =>
    rw [hs, if_neg (by decide)] at hpos hlt
    have hsmall : ¬ 2 ^ 64 ≤ decimal n.digits := by omega
    rw [if_neg hsmall, if_neg (by decide), if_neg (by decide)]
    omega
  | none =>
    rw [hs, if_neg (by decide)] at hpos hlt
    have hsmall : ¬ 2 ^ 64 ≤ decimal n.digits := by omega
    rw [if_neg hsmall, if_neg (by decide), if_neg (by decide)]
    omega

theorem Num.stored_eq (n : Num) (hpos : 0 ≤ n.value) (hlt : n.value < 2 ^ 32) :
    (n.stored : Int) = n.value := by
  have h := n.stored_add (m := 0) (by decide) (by omega) (by omega)
  have hstored := n.stored_lt
  omega

section

variable (h : f.InRange max) (hmax : max < 2 ^ 32)
include h hmax

theorem Field.InRange.low_eq :
    ((ulong false (decimal f.low) % 2 ^ 32 : Nat) : Int) = f.lowValue := by
  have hlow := h.low
  unfold Field.lowValue at hlow ⊢
  unfold ulong
  rw [if_neg (by omega), if_neg Bool.false_ne_true]
  omega

theorem Field.InRange.high_eq :
    (highOf max (ulong false (decimal f.low) % 2 ^ 32) f.range : Int)
      = f.highValue max := by
  have hlow := h.low_eq hmax
  have hpos := h.nonneg
  have hlt := h.high
  unfold Field.highValue at hpos hlt ⊢
  match hr : f.range with
  | none => exact hlow
  | some none =>
    rw [hr] at hpos
    change ((lastIndex max : Nat) : Int) = _
    dsimp only at hpos ⊢
    unfold lastIndex
    rw [if_neg (by omega)]
    omega
  | some (some n) =>
    rw [hr] at hpos hlt
    dsimp only at hpos hlt
    exact n.stored_eq hpos (by omega)

theorem Field.InRange.ends :
    ((f.expr max).low : Int) = f.first max ∧ ((f.expr max).high : Int) = f.last max := by
  have hlow := h.low_eq hmax
  have hhigh := h.high_eq hmax
  unfold Field.expr Field.first Field.last
  dsimp only
  split
  next hlt =>
    dsimp only
    constructor <;> omega
  next hge =>
    dsimp only
    constructor <;> omega

theorem Field.InRange.expr_high : (f.expr max).high < max := by
  have hends := (h.ends hmax).2
  have hlow := h.low
  have hhigh := h.high
  unfold Field.last at hends
  omega

theorem Field.InRange.covers_eq (i : Nat) : (f.expr max).covers i = f.covers max i := by
  obtain ⟨hlow, hhigh⟩ := h.ends hmax
  unfold ProcExpr.covers Field.covers
  rw [← hlow, ← hhigh]
  congr 1
  · exact decide_eq_decide.mpr Int.ofNat_le.symm
  · exact decide_eq_decide.mpr Int.ofNat_le.symm

theorem Field.InRange.cpu_eq (hi : i < max) (hcov : f.covers max i = true)
    (hpos : 0 ≤ f.cpu max i) (hlt : f.cpu max i < 2 ^ 32) :
    ((f.expr max).cpu i : Int) = f.cpu max i := by
  have hlow := (h.ends hmax).1
  rw [← h.covers_eq hmax] at hcov
  have hle := of_decide_eq_true (Bool.and_eq_true_iff.mp hcov).1
  unfold Field.cpu at hpos hlt ⊢
  unfold ProcExpr.cpu
  have hbinding : (f.expr max).binding = boundOf (f.expr max).low f.binding := rfl
  rw [hbinding]
  rw [← hlow] at hpos hlt ⊢
  generalize (f.expr max).low = low at *
  cases hb : f.binding with
  | none =>
    change (((low + (i - low)) % 2 ^ 32 : Nat) : Int) = i
    omega
  | some n =>
    rw [hb] at hpos hlt
    have hcast : (i : Int) - low = ((i - low : Nat) : Int) := (Int.ofNat_sub hle).symm
    dsimp only
    rw [hcast] at hpos hlt ⊢
    exact n.stored_add (by omega) hpos hlt

end

-- ======== the set that is stored

def cpuBy (es : List ProcExpr) (i : Nat) : Nat :=
  ((firstEnabled es i).map fun e => e.cpu i).getD 0

/-- The processors that the expressions use, with their cpus. -/
def placed (maxCount : Nat) (es : List ProcExpr) : List (Nat × Nat) :=
  ((List.range maxCount).filter (used es)).map fun i => (i, cpuBy es i)

variable {es : List ProcExpr} {p : Parser}

theorem disabledBy_eq (hmax : max < 2 ^ 32) (h : ∀ f ∈ fs, f.InRange max) (i : Nat) :
    disabledBy (fs.map (Field.expr max)) i = disabledIn max fs i := by
  induction fs with
  | nil => rfl
  | cons f fs ih =>
    have hf := h f List.mem_cons_self
    have ih := ih fun f' hf' => h f' (List.mem_cons_of_mem f hf')
    unfold disabledBy disabledIn at ih ⊢
    rw [List.map_cons, List.any_cons, List.any_cons, ih, hf.covers_eq hmax]
    rfl

theorem firstEnabled_eq (hmax : max < 2 ^ 32) (h : ∀ f ∈ fs, f.InRange max) (i : Nat) :
    firstEnabled (fs.map (Field.expr max)) i
      = (enabledIn max fs i).map (Field.expr max) := by
  induction fs with
  | nil => rfl
  | cons f fs ih =>
    have hf := h f List.mem_cons_self
    have ih := ih fun f' hf' => h f' (List.mem_cons_of_mem f hf')
    unfold firstEnabled enabledIn at ih ⊢
    rw [List.map_cons, List.find?_cons, List.find?_cons, ih, hf.covers_eq hmax]
    rw [show (f.expr max).isEnabled = f.enables from rfl]
    cases f.enables && f.covers max i <;> rfl

def usedIn (maxCount : Nat) (fs : List Field) (i : Nat) : Bool :=
  !disabledIn maxCount fs i && (enabledIn maxCount fs i).isSome

def cpuIn (maxCount : Nat) (fs : List Field) (i : Nat) : Int :=
  ((enabledIn maxCount fs i).map fun f => f.cpu maxCount i).getD 0

theorem used_eq (hmax : max < 2 ^ 32) (h : ∀ f ∈ fs, f.InRange max) :
    used (fs.map (Field.expr max)) = usedIn max fs := by
  funext i
  unfold used usedIn
  rw [disabledBy_eq hmax h, firstEnabled_eq hmax h, Option.isSome_map]

theorem denoted_eq (max : Nat) (fs : List Field) : denoted max fs
    = ((List.range max).filter (usedIn max fs)).map fun i => (i, cpuIn max fs i) := by
  rw [← List.filterMap_eq_map', List.filterMap_filter]
  unfold denoted
  congr 1
  funext i
  unfold usedIn cpuIn
  cases disabledIn max fs i with
  | true => rfl
  | false =>
    cases enabledIn max fs i with
    | none => rfl
    | some f => rfl

theorem mem_of_enabledIn (h : enabledIn max fs i = some f) :
    f ∈ fs ∧ f.covers max i = true := by
  unfold enabledIn at h
  have hfound := List.find?_some h
  exact ⟨List.mem_of_find?_eq_some h, (Bool.and_eq_true_iff.mp hfound).2⟩

theorem cpuBy_eq (hmax : max < 2 ^ 32) (h : ∀ f ∈ fs, f.InRange max) (hi : i < max)
    (hused : usedIn max fs i = true) (hpos : 0 ≤ cpuIn max fs i)
    (hlt : cpuIn max fs i < 2 ^ 32) :
    (cpuBy (fs.map (Field.expr max)) i : Int) = cpuIn max fs i := by
  have hsome := (Bool.and_eq_true_iff.mp hused).2
  unfold cpuIn at hpos hlt ⊢
  unfold cpuBy
  rw [firstEnabled_eq hmax h]
  cases hf : enabledIn max fs i with
  | none =>
    rw [hf] at hsome
    cases hsome
  | some f =>
    rw [hf] at hpos hlt
    have hcov := (mem_of_enabledIn hf).2
    exact (h f (mem_of_enabledIn hf).1).cpu_eq hmax hi hcov hpos hlt

theorem cpuBy_lt (es : List ProcExpr) (i : Nat) : cpuBy es i < 2 ^ 32 := by
  unfold cpuBy
  cases firstEnabled es i with
  | none => exact (by decide : 0 < 2 ^ 32)
  | some e => exact Nat.mod_lt _ (by decide)

theorem lt_of_mem_placed {e : Nat × Nat} (h : e ∈ placed max es) : e.2 < 2 ^ 32 := by
  obtain ⟨i, -, rfl⟩ := List.mem_map.mp h
  exact cpuBy_lt es i

/-- A place with the numbers of the meaning. -/
def written (e : Nat × Nat) : Nat × Int := (e.1, e.2)

theorem forall_mem_denoted {P : Nat × Int → Prop} :
    (∀ e ∈ denoted max fs, P e)
      ↔ ∀ i < max, usedIn max fs i = true → P (i, cpuIn max fs i) := by
  rw [denoted_eq, List.forall_mem_map]
  constructor
  · exact fun h i hi hu => h i (List.mem_filter.mpr ⟨List.mem_range.mpr hi, hu⟩)
  · intro h i hi
    obtain ⟨hi, hu⟩ := List.mem_filter.mp hi
    exact h i (List.mem_range.mp hi) hu

theorem placed_eq_denoted (hmax : max < 2 ^ 32) (h : ∀ f ∈ fs, f.InRange max)
    (hcpus : ∀ e ∈ denoted max fs, 0 ≤ e.2 ∧ e.2 < 2 ^ 32) :
    (placed max (fs.map (Field.expr max))).map written = denoted max fs := by
  rw [forall_mem_denoted] at hcpus
  unfold placed
  rw [used_eq hmax h, denoted_eq, List.map_map]
  refine List.map_congr_left fun i hi => ?_
  obtain ⟨hi, hu⟩ := List.mem_filter.mp hi
  have hi := List.mem_range.mp hi
  obtain ⟨hpos, hlt⟩ := hcpus i hi hu
  exact congrArg (Prod.mk i) (cpuBy_eq hmax h hi hu hpos hlt)

theorem length_placed (hmax : max < 2 ^ 32) (h : ∀ f ∈ fs, f.InRange max) :
    (placed max (fs.map (Field.expr max))).length = (denoted max fs).length := by
  unfold placed
  rw [used_eq hmax h, denoted_eq, List.length_map, List.length_map]

end XKaapi.Machine
