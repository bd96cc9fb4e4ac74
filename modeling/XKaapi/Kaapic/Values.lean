/-
Where `__kaapic_spawn2` puts the by-value arguments of a signature that is
kept (kaapic_spawn.c): `placeValues` is the arguments loop as far as they go
(`placeValues_eq`), for any sizes and alignments of the types.

An offset is less than the alignment, whatever came before it: the first one
is the alignment minus one, and a second one that is aligned is 0, on top of
the first. `values_placed_iff` is what is left.
-/
import XKaapi.Kaapic.SpawnCache

namespace XKaapi
namespace Kaapic

-- ======== the slots

/-- The loop over the arguments: what it leaves in the signature, and the
`voffset` of each. -/
def placeValues (info : KaapicType → TypeInfo) :
    TaskSig → List (KaapicMode × KaapicType) → TaskSig × List (Option Nat)
  | ts, [] => (ts, [])
  | ts, (m, t) :: args =>
    let (ts, voffset) := computeVoffset ts (modec2modek m) (info t)
    let (ts, voffsets) := placeValues info ts args
    (ts, voffset :: voffsets)

/-- The slots of the values that do not fit in an access: offset and type. -/
def slots (info : KaapicType → TypeInfo) (ts : TaskSig)
    (args : List (KaapicMode × KaapicType)) : List (Nat × TypeInfo) :=
  (args.zip (placeValues info ts args).2).filterMap fun a => a.2.map (·, info a.1.2)

/-- Each value has a slot of its own in the block, aligned as its type when
the block is aligned to `values_align`. -/
structure ValuesPlaced (info : KaapicType → TypeInfo)
    (args : List (KaapicMode × KaapicType)) : Prop where
  aligned : ∀ x ∈ slots info (initSig args.length) args, x.2.align ∣ x.1
  block : ∀ x ∈ slots info (initSig args.length) args,
    x.2.align ∣ (placeValues info (initSig args.length) args).1.valuesAlign
  inside : ∀ x ∈ slots info (initSig args.length) args,
    x.1 + x.2.size ≤ (placeValues info (initSig args.length) args).1.valuesSize
  disjoint : (slots info (initSig args.length) args).Pairwise fun x y =>
    x.1 + x.2.size ≤ y.1 ∨ y.1 + y.2.size ≤ x.1

/-- The by-value arguments that do not fit in an access. -/
def inBlock (info : KaapicType → TypeInfo) (args : List (KaapicMode × KaapicType)) :
    List TypeInfo :=
  (args.filter fun a => decide (a.1 = .v) && !(info a.2).vArgInAccess).map fun a => info a.2

-- ======== the offsets in sequence

/-- The offset of a value in a block that has `size` bytes before it. -/
def voffsetFrom (size : Nat) (i : TypeInfo) : Nat :=
  (size + (i.align - 1)) &&& (i.align - 1)

/-- The slots of the values, the block having `size` bytes before them. -/
def slotsFrom : Nat → List TypeInfo → List (Nat × TypeInfo)
  | _, [] => []
  | size, i :: is => (voffsetFrom size i, i) :: slotsFrom (voffsetFrom size i + i.size) is

/-- The size of the block after the values. -/
def sizeFrom : Nat → List TypeInfo → Nat
  | size, [] => size
  | size, i :: is => sizeFrom (voffsetFrom size i + i.size) is

def alignFrom : Nat → List TypeInfo → Nat
  | align, [] => align
  | align, i :: is => alignFrom (if align < i.align then i.align else align) is

variable {info : KaapicType → TypeInfo} {ts : TaskSig} {i : TypeInfo}

theorem computeVoffset_block (ts : TaskSig) (hi : i.vArgInAccess = false) :
    computeVoffset ts KAAPI_ACCESS_MODE_V i =
      ({ ts with
          useFfi := ts.useFfi || i.useFfi
          valuesSize := voffsetFrom ts.valuesSize i + i.size
          valuesAlign := if ts.valuesAlign < i.align then i.align else ts.valuesAlign },
        some (voffsetFrom ts.valuesSize i)) := by
  unfold computeVoffset
  rw [if_pos rfl, hi]
  rfl

theorem computeVoffset_other (ts : TaskSig) {mode : Nat}
    (h : mode = KAAPI_ACCESS_MODE_V → i.vArgInAccess = true) :
    (computeVoffset ts mode i).2 = none
      ∧ (computeVoffset ts mode i).1.valuesSize = ts.valuesSize
      ∧ (computeVoffset ts mode i).1.valuesAlign = ts.valuesAlign := by
  unfold computeVoffset
  split
  next hm =>
    rw [h hm]
    exact ⟨rfl, rfl, rfl⟩
  next => exact ⟨rfl, rfl, rfl⟩

theorem placeValues_cons (info : KaapicType → TypeInfo) (ts : TaskSig)
    (m : KaapicMode) (t : KaapicType) (args : List (KaapicMode × KaapicType)) :
    placeValues info ts ((m, t) :: args)
      = ((placeValues info (computeVoffset ts (modec2modek m) (info t)).1 args).1,
        (computeVoffset ts (modec2modek m) (info t)).2
          :: (placeValues info (computeVoffset ts (modec2modek m) (info t)).1 args).2) := rfl

theorem placeValues_eq (info : KaapicType → TypeInfo) (ts : TaskSig)
    (args : List (KaapicMode × KaapicType)) :
    slots info ts args = slotsFrom ts.valuesSize (inBlock info args)
      ∧ (placeValues info ts args).1.valuesSize = sizeFrom ts.valuesSize (inBlock info args)
      ∧ (placeValues info ts args).1.valuesAlign
        = alignFrom ts.valuesAlign (inBlock info args) := by
  induction args generalizing ts with
  | nil => exact ⟨rfl, rfl, rfl⟩
  | cons a args ih =>
    obtain ⟨m, t⟩ := a
    by_cases hb : m = .v ∧ (info t).vArgInAccess = false
    · obtain ⟨rfl, hacc⟩ := hb
      have hin : inBlock info ((.v, t) :: args) = info t :: inBlock info args := by
        unfold inBlock
        rw [List.filter_cons_of_pos (by rw [hacc]; rfl)]
        rfl
      have hv := computeVoffset_block ts hacc
      have hplace := placeValues_cons info ts .v t args
      rw [show modec2modek .v = KAAPI_ACCESS_MODE_V from rfl, hv] at hplace
      obtain ⟨hslots, hsize, halign⟩ := ih _
      refine ⟨?_, ?_, ?_⟩
      · unfold slots
        rw [hplace, hin]
        exact congrArg (_ :: ·) hslots
      · rw [hplace, hin]
        exact hsize
      · rw [hplace, hin]
        exact halign
    · have hin : inBlock info ((m, t) :: args) = inBlock info args := by
        unfold inBlock
        rw [List.filter_cons_of_neg]
        rw [Bool.and_eq_true, decide_eq_true_eq, Bool.not_eq_true']
        exact hb
      obtain ⟨hnone, hs, ha⟩ := computeVoffset_other ts
        (show modec2modek m = KAAPI_ACCESS_MODE_V → (info t).vArgInAccess = true from fun hm =>
          eq_true_of_ne_false (not_and.mp hb (modec2modek_eq_v.mp hm)))
      obtain ⟨hslots, hsize, halign⟩ :=
        ih (computeVoffset ts (modec2modek m) (info t)).1
      rw [hs] at hslots hsize
      rw [ha] at halign
      refine ⟨?_, ?_, ?_⟩
      · rw [hin, ← hslots]
        unfold slots
        rw [placeValues_cons, hnone]
        rfl
      · rw [hin, ← hsize]
        rfl
      · rw [hin, ← halign]
        rfl

theorem voffsetFrom_lt (size : Nat) (ha : 0 < i.align) : voffsetFrom size i < i.align :=
  Nat.lt_of_le_of_lt Nat.and_le_right (Nat.sub_lt ha Nat.one_pos)

theorem voffsetFrom_eq_zero {size : Nat} (ha : 0 < i.align)
    (h : i.align ∣ voffsetFrom size i) : voffsetFrom size i = 0 :=
  Nat.eq_zero_of_dvd_of_lt h (voffsetFrom_lt size ha)

theorem align_of_first (ha : 0 < i.align) (h : i.align ∣ voffsetFrom 0 i) :
    i.align = 1 := by
  have hzero := voffsetFrom_eq_zero ha h
  unfold voffsetFrom at hzero
  rw [Nat.zero_add, Nat.and_self] at hzero
  omega

-- ======== results

/-- For every list of arguments: the values have their slots iff there is no
value in the block, or one and of alignment 1. -/
theorem values_placed_iff (hinfo : ∀ t, 0 < (info t).size ∧ 0 < (info t).align)
    (args : List (KaapicMode × KaapicType)) :
    ValuesPlaced info args
      ↔ inBlock info args = [] ∨ ∃ i, inBlock info args = [i] ∧ i.align = 1 := by
  have hpos : ∀ i ∈ inBlock info args, 0 < i.size ∧ 0 < i.align := by
    intro i hi
    obtain ⟨a, -, rfl⟩ := List.mem_map.mp hi
    exact hinfo a.2
  obtain ⟨hslots, hsize, halign⟩ :=
    placeValues_eq info (initSig args.length) args
  rw [show (initSig args.length).valuesSize = 0 from rfl] at hslots hsize
  rw [show (initSig args.length).valuesAlign = 0 from rfl] at halign
  constructor
  · rintro ⟨haligned, -, -, hdisjoint⟩
    rw [hslots] at haligned hdisjoint
    cases hin : inBlock info args with
    | nil => exact .inl rfl
    | cons i is =>
      rw [hin] at haligned hdisjoint hpos
      have hi := hpos i List.mem_cons_self
      have hone := align_of_first hi.2 (haligned _ List.mem_cons_self)
      cases is with
      | nil => exact .inr ⟨i, rfl, hone⟩
      | cons j is =>
        have hj := hpos j (List.mem_cons_of_mem i List.mem_cons_self)
        have hja := haligned _ (List.mem_cons_of_mem _ List.mem_cons_self)
        have hij := (List.pairwise_cons.mp hdisjoint).1 _ List.mem_cons_self
        have hi0 := voffsetFrom_eq_zero hi.2 (haligned _ List.mem_cons_self)
        have hj0 := voffsetFrom_eq_zero hj.2 hja
        dsimp only at hij
        rw [hi0] at hij hj0
        omega
  · rintro (hin | ⟨i, hin, hone⟩)
    · rw [hin] at hslots
      refine ⟨?_, ?_, ?_, ?_⟩
      · exact hslots ▸ fun x hx => (List.not_mem_nil hx).elim
      · exact hslots ▸ fun x hx => (List.not_mem_nil hx).elim
      · exact hslots ▸ fun x hx => (List.not_mem_nil hx).elim
      · exact hslots ▸ List.Pairwise.nil
    · rw [hin] at hslots hsize
      have hzero : voffsetFrom 0 i = 0 := by
        unfold voffsetFrom
        rw [hone]
        rfl
      have hslot : ∀ x ∈ slots info (initSig args.length) args, x = (0, i) := by
        intro x hx
        rw [hslots] at hx
        rw [List.mem_singleton.mp hx, hzero]
      refine ⟨fun x hx => ?_, fun x hx => ?_, fun x hx => ?_, ?_⟩
      · rw [hslot x hx]
        exact Nat.dvd_zero _
      · rw [hslot x hx, hone]
        exact Nat.one_dvd _
      · rw [hslot x hx, hsize]
        exact Nat.le_of_eq (congrArg (· + i.size) hzero.symm)
      · rw [hslots]
        exact List.pairwise_singleton ..

/-- A `double` and an `int` are in their accesses. -/
theorem values_placed_iff_double :
    ValuesPlaced typeInfo [(.v, .dbl), (.r, .ldbl), (.v, .int)] :=
  (values_placed_iff (fun t => by cases t <;> decide) _).mpr (.inl rfl)

/-- A `long double` is put at offset 15. -/
theorem values_not_placed : ¬ ∀ args, ValuesPlaced typeInfo args := by
  intro h
  have h15 : 16 ∣ 15 := (h [(.v, .ldbl)]).aligned (15, typeInfo .ldbl) (by decide)
  revert h15
  decide

end Kaapic
end XKaapi
