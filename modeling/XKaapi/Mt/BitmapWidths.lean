/-
Replacing one width of bitmap by another (kaapi_mt_bitmap.h).

A program is a list of calls on a store of bitmaps. Run at two widths
from stores that agree below the smaller size, it returns the same
values as long as its calls hold at both (`BitmapOp.Holds`), name only
indices below that size, and ask for emptiness, a count or a first index
only of bitmaps without a larger one: complement and `full` are fine as
long as they are masked before.
-/
import XKaapi.Mt.BitmapSets

namespace XKaapi.Mt

open Function (update update_of_ne update_self)
open WordArray (indices)

/-- The two stores hold the same indices below `m`. -/
def AgreeBelow (m : Nat) (s t : SetStore) : Prop :=
  ∀ x i, i < m → (i ∈ s x ↔ i ∈ t x)

/-- The bitmap whose indices, all of them, decide what the call returns. -/
def BitmapOp.observed : BitmapOp → Option Nat
  | .empty b | .valueEmpty b | .valueCount b | .count b
  | .valueFirst1AndZero b | .first1AndZero b | .valueFirst1 b | .first1 b => some b
  | _ => none

/-- The call names and sees only indices below `m`. -/
def BitmapOp.UsesBelow (m : Nat) (s : SetStore) (op : BitmapOp) : Prop :=
  op.InRange m ∧ ∀ b ∈ op.observed, ∀ j ∈ s b, j < m

/-- The values a program returns, and the store it leaves. -/
def results {W : Width} : List BitmapOp → Store W → Option (List Int × Store W)
  | [], e => some ([], e)
  | op :: ops, e => do
      let (r, e) ← op.exec e
      let (rs, e) ← results ops e
      return (r :: rs, e)

/-- Every call of the program holds at both widths and uses only indices
of the smaller one. -/
def HoldBelow {V W : Width} : List BitmapOp → Store V → Store W → Prop
  | [], _, _ => True
  | op :: ops, e, f =>
    op.Holds V (sets e) ∧ op.Holds W (sets f) ∧ op.UsesBelow V.size (sets f)
      ∧ HoldBelow ops (op.call e).2 (op.call f).2

section below

variable {m M : Nat} {s t : SetStore}

theorem AgreeBelow.update (h : AgreeBelow m s t) (b : Nat) {S T : Finset Nat}
    (hST : ∀ i, i < m → (i ∈ S ↔ i ∈ T)) :
    AgreeBelow m (update s b S) (update t b T) := by
  intro x i hi
  by_cases hx : x = b
  · rw [hx, update_self, update_self]
    exact hST i hi
  · rw [update_of_ne hx, update_of_ne hx]
    exact h x i hi

theorem AgreeBelow.eq_of_lt (h : AgreeBelow m s t)
    (hs : ∀ x, s x ⊆ Finset.range m) {b : Nat} (ht : ∀ j ∈ t b, j < m) :
    s b = t b := by
  ext i
  constructor
  · intro hi
    exact (h b i (Finset.mem_range.mp (hs b hi))).mp hi
  · intro hi
    exact (h b i (ht i hi)).mpr hi

/-- One call, on sets: the same value, and agreement kept. -/
theorem AgreeBelow.setCall (h : AgreeBelow m s t) (hmM : m ≤ M)
    (hs : ∀ x, s x ⊆ Finset.range m) {op : BitmapOp}
    (hu : op.UsesBelow m t) :
    (op.setCall m s).1 = (op.setCall M t).1
      ∧ AgreeBelow m (op.setCall m s).2 (op.setCall M t).2 := by
  have heq : ∀ b ∈ op.observed, s b = t b :=
    fun b hb => h.eq_of_lt hs (hu.2 b hb)
  have hr := hu.1
  cases op with
  | clear b | valueClear b => exact ⟨rfl, h.update b fun i _ => Iff.rfl⟩
  | empty b | valueEmpty b | valueCount b | count b | valueFirst1 b
  | first1 b =>
    have hb := heq b rfl
    refine ⟨?_, h⟩
    simp only [BitmapOp.setCall, hb]
  | init b v | valueCopy b v => exact ⟨rfl, h.update b (h v)⟩
  | valueFull b =>
    refine ⟨rfl, h.update b fun i hi => ?_⟩
    rw [Finset.mem_range, Finset.mem_range]
    exact iff_of_true hi (Nat.lt_of_lt_of_le hi hmM)
  | valueSet b i | set b i =>
    refine ⟨rfl, h.update b fun j hj => ?_⟩
    rw [Finset.mem_insert, Finset.mem_insert, h b j hj]
  | valueGet b i | get b i =>
    refine ⟨?_, h⟩
    simp only [BitmapOp.setCall, h b i hr]
  | valueUnset b i =>
    refine ⟨rfl, h.update b fun j hj => ?_⟩
    rw [Finset.mem_erase, Finset.mem_erase, h b j hj]
  | unset b i =>
    refine ⟨?_, h.update b fun j hj => ?_⟩
    · simp only [BitmapOp.setCall, h b i hr]
    · rw [Finset.mem_erase, Finset.mem_erase, h b j hj]
  | swap0 b v =>
    exact ⟨rfl, (h.update b fun i _ => Iff.rfl).update v (h b)⟩
  | or0 b v =>
    refine ⟨rfl, (h.update b fun i _ => Iff.rfl).update v fun i hi => ?_⟩
    rw [Finset.mem_union, Finset.mem_union, h v i hi, h b i hi]
  | and fu b v =>
    refine ⟨rfl, (h.update b fun i hi => ?_).update fu (h b)⟩
    rw [Finset.mem_inter, Finset.mem_inter, h b i hi, h v i hi]
  | valueNeg fu bar =>
    refine ⟨rfl, h.update fu fun i hi => ?_⟩
    rw [Finset.mem_sdiff, Finset.mem_sdiff, Finset.mem_range,
      Finset.mem_range, h bar i hi]
    exact and_congr_left fun _ => iff_of_true hi (Nat.lt_of_lt_of_le hi hmM)
  | valueOr fu bar =>
    refine ⟨rfl, h.update fu fun i hi => ?_⟩
    rw [Finset.mem_union, Finset.mem_union, h fu i hi, h bar i hi]
  | valueAnd fu bar =>
    refine ⟨rfl, h.update fu fun i hi => ?_⟩
    rw [Finset.mem_inter, Finset.mem_inter, h fu i hi, h bar i hi]
  | valueFirst1AndZero b | first1AndZero b =>
    have hb := heq b rfl
    refine ⟨?_, ?_⟩
    · simp only [BitmapOp.setCall, hb]
    · simp only [BitmapOp.setCall, hb]
      exact h.update b fun i _ => Iff.rfl
  | valueSetLowBits b i | setLowBits b i =>
    exact ⟨rfl, h.update b fun j _ => Iff.rfl⟩

end below

theorem BitmapOp.InRange.mono {m M : Nat} (hmM : m ≤ M) {op : BitmapOp}
    (h : op.InRange m) : op.InRange M := by
  cases op with
  | valueSet _ _ | valueGet _ _ | valueUnset _ _ | set _ _ | get _ _
  | unset _ _ | setLowBits _ _ => exact Nat.lt_of_lt_of_le h hmM
  | valueSetLowBits _ _ => exact Nat.le_trans h hmM
  | _ => trivial

section widths

variable {V W : Width}

theorem sets_subset (e : Store W) (x : Nat) :
    sets e x ⊆ Finset.range W.size :=
  WordArray.indices_subset (e x)

theorem AgreeBelow.call (hVW : V.size ≤ W.size) {op : BitmapOp} {e : Store V}
    {f : Store W} (h : AgreeBelow V.size (sets e) (sets f))
    (hV : op.Holds V (sets e)) (hW : op.Holds W (sets f))
    (hu : op.UsesBelow V.size (sets f)) :
    (op.call e).1 = (op.call f).1
      ∧ AgreeBelow V.size (sets (op.call e).2) (sets (op.call f).2) := by
  have he := call_eq_setCall hu.1 hV
  have hf := call_eq_setCall (hu.1.mono hVW) hW
  have hcall := h.setCall hVW (sets_subset e) hu
  rw [← he, ← hf] at hcall
  exact hcall

theorem results_cons {op : BitmapOp} {ops : List BitmapOp} {e : Store W}
    {rs : List Int} {e' : Store W} (hr : op.InRange W.size)
    (h : results ops (op.call e).2 = some (rs, e')) :
    results (op :: ops) e = some ((op.call e).1 :: rs, e') := by
  have hexec : op.exec e = some (op.call e) := if_pos hr
  rw [results, hexec]
  show ((results ops (op.call e).2).bind
    fun p => some ((op.call e).1 :: p.1, p.2)) = _
  rw [h]
  rfl

theorem results_of_holdBelow (hVW : V.size ≤ W.size) {ops : List BitmapOp}
    {e : Store V} {f : Store W} (h : AgreeBelow V.size (sets e) (sets f))
    (hops : HoldBelow ops e f) :
    ∃ rs e' f', results ops e = some (rs, e') ∧ results ops f = some (rs, f')
      ∧ AgreeBelow V.size (sets e') (sets f') := by
  induction ops generalizing e f with
  | nil => exact ⟨[], e, f, rfl, rfl, h⟩
  | cons op ops ih =>
    obtain ⟨hV, hW, hu, hrest⟩ := hops
    have hcall := h.call hVW hV hW hu
    obtain ⟨rs, e', f', he, hf, h'⟩ := ih hcall.2 hrest
    refine ⟨(op.call e).1 :: rs, e', f', results_cons hu.1 he, ?_, h'⟩
    rw [hcall.1]
    exact results_cons (hu.1.mono hVW) hf

end widths

-- ======== every width

/-- Each call of each width is the one on sets of indices exactly where
its condition holds, and a program of such calls that uses only indices
below the smaller width returns the same at both. -/
theorem every_width_same_set (V W : Width) (hVW : V.size ≤ W.size) :
    (∀ (op : BitmapOp) (e : Store W), op.InRange W.size →
      (op.Agrees e ↔ op.Holds W (sets e)))
    ∧ ∀ (ops : List BitmapOp) (e : Store V) (f : Store W),
        AgreeBelow V.size (sets e) (sets f) → HoldBelow ops e f →
        ∃ rs e' f', results ops e = some (rs, e') ∧ results ops f = some (rs, f')
          ∧ AgreeBelow V.size (sets e') (sets f') :=
  ⟨fun _ _ hr => agrees_iff_holds hr,
    fun _ _ _ h hops => results_of_holdBelow hVW h hops⟩

/-- The empty bitmap everywhere. -/
def emptyStore (W : Width) : Store W := fun _ => Words.valueClear

/-- The index `i` in every bitmap. -/
def oneStore (W : Width) (i : Nat) : Store W :=
  fun _ => Words.valueSet Words.valueClear i

theorem sets_emptyStore (W : Width) (x : Nat) : sets (emptyStore W) x = ∅ :=
  indices_zero

theorem every_width_same_set_get :
    (BitmapOp.unset 0 191).Agrees (oneStore .w192 191)
    ∧ ∃ rs e' f', results [.valueSet 0 5, .get 0 5] (emptyStore .w64) = some
      (rs, e')
        ∧ results [.valueSet 0 5, .get 0 5] (emptyStore .w256) = some (rs, f')
        ∧ AgreeBelow 64 (sets e') (sets f') := by
  refine ⟨((every_width_same_set .w64 .w192 (by decide)).1 (.unset 0 191)
    (oneStore .w192 191) (by decide)).mpr trivial, ?_⟩
  refine (every_width_same_set .w64 .w256 (by decide)).2
    [.valueSet 0 5, .get 0 5] (emptyStore .w64) (emptyStore .w256) ?_
    ⟨trivial, trivial, ⟨by decide, nofun⟩, trivial, trivial,
      ⟨by decide, nofun⟩, trivial⟩
  intro x i _
  rw [sets_emptyStore, sets_emptyStore]

theorem mem_oneStore {W : Width} {i : Nat} (hi : i < W.size) :
    i ∈ sets (oneStore W i) 0 := by
  show i ∈ indices (Words.valueSet Words.valueClear i)
  rw [indices_valueSet Words.valueClear hi]
  exact Finset.mem_insert_self i _

/-- Four copies are off: one index of four widths. -/
theorem copies_differ :
    ¬ (BitmapOp.valueUnset 0 128).Agrees (oneStore .w192 128)
    ∧ ¬ (BitmapOp.count 0).Agrees (oneStore .w256 192)
    ∧ ¬ (BitmapOp.setLowBits 0 1).Agrees (oneStore .w128 64)
    ∧ ¬ (BitmapOp.set 0 0).Agrees (emptyStore .w32) := by
  refine ⟨fun h => ?_, fun h => ?_, fun h => ?_, fun h => ?_⟩
  · have hout := (agrees_iff_holds (by decide)).mp h rfl (by decide)
    exact hout.1 (mem_oneStore (by decide))
  · have hr : (BitmapOp.count 0).InRange (Width.size .w256) := trivial
    have hlt := (agrees_iff_holds hr).mp h rfl 192 (mem_oneStore (by decide))
    omega
  · have hlt := (agrees_iff_holds (by decide)).mp h rfl (by decide) 64
      (mem_oneStore (by decide))
    omega
  · exact (agrees_iff_holds (by decide)).mp h rfl

end XKaapi.Mt
