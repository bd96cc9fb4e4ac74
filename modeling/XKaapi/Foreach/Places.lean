/-
Where the iterations of a parallel loop are.

Every iteration is in one place: a slice still in the map, a slice a
splitter took from it, the local queue of a thread, a range a thread
holds between two accesses, or the batch of a thread or of the loop,
once it was popped. `places` counts those of the first kinds and `popped`
those of the last; the invariant of the loop says that the two add up to
the range. This file has the two counts and how the map changes them.
-/
import XKaapi.Lib.Tally
import XKaapi.Foreach.Run

namespace XKaapi.Foreach

open Bitmap Tally

variable {w : Nat}

-- ======== counts

/-- The iterations of the slice at a position. -/
def sliceInd (wa : WorkDistribution w) (pos : Nat) (x : Int) : Nat :=
  match wa.slice pos with
  | some r => ind r x
  | none => 0

/-- The iterations of the slices of a bitmap. -/
def mapInd (wa : WorkDistribution w) (map : BitVec w) (x : Int) : Nat :=
  ∑ p ∈ Finset.range w, if map.getLsbD p then sliceInd wa p x else 0

/-- The iterations a thread holds at a position before it counts them. -/
def Pc.held (wa : WorkDistribution w) (pc : Pc) (x : Int) : Nat :=
  match pc with
  | .checkSlice _ pos => sliceInd wa pos x
  | .refill i j => ind (i, j) x
  | _ => 0

/-- The iterations a thread is about to pass to the body. -/
def Pc.hand (pc : Pc) (x : Int) : Nat :=
  match pc with
  | .body i j => ind (i, j) x
  | _ => 0

/-- The iterations of a thread that it has not popped. -/
def Thread.place (wa : WorkDistribution w) (th : Thread) (x : Int) : Nat :=
  th.pc.held wa x + ind (th.lwork.crBeg, th.lwork.crEnd) x

/-- The iterations a splitter has taken and not handed out. -/
def SplitPc.held (wa : WorkDistribution w) (sp : SplitPc w) (x : Int) : Nat :=
  match sp with
  | .reply _ replymask => mapInd wa replymask x
  | .send _ replymask _ first last => mapInd wa replymask x + ind (first, last) x
  | .cut _ nreq unitSize last => ind (last - nreq * unitSize, last) x
  | _ => 0

/-- How many places hold an iteration that no thread has popped. -/
def St.places (s : St w) (x : Int) : Nat :=
  mapInd s.wa s.wa.map x
    + ∑ t ∈ Finset.range w, (s.thread t).place s.wa x
    + ∑ vid ∈ Finset.range w, (s.split vid).held s.wa x

/-- How many ranges popped from a queue hold an iteration. -/
def St.popped (s : St w) (x : Int) : Nat :=
  tally s.accounted x + ∑ t ∈ Finset.range w, tally (s.thread t).batch x

/-- How many threads are about to pass an iteration to the body. -/
def St.hands (s : St w) (x : Int) : Nat :=
  ∑ t ∈ Finset.range w, (s.thread t).pc.hand x

-- ======== the map

section Map

variable (wa : WorkDistribution w) (map : BitVec w)

theorem mapInd_zero (x : Int) : mapInd wa 0 x = 0 := by
  unfold mapInd
  apply Finset.sum_eq_zero
  intro p _
  rw [eq_zero_iff.mp rfl]
  rfl

theorem mapInd_lowBits {k : Nat} (hk : k ≤ w) (h : LowBits map k) (x : Int) :
    mapInd wa map x = ∑ p ∈ Finset.range k, sliceInd wa p x := by
  have hfilter : (Finset.range w).filter (fun p => map.getLsbD p = true)
      = Finset.range k := by
    ext p
    rw [Finset.mem_filter, Finset.mem_range, Finset.mem_range, h p,
      decide_eq_true_eq]
    omega
  unfold mapInd
  rw [← Finset.sum_filter, hfilter]

theorem mapInd_clearBit {pos : Nat} (h : map.getLsbD pos = true) (x : Int) :
    mapInd wa (clearBit map pos) x + sliceInd wa pos x
      = mapInd wa map x := by
  unfold mapInd
  have hmem := Finset.mem_range.mpr (lt_of_getLsbD h)
  rw [← Finset.add_sum_erase _ _ hmem, ← Finset.add_sum_erase _ _ hmem,
    getLsbD_clearBit, h, if_pos rfl]
  have hrest : ∑ p ∈ (Finset.range w).erase pos,
      (if (clearBit map pos).getLsbD p then sliceInd wa p x else 0)
      = ∑ p ∈ (Finset.range w).erase pos,
        (if map.getLsbD p then sliceInd wa p x else 0) := by
    apply Finset.sum_congr rfl
    intro p hp
    rw [getLsbD_clearBit]
    simp [(Finset.ne_of_mem_erase hp).symm]
  rw [hrest]
  simp [Nat.add_comm]

theorem mapInd_and (mask : BitVec w) (x : Int) :
    mapInd wa (map &&& ~~~ mask) x + mapInd wa (map &&& mask) x
      = mapInd wa map x := by
  unfold mapInd
  rw [← Finset.sum_add_distrib]
  apply Finset.sum_congr rfl
  intro p hp
  have hlt := Finset.mem_range.mp hp
  rw [BitVec.getLsbD_and, BitVec.getLsbD_and, BitVec.getLsbD_not]
  cases map.getLsbD p <;> cases mask.getLsbD p <;> simp [hlt]

theorem sliceInd_le_mapInd {pos : Nat} (h : map.getLsbD pos = true) (x : Int) :
    sliceInd wa pos x ≤ mapInd wa map x := by
  have := mapInd_clearBit wa map h x
  omega

end Map

end XKaapi.Foreach
