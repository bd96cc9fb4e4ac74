/-
The splitter of a parallel loop (`_kaapic_split_task`, kaapic_work.c).

A thief that obtained the lock of a victim runs it on the requests posted
to this victim, the thieves that wait for work. The function first looks
for requesters whose slice was never taken: it clears their bits in the
distribution map with one atomic `and`, and replies to each of them with
a slice. It then splits the local range of the victim between the
requesters that are left.

The requests are those of an iterator over a bitmap of kernel ids
(`kaapi_listrequest_iterator_t`, kaapi_mt_machine.h): the operations on
it keep the rule that there is a current request as long as one is
pending.
-/
import XKaapi.Foreach.Distribution

namespace XKaapi.Foreach

open Bitmap

variable {w : Nat}

-- ======== requests

/-- A request index: `-1`, here `none`, is no request. -/
def idOf : Nat → Option Nat
  | 0 => none
  | i + 1 => some i

/-- kaapi_listrequest_iterator_t: the current request and the ones after
it. There is a current one as long as there are others, and it comes
before each of them. -/
@[ext]
structure ListrequestIterator (w : Nat) where
  bitmap : BitVec w
  idcurr : Option Nat
  wf : idcurr = none → bitmap = 0
  least : ∀ i, idcurr = some i → ∀ j, bitmap.getLsbD j = true → i < j

namespace ListrequestIterator

/-- The first request of a bitmap becomes the current one:
`idcurr = first1_and_zero(&bitmap) - 1`. -/
def ofBitmap (b : BitVec w) : ListrequestIterator w where
  bitmap := (valueFirst1AndZero b).2
  idcurr := idOf (valueFirst1AndZero b).1
  wf := by
    rcases valueFirst1AndZero_cases b with ⟨hz, he⟩ | ⟨i, -, he⟩
    · intro _
      rw [he]
      exact hz
    · intro h
      rw [he] at h
      cases h
  least := by
    intro i h j hj
    rcases valueFirst1AndZero_cases b with ⟨-, he⟩ | ⟨k, -, he⟩
    · rw [he] at h
      cases h
    · rw [he] at h hj
      obtain rfl := Option.some.inj h
      rw [getLsbD_clearBit, Bool.and_eq_true, decide_eq_true_eq] at hj
      exact Nat.lt_of_le_of_ne (le_of_valueFirst1AndZero he hj.1) hj.2

/-- kaapi_listrequest_iterator_next -/
def next (lri : ListrequestIterator w) : ListrequestIterator w :=
  ofBitmap lri.bitmap

/-- kaapi_listrequest_iterator_unset_at -/
def unsetAt (lri : ListrequestIterator w) (pos : Nat) :
    ListrequestIterator w :=
  if lri.idcurr = some pos then ofBitmap (valueUnset lri.bitmap pos)
  else
    { bitmap := valueUnset lri.bitmap pos
      idcurr := lri.idcurr
      wf := fun h => by
        rw [lri.wf h]
        exact clearBit_of_not BitVec.getLsbD_zero
      least := fun i h j hj => by
        unfold valueUnset at hj
        rw [getLsbD_clearBit, Bool.and_eq_true] at hj
        exact lri.least i h j hj.1 }

/-- kaapi_listrequest_iterator_count -/
def count (lri : ListrequestIterator w) : Nat :=
  valueCount lri.bitmap + if lri.idcurr = none then 0 else 1

/-- kaapi_listrequest_iterator_empty -/
def isEmpty (lri : ListrequestIterator w) : Bool :=
  lri.bitmap = 0 && lri.idcurr = none

/-- The request of `ident` is in the list. -/
def Mem (lri : ListrequestIterator w) (ident : Nat) : Prop :=
  lri.idcurr = some ident ∨ lri.bitmap.getLsbD ident = true

theorem ofBitmap_idcurr (b : BitVec w) :
    (ofBitmap b).idcurr = idOf (valueFirst1AndZero b).1 := rfl

theorem ofBitmap_bitmap (b : BitVec w) :
    (ofBitmap b).bitmap = (valueFirst1AndZero b).2 := rfl

variable {ident : Nat} {lri : ListrequestIterator w}

theorem mem_ofBitmap {b : BitVec w} :
    (ofBitmap b).Mem ident ↔ b.getLsbD ident = true := by
  unfold Mem
  rw [ofBitmap_idcurr, ofBitmap_bitmap]
  rcases valueFirst1AndZero_cases b with ⟨hz, he⟩ | ⟨i, hi, he⟩
  · rw [he]
    simp [idOf]
  · rw [he]
    show some i = some ident ∨ (clearBit b i).getLsbD ident = true ↔ _
    rw [getLsbD_clearBit, Bool.and_eq_true, decide_eq_true_eq,
      Option.some_inj]
    by_cases h : i = ident
    · exact iff_of_true (.inl h) (h ▸ hi)
    · simp [h]

/-- The current request is not pending behind itself. -/
theorem fresh (lri : ListrequestIterator w) (i : Nat)
    (h : lri.idcurr = some i) : lri.bitmap.getLsbD i = false := by
  rw [← Bool.not_eq_true]
  exact fun hi => Nat.lt_irrefl i (lri.least i h i hi)

/-- No request comes before the current one. -/
theorem le_of_mem {i j : Nat} (h : lri.idcurr = some i) (hj : lri.Mem j) : i ≤ j := by
  rcases hj with hj | hj
  · exact Nat.le_of_eq (Option.some.inj (h.symm.trans hj))
  · exact Nat.le_of_lt (lri.least i h j hj)

/-- What `unset_at` leaves: the request at `pos` goes if it is the current
one, and whatever is pending at the bit cleared goes. -/
theorem mem_unsetAt_iff {pos : Nat} :
    (lri.unsetAt pos).Mem ident ↔ lri.idcurr = some ident ∧ ident ≠ pos
      ∨ lri.bitmap.getLsbD ident = true ∧ ident ≠ unsetIndex w pos := by
  unfold unsetAt
  by_cases hcurr : lri.idcurr = some pos
  · rw [if_pos hcurr, mem_ofBitmap, hcurr, Option.some_inj, valueUnset,
      getLsbD_clearBit, Bool.and_eq_true, decide_eq_true_eq]
    constructor
    · intro h
      exact .inr ⟨h.1, Ne.symm h.2⟩
    · intro h
      rcases h with h | h
      · exact absurd h.1.symm h.2
      · exact ⟨h.1, Ne.symm h.2⟩
  · rw [if_neg hcurr]
    unfold Mem
    show lri.idcurr = some ident
      ∨ (valueUnset lri.bitmap pos).getLsbD ident = true ↔ _
    rw [valueUnset, getLsbD_clearBit, Bool.and_eq_true, decide_eq_true_eq]
    constructor
    · intro h
      exact h.imp (fun h => ⟨h, fun heq => hcurr (heq ▸ h)⟩)
        fun h => ⟨h.1, Ne.symm h.2⟩
    · intro h
      exact h.imp (fun h => h.1) fun h => ⟨h.1, Ne.symm h.2⟩

/-- `unset_at` takes off the request it is given, when the bit cleared is
its own or when it is the current one: all the others come after. -/
theorem mem_unsetAt {pos : Nat} (h : unsetIndex w pos = pos ∨ lri.idcurr = some pos) :
    (lri.unsetAt pos).Mem ident ↔ lri.Mem ident ∧ ident ≠ pos := by
  have hne : lri.bitmap.getLsbD ident = true →
      (ident ≠ unsetIndex w pos ↔ ident ≠ pos) := by
    intro hb
    rcases h with h | h
    · rw [h]
    · have hlt := lri.least pos h ident hb
      have hle : unsetIndex w pos ≤ pos := by
        unfold unsetIndex
        split <;> omega
      exact iff_of_true (by omega) (by omega)
  rw [mem_unsetAt_iff, and_congr_right hne, ← or_and_right]
  exact Iff.rfl

theorem idcurr_of_mem (h : lri.Mem ident) (hleast : ∀ i < ident, ¬ lri.Mem i) :
    lri.idcurr = some ident := by
  rcases h with h | h
  · exact h
  cases hcurr : lri.idcurr with
  | none =>
    rw [lri.wf hcurr, eq_zero_iff.mp rfl] at h
    cases h
  | some i => exact absurd (.inl hcurr) (hleast i (lri.least i hcurr ident h))

theorem mem_iff_next {i : Nat} : lri.Mem i ↔ lri.idcurr = some i ∨ lri.next.Mem i := by
  unfold next
  rw [mem_ofBitmap]
  exact Iff.rfl

theorem count_next (h : lri.idcurr = some ident) : lri.next.count + 1 = lri.count := by
  have hc : lri.count = valueCount lri.bitmap + 1 := by
    unfold count
    rw [h, if_neg (Option.some_ne_none ident)]
  rw [hc]
  unfold next count
  rw [ofBitmap_idcurr, ofBitmap_bitmap]
  rcases valueFirst1AndZero_cases lri.bitmap with ⟨hz, he⟩ | ⟨i, hi, he⟩
  · rw [he]
    simp [idOf]
  · rw [he]
    show valueCount (clearBit lri.bitmap i) + 1 + 1 = _
    rw [valueCount_clearBit hi]

theorem count_eq_zero_iff : lri.count = 0 ↔ lri.idcurr = none := by
  unfold count
  by_cases h : lri.idcurr = none
  · rw [if_pos h, lri.wf h]
    exact iff_of_true (valueCount_eq_zero_iff.mpr rfl) h
  · rw [if_neg h]
    exact iff_of_false (Nat.succ_ne_zero _) h

end ListrequestIterator

-- ======== model

/-- kaapic_local_work_t: the queue `cr` of the iterations left to its
thread, whether it can be stolen from, and how many iterations popped
from it are not accounted yet. -/
structure LocalWork where
  crBeg : Int
  crEnd : Int
  init : Bool
  workdone : Int

/-- kaapic_global_work_t. `body` says that a body is attached. -/
structure GlobalWork (w : Nat) where
  workremain : Int
  workerdone : Int
  wa : WorkDistribution w
  lwork : Nat → LocalWork
  body : Bool
  parGrain : Int
  seqGrain : Int

/-- kaapic_foreach_local_workinit -/
def LocalWork.workinit (lwork : LocalWork) (first last : Int) : LocalWork :=
  { lwork with
    crBeg := first
    crEnd := last
    init := true }

/-- kaapi_workqueue_size -/
def LocalWork.size (lwork : LocalWork) : Int :=
  let size := lwork.crEnd - lwork.crBeg
  if size < 0 then 0 else size

/-- kaapi_workqueue_steal under the lock, the owner not popping: `size`
iterations off the end, or none of them. -/
def LocalWork.steal (lwork : LocalWork) (size : Int) :
    Option (LocalWork × Int × Int) :=
  let locEnd := lwork.crEnd - size
  if locEnd < lwork.crBeg then none
  else some ({ lwork with crEnd := locEnd }, locEnd, locEnd + size)

def GlobalWork.setLwork (gwork : GlobalWork w) (tid : Nat)
    (lwork : LocalWork) : GlobalWork w :=
  { gwork with lwork := Function.update gwork.lwork tid lwork }

/-- A reply: the task of `ident` is to run `[first, last)`, which is the
slice at a position of the distribution, or is cut from a local range. -/
structure Reply where
  ident : Nat
  slice : Option Nat
  first : Int
  last : Int

/-- What the splitter has changed: the work, and the requests left. -/
structure SplitState (w : Nat) where
  gwork : GlobalWork w
  lri : ListrequestIterator w
  replies : List Reply

/-- kaapic_global_getwork: the position and the slice of a thread, if it
has one. -/
def globalGetwork (workremain : Int) (wa : WorkDistribution w) (tid : Nat) :
    Option (Option (Nat × Int × Int)) :=
  if workremain = 0 then some none
  else
    (wa.tid2pos tid).bind fun pos =>
      if pos = noPos then some none
      else (wa.slice pos).map fun r => some (pos, r)

/-- The loop over a copy of the iterator: the positions of the requesters
that have one. `fuel` is the count of the requests. -/
def requestMask (wa : WorkDistribution w) :
    Nat → ListrequestIterator w → BitVec w → Option (BitVec w)
  | 0, _, mask => some mask
  | fuel + 1, lri, mask =>
    match lri.idcurr with
    | none => some mask
    | some ident =>
      (wa.tid2pos ident).bind fun pos =>
        requestMask wa fuel lri.next
          (if pos = noPos then mask else valueSet mask pos)

/-- The task of `ident` is committed on `[first, last)`. -/
def SplitState.reply (s : SplitState w) (ident : Nat) (slice : Option Nat)
    (first last : Int) : SplitState w :=
  { s with
    gwork := s.gwork.setLwork ident ((s.gwork.lwork ident).workinit first last)
    replies := s.replies ++ [⟨ident, slice, first, last⟩] }

/-- A thread receives its slice: one more worker, and its request leaves
the list. -/
def SplitState.replySlice (s : SplitState w) (tid pos : Nat)
    (first last : Int) : SplitState w :=
  let s' := s.reply tid (some pos) first last
  { s' with
    gwork := { s'.gwork with workerdone := s'.gwork.workerdone + 1 }
    lri := s'.lri.unsetAt tid }

/-- The loop over the bits of `replymask`, `fuel` of them. -/
def replyLoop : Nat → BitVec w → SplitState w → Option (SplitState w)
  | 0, _, s => some s
  | fuel + 1, replymask, s =>
    match valueFirst1AndZero replymask with
    | (0, _) => some s
    | (tid + 1, replymask) =>
      (globalGetwork s.gwork.workremain s.gwork.wa tid).bind fun r =>
        match r with
        -- no work to do, will be reply failed by the runtime
        | none => replyLoop fuel replymask s
        | some (pos, first, last) =>
          replyLoop fuel replymask (s.replySlice tid pos first last)

/-- The part of `_kaapic_split_task` before the label `skip_global`: the
state it reaches, and whether the local range is to be split next. -/
def sliceReplies (gwork : GlobalWork w) (lri : ListrequestIterator w) :
    Option (Bool × SplitState w) :=
  let s : SplitState w := ⟨gwork, lri, []⟩
  if gwork.workremain = 0 then some (false, s)
  -- no attached body: return (typically case of OpenMP)
  else if gwork.body = false then some (false, s)
  else
    (requestMask gwork.wa lri.count lri 0).bind fun mask =>
      if mask &&& gwork.wa.map = 0 then some (true, s)
      else
        -- Steal toplevel request: mark to 0 all entries of a request
        let (old, map) := Bitmap.and gwork.wa.map (~~~ mask)
        let replymask := old &&& mask
        (replyLoop (valueCount replymask) replymask
          { s with gwork := { gwork with wa := { gwork.wa with map := map } } }).map
          fun s => (!s.lri.isEmpty, s)

/-- The loop of the replies cut from the stolen range, `nreq` of them. -/
def splitLoop (unitSize : Int) : Nat → Int → SplitState w → SplitState w
  | 0, _, s => s
  | nreq + 1, last, s =>
    match s.lri.idcurr with
    | none => s
    | some ident =>
      let s' := s.reply ident none (last - unitSize) last
      splitLoop unitSize nreq (last - unitSize) { s' with lri := s'.lri.next }

/-- How many requests the local split serves, and with how many iterations
each; `none` when there is nothing to split. -/
def splitSize (lwork : LocalWork) (parGrain : Int) (count : Nat) :
    Option (Int × Int) :=
  let rangeSize := lwork.size
  -- because object lwork may exist without thread, test if initialized
  if lwork.init = false then none
  -- no enough work: stop stealing this task
  else if rangeSize ≤ parGrain then none
  else
    -- how much per non root req
    let nreq := (count : Int)
    let unitSize := rangeSize / (nreq + 1)
    if unitSize < parGrain then
      let nreq := rangeSize / parGrain - 1
      if nreq = 0 then none else some (nreq, parGrain)
    else some (nreq, unitSize)

/-- The part after the label `skip_global`, on the local work of the
victim `vid`. -/
def splitLocal (vid : Nat) (s : SplitState w) : SplitState w :=
  let lwork := s.gwork.lwork vid
  match splitSize lwork s.gwork.parGrain s.lri.count with
  | none => s
  | some (nreq, unitSize) =>
    match lwork.steal (nreq * unitSize) with
    | none => s
    | some (lwork, _, last) =>
      splitLoop unitSize nreq.toNat last
        { s with gwork := s.gwork.setLwork vid lwork }

/-- _kaapic_split_task on the local work of the victim `vid`. -/
def splitTask (vid : Nat) (gwork : GlobalWork w)
    (lri : ListrequestIterator w) : Option (SplitState w) :=
  (sliceReplies gwork lri).map fun p =>
    if p.1 then splitLocal vid p.2 else p.2

end XKaapi.Foreach
