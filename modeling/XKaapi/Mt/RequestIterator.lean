/-
The iterator over posted requests (kaapi_mt_machine.h, the version with
a snapshot), at every width of bitmap.

`kaapi_listrequest_iterator_init` takes the posted requests out of the
list and keeps them in its own bitmap; the current one is held apart, in
`idcurr`, -1 (here `none`) if there is none. Requests keep being posted
to the list while an iterator runs.

What it is for is a `Drain`: the indices it owes, one of them current,
each delivered once unless it is unset. `Follows` compares a run of the
code with the one of the `Drain`, call by call.
-/
import XKaapi.Lib.Drain
import XKaapi.Lib.Run
import XKaapi.Mt.BitmapSets

namespace XKaapi.Mt

open WordArray (indices least)

-- ======== iterator

/-- kaapi_listrequest_iterator_t; `idcurr` is the index of a bit. -/
structure ListrequestIterator (W : Width) where
  bitmap : Words W
  idcurr : Option Nat
  lt : ∀ i, idcurr = some i → i < W.size

/-- `first1_and_zero(..) - 1`, -1 being `none`. -/
def idOfFirst1 : Nat → Option Nat
  | 0 => none
  | fb + 1 => some fb

theorem idOfFirst1_least (S : Finset Nat) : idOfFirst1 (least S) = S.first := by
  unfold least Finset.first
  split
  next => rfl
  next => rfl

namespace ListrequestIterator

variable {W : Width}

/-- `idcurr = first1_and_zero(&bitmap) - 1` -/
def first (b : Words W) : ListrequestIterator W where
  bitmap := (Words.valueFirst1AndZero b).2
  idcurr := idOfFirst1 (Words.valueFirst1AndZero b).1
  lt i h := by
    rw [(valueFirst1AndZero_eq b).1, idOfFirst1_least] at h
    exact WordArray.lt_of_mem_indices (Finset.mem_of_first h)

/-- kaapi_listrequest_iterator_empty -/
def empty (lri : ListrequestIterator W) : Bool :=
  Words.valueEmpty lri.bitmap && lri.idcurr == none

/-- kaapi_listrequest_iterator_unset_at -/
def unsetAt (lri : ListrequestIterator W) (pos : Nat) : ListrequestIterator W :=
  let b := Words.valueUnset lri.bitmap pos
  if lri.idcurr = some pos then first b else { lri with bitmap := b }

/-- kaapi_listrequest_iterator_count -/
def count (lri : ListrequestIterator W) : Nat :=
  Words.valueCount lri.bitmap + if lri.idcurr = none then 0 else 1

/-- kaapi_listrequest_iterator_bitmap; `retval` is what the local variable
of this name holds, which the function never clears. -/
def bitmapOf (retval : Words W) (lri : ListrequestIterator W) : Words W :=
  Words.valueOr (Words.valueSet retval (lri.idcurr.getD 0)) lri.bitmap

/-- kaapi_listrequest_iterator_get: the request `idcurr`. -/
def get (lri : ListrequestIterator W) : Option Nat := lri.idcurr

/-- kaapi_listrequest_iterator_getkid_andnext; it returns request `kid`. -/
def getkidAndnext (lri : ListrequestIterator W) (kid : Nat) :
    ListrequestIterator W :=
  if lri.idcurr = some kid then first lri.bitmap
  else { lri with bitmap := Words.valueUnset lri.bitmap kid }

/-- kaapi_listrequest_iterator_next; it returns the request `idcurr`. -/
def next (lri : ListrequestIterator W) : ListrequestIterator W :=
  first lri.bitmap

/-- kaapi_listrequest_iterator_prepare -/
def prepare : ListrequestIterator W where
  bitmap := Words.valueClear
  idcurr := none
  lt _ h := by cases h

/-- kaapi_listrequest_iterator_init: the list of requests after it, and
the iterator. -/
def init (lrequests : Words W) : Words W × ListrequestIterator W :=
  let (b, v) := Words.swap0 lrequests
  (b, first v)

/-- kaapi_listrequest_iterator_update -/
def update (lrequests : Words W) (lri : ListrequestIterator W) (mask : Words W) :
    Words W × ListrequestIterator W :=
  let negMask := Words.valueNeg mask
  let (b, origBitmap) := Words.and lrequests negMask
  let origBitmap := Words.valueAnd origBitmap mask
  let bitmap := Words.valueOr lri.bitmap origBitmap
  -- check if empty before nexting
  (b, if lri.idcurr = none ∧ ¬ Words.valueEmpty bitmap then first bitmap
    else { lri with bitmap := bitmap })

/-- kaapi_listrequest_iterator_clear: the internal bitmap only. -/
def clear (lri : ListrequestIterator W) : ListrequestIterator W :=
  { lri with bitmap := Words.valueClear }

/-- The indices the iterator holds. -/
def held (lri : ListrequestIterator W) : Finset Nat :=
  lri.idcurr.toFinset ∪ indices lri.bitmap

end ListrequestIterator

-- ======== runs

/-- A call of the thread that owns the iterator, or a request posted by
another one. -/
inductive IteratorCall (W : Width)
  | post (i : Nat)
  | init
  | prepare
  | next
  | get
  | unsetAt (pos : Nat)
  | getkidAndnext (kid : Nat)
  | update (mask : Words W)
  | count
  | empty
  | bitmap (retval : Words W)
  | clear

/-- What a call returns: nothing, a request (or null), a number, a bitmap. -/
inductive Answer
  | void
  | request (kid : Option Nat)
  | int (n : Nat)
  | bitmap (S : Finset Nat)
deriving DecidableEq

/-- The list of requests, and the iterator. -/
structure Listrequest (W : Width) where
  lrequests : Words W
  lri : ListrequestIterator W

/-- One call; none where the index is out of the range that the
assertions of the bitmap allow. -/
def Listrequest.step {W : Width} (s : Listrequest W) :
    IteratorCall W → Option (Answer × Listrequest W)
  | .post i =>
    if i < W.size then
      some (.void, { s with lrequests := (Words.set s.lrequests i).2 })
    else none
  | .init =>
    let (b, lri) := ListrequestIterator.init s.lrequests
    some (.void, ⟨b, lri⟩)
  | .prepare => some (.void, { s with lri := .prepare })
  | .next => some (.request s.lri.next.idcurr, { s with lri := s.lri.next })
  | .get => some (.request s.lri.get, s)
  | .unsetAt pos =>
    if pos < W.size then some (.void, { s with lri := s.lri.unsetAt pos })
    else none
  | .getkidAndnext kid =>
    if kid < W.size then
      some (.request (some kid), { s with lri := s.lri.getkidAndnext kid })
    else none
  | .update mask =>
    let (b, lri) := s.lri.update s.lrequests mask
    some (.void, ⟨b, lri⟩)
  | .count => some (.int s.lri.count, s)
  | .empty => some (.int s.lri.empty.toNat, s)
  | .bitmap retval => some (.bitmap (indices (s.lri.bitmapOf retval)), s)
  | .clear => some (.void, { s with lri := s.lri.clear })

/-- The purpose: what is posted, and what the iterator owes. -/
structure Iteration where
  posted : Finset Nat
  drain : Drain Nat

/-- One call on an iteration. `init` and `prepare` start a new one. -/
def Iteration.step {W : Width} (d : Iteration) :
    IteratorCall W → Answer × Iteration
  | .post i => (.void, { d with posted := insert i d.posted })
  | .init => (.void, ⟨∅, .start d.posted⟩)
  | .prepare => (.void, { d with drain := .start ∅ })
  | .next =>
    let drain := d.drain.take true d.drain.curr.toFinset
    (.request drain.curr, { d with drain := drain })
  | .get => (.request d.drain.curr, d)
  | .unsetAt pos => (.void, { d with drain := d.drain.take false {pos} })
  | .getkidAndnext kid =>
    (.request (if kid ∈ d.drain.owed then some kid else none),
      { d with drain := d.drain.take true {kid} })
  | .update mask =>
    (.void, ⟨d.posted \ indices mask, d.drain.add (d.posted ∩ indices mask)⟩)
  | .count => (.int d.drain.owed.card, d)
  | .empty => (.int (decide (d.drain.owed = ∅)).toNat, d)
  | .bitmap _ => (.bitmap d.drain.owed, d)
  | .clear =>
    (.void, { d with
      drain := d.drain.take false (d.drain.owed \ d.drain.curr.toFinset) })

/-- The iterator shows the iteration: it holds what is owed, its count is
the number of these, it is empty exactly when the count is 0, and its
current request is the current one. -/
structure Shows {W : Width} (s : Listrequest W) (d : Iteration) : Prop where
  posted : indices s.lrequests = d.posted
  held : s.lri.held = d.drain.owed
  count : s.lri.count = d.drain.owed.card
  empty : s.lri.empty = true ↔ s.lri.count = 0
  get : s.lri.get = d.drain.curr

/-- Every call returns what the iteration says, and leaves an iterator
that shows it. -/
def Follows {W : Width} : List (IteratorCall W) → Listrequest W → Iteration → Prop
  | [], _, _ => True
  | call :: calls, s, d =>
    ∀ answer s', s.step call = some (answer, s') →
      answer = (d.step call).1 ∧ Shows s' (d.step call).2
        ∧ Follows calls s' (d.step call).2

/-- The condition on a call, in the state before it. -/
def IteratorCall.Meets {W : Width} : IteratorCall W → Listrequest W → Prop
  | .unsetAt pos, s => W = .w192 → 128 ≤ pos →
      pos ∉ indices s.lri.bitmap ∧ pos - 64 ∉ indices s.lri.bitmap
  | .getkidAndnext kid, s => kid ∈ s.lri.held
      ∧ (W = .w192 → 128 ≤ kid → s.lri.idcurr = some kid)
  | .update mask, s =>
    ∀ i, s.lri.idcurr = some i → i ∉ indices s.lrequests ∩ indices mask
  | .bitmap retval, s =>
    s.lri.idcurr ≠ none ∧ indices retval ⊆ s.lri.held
  | _, _ => True

/-- The state after a call, for the rules about runs. -/
def Listrequest.after {W : Width} (call : IteratorCall W) (s : Listrequest W) :
    Option (Listrequest W) :=
  (s.step call).map Prod.snd

end XKaapi.Mt
