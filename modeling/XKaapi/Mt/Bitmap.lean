/-
The bitmaps of kaapi_mt_bitmap.h, width by width: 32, 64, 128, 192 and
256 bits, each a handful of machine words and its own copy of some
twenty operations.

A function of the source stands here once, over the width, the way the
macros of the file pick a copy by its suffix: `valueSet` at `.w128` is
kaapi_bitmap_value_set_128. Where one copy does something the others do
not, its width has a branch of its own:

- kaapi_bitmap_set_32 returns 0, the others 1;
- kaapi_bitmap_set_low_bits_128 leaves word 1 as it is when `i < 64`;
- kaapi_bitmap_value_unset_192 writes word 1 where it means word 2;
- kaapi_bitmap_count_256 does not count word 3.

Bitmaps live in a store of variables. An operation on a
`kaapi_bitmap_t` runs alone here: what its atomic reads and writes would
see of other threads is the subject of the request lists.
-/
import XKaapi.Foreach.Bitmap
import XKaapi.Lib.WordArray

namespace XKaapi.Mt

-- ======== widths

inductive Width
  | w32 | w64 | w128 | w192 | w256
deriving DecidableEq, Repr

/-- The number of machine words. -/
def Width.words : Width → Nat
  | .w32 => 1
  | .w64 => 1
  | .w128 => 2
  | .w192 => 3
  | .w256 => 4

/-- The bits of one machine word. -/
def Width.bits : Width → Nat
  | .w32 => 32
  | _ => 64

/-- The number of indices. -/
def Width.size (W : Width) : Nat := W.words * W.bits

/-- `proc32`, `proc64`, `proc128[2]`, `proc192[3]`, `proc256[4]` -/
abbrev Words (W : Width) := Fin W.words → BitVec W.bits

/-- The word of index `i`: `if (i<64) .. else if (i<128) ..`. -/
def Width.word : (W : Width) → Nat → Fin W.words
  | .w32, _ => ⟨0, by decide⟩
  | .w64, _ => ⟨0, by decide⟩
  | .w128, i => if i < 64 then ⟨0, by decide⟩ else ⟨1, by decide⟩
  | .w192, i =>
    if i < 64 then ⟨0, by decide⟩
    else if i < 128 then ⟨1, by decide⟩
    else ⟨2, by decide⟩
  | .w256, i =>
    if i < 64 then ⟨0, by decide⟩
    else if i < 128 then ⟨1, by decide⟩
    else if i < 192 then ⟨2, by decide⟩
    else ⟨3, by decide⟩

/-- The shift inside that word: `i`, `i-64`, `i-128` or `i-192`. -/
def Width.shift (W : Width) (i : Nat) : Nat := i - W.word i * W.bits

/-- The word that kaapi_bitmap_value_unset writes. -/
def Width.unsetWord : (W : Width) → Nat → Fin W.words
  | .w192, i => if i < 64 then ⟨0, by decide⟩ else ⟨1, by decide⟩
  | W, i => W.word i

-- ======== operations

namespace Words

variable {W : Width}

/-- One word replaced. -/
def setWord (b : Words W) (k : Fin W.words) (x : BitVec W.bits) : Words W :=
  Function.update b k x

/-- kaapi_bitmap_value_clear -/
def valueClear : Words W := fun _ => 0

/-- kaapi_bitmap_clear -/
def clear : Words W := fun _ => 0

/-- kaapi_bitmap_value_full -/
def valueFull : Words W := fun _ => ~~~ 0

/-- kaapi_bitmap_value_empty -/
def valueEmpty (b : Words W) : Bool :=
  (List.finRange W.words).all fun k => b k == 0

/-- kaapi_bitmap_empty -/
def empty (b : Words W) : Bool :=
  (List.finRange W.words).all fun k => b k == 0

/-- kaapi_bitmap_init -/
def init (v : Words W) : Words W := fun k => v k

/-- kaapi_bitmap_value_copy -/
def valueCopy (b : Words W) : Words W := fun k => b k

/-- kaapi_bitmap_value_count: `__builtin_popcountl` of every word. -/
def valueCount (b : Words W) : Nat :=
  ((List.finRange W.words).map fun k => Bitmap.valueCount (b k)).sum

/-- kaapi_bitmap_count -/
def count : {W : Width} → Words W → Nat
  | .w256, b =>
    Bitmap.valueCount (b ⟨0, by decide⟩) + Bitmap.valueCount (b ⟨1, by decide⟩)
      + Bitmap.valueCount (b ⟨2, by decide⟩)
  | _, b => valueCount b

/-- kaapi_bitmap_value_set -/
def valueSet (b : Words W) (i : Nat) : Words W :=
  setWord b (W.word i) (Bitmap.valueSet (b (W.word i)) (W.shift i))

/-- kaapi_bitmap_value_get -/
def valueGet (b : Words W) (i : Nat) : Bool :=
  (b (W.word i)).getLsbD (W.shift i)

/-- kaapi_bitmap_value_unset -/
def valueUnset (b : Words W) (i : Nat) : Words W :=
  setWord b (W.unsetWord i) (Bitmap.clearBit (b (W.unsetWord i)) (W.shift i))

/-- kaapi_bitmap_set, with what it returns. -/
def set (b : Words W) (i : Nat) : Int × Words W :=
  (match W with | .w32 => 0 | _ => 1,
    setWord b (W.word i) (Bitmap.valueSet (b (W.word i)) (W.shift i)))

/-- kaapi_bitmap_get -/
def get (b : Words W) (i : Nat) : Bool := valueGet b i

/-- kaapi_bitmap_unset: 0 iff the bit was set. -/
def unset (b : Words W) (i : Nat) : Int × Words W :=
  let (was, x) := Bitmap.unset (b (W.word i)) (W.shift i)
  (if was then 0 else -1, setWord b (W.word i) x)

/-- kaapi_bitmap_swap0: the bitmap and the value after it. -/
def swap0 (b : Words W) : Words W × Words W :=
  (fun k => (Bitmap.and (b k) 0).2, fun k => (Bitmap.and (b k) 0).1)

/-- kaapi_bitmap_or0: the bitmap and the value after it. -/
def or0 (b v : Words W) : Words W × Words W :=
  (fun k => (Bitmap.and (b k) 0).2, fun k => v k ||| (Bitmap.and (b k) 0).1)

/-- kaapi_bitmap_and: the bitmap after it, and `fu`. -/
def and (b v : Words W) : Words W × Words W :=
  (fun k => (Bitmap.and (b k) (v k)).2, fun k => (Bitmap.and (b k) (v k)).1)

/-- kaapi_bitmap_value_neg -/
def valueNeg (bar : Words W) : Words W := fun k => ~~~ bar k

/-- kaapi_bitmap_value_or -/
def valueOr (fu bar : Words W) : Words W := fun k => fu k ||| bar k

/-- kaapi_bitmap_value_and -/
def valueAnd (fu bar : Words W) : Words W := fun k => fu k &&& bar k

/-- kaapi_bitmap_value_first1: `ffs` of the first word that is not 0,
shifted by the words before it. -/
def valueFirst1 (b : Words W) : Nat :=
  match WordArray.firstWord b with
  | none => 0
  | some k => k * W.bits + Bitmap.valueFirst1 (b k)

/-- kaapi_bitmap_first1 -/
def first1 (b : Words W) : Nat := valueFirst1 b

/-- kaapi_bitmap_value_first1_and_zero -/
def valueFirst1AndZero (b : Words W) : Nat × Words W :=
  match WordArray.firstWord b with
  | none => (0, b)
  | some k =>
    let (fb, x) := Bitmap.valueFirst1AndZero (b k)
    (k * W.bits + fb, setWord b k x)

/-- kaapi_bitmap_first1_and_zero: `ffs`, and kaapi_bitmap_unset_64 of the
bit found, which can fail only if another thread cleared it in between. -/
def first1AndZero (b : Words W) : Nat × Words W :=
  match WordArray.firstWord b with
  | none => (0, b)
  | some k =>
    let fb := Bitmap.valueFirst1 (b k)
    let (was, x) := Bitmap.unset (b k) (fb - 1)
    (if was then k * W.bits + fb else 0, setWord b k x)

/-- Word `k` of the bitmap `[0, i)`: full below the word where the
cascade on `i` stops, `(1 << s) - 1` in it and 0 above. -/
def lowWord (W : Width) (i : Nat) (k : Fin W.words) : BitVec W.bits :=
  if (k + 1) * W.bits ≤ i then ~~~ 0
  else if k * W.bits ≤ i then BitVec.ofNat W.bits (2 ^ (i - k * W.bits) - 1)
  else 0

/-- kaapi_bitmap_value_set_low_bits -/
def valueSetLowBits (i : Nat) : Words W := lowWord W i

/-- kaapi_bitmap_set_low_bits -/
def setLowBits : {W : Width} → Words W → Nat → Words W
  | .w128, b, i =>
    if i < 64 then setWord b ⟨0, by decide⟩ (lowWord .w128 i ⟨0, by decide⟩)
    else lowWord .w128 i
  | W, _, i => lowWord W i

end Words

-- ======== programs

/-- A call, its bitmaps named by variables. -/
inductive BitmapOp
  | clear (b : Nat)
  | empty (b : Nat)
  | init (b v : Nat)
  | valueClear (b : Nat)
  | valueFull (b : Nat)
  | valueEmpty (b : Nat)
  | valueCount (b : Nat)
  | valueSet (b i : Nat)
  | valueGet (b i : Nat)
  | valueUnset (b i : Nat)
  | valueCopy (retval b : Nat)
  | swap0 (b v : Nat)
  | or0 (b v : Nat)
  | and (fu b v : Nat)
  | valueNeg (fu bar : Nat)
  | valueOr (fu bar : Nat)
  | valueAnd (fu bar : Nat)
  | set (b i : Nat)
  | get (b i : Nat)
  | unset (b i : Nat)
  | count (b : Nat)
  | valueFirst1AndZero (b : Nat)
  | first1AndZero (b : Nat)
  | valueSetLowBits (b i : Nat)
  | setLowBits (b i : Nat)
  | valueFirst1 (b : Nat)
  | first1 (b : Nat)
deriving DecidableEq, Repr

/-- The indices for which the source defines the call, from its
assertions; kaapi_bitmap_set_low_bits excludes the full bitmap. -/
def BitmapOp.InRange (size : Nat) : BitmapOp → Prop
  | .valueSet _ i | .valueGet _ i | .valueUnset _ i
  | .set _ i | .get _ i | .unset _ i | .setLowBits _ i => i < size
  | .valueSetLowBits _ i => i ≤ size
  | _ => True

instance (size : Nat) : (op : BitmapOp) → Decidable (op.InRange size)
  | .valueSet _ i | .valueGet _ i | .valueUnset _ i
  | .set _ i | .get _ i | .unset _ i | .setLowBits _ i =>
    inferInstanceAs (Decidable (i < size))
  | .valueSetLowBits _ i => inferInstanceAs (Decidable (i ≤ size))
  | .clear _ | .empty _ | .init _ _ | .valueClear _ | .valueFull _
  | .valueEmpty _ | .valueCount _ | .valueCopy _ _ | .swap0 _ _ | .or0 _ _
  | .and _ _ _ | .valueNeg _ _ | .valueOr _ _ | .valueAnd _ _ | .count _
  | .valueFirst1AndZero _ | .first1AndZero _ | .valueFirst1 _ | .first1 _ =>
    inferInstanceAs (Decidable True)

/-- The store: a bitmap for each variable. -/
abbrev Store (W : Width) := Nat → Words W

open Function (update)

/-- The call on the store: what it returns, 0 for `void`, and the store
after it. -/
def BitmapOp.call {W : Width} (op : BitmapOp) (e : Store W) : Int × Store W :=
  match op with
  | .clear b => (0, update e b Words.clear)
  | .empty b => ((Words.empty (e b)).toInt, e)
  | .init b v => (0, update e b (Words.init (e v)))
  | .valueClear b => (0, update e b Words.valueClear)
  | .valueFull b => (0, update e b Words.valueFull)
  | .valueEmpty b => ((Words.valueEmpty (e b)).toInt, e)
  | .valueCount b => (Words.valueCount (e b), e)
  | .valueSet b i => (0, update e b (Words.valueSet (e b) i))
  | .valueGet b i => ((Words.valueGet (e b) i).toInt, e)
  | .valueUnset b i => (0, update e b (Words.valueUnset (e b) i))
  | .valueCopy retval b => (0, update e retval (Words.valueCopy (e b)))
  | .swap0 b v =>
    (0, update (update e b (Words.swap0 (e b)).1) v (Words.swap0 (e b)).2)
  | .or0 b v =>
    (0, update (update e b (Words.or0 (e b) (e v)).1) v
      (Words.or0 (e b) (e v)).2)
  | .and fu b v =>
    (0, update (update e b (Words.and (e b) (e v)).1) fu
      (Words.and (e b) (e v)).2)
  | .valueNeg fu bar => (0, update e fu (Words.valueNeg (e bar)))
  | .valueOr fu bar => (0, update e fu (Words.valueOr (e fu) (e bar)))
  | .valueAnd fu bar => (0, update e fu (Words.valueAnd (e fu) (e bar)))
  | .set b i => ((Words.set (e b) i).1, update e b (Words.set (e b) i).2)
  | .get b i => ((Words.get (e b) i).toInt, e)
  | .unset b i => ((Words.unset (e b) i).1, update e b (Words.unset (e b) i).2)
  | .count b => (Words.count (e b), e)
  | .valueFirst1AndZero b =>
    ((Words.valueFirst1AndZero (e b)).1,
      update e b (Words.valueFirst1AndZero (e b)).2)
  | .first1AndZero b =>
    ((Words.first1AndZero (e b)).1, update e b (Words.first1AndZero (e b)).2)
  | .valueSetLowBits b i => (0, update e b (Words.valueSetLowBits i))
  | .setLowBits b i => (0, update e b (Words.setLowBits (e b) i))
  | .valueFirst1 b => (Words.valueFirst1 (e b), e)
  | .first1 b => (Words.first1 (e b), e)

/-- The call where the source defines it. -/
def BitmapOp.exec {W : Width} (op : BitmapOp) (e : Store W) :
    Option (Int × Store W) :=
  if op.InRange W.size then some (op.call e) else none

end XKaapi.Mt
