/-
Loops with a block-cyclic data distribution (kaapic_impl.h and
kaapic_foreach_attr.c).

A thread takes a range of kernel indices and passes ranges of user
indices to the body: `_kaapi_kernel2user` maps the ones to the others,
and the pop cuts the range where a block ends. The arithmetic is that of
`unsigned long`, stored in an `int` now and then; a division by zero or an
overflow of an `int` is `none`.

`Distributes` is what the loop needs of them: a permutation of the
iterations, popped ranges that are images of ranges, and so a body that
sees every iteration once. `Cyclic` is when they provide it.
-/
import XKaapi.Foreach.Run
import XKaapi.Lib.Transpose

namespace XKaapi.Foreach

open Transpose

-- ======== the code

/-- _kaapic_foreach_attr_datadist_t. -/
inductive Datadist
  | void
  | bloccyclic (size length : Nat)
deriving DecidableEq, Repr

/-- kaapic_foreach_attr_set_bloccyclic_datadistribution; none for EINVAL. -/
def setBloccyclicDatadistribution (blocsize cyclelength : Nat) :
    Option Datadist :=
  if blocsize = 0 ∨ cyclelength = 0 then none
  else some (.bloccyclic blocsize cyclelength)

/-- The value of a `long` in an operation of `unsigned long`. -/
def toUlong (x : Int) : Nat := (x % 2 ^ 64).toNat

/-- The sum of two `int`. -/
def addInt (a b : Int) : Option Int :=
  if -2 ^ 31 ≤ a + b ∧ a + b < 2 ^ 31 then some (a + b) else none

/-- _kaapi_kernel2user -/
def kernel2user (indice : Int) (B L N : Nat) : Option Int :=
  let i := toUlong indice
  if N / L = 0 ∨ B = 0 then none
  else
    let idThread := toInt32 ((i / (N / L) * B : Nat) : Int)
    let indiceLocal := toInt32
      (((i - i / (N / L) * (N / L)) / B * L * B : Nat) : Int)
    let offset := toInt32 ((i % B : Nat) : Int)
    (addInt idThread indiceLocal).bind fun sum => addInt sum offset

/-- kaapic_local_workqueue_t, its `li` part. -/
structure LocalWorkqueue where
  liBeg : Int
  liEnd : Int
deriving DecidableEq, Repr

/-- kaapic_local_workqueue_pop_withdatadistribution: the queue after it,
and the range popped, or none for EBUSY. -/
def popWithdatadistribution (dist : Datadist) (itercount : Nat)
    (kwq : LocalWorkqueue) (sgrain : Int) :
    Option (LocalWorkqueue × Option (Int × Int)) :=
  match dist with
  | .void =>
    some (⟨0, 0⟩, if kwq.liEnd ≤ kwq.liBeg then none
      else some (kwq.liBeg, kwq.liEnd))
  | .bloccyclic size length =>
    if kwq.liBeg < kwq.liEnd then
      if size = 0 then none
      else
        let limit := toInt32
          ((toUlong kwq.liBeg / size * size + size : Nat) : Int)
        let limit := if kwq.liEnd < limit then toInt32 kwq.liEnd else limit
        let stop := if kwq.liBeg + sgrain < limit then kwq.liBeg + sgrain
          else limit
        (kernel2user kwq.liBeg size length itercount).bind fun beg =>
          (kernel2user (stop - 1) size length itercount).map fun last =>
            (⟨stop, kwq.liEnd⟩,
              if last + 1 ≤ beg then none else some (beg, last + 1))
    else some (kwq, none)

/-- The iterations of a range. -/
def iterations (beg last : Int) : List Int :=
  (List.range (last - beg).toNat).map fun (j : Nat) => beg + (j : Int)

/-- What the body sees of a queue: pops until it is empty, each of which
`kaapi_assert` wants to succeed. -/
def drain (dist : Datadist) (itercount : Nat) (sgrain : Int) :
    Nat → LocalWorkqueue → Option (List Int)
  | 0, _ => none
  | fuel + 1, kwq =>
    if kwq.liEnd ≤ kwq.liBeg then some []
    else
      (popWithdatadistribution dist itercount kwq sgrain).bind fun (kwq, r) =>
        r.bind fun (beg, last) =>
          (drain dist itercount sgrain fuel kwq).map (iterations beg last ++ ·)

-- ======== what a distribution is

/-- The user index of a kernel index. -/
def userOf (dist : Datadist) (itercount i : Nat) : Option Int :=
  match dist with
  | .void => some i
  | .bloccyclic size length => kernel2user i size length itercount

/-- The kernel range of a queue. -/
def queueOf (r : Nat × Nat) : LocalWorkqueue := ⟨r.1, r.2⟩

/-- The user indices are the iterations, each once; what is popped is the
image of a range of kernel indices of its length; so the body sees every
iteration once, however the range was cut into queues. -/
structure Distributes (dist : Datadist) (N : Nat) : Prop where
  bij : ∃ f : Nat → Nat, (∀ i < N, userOf dist N i = some (f i : Int))
    ∧ Set.BijOn f (Set.Iio N) (Set.Iio N)
  pop : ∀ (b e : Nat) (sgrain : Int), b < e → e ≤ N → 1 ≤ sgrain →
    e + sgrain ≤ longMax →
    ∃ n u : Nat, 0 < n ∧ b + n ≤ e ∧ n ≤ sgrain
      ∧ popWithdatadistribution dist N (queueOf (b, e)) sgrain
        = some (queueOf (b + n, e), some ((u : Int), ((u + n : Nat) : Int)))
      ∧ ∀ j < n, userOf dist N (b + j) = some ((u + j : Nat) : Int)
  seen : ∀ (queues : List (Nat × Nat)) (sgrain : Int), 1 ≤ sgrain →
    N + sgrain ≤ longMax →
    (queues.flatMap fun r => List.range' r.1 (r.2 - r.1)).Perm (List.range N) →
    ∃ seen, queues.mapM
        (fun r => drain dist N sgrain (r.2 - r.1 + 1) (queueOf r)) = some seen
      ∧ seen.flatten.Perm ((List.range N).map Int.ofNat)

/-- The end of the block of a kernel index, and the `int` it is kept in. -/
def blockEnd (B b : Nat) : Nat := b / B * B + B

/-- Every thread has whole blocks and all have the same number of them, or
one thread has all, or each has one; and the `int` that holds the end of a
block, cut at the end of the loop, is that end. -/
def Cyclic (B L N : Nat) : Prop :=
  N = 0 ∨ L ≤ N ∧ N ≤ 2 ^ 31 ∧ (L = 1 ∨ N / L = B ∨ B * L ∣ N)
    ∧ ∀ b < N, min (toInt32 (blockEnd B b)) N = min (blockEnd B b : Int) N

instance (B L N : Nat) : Decidable (Cyclic B L N) :=
  inferInstanceAs (Decidable (_ ∨ _ ∧ _ ∧ (_ ∨ _ ∨ _) ∧ _))

end XKaapi.Foreach
