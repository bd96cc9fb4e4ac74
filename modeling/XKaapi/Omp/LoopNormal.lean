/-
How an OpenMP loop becomes a kaapic loop (libgomp_loop_dynamic.c and
libgomp_loop_ull.c): its iterations are numbered from 0, the kaapic loop
hands out ranges of numbers, and each range is turned back into bounds
for the loop that the compiler has made.

An operation on `long` that overflows has no result; one on
`unsigned long long` is modulo 2^64. The increment of a loop that counts
down in unsigned numbers is given modulo 2^64.

`Exact l` says that the numbers are those of the iterations of the loop
`l` and that the ranges, however they are cut, execute each of them once.
`exact_iff_fits` says when this is so.
-/
import XKaapi.Lib.CountedLoop

namespace XKaapi.Omp

open CountedLoop

-- ======== arithmetic

/-- The integer types of the two versions. -/
inductive CType
  | long
  | ull
deriving DecidableEq, Repr

/-- The numbers of the type. -/
def CType.InRange : CType → Int → Prop
  | .long, x => -2 ^ 63 ≤ x ∧ x < 2 ^ 63
  | .ull, x => 0 ≤ x ∧ x < 2 ^ 64

instance (t : CType) (x : Int) : Decidable (t.InRange x) :=
  match t with
  | .long => inferInstanceAs (Decidable (_ ∧ _))
  | .ull => inferInstanceAs (Decidable (_ ∧ _))

/-- The result of an operation whose exact result is `x`. -/
def CType.norm : CType → Int → Option Int
  | .long, x => if CType.InRange .long x then some x else none
  | .ull, x => some (x % 2 ^ 64)

def CType.add (t : CType) (a b : Int) : Option Int := t.norm (a + b)
def CType.sub (t : CType) (a b : Int) : Option Int := t.norm (a - b)
def CType.mul (t : CType) (a b : Int) : Option Int := t.norm (a * b)

/-- Division, towards zero. -/
def CType.div (t : CType) (a b : Int) : Option Int :=
  if b = 0 then none else t.norm (a.tdiv b)

-- ======== the loop

/-- `long` -/
structure Long where
  val : Int
  inRange : CType.InRange .long val

/-- A loop, as its `start` function is called. -/
inductive Loop
  | long (start stop incr : Long)
  | ull (up : Bool) (start stop incr : BitVec 64)

namespace Loop

def type : Loop → CType
  | .long .. => .long
  | .ull .. => .ull

def start : Loop → Int
  | .long start _ _ => start.val
  | .ull _ start _ _ => start.toNat

def stop : Loop → Int
  | .long _ stop _ => stop.val
  | .ull _ _ stop _ => stop.toNat

/-- The increment that is passed. -/
def incr : Loop → Int
  | .long _ _ incr => incr.val
  | .ull _ _ _ incr => incr.toNat

/-- The increment that is meant. -/
def step : Loop → Int
  | .long _ _ incr => incr.val
  | .ull up _ _ incr => if up then incr.toNat else incr.toNat - 2 ^ 64

/-- The OpenMP loop ends, and its variable takes the values `l`. -/
def Values (l : Loop) (vals : List Int) : Prop :=
  Runs (goesOn l.step l.stop) (fun x => some (x + l.step)) l.start vals

-- ======== the normalisation

/-- The test at the beginning of GOMP_loop_dynamic_start and
GOMP_parallel_loop_dynamic_start. -/
def noIteration (start stop incr : Int) : Bool :=
  (0 < incr && stop ≤ start) || (incr < 0 && start ≤ stop)

/-- `ka_end` of komp_loop_dynamic_start_master. -/
def kaEnd (start stop incr : Int) : Option Int := do
  let d ← CType.long.sub stop start
  let d ← CType.long.add d incr
  let d ← CType.long.sub d 1
  CType.long.div d incr

/-- `ka_end` of komp_loop_dynamic_start_master_ull. -/
def kaEndUll (up : Bool) (start stop incr : Int) : Option Int :=
  if up then do
    let d ← CType.ull.sub stop start
    let d ← CType.ull.add d incr
    let d ← CType.ull.sub d 1
    CType.ull.div d incr
  else do
    let d ← CType.ull.sub start stop
    let d ← CType.ull.sub d incr
    let d ← CType.ull.sub d 1
    let k ← CType.ull.sub 0 incr
    CType.ull.div d k

/-- The number of iterations of the kaapic loop; none is made for a loop
that the test finds empty. The unsigned version has no such test: for an
empty range `kaapic_foreach_global_workinit_ull` answers the null pointer,
and `kaapic_global_work_pop_ull` reads through it. -/
def normalised : Loop → Option Int
  | .long start stop incr =>
    if noIteration start.val stop.val incr.val then some 0
    else kaEnd start.val stop.val incr.val
  | .ull up start stop incr => do
    let n ← kaEndUll up start.toNat stop.toNat incr.toNat
    if n = 0 then none else some n

/-- `*i = start + *i * incr`, in all the `start` and `next` functions. -/
def image (l : Loop) (i : Nat) : Option Int := do
  let m ← l.type.mul i l.incr
  l.type.add l.start m

/-- The loop that the compiler makes for the bounds `istart` and `iend`
ends, and its variable takes the values `vals`. -/
def Compiled (l : Loop) (istart iend : Int) (vals : List Int) : Prop :=
  Runs (goesOn l.step iend) (fun x => l.type.add x l.incr) istart vals

/-- The values that the range `c` of the kaapic loop executes. -/
def Executes (l : Loop) (c : Nat × Nat) (vals : List Int) : Prop :=
  ∃ istart iend, l.image c.1 = some istart ∧ l.image c.2 = some iend
    ∧ l.Compiled istart iend vals

-- ======== the statement

/-- The ranges that the kaapic loop of `n` iterations hands out to all
threads, in any order. -/
def IsCut (n : Nat) (cs : List (Nat × Nat)) : Prop :=
  (∀ c ∈ cs, c.1 < c.2)
    ∧ (cs.flatMap fun c => List.range' c.1 (c.2 - c.1)).Perm (List.range n)

/-- The normalised iterations are those of the loop, in order, and
however they are handed out, each value of the loop variable is executed
once, and no other. -/
def Exact (l : Loop) : Prop :=
  ∃ n : Nat, ∃ vals, l.Values vals ∧ l.normalised = some (n : Int)
    ∧ (List.range n).mapM l.image = some vals
    ∧ ∀ cs, IsCut n cs →
      ∃ vss, List.Forall₂ l.Executes cs vss ∧ vss.flatten.Perm vals

/-- The number of iterations of the loop. -/
def count (l : Loop) : Nat := trips l.step l.start l.stop

/-- The normalisation neither overflows nor counts iterations that are
not there, the bound past the last iteration is a number of the type, and
an unsigned loop has an iteration. -/
def Fits : Loop → Prop
  | .long start stop incr =>
    (0 < incr.val → start.val < stop.val →
      stop.val - start.val + incr.val < 2 ^ 63)
    ∧ (incr.val < 0 → stop.val < start.val →
      start.val - stop.val - incr.val + 1 ≤ 2 ^ 63
        ∧ (start.val - stop.val - 1) % (-incr.val) + 2 < -incr.val)
    ∧ CType.InRange .long
        (start.val + trips incr.val start.val stop.val * incr.val)
  | .ull up start stop incr =>
    let s : Int := if up then incr.toNat else 2 ^ 64 - incr.toNat
    let d : Int := if up then stop.toNat - start.toNat
      else start.toNat - stop.toNat
    0 < d ∧ d + s - 1 < 2 ^ 64
    ∧ CType.InRange .ull
        (Loop.start (.ull up start stop incr)
          + count (.ull up start stop incr) * step (.ull up start stop incr))

end Loop

end XKaapi.Omp
