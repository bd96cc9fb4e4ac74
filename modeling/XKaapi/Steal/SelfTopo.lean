/-
The hierarchy of memories as a kprocessor sees it
(kaapi_processor_computetopo in kaapi_hw_selftopo.c): for each level the
kprocessors that share its memory, and those of the next level that do not.

The arrays are sized from counts, before they are filled. A cpu without
kprocessor is written too (as -1) and overwritten by the next one; after
the last kprocessor of an array that is full there is no room for it.

An access outside an array has no result.
-/
import Mathlib.Data.List.Chain
import XKaapi.Lib.Compact
import XKaapi.Steal.SuspendedQueue

namespace XKaapi.Steal

open InPlace
open Suspended (Cpuset)

-- ======== cpusets

/-- `kaapi_cpuset_notand` -/
def notand (dest mask : Cpuset) : Cpuset where
  bits64 i := dest.bits64 i ^^^ mask.bits64 i

/-- The cpus of a set, in increasing order. -/
def cpus (s : Cpuset) : List Nat := (List.range 256).filter s.has

/-- `kaapi_affinityset_t`, as `kaapi_hwcpuset2affinity` makes it. -/
structure AffinitySet where
  who : Cpuset
  ncpu : Nat
  ncpu_eq : ncpu = (cpus who).length

-- ======== kids

/-- The loop of `kaapi_cpuset2kids` over the cpus that are left: the array
and the number of kids. An entry `none` is -1. -/
def kidsLoop (cpu2kid : Nat → Option Nat) (cpuset : Cpuset) :
    List Nat → Nat → List (Option Nat) → Nat → Option (List (Option Nat) × Nat)
  | [], _, kids, j => some (kids, j)
  | _ :: _, 0, kids, j => some (kids, j)
  | i :: rest, nproc + 1, kids, j =>
    if cpuset.has i then
      if j < kids.length then
        kidsLoop cpu2kid cpuset rest nproc (kids.set j (cpu2kid i))
          (if (cpu2kid i).isSome then j + 1 else j)
      else none
    else kidsLoop cpu2kid cpuset rest (nproc + 1) kids j

/-- `kaapi_cpuset2kids`, in an array of `size` entries that `calloc` has set
to 0. -/
def cpuset2kids (cpu2kid : Nat → Option Nat) (cpuset : Cpuset)
    (size nproc : Nat) : Option (List (Option Nat) × Nat) :=
  kidsLoop cpu2kid cpuset (List.range 256) nproc
    (List.replicate size (some 0)) 0

-- ======== the levels

/-- `kaapi_onelevel_t` while it is made. -/
structure HLevel where
  set : AffinitySet
  nsize : Nat
  nkids : Nat
  kids : List (Option Nat)
  nnotself : Nat
  notself : List (Option Nat)

/-- The first `nkids` entries of `kids`. -/
def HLevel.kidsList (l : HLevel) : List (Option Nat) := l.kids.take l.nkids

def HLevel.notselfList (l : HLevel) : List (Option Nat) :=
  l.notself.take l.nnotself

/-- A set holds the cpus of another one. -/
def Included (s s' : AffinitySet) : Prop :=
  ∀ c < 256, s.who.has c = true → s'.who.has c = true

instance (s s' : AffinitySet) : Decidable (Included s s') :=
  decidable_of_iff
    (∀ c ∈ List.range 256, s.who.has c = true → s'.who.has c = true)
    (by simp only [List.mem_range, Included])

/-- The sets of `memory` that hold the cpu, from the first level up. -/
def setsOf (cpuid : Nat) (memory : List (List AffinitySet)) :
    List AffinitySet :=
  memory.flatMap fun level => level.filter fun s => s.who.has cpuid

/-- What `kaapi_processor_computetopo` finds: the map from cpus to kids, the
memories of each level, and the cpu that the kprocessor runs on. The
sets are made of the cpus that are used, at most `cpucount`. -/
structure Topology where
  cpu2kid : Nat → Option Nat
  memory : List (List AffinitySet)
  cpuid : Nat
  cpucount : Nat
  injective : ∀ c c' k, cpu2kid c = some k → cpu2kid c' = some k → c = c'
  depth_lt : memory.length < 8
  one : ∀ level ∈ memory, (level.filter fun s => s.who.has cpuid).length ≤ 1
  included : (setsOf cpuid memory).IsChain Included
  ncpu_le : ∀ s ∈ setsOf cpuid memory, s.ncpu ≤ cpucount

/-- `hlevel.levels[hlevel.depth]` for the set `s`. -/
def newLevel (cpu2kid : Nat → Option Nat) (s : AffinitySet) : Option HLevel :=
  (cpuset2kids cpu2kid s.who s.ncpu s.ncpu).map fun r =>
    { set := s
      nsize := s.ncpu
      nkids := r.2
      kids := r.1
      nnotself := 0
      notself := [] }

/-- The first loop: a level for each set; there is room for 8. -/
def newLevels (cpu2kid : Nat → Option Nat) :
    List AffinitySet → Nat → Option (List HLevel)
  | [], _ => some []
  | s :: rest, depth =>
    if depth < 8 then
      (newLevel cpu2kid s).bind fun l =>
        (newLevels cpu2kid rest (depth + 1)).map fun ls => l :: ls
    else none

/-- The second loop, for one level and the next one. A negative difference
is a size that `calloc` refuses. -/
def setNotself (cpu2kid : Nat → Option Nat) (cpucount : Nat)
    (l next : HLevel) : Option HLevel :=
  if next.nkids < l.nkids then none
  else if next.nkids = l.nkids then some { l with nnotself := 0 }
  else
    (cpuset2kids cpu2kid (notand next.set.who l.set.who)
      (next.nkids - l.nkids) cpucount).map fun r =>
        { l with
          nnotself := r.2
          notself := r.1 }

def setNotselfs (cpu2kid : Nat → Option Nat) (cpucount : Nat) :
    List HLevel → Option (List HLevel)
  | [] => some []
  | [l] => some [l]
  | l :: next :: rest =>
    (setNotself cpu2kid cpucount l next).bind fun l' =>
      (setNotselfs cpu2kid cpucount (next :: rest)).map fun ls => l' :: ls

/-- A level that the compaction keeps: with others, or the last one. -/
def keeps (depth i : Nat) (l : HLevel) : Bool :=
  l.nnotself != 0 || i == depth - 1

/-- The arrays of a level that is removed are freed. -/
def freed (l : HLevel) : HLevel :=
  { l with
    kids := []
    notself := [] }

/-- The last loop: `hlevel.levels` and `hlevel.depth` in the end. -/
def compactLevels (ls : List HLevel) : List HLevel :=
  let r := compact (keeps ls.length) freed ls.length 0 0 ls
  r.1.take r.2

/-- `kaapi_processor_computetopo` -/
def computetopo (t : Topology) : Option (List HLevel) :=
  (newLevels t.cpu2kid (setsOf t.cpuid t.memory) 0).bind fun ls =>
    (setNotselfs t.cpu2kid t.cpucount ls).map compactLevels

-- ======== the statement

/-- The kprocessor `k` is mapped to a cpu of the set. -/
def Mapped (cpu2kid : Nat → Option Nat) (s : AffinitySet) (k : Nat) : Prop :=
  ∃ c < 256, s.who.has c = true ∧ cpu2kid c = some k

/-- The entries are the kprocessors that satisfy `P`, each one once. -/
def Lists (entries : List (Option Nat)) (P : Nat → Prop) : Prop :=
  entries.Nodup ∧ ∀ e, e ∈ entries ↔ ∃ k, e = some k ∧ P k

def HoldsKids (cpu2kid : Nat → Option Nat) (l : HLevel) : Prop :=
  Lists l.kidsList (Mapped cpu2kid l.set)

def HoldsOthers (cpu2kid : Nat → Option Nat) (l next : HLevel) : Prop :=
  Lists l.notselfList fun k =>
    Mapped cpu2kid next.set k ∧ ¬ Mapped cpu2kid l.set k

/-- The levels that are produced. -/
structure GoodTopo (t : Topology) (ls : List HLevel) : Prop where
  sets : ∀ l ∈ ls, l.set ∈ setsOf t.cpuid t.memory
  kids : ∀ l ∈ ls, HoldsKids t.cpu2kid l
  notself : ls.IsChain (HoldsOthers t.cpu2kid)
  union : ∀ k, (∃ l ∈ ls, some k ∈ l.kidsList)
    ↔ ∃ s ∈ setsOf t.cpuid t.memory, Mapped t.cpu2kid s k

/-- The cpus of a set that are not in the one below. -/
def others (s s' : AffinitySet) : List Nat :=
  (List.range 256).filter fun c => s'.who.has c && !s.who.has c

/-- The last cpu that a level has more than the one below carries a
kprocessor, if any of them does. -/
def LastMapped (cpu2kid : Nat → Option Nat) (s s' : AffinitySet) : Prop :=
  (∃ c ∈ others s s', (cpu2kid c).isSome = true) →
    ∀ c, (others s s').getLast? = some c → (cpu2kid c).isSome = true

def Topology.Fits (t : Topology) : Prop :=
  (setsOf t.cpuid t.memory).IsChain (LastMapped t.cpu2kid)

end XKaapi.Steal
