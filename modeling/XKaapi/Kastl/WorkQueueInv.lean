/-
The invariant of the loops' work queue and its step lemmas.

# The invariant

`InvAt B E s` reads a state through two ghost bounds, as for the queue of
the runtime (Workqueue/Safety.lean): `[B, E)` is what is still in the queue
of the range last set. `_beg` is `B`, or `B + size` in the optimistic half
of a pop. `_end` is `E`, or `E - size` in a thief's first attempt, or
`E - 1` in its second one. A pop moves `B` when its read of `_end`
succeeds; a steal moves `E` when it reads `r.first`, and from its own
successful test on knows that `B` has not passed `_end`.

The second attempt reads `_beg` before `_end`, so its value of `_beg` may be
old. That is harmless: a value below `_end` puts `B` below it, and a pop
that moves `B` afterwards has itself read the lowered `_end`.

A range set with `first > last` holds nothing, and `B` and `E` stay where it
put them: no steal succeeds on it.
-/
import XKaapi.Lib.Tiles
import XKaapi.Kastl.WorkQueue

namespace XKaapi.Kastl.WorkQueue

open StepMachine

-- ======== condition

/-- No sum leaves the words, sizes are not negative, a steal is for at
least one element, as it asserts, and the queue popped from was set to a
range that is not inverted. -/
def Meets (a : Act) (s : St) : Prop :=
  match a with
  | .popItem => s.first ≤ s.last
  | .pop size => 0 ≤ size ∧ s.first ≤ s.last
  | .steal _ size => 1 ≤ size
  | .owner =>
    match s.owner with
    | .popWrite w b => b + w.size ≤ indexMax
    | _ => True
  | .thief t =>
    match s.thief t with
    | .lowerWrite size e => indexMin ≤ e - size
    | _ => True
  | .set _ _ | .clear => True

instance (a : Act) (s : St) : Decidable (Meets a s) :=
  match a with
  | .popItem => inferInstanceAs (Decidable (_ ≤ _))
  | .pop _ => inferInstanceAs (Decidable (_ ∧ _))
  | .steal _ _ => inferInstanceAs (Decidable (_ ≤ _))
  | .set _ _ | .clear => isTrue trivial
  | .owner => by
      unfold Meets
      dsimp only
      split <;> infer_instance
  | .thief t => by
      unfold Meets
      dsimp only
      split <;> infer_instance

-- ======== lock

/-- The lock word is set while somebody is in its critical section, and
there is one at most. -/
structure Mutex (lock : Int) (crit : Option Nat → Prop) : Prop where
  held : ∀ p, crit p → lock ≠ 0
  unique : ∀ p q, crit p → crit q → p = q

namespace Mutex

variable {lock : Int} {crit crit' : Option Nat → Prop} {p : Option Nat}

/-- Only who is in the critical section counts. -/
theorem congr (h : Mutex lock crit) (heq : ∀ q, crit' q ↔ crit q) :
    Mutex lock crit' where
  held q hq := h.held q ((heq q).mp hq)
  unique q r hq hr := h.unique q r ((heq q).mp hq) ((heq r).mp hr)

/-- With the lock free, nobody is in the critical section. -/
theorem free (h : Mutex lock crit) (hz : lock = 0) (q : Option Nat) : ¬ crit q :=
  fun hq => h.held q hq hz

/-- The one that takes the lock is the only one in the section. -/
theorem acquire (heq : ∀ q, crit' q → q = p) : Mutex 1 crit' where
  held _ _ := by decide
  unique q r hq hr := (heq q hq).trans (heq r hr).symm

/-- The one that frees the lock leaves the section empty. -/
theorem release (h : Mutex lock crit) (hp : crit p)
    (heq : ∀ q, crit' q → crit q ∧ q ≠ p) : Mutex 0 crit' where
  held q hq := absurd (h.unique q p (heq q hq).1 hp) (heq q hq).2
  unique q _ hq _ := absurd (h.unique q p (heq q hq).1 hp) (heq q hq).2

end Mutex

-- ======== invariant

/-- What holds of a pop from its call to its decision. -/
structure Fits (B : Int) (w : Pop) : Prop where
  nonneg : 0 ≤ w.size
  le_max : w.size ≤ indexMax
  item : ∀ i, w = .item i → i = B

/-- What the owner's position says of `_beg`, of `_end` while it clears, and
of its locals. -/
def OwnerInv (B E beg fin : Int) : OwnerPc → Prop
  | .itemRead | .idle | .slowUnlock _ _ | .slowLast _ _ | .slowFail
  | .clearLock | .clearEnd | .unlock => beg = B
  | .popLast size => beg = B ∧ IsIndex (beg - size)
  | .clearBeg => beg = B ∧ fin = 0
  | .setLock first last | .setMin first last | .setBeg first last =>
    beg = B ∧ IsIndex first ∧ IsIndex last
  | .setEnd first last => beg = first ∧ IsIndex first ∧ IsIndex last
  | .popRead w => beg = B ∧ Fits B w
  | .popWrite w b => beg = B ∧ b = B ∧ Fits B w
  | .popTestBeg w | .abortRead w =>
    beg = B + w.size ∧ Fits B w ∧ beg ≤ indexMax
  | .popTestEnd w b | .abortWrite w b =>
    beg = B + w.size ∧ b = beg ∧ Fits B w ∧ beg ≤ indexMax
  | .slowLock w | .slowFirst w => beg = B ∧ Fits B w ∧ B + w.size ≤ indexMax
  | .slowTestBeg w first => beg = B ∧ first = B ∧ Fits B w ∧ B + w.size ≤ indexMax
  | .slowTestEnd w first b =>
    beg = B ∧ first = B ∧ b = B + w.size ∧ Fits B w ∧ B + w.size ≤ indexMax
  | .slowSizeEnd w first => beg = B ∧ first = B ∧ Fits B w ∧ E < B + w.size
  | .slowSizeBeg w first e =>
    beg = B ∧ first = B ∧ e = E ∧ Fits B w ∧ E < B + w.size
  | .slowRead w sizeMax first =>
    beg = B ∧ first = B ∧ 0 ≤ sizeMax ∧ B + sizeMax ≤ E
      ∧ ∀ i, w = .item i → sizeMax = 1
  | .slowWrite w sizeMax first b =>
    beg = B ∧ first = B ∧ b = B ∧ 0 ≤ sizeMax ∧ B + sizeMax ≤ E
      ∧ ∀ i, w = .item i → sizeMax = 1

/-- What a thief's position says of `_end` and its locals. -/
def ThiefInv (B E fin : Int) : ThiefPc → Prop
  | .out | .unlocking => True
  | .locking size | .lowerRead size => 1 ≤ size
  | .lowerWrite size e => e = E ∧ 1 ≤ size
  | .testEnd size | .retryRead size => fin = E - size ∧ 1 ≤ size
  | .testBeg size e | .retryWrite size e => fin = E - size ∧ e = fin ∧ 1 ≤ size
  | .takeFirst size => fin = E - size ∧ 1 ≤ size ∧ B ≤ fin
  | .retestBeg _ | .restoreRead => fin = E - 1
  | .retestEnd _ b => fin = E - 1 ∧ (b < fin → B ≤ fin)
  | .oneFirst _ => fin = E - 1 ∧ B ≤ fin
  | .restoreWrite e => fin = E - 1 ∧ e = fin

/-- The owner has begun to write what it sets. -/
def OwnerPc.writing : OwnerPc → Bool
  | .setBeg _ _ | .setEnd _ _ | .clearBeg => true
  | _ => false

/-- The range taken and not yet returned. -/
def OwnerPc.taken (beg : Int) : OwnerPc → List (Int × Int)
  | .popLast size => [(beg - size, beg)]
  | .slowUnlock w first | .slowLast w first => [w.result first beg]
  | _ => []

/-- The state, read through the ghost bounds `B` and `E` (module doc). -/
structure InvAt (B E : Int) (s : St) : Prop where
  mutex : Mutex s.lock s.crit
  begIndex : IsIndex B
  endIndex : IsIndex E
  finIndex : IsIndex s.fin
  le : s.first ≤ s.last → B ≤ E
  inverted : s.last < s.first →
    (B = s.first ∧ s.pops = []) ∧ E = s.last ∧ s.steals = []
  popping : s.owner.popping = true → s.first ≤ s.last
  pops : Cuts s.first B (s.pops ++ s.owner.taken s.beg)
  steals : Cuts E s.last (s.steals.map Prod.snd)
  sized : ∀ x ∈ s.steals, x.2.2 - x.2.1 = x.1 ∨ x.2.2 - x.2.1 = 1
  owner : OwnerInv B E s.beg s.fin s.owner
  thief : ∀ t, ThiefInv B E s.fin (s.thief t)
  fin : (∀ t, (s.thief t).lowered = false) → s.owner.writing = false → s.fin = E

/-- The protocol's invariant. -/
def Inv (s : St) : Prop := ∃ B E, InvAt B E s

variable {first fin E B b : Int} {pc : ThiefPc} {w : Pop} {s' s : St} {t : Nat}

/-- A queue that was just initialised is in order. -/
theorem inv_init {last : Int} (hf : IsIndex first) (hl : IsIndex last) :
    Inv (queueInit first last) := by
  refine ⟨first, last, ⟨?_, ?_⟩, hf, hl, hl, fun h => h,
    fun _ => ⟨⟨rfl, rfl⟩, rfl, rfl⟩, ?_,
    Cuts.nil _, Cuts.nil _, ?_, rfl, fun _ => trivial, fun _ _ => rfl⟩
  · intro p hp
    cases p <;> cases hp
  · intro p q hp
    cases p <;> cases hp
  · intro h
    cases h
  · intro x hx
    cases hx

-- ======== reading the invariant

/-- A thief lowers the end in the critical section only. -/
theorem ThiefPc.crit_of_lowered (h : pc.lowered = true) : pc.crit = true := by
  cases pc <;> first | rfl | cases h

/-- The owner writes the end in the critical section only. -/
theorem OwnerPc.crit_of_writing {pc : OwnerPc} (h : pc.writing = true) :
    pc.crit = true := by
  cases pc <;> first | rfl | cases h

/-- A thief outside of the section knows nothing of the indices. -/
theorem ThiefInv.of_not_crit {B' E' fin' : Int} (hc : ¬ pc.crit = true)
    (h : ThiefInv B E fin pc) : ThiefInv B' E' fin' pc := by
  cases pc with
  | out | locking size => exact h
  | _ => exact absurd rfl hc

/-- What a thief in the section knows survives a pop. -/
theorem ThiefInv.mono {B' : Int} (hB : B' ≤ fin) (h : ThiefInv B E fin pc) :
    ThiefInv B' E fin pc := by
  cases pc with
  | takeFirst size => exact ⟨h.1, h.2.1, hB⟩
  | retestEnd size b => exact ⟨h.1, fun _ => hB⟩
  | oneFirst size => exact ⟨h.1, hB⟩
  | _ => exact h

/-- Outside of the section the owner does not depend on the end. -/
theorem OwnerInv.of_not_crit {E' beg fin' : Int} {pc : OwnerPc} (hc : ¬ pc.crit = true)
    (h : OwnerInv B E beg fin pc) : OwnerInv B E' beg fin' pc := by
  cases pc <;> first | exact h | exact absurd rfl hc

namespace InvAt

variable {B E : Int} {s : St} {t : Nat}

/-- Outside of the section the beginning is not below what was taken. -/
theorem le_beg (h : InvAt B E s) (ho : ¬ s.owner.crit = true) : B ≤ s.beg := by
  have hi := h.owner
  cases hpc : s.owner with
  | popTestBeg w | popTestEnd w b | abortRead w | abortWrite w b =>
    rw [hpc] at hi
    have hw : Fits B w := by
      first | exact hi.2.1 | exact hi.2.2.1
    have := hw.nonneg
    have hbeg := hi.1
    omega
  | setBeg _ _ | setEnd _ _ => exact absurd (by rw [hpc]; rfl) ho
  | _ =>
    rw [hpc] at hi
    first
      | exact (show s.beg = B from hi).ge
      | exact hi.1.ge

/-- The end is above what is left only while the owner writes it. -/
theorem fin_le (h : InvAt B E s) (ho : s.owner.writing = false) : s.fin ≤ E := by
  by_cases hlow : ∀ t, (s.thief t).lowered = false
  · exact (h.fin hlow ho).le
  · push Not at hlow
    obtain ⟨t, ht⟩ := hlow
    have hti := h.thief t
    cases hpc : s.thief t <;> rw [hpc] at hti ht
      <;> simp only [ThiefInv, ThiefPc.lowered] at hti ht
      <;> first | omega | exact absurd rfl ht

/-- While the owner is in the section, no thief is. -/
theorem thiefInv_owner (h : InvAt B E s) (ho : s.owner.crit = true) (t : Nat)
    (B' E' fin' : Int) : ThiefInv B' E' fin' (s.thief t) := by
  refine ThiefInv.of_not_crit (fun ht => ?_) (h.thief t)
  have := h.mutex.unique none (some t) ho ht
  cases this

/-- In the section, before it writes, the owner sees the true end. -/
theorem fin_of_owner_crit (h : InvAt B E s) (ho : s.owner.crit = true)
    (hw : s.owner.writing = false) : s.fin = E := by
  refine h.fin (fun t => ?_) hw
  by_contra hlow
  have hc : s.crit (some t) := ThiefPc.crit_of_lowered (by simpa using hlow)
  have := h.mutex.unique none (some t) ho hc
  cases this

section

variable (h : InvAt B E s) (ht : (s.thief t).crit = true)
include h ht

/-- While a thief is in the section, no other one is. -/
theorem thiefInv_other {u : Nat} (hne : u ≠ t) (B' E' fin' : Int) :
    ThiefInv B' E' fin' (s.thief u) := by
  refine ThiefInv.of_not_crit (fun hu => hne ?_) (h.thief u)
  exact Option.some.inj (h.mutex.unique (some u) (some t) hu ht)

/-- While a thief is in the section, the owner is not. -/
theorem owner_not_crit : ¬ s.owner.crit = true := by
  intro ho
  have := h.mutex.unique none (some t) ho ht
  cases this

/-- While a thief is in the section, the owner writes no end. -/
theorem owner_not_writing : s.owner.writing = false := by
  by_contra hw
  exact h.owner_not_crit ht (OwnerPc.crit_of_writing (by simpa using hw))

/-- A thief that has not lowered the end sees the true one. -/
theorem fin_of_thief_crit (hlow : (s.thief t).lowered = false) : s.fin = E := by
  refine h.fin (fun u => ?_) (h.owner_not_writing ht)
  by_contra hu
  have hc : (s.thief u).crit = true := ThiefPc.crit_of_lowered (by simpa using hu)
  have hut := Option.some.inj (h.mutex.unique (some u) (some t) hc ht)
  rw [hut, hlow] at hu
  exact hu rfl

end

end InvAt

-- ======== owner moves

section OwnerMoves

variable {B E : Int} {s : St} {old pc : OwnerPc} {beg : Int}

/-- The owner moves, and stays on its side of the lock. -/
theorem mutex_owner {pops : List (Int × Int)} (h : Mutex s.lock s.crit)
    (hpc : s.owner = old) (hcrit : pc.crit = old.crit) :
    Mutex s.lock (St.crit { s with
      beg := beg
      owner := pc
      pops := pops }) := by
  refine h.congr fun p => ?_
  cases p with
  | none => simp only [St.crit, hcrit, hpc]
  | some t => exact Iff.rfl

section

variable (h : InvAt B E s) (hpc : s.owner = old)
include h hpc

/-- A move of the owner that keeps the ranges keeps the invariant. -/
theorem InvAt.ownerMove {B' lock : Int} {pops : List (Int × Int)}
    (hm : Mutex lock (St.crit { s with
      beg := beg
      lock := lock
      owner := pc
      pops := pops })) (hw : pc.writing = old.writing)
    (hp : pc.popping = true → s.first ≤ s.last) (hindex : IsIndex B')
    (hle : s.first ≤ s.last → B' ≤ E) (hinv : s.last < s.first → B' = s.first ∧ pops = [])
    (hpops : Cuts s.first B' (pops ++ pc.taken beg)) (ho : OwnerInv B' E beg s.fin pc)
    (hth : ∀ t, ThiefInv B' E s.fin (s.thief t)) :
    InvAt B' E { s with
      beg := beg
      lock := lock
      owner := pc
      pops := pops } where
  mutex := hm
  begIndex := hindex
  endIndex := h.endIndex
  finIndex := h.finIndex
  le := hle
  inverted hlt := ⟨hinv hlt, (h.inverted hlt).2⟩
  popping := hp
  pops := hpops
  steals := h.steals
  sized := h.sized
  owner := ho
  thief := hth
  fin hlow hwr := h.fin hlow (by rw [hpc, ← hw]; exact hwr)

/-- A read or a write of the owner without the lock. -/
theorem InvAt.ownerTo (hcrit : pc.crit = old.crit) (hw : pc.writing = old.writing)
    (hp : pc.popping = true → old.popping = true) (ht : pc.taken beg = old.taken s.beg)
    (ho : OwnerInv B E beg s.fin pc) :
    InvAt B E { s with
      beg := beg
      owner := pc } := by
  have hpops := h.pops
  rw [hpc, ← ht] at hpops
  exact h.ownerMove hpc (mutex_owner h.mutex hpc hcrit) hw
    (fun hpp => h.popping (hpc ▸ hp hpp)) h.begIndex h.le
    (fun hlt => (h.inverted hlt).1) hpops ho h.thief

/-- The owner takes the lock. -/
theorem InvAt.ownerAcquire (hz : s.lock = 0) (hw : pc.writing = old.writing)
    (hp : pc.popping = true → old.popping = true) (ht : pc.taken s.beg = old.taken s.beg)
    (ho : OwnerInv B E s.beg s.fin pc) :
    InvAt B E { s with
      lock := 1
      owner := pc } := by
  have hpops := h.pops
  rw [hpc, ← ht] at hpops
  refine h.ownerMove hpc (.acquire (p := none) fun q hq => ?_) hw
    (fun hpp => h.popping (hpc ▸ hp hpp)) h.begIndex h.le
    (fun hlt => (h.inverted hlt).1) hpops ho h.thief
  cases q with
  | none => rfl
  | some t => exact absurd hq (h.mutex.free hz (some t))

/-- The owner frees the lock. -/
theorem InvAt.ownerRelease (hold : old.crit = true) (hnew : pc.crit = false)
    (hw : pc.writing = old.writing) (hp : pc.popping = true → old.popping = true)
    (ht : pc.taken s.beg = old.taken s.beg) (ho : OwnerInv B E s.beg s.fin pc) :
    InvAt B E { s with
      lock := 0
      owner := pc } := by
  have hpops := h.pops
  rw [hpc, ← ht] at hpops
  refine h.ownerMove hpc (h.mutex.release (p := none) ?_ fun q hq => ?_) hw
    (fun hpp => h.popping (hpc ▸ hp hpp)) h.begIndex h.le
    (fun hlt => (h.inverted hlt).1) hpops ho h.thief
  · rw [St.crit, hpc]
    exact hold
  · cases q with
    | none =>
      rw [St.crit, hnew] at hq
      cases hq
    | some t => exact ⟨hq, Option.some_ne_none t⟩

/-- The owner writes the end, with the lock. -/
theorem InvAt.ownerWriteEnd {fin : Int} (hold : old.crit = true) (hcrit : pc.crit = true)
    (hindex : IsIndex fin) (hw : pc.writing = true) (hp : pc.popping = false)
    (ht : pc.taken s.beg = old.taken s.beg) (ho : OwnerInv B E s.beg fin pc) :
    InvAt B E { s with
      fin := fin
      owner := pc } where
  mutex := mutex_owner (s := { s with fin := fin }) h.mutex hpc
    (hcrit.trans hold.symm)
  begIndex := h.begIndex
  endIndex := h.endIndex
  finIndex := hindex
  le := h.le
  inverted := h.inverted
  popping hpp := by
    rw [hp] at hpp
    cases hpp
  pops := by
    have hpops := h.pops
    rw [hpc, ← ht] at hpops
    exact hpops
  steals := h.steals
  sized := h.sized
  owner := ho
  thief t := h.thiefInv_owner (hpc ▸ hold) t B E fin
  fin _ hwr := by
    rw [hw] at hwr
    cases hwr

/-- The last write of `set` or `clear`: the queue is the range given, and
nothing of it has been returned. -/
theorem InvAt.reset {first last : Int} (hold : old.crit = true) (hf : IsIndex first)
    (hl : IsIndex last) :
    InvAt first last { s with
      beg := first
      fin := last
      owner := .unlock
      first := first
      last := last
      pops := []
      steals := [] } where
  mutex := by
    refine h.mutex.congr fun p => ?_
    cases p with
    | none =>
      rw [St.crit, St.crit, hpc, hold]
      rfl
    | some t => exact Iff.rfl
  begIndex := hf
  endIndex := hl
  finIndex := hl
  le hle := hle
  inverted _ := ⟨⟨rfl, rfl⟩, rfl, rfl⟩
  popping hpp := by cases hpp
  pops := Cuts.nil first
  steals := Cuts.nil last
  sized x hx := by cases hx
  owner := rfl
  thief t := h.thiefInv_owner (hpc ▸ hold) t first last last
  fin _ _ := rfl

end

end OwnerMoves

-- ======== owner steps

/-- The beginning after a pop does not wrap. -/
theorem Fits.toIndex_add (hw : Fits B w) (hB : IsIndex B) (hmax : B + w.size ≤ indexMax) :
    toIndex (B + w.size) = B + w.size := by
  have := hw.nonneg
  exact toIndex_of_isIndex ⟨by have := hB.1; omega, hmax⟩

/-- The test of the end in a pop without the lock: the range is taken or the
pop goes on with the lock. -/
theorem fastStep_inv (h : InvAt B E s) (hpc : s.owner = .popTestEnd w b)
    (hstep : ownerStep s = some s') : Inv s' := by
  have ho := h.owner
  have hp := h.pops
  have horder := h.popping (by rw [hpc]; rfl)
  rw [hpc] at ho hp
  obtain ⟨hbeg, hb, hw, hmax⟩ := ho
  have hn := hw.nonneg
  have hE := h.fin_le (by rw [hpc]; rfl)
  simp only [ownerStep, hpc] at hstep
  split at hstep
  · cases hstep
    exact ⟨B, E, h.ownerTo hpc rfl rfl (fun _ => rfl) rfl ⟨hbeg, hw, hmax⟩⟩
  · -- no conflict: the ghost bound moves up to the stored `_beg`
    next hle =>
    have hfin : s.beg ≤ s.fin := by omega
    simp only [OwnerPc.taken, List.append_nil] at hp
    have hcuts : Cuts s.first s.beg (s.pops ++ [(B, s.beg)]) := hp.snoc (by omega)
    have hindex : IsIndex s.beg := ⟨by have := h.begIndex.1; omega, hmax⟩
    have hth : ∀ t, ThiefInv s.beg E s.fin (s.thief t) :=
      fun t => (h.thief t).mono hfin
    split at hstep
    next i =>
      cases hstep
      have hi : (i, i + 1) = (B, s.beg) := by rw [hbeg, hw.item i rfl]; rfl
      refine ⟨s.beg, E, h.ownerMove hpc (mutex_owner h.mutex hpc rfl) rfl
        nofun hindex (fun _ => by omega) (fun hlt => by omega)
        ?_ rfl hth⟩
      simp only [OwnerPc.taken, List.append_nil, hi]
      exact hcuts
    next size =>
      cases hstep
      have hfirst : s.beg - size = B := by
        simp only [Pop.size] at hbeg
        omega
      refine ⟨s.beg, E, h.ownerMove hpc (mutex_owner h.mutex hpc rfl) rfl
        (fun _ => horder) hindex (fun _ => by omega) (fun hlt => by omega)
        ?_ ⟨rfl, ?_⟩ hth⟩
      · simp only [OwnerPc.taken, hfirst]
        exact hcuts
      · rw [hfirst]
        exact h.begIndex

/-- The same test with the lock. -/
theorem slowTestEnd_inv (h : InvAt B E s) (hpc : s.owner = .slowTestEnd w first b)
    (hstep : ownerStep s = some s') : Inv s' := by
  have ho := h.owner
  rw [hpc] at ho
  obtain ⟨hbeg, hfirst, hb, hw, hmax⟩ := ho
  have hE : s.fin = E := h.fin_of_owner_crit (by rw [hpc]; rfl) (by rw [hpc]; rfl)
  simp only [ownerStep, hpc] at hstep
  split at hstep
  · cases hstep
    exact ⟨B, E, h.ownerTo hpc rfl rfl (fun _ => rfl) rfl
      ⟨hbeg, hfirst, hw, by omega⟩⟩
  · cases hstep
    refine ⟨B, E, h.ownerTo hpc rfl rfl (fun _ => rfl) rfl
      ⟨hbeg, hfirst, hw.nonneg, by omega, fun i hi => ?_⟩⟩
    rw [hi]
    rfl

/-- The rest of the queue, taken where it is less than what was asked for:
none for a pop of one element. -/
theorem slowSizeBeg_inv {e : Int} (h : InvAt B E s)
    (hpc : s.owner = .slowSizeBeg w first e) (hstep : ownerStep s = some s') :
    Inv s' := by
  have ho := h.owner
  have horder := h.le (h.popping (by rw [hpc]; rfl))
  rw [hpc] at ho
  obtain ⟨hbeg, hfirst, he, hw, hlt⟩ := ho
  have hsize : toIndex (e - s.beg) = E - B := by
    have := hw.le_max
    rw [he, hbeg]
    refine toIndex_of_isIndex ⟨?_, ?_⟩
    · simp only [indexMin]
      omega
    · omega
  simp only [ownerStep, hpc, hsize] at hstep
  split at hstep
  · cases hstep
    exact ⟨B, E, h.ownerTo hpc rfl rfl (fun _ => rfl) rfl hbeg⟩
  · next hne =>
    cases hstep
    refine ⟨B, E, h.ownerTo hpc rfl rfl (fun _ => rfl) rfl
      ⟨hbeg, hfirst, by omega, by omega, fun i hi => ?_⟩⟩
    have : w.size = 1 := by rw [hi]; rfl
    omega

/-- The pop with the lock takes what is left, or the size it wants. -/
theorem slowWrite_inv {sizeMax : Int} (h : InvAt B E s)
    (hpc : s.owner = .slowWrite w sizeMax first b) (hstep : ownerStep s = some s') :
    Inv s' := by
  have ho := h.owner
  have hp := h.pops
  have horder := h.popping (by rw [hpc]; rfl)
  have hB := h.begIndex
  have hE := h.endIndex
  rw [hpc] at ho hp
  obtain ⟨hbeg, hfirst, hb, hn, hle, hitem⟩ := ho
  have hindex : IsIndex (B + sizeMax) :=
    ⟨by have := hB.1; omega, by have := hE.2; omega⟩
  have hsum : toIndex (b + sizeMax) = B + sizeMax := by
    rw [hb]
    exact toIndex_of_isIndex hindex
  simp only [OwnerPc.taken, List.append_nil] at hp
  simp only [ownerStep, hpc, hsum, Option.some.injEq] at hstep
  subst hstep
  refine ⟨B + sizeMax, E, h.ownerMove hpc (mutex_owner h.mutex hpc rfl) rfl
    (fun _ => horder) hindex (fun _ => hle) (fun hlt => by omega) ?_ rfl
    fun t => h.thiefInv_owner (by rw [hpc]; rfl) t _ _ _⟩
  have hres : w.result first (B + sizeMax) = (B, B + sizeMax) := by
    cases w with
    | item i =>
      rw [hfirst, hitem i rfl]
      rfl
    | range size =>
      rw [hfirst]
      rfl
  simp only [OwnerPc.taken, hres]
  exact hp.snoc (by omega)

/-- The pop waits for the lock. -/
theorem lockPop_inv {old pc : OwnerPc} (h : InvAt B E s) (hpc : s.owner = old)
    (hstep : (if s.lock = 0 then some { s with lock := 1, owner := pc } else some s)
      = some s') (hw : pc.writing = old.writing)
    (hp : pc.popping = true → old.popping = true) (ht : pc.taken s.beg = old.taken s.beg)
    (ho : OwnerInv B E s.beg s.fin pc) : Inv s' := by
  split at hstep
  · next hz =>
    cases hstep
    exact ⟨B, E, h.ownerAcquire hpc hz hw hp ht ho⟩
  · cases hstep
    exact ⟨B, E, h⟩

/-- Every step of the owner keeps the invariant. -/
theorem ownerStep_inv (hmeets : Meets .owner s) (h : Inv s)
    (hstep : ownerStep s = some s') : Inv s' := by
  obtain ⟨B, E, h⟩ := h
  have ho := h.owner
  have hrun := hstep
  unfold ownerStep at hrun
  generalize hpc : s.owner = pc at ho hrun
  cases pc with
  | idle => cases hrun
  | popTestEnd w b => exact fastStep_inv h hpc hstep
  | slowTestEnd w first b => exact slowTestEnd_inv h hpc hstep
  | slowSizeBeg w first e => exact slowSizeBeg_inv h hpc hstep
  | slowWrite w sizeMax first b => exact slowWrite_inv h hpc hstep
  | itemRead =>
    cases hrun
    refine ⟨B, E, h.ownerTo hpc rfl rfl (fun _ => rfl) rfl
      ⟨ho, ?_, ?_, fun i hi => ?_⟩⟩
    · exact Int.zero_le_ofNat 1
    · show (1 : Int) ≤ indexMax
      decide
    · cases hi
      exact ho
  | popRead w =>
    cases hrun
    exact ⟨B, E, h.ownerTo hpc rfl rfl (fun _ => rfl) rfl ⟨ho.1, ho.1, ho.2⟩⟩
  | popWrite w b =>
    obtain ⟨-, hb, hw⟩ := ho
    have hmax : B + w.size ≤ indexMax := by
      simpa only [Meets, hpc, hb] using hmeets
    simp only [hb, hw.toIndex_add h.begIndex hmax] at hrun
    cases hrun
    exact ⟨B, E, h.ownerTo hpc rfl rfl (fun _ => rfl) rfl ⟨rfl, hw, hmax⟩⟩
  | popTestBeg w =>
    cases hrun
    exact ⟨B, E, h.ownerTo hpc rfl rfl (fun _ => rfl) rfl
      ⟨ho.1, rfl, ho.2.1, ho.2.2⟩⟩
  | popLast size =>
    obtain ⟨hbeg, hindex⟩ := ho
    have hp := h.pops
    have horder := h.popping (by rw [hpc]; rfl)
    simp only [hpc, OwnerPc.taken] at hp
    have hfirst : toIndex (s.beg - size) = s.beg - size :=
      toIndex_of_isIndex hindex
    simp only [hfirst] at hrun
    cases hrun
    refine ⟨B, E, h.ownerMove hpc (mutex_owner h.mutex hpc rfl) rfl
      nofun h.begIndex h.le (fun hlt => by omega)
      ?_ hbeg h.thief⟩
    simpa only [OwnerPc.taken, List.append_nil] using hp
  | abortRead w =>
    cases hrun
    exact ⟨B, E, h.ownerTo hpc rfl rfl (fun _ => rfl) rfl
      ⟨ho.1, rfl, ho.2.1, ho.2.2⟩⟩
  | abortWrite w b =>
    obtain ⟨hbeg, hb, hw, hmax⟩ := ho
    have hback : toIndex (b - w.size) = B := by
      rw [hb, hbeg, Int.add_sub_cancel]
      exact toIndex_of_isIndex h.begIndex
    simp only [hback] at hrun
    cases hrun
    exact ⟨B, E, h.ownerTo hpc rfl rfl (fun _ => rfl) rfl ⟨rfl, hw, hbeg ▸ hmax⟩⟩
  | slowLock w =>
    exact lockPop_inv h hpc hrun rfl (fun _ => rfl) rfl ho
  | slowFirst w =>
    cases hrun
    exact ⟨B, E, h.ownerTo hpc rfl rfl (fun _ => rfl) rfl ⟨ho.1, ho.1, ho.2⟩⟩
  | slowTestBeg w first =>
    obtain ⟨hbeg, hfirst, hw, hmax⟩ := ho
    have hsum : toIndex (s.beg + w.size) = B + w.size := by
      rw [hbeg]
      exact hw.toIndex_add h.begIndex hmax
    simp only [hsum] at hrun
    cases hrun
    exact ⟨B, E, h.ownerTo hpc rfl rfl (fun _ => rfl) rfl
      ⟨hbeg, hfirst, rfl, hw, hmax⟩⟩
  | slowSizeEnd w first =>
    obtain ⟨hbeg, hfirst, hw, hlt⟩ := ho
    have hE : s.fin = E := h.fin_of_owner_crit (by rw [hpc]; rfl) (by rw [hpc]; rfl)
    cases hrun
    exact ⟨B, E, h.ownerTo hpc rfl rfl (fun _ => rfl) rfl
      ⟨hbeg, hfirst, hE, hw, hlt⟩⟩
  | slowRead w sizeMax first =>
    cases hrun
    exact ⟨B, E, h.ownerTo hpc rfl rfl (fun _ => rfl) rfl
      ⟨ho.1, ho.2.1, ho.1, ho.2.2⟩⟩
  | slowUnlock w first =>
    cases hrun
    exact ⟨B, E, h.ownerRelease hpc rfl rfl rfl (fun _ => rfl) rfl ho⟩
  | slowLast w first =>
    have hp := h.pops
    have horder := h.popping (by rw [hpc]; rfl)
    simp only [hpc, OwnerPc.taken] at hp
    cases hrun
    refine ⟨B, E, h.ownerMove hpc (mutex_owner h.mutex hpc rfl) rfl
      nofun h.begIndex h.le (fun hlt => by omega)
      ?_ ho h.thief⟩
    simpa only [OwnerPc.taken, List.append_nil] using hp
  | slowFail | unlock =>
    cases hrun
    exact ⟨B, E, h.ownerRelease hpc rfl rfl rfl nofun rfl ho⟩
  | setLock first last =>
    exact lockPop_inv h hpc hrun rfl nofun rfl ho
  | setMin first last =>
    cases hrun
    exact ⟨B, E, h.ownerWriteEnd hpc rfl rfl (by decide) rfl rfl rfl ho⟩
  | setBeg first last =>
    cases hrun
    exact ⟨B, E, h.ownerTo hpc rfl rfl nofun rfl ⟨rfl, ho.2⟩⟩
  | setEnd first last =>
    obtain ⟨hbeg, hf, hl⟩ := ho
    simp only [hbeg] at hrun
    cases hrun
    exact ⟨first, last, h.reset hpc rfl hf hl⟩
  | clearLock =>
    exact lockPop_inv h hpc hrun rfl nofun rfl ho
  | clearEnd =>
    cases hrun
    exact ⟨B, E, h.ownerWriteEnd hpc rfl rfl (by decide) rfl rfl rfl ⟨ho, rfl⟩⟩
  | clearBeg =>
    have hfin : s.fin = 0 := ho.2
    simp only [hfin] at hrun
    cases hrun
    exact ⟨0, 0, h.reset hpc rfl (by decide) (by decide)⟩

-- ======== thief moves

section ThiefMoves

variable {B E : Int} {s : St} {t : Nat} {old pc : ThiefPc}

/-- A thief moves, and stays on its side of the lock. -/
theorem mutex_thief (h : Mutex s.lock s.crit) (hpc : s.thief t = old)
    (hcrit : pc.crit = old.crit) : Mutex s.lock (s.setThief t pc).crit := by
  refine h.congr fun p => ?_
  rw [St.crit_setThief]
  by_cases hp : p = some t
  · subst hp
    simp [St.crit, hcrit, hpc]
  · simp [hp]

/-- A move of a thief that keeps the ranges keeps the invariant. -/
theorem InvAt.thiefTo {lock : Int} (h : InvAt B E s) (hpc : s.thief t = old)
    (hm : Mutex lock ({ s with lock := lock }.setThief t pc).crit)
    (hlow : pc.lowered = old.lowered) (hti : ThiefInv B E s.fin pc) :
    InvAt B E ({ s with lock := lock }.setThief t pc) where
  mutex := hm
  begIndex := h.begIndex
  endIndex := h.endIndex
  finIndex := h.finIndex
  le := h.le
  inverted := h.inverted
  popping := h.popping
  pops := h.pops
  steals := h.steals
  sized := h.sized
  owner := h.owner
  thief u := by
    by_cases hu : u = t
    · subst hu
      rw [St.setThief_self]
      exact hti
    · rw [St.setThief_ne _ _ _ hu]
      exact h.thief u
  fin hno hw := by
    refine h.fin (fun u => ?_) hw
    have := hno u
    by_cases hu : u = t
    · subst hu
      rw [St.setThief_self, hlow] at this
      rw [hpc]
      exact this
    · rwa [St.setThief_ne _ _ _ hu] at this

/-- A read of a thief keeps the invariant. -/
theorem InvAt.thiefRead (h : InvAt B E s) (hpc : s.thief t = old)
    (hcrit : pc.crit = old.crit) (hlow : pc.lowered = old.lowered)
    (hti : ThiefInv B E s.fin pc) : InvAt B E (s.setThief t pc) :=
  h.thiefTo hpc (mutex_thief h.mutex hpc hcrit) hlow hti

/-- A thief writes the end, with the lock. -/
theorem InvAt.thiefWrite {E' fin : Int} {steals : List (Int × (Int × Int))}
    (h : InvAt B E s) (hpc : s.thief t = old) (hold : old.crit = true)
    (hcrit : pc.crit = true) (hindex : IsIndex E') (hfin : IsIndex fin)
    (hle : s.first ≤ s.last → B ≤ E')
    (hinv : s.last < s.first → E' = E ∧ steals = s.steals)
    (hsteals : Cuts E' s.last (steals.map Prod.snd))
    (hsized : ∀ x ∈ steals, x.2.2 - x.2.1 = x.1 ∨ x.2.2 - x.2.1 = 1)
    (hti : ThiefInv B E' fin pc) (hend : pc.lowered = false → fin = E') :
    InvAt B E' ({ s with
      fin := fin
      steals := steals }.setThief t pc) where
  mutex := mutex_thief (s := { s with
    fin := fin
    steals := steals }) h.mutex hpc (hcrit.trans hold.symm)
  begIndex := h.begIndex
  endIndex := hindex
  finIndex := hfin
  le := hle
  inverted hlt := by
    obtain ⟨hfirst, hlast, hnil⟩ := h.inverted hlt
    exact ⟨hfirst, (hinv hlt).1.trans hlast, (hinv hlt).2.trans hnil⟩
  popping := h.popping
  pops := h.pops
  steals := hsteals
  sized := hsized
  owner := h.owner.of_not_crit (h.owner_not_crit (hpc ▸ hold))
  thief u := by
    by_cases hu : u = t
    · subst hu
      rw [St.setThief_self]
      exact hti
    · rw [St.setThief_ne _ _ _ hu]
      exact h.thiefInv_other (hpc ▸ hold) hu _ _ _
  fin hno _ := by
    have := hno t
    rw [St.setThief_self] at this
    exact hend this

end ThiefMoves

-- ======== thief steps

/-- A thief takes the range between the new end and the old one. -/
theorem take_inv {size len : Int} {old : ThiefPc} (h : InvAt B E s)
    (hpc : s.thief t = old) (hold : old.crit = true) (hfin : s.fin = E - len)
    (hlen : 0 ≤ len) (hB : B ≤ s.fin) (hsize : len = size ∨ len = 1) :
    Inv ({ s with
      steals := (size, (s.fin, toIndex (s.fin + len))) :: s.steals }.setThief t
        .unlocking) := by
  have hlast : toIndex (s.fin + len) = E := by
    rw [hfin, Int.sub_add_cancel]
    exact toIndex_of_isIndex h.endIndex
  rw [hlast]
  refine ⟨B, s.fin, h.thiefWrite hpc hold rfl h.finIndex h.finIndex (fun _ => hB)
    (fun hlt => ?_) ?_ (fun x hx => ?_) trivial fun _ => rfl⟩
  · -- the bounds of an inverted range do not meet
    have := h.inverted hlt
    omega
  · exact h.steals.cons (by omega)
  · rcases List.mem_cons.mp hx with rfl | hx
    · simp only
      omega
    · exact h.sized x hx

/-- A thief lowers the end, or restores it. -/
theorem InvAt.thiefMoveEnd {old : ThiefPc} (h : InvAt B E s) (hpc : s.thief t = old)
    (hold : old.crit = true) (hcrit : pc.crit = true) (hfin : IsIndex fin)
    (hti : ThiefInv B E fin pc) (hend : pc.lowered = false → fin = E) :
    InvAt B E ({ s with fin := fin }.setThief t pc) :=
  h.thiefWrite hpc hold hcrit h.endIndex hfin h.le (fun _ => ⟨rfl, rfl⟩) h.steals h.sized
    hti hend

/-- Every step of a thief keeps the invariant. -/
theorem thiefStep_inv (hmeets : Meets (.thief t) s) (h : Inv s)
    (hstep : thiefStep t s = some s') : Inv s' := by
  obtain ⟨B, E, h⟩ := h
  have hti := h.thief t
  have hE := h.endIndex
  have hF := h.finIndex
  unfold thiefStep at hstep
  generalize hpc : s.thief t = pc at hti hstep
  cases pc with
  | out => cases hstep
  | locking size =>
    dsimp only at hstep
    split at hstep
    · next hz =>
      cases hstep
      refine ⟨B, E, h.thiefTo hpc (.acquire (p := some t) fun q hq => ?_) rfl hti⟩
      rw [St.crit_setThief] at hq
      rcases hq with ⟨hq, -⟩ | ⟨-, hq⟩
      · exact hq
      · exact absurd hq (h.mutex.free hz q)
    · cases hstep
      exact ⟨B, E, h⟩
  | lowerRead size =>
    have hfin := h.fin_of_thief_crit (t := t) (by rw [hpc]; rfl) (by rw [hpc]; rfl)
    cases hstep
    exact ⟨B, E, h.thiefRead hpc rfl rfl ⟨hfin, hti⟩⟩
  | lowerWrite size e =>
    obtain ⟨he, hsize⟩ := hti
    have hmin : indexMin ≤ E - size := by
      simpa only [Meets, hpc, he] using hmeets
    have hindex : IsIndex (E - size) := ⟨hmin, by have := hE.2; omega⟩
    simp only [he, toIndex_of_isIndex hindex] at hstep
    cases hstep
    exact ⟨B, E, h.thiefMoveEnd hpc rfl rfl hindex ⟨rfl, hsize⟩ nofun⟩
  | testEnd size =>
    cases hstep
    exact ⟨B, E, h.thiefRead hpc rfl rfl ⟨hti.1, rfl, hti.2⟩⟩
  | testBeg size e =>
    obtain ⟨hfin, he, hsize⟩ := hti
    dsimp only at hstep
    split at hstep
    · cases hstep
      exact ⟨B, E, h.thiefRead hpc rfl rfl ⟨hfin, hsize⟩⟩
    · cases hstep
      have hB := h.le_beg (h.owner_not_crit (t := t) (by rw [hpc]; rfl))
      exact ⟨B, E, h.thiefRead hpc rfl rfl ⟨hfin, hsize, by omega⟩⟩
  | takeFirst size =>
    obtain ⟨hfin, hsize, hB⟩ := hti
    cases hstep
    exact take_inv h hpc rfl hfin (by omega) hB (.inl rfl)
  | retryRead size =>
    cases hstep
    exact ⟨B, E, h.thiefRead hpc rfl rfl ⟨hti.1, rfl, hti.2⟩⟩
  | retryWrite size e =>
    obtain ⟨hfin, he, hsize⟩ := hti
    have hindex : IsIndex (E - 1) :=
      ⟨by have := hF.1; omega, by have := hE.2; omega⟩
    have hsum : toIndex (e + toIndex (size - 1)) = E - 1 := by
      have : e + (size - 1) = E - 1 := by omega
      rw [toIndex, toIndex, Int.add_bmod_bmod, this]
      exact toIndex_of_isIndex hindex
    simp only [hsum] at hstep
    cases hstep
    exact ⟨B, E, h.thiefMoveEnd hpc rfl rfl hindex rfl nofun⟩
  | retestBeg size =>
    have hB := h.le_beg (h.owner_not_crit (t := t) (by rw [hpc]; rfl))
    cases hstep
    exact ⟨B, E, h.thiefRead hpc rfl rfl ⟨hti, fun hlt => hB.trans hlt.le⟩⟩
  | retestEnd size b =>
    dsimp only at hstep
    split at hstep
    · next hlt =>
      cases hstep
      exact ⟨B, E, h.thiefRead hpc rfl rfl ⟨hti.1, hti.2 hlt⟩⟩
    · cases hstep
      exact ⟨B, E, h.thiefRead hpc rfl rfl hti.1⟩
  | oneFirst size =>
    cases hstep
    exact take_inv h hpc rfl hti.1 (by decide) hti.2 (.inr rfl)
  | restoreRead =>
    cases hstep
    exact ⟨B, E, h.thiefRead hpc rfl rfl ⟨hti, rfl⟩⟩
  | restoreWrite e =>
    have hsum : toIndex (e + 1) = E := by
      have : e + 1 = E := by
        have := hti.1
        have := hti.2
        omega
      rw [this]
      exact toIndex_of_isIndex hE
    simp only [hsum] at hstep
    cases hstep
    exact ⟨B, E, h.thiefMoveEnd hpc rfl rfl hE trivial (fun _ => rfl)⟩
  | unlocking =>
    cases hstep
    refine ⟨B, E, h.thiefTo hpc (h.mutex.release (p := some t) ?_ fun q hq => ?_) rfl
      trivial⟩
    · rw [St.crit, hpc]
      rfl
    · rw [St.crit_setThief] at hq
      rcases hq with ⟨-, hq⟩ | ⟨hne, hq⟩
      · cases hq
      · exact ⟨hq, hne⟩

-- ======== runs

/-- Every step that meets the condition keeps the invariant. -/
theorem inv_step {a : Act} (hmeets : Meets a s) (h : Inv s) (hstep : step a s = some s') :
    Inv s' := by
  cases a with
  | owner => exact ownerStep_inv hmeets h hstep
  | thief t => exact thiefStep_inv hmeets h hstep
  | popItem =>
    obtain ⟨B, E, h⟩ := h
    have ho := h.owner
    have hp := h.pops
    simp only [step] at hstep
    split at hstep
    · next hpc =>
      cases hstep
      rw [hpc] at ho hp
      exact ⟨B, E, h.ownerMove hpc (mutex_owner h.mutex hpc rfl) rfl
        (fun _ => hmeets) h.begIndex h.le (fun hlt => (h.inverted hlt).1) hp ho
        h.thief⟩
    · cases hstep
  | pop size =>
    obtain ⟨B, E, h⟩ := h
    have ho := h.owner
    have hp := h.pops
    simp only [step] at hstep
    split at hstep
    · next hcall =>
      cases hstep
      rw [hcall.1] at ho hp
      exact ⟨B, E, h.ownerMove hcall.1 (mutex_owner h.mutex hcall.1 rfl) rfl
        (fun _ => hmeets.2) h.begIndex h.le (fun hlt => (h.inverted hlt).1) hp
        ⟨ho, hmeets.1, hcall.2.2, fun i hi => by cases hi⟩ h.thief⟩
    · cases hstep
  | set first last =>
    obtain ⟨B, E, h⟩ := h
    have ho := h.owner
    simp only [step] at hstep
    split at hstep
    · next hcall =>
      cases hstep
      rw [hcall.1] at ho
      exact ⟨B, E, h.ownerTo hcall.1 rfl rfl nofun rfl ⟨ho, hcall.2⟩⟩
    · cases hstep
  | clear =>
    obtain ⟨B, E, h⟩ := h
    have ho := h.owner
    simp only [step] at hstep
    split at hstep
    · next hpc =>
      cases hstep
      rw [hpc] at ho
      exact ⟨B, E, h.ownerTo hpc rfl rfl nofun rfl ho⟩
    · cases hstep
  | steal t size =>
    obtain ⟨B, E, h⟩ := h
    simp only [step] at hstep
    split at hstep
    · next hcall =>
      cases hstep
      exact ⟨B, E, h.thiefRead hcall.1 rfl rfl hmeets⟩
    · cases hstep

/-- Every run that meets the condition keeps it. -/
theorem inv_run {acts : List Act} (hmeets : Along step Meets acts s) (h : Inv s)
    (hrun : run step acts s = some s') : Inv s' :=
  hmeets.run_inv inv_step h hrun

end XKaapi.Kastl.WorkQueue
