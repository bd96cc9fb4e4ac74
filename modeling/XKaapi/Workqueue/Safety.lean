/-
Safety of the T.H.E. protocol: every index of the initial range is
returned at most once, and none is lost.

# The invariant

`InvAt b e B E s` reads a state through two ghost bounds: the indices
below `B` are the owner's, those from `E` up are the thieves', and
`[B, E)` is still in the queue. The stored words may be ahead of them,
and only in the conservative direction: `beg` is `B` or, during the
optimistic half of a pop, `B + maxSize`; `end` is `E` or, during the
optimistic half of a steal, `E - size`. A pop moves `B` when its read of
`end` succeeds, a steal moves `E` when its read of `beg` does, and each
of these reads compares with a word at least as tight as the other
side's ghost bound, so `B ≤ E` is kept without any ordering between the
two optimistic stores. `Tiles` carries the returned ranges: pops tile
`[b, B)` in order, steals tile `[E, e)` from the back.
-/
import Mathlib.Data.Int.ConditionallyCompleteOrder
import Mathlib.Order.ConditionallyCompleteLattice.Basic
import XKaapi.Lib.Tiles
import XKaapi.Workqueue.Basic

namespace XKaapi.Workqueue

open StepMachine

-- ======== invariant

/-- What the owner's position says of `beg` and its locals. -/
def OwnerInv (B E beg : Int) : OwnerPc → Prop
  | .idle => beg = B
  | .popReadBeg maxSize => beg = B ∧ 0 < maxSize
  | .popWriteBeg maxSize locInit => beg = B ∧ locInit = B ∧ 0 < maxSize
  | .popReadEnd maxSize locInit | .popRollback maxSize locInit =>
    beg = B + maxSize ∧ locInit = B ∧ 0 < maxSize
  | .slowLock maxSize _ | .slowReadBeg maxSize => beg = B ∧ 0 < maxSize
  | .slowReadEnd maxSize locBeg => beg = B ∧ locBeg = B ∧ 0 < maxSize
  | .slowWriteBeg size locBeg =>
    beg = B ∧ locBeg = B ∧ 0 < size ∧ B + size ≤ E
  | .slowUnlock _ _ => beg = B

/-- What a thief's position says of `end` and its locals. -/
def ThiefInv (E fin : Int) : ThiefPc → Prop
  | .stealReadEnd size => 0 < size
  | .stealWriteEnd size locInit => locInit = E ∧ 0 < size
  | .stealReadBeg size locInit | .stealRollback size locInit =>
    fin = E - size ∧ locInit = E ∧ 0 < size
  | _ => True

/-- The thief has lowered `end` and not yet kept or restored it. -/
def ThiefPc.lowered : ThiefPc → Bool
  | .stealReadBeg _ _ | .stealRollback _ _ => true
  | _ => false

/-- The range taken under the lock and not yet returned. -/
def OwnerPc.taken : OwnerPc → List (Int × Int)
  | .slowUnlock res _ => res.toList
  | _ => []

/-- The state, read through the ghost bounds `B` and `E` (module doc). -/
structure InvAt (b e B E : Int) (s : St) : Prop where
  lock : LockInv s.lock s.crit
  le : B ≤ E
  pops : Tiles b B (s.pops ++ s.owner.taken)
  steals : Tiles E e s.steals
  owner : OwnerInv B E s.liBeg s.owner
  thief : ∀ t, ThiefInv E s.liEnd (s.thief t)
  fin : (∀ t, (s.thief t).lowered = false) → s.liEnd = E

/-- The protocol's invariant for the initial range `[b, e)`. -/
def Inv (b e : Int) (s : St) : Prop := ∃ B E, InvAt b e B E s

variable {e b E : Int} {pc : ThiefPc} {s' s : St} {t : Nat}

theorem inv_init (hbe : b ≤ e) : Inv b e (workqueueInit b e) := by
  refine ⟨b, e, ?_, hbe, rfl, rfl, rfl, fun _ => trivial, fun _ => rfl⟩
  refine LockInv.init fun p => ?_
  cases p <;> simp [St.crit, workqueueInit, OwnerPc.crit, ThiefPc.crit]

-- ======== reading the invariant

theorem ThiefPc.crit_of_lowered (h : pc.lowered = true) : pc.crit = true := by
  cases pc <;> first | rfl | cases h

theorem thiefInv_of_not_crit {fin : Int} (h : ¬ pc.crit = true) : ThiefInv E fin pc := by
  cases pc with
  | out | locking _ | trylocking _ | held | unlocking _ => trivial
  | _ => exact absurd rfl h

theorem ownerInv_of_not_crit {B E' beg : Int} {pc : OwnerPc} (h : ¬ pc.crit = true)
    (hinv : OwnerInv B E beg pc) : OwnerInv B E' beg pc := by
  cases pc <;> first | exact hinv | exact absurd rfl h

namespace InvAt

variable {b e B E : Int} {s : St}

section

variable (h : InvAt b e B E s)
include h

/-- The beginning is not below what was taken. -/
theorem le_liBeg : B ≤ s.liBeg := by
  have ho := h.owner
  cases hpc : s.owner <;> rw [hpc] at ho <;> simp only [OwnerInv] at ho
    <;> omega

/-- The end is not above what is left. -/
theorem liEnd_le : s.liEnd ≤ E := by
  by_cases hlow : ∀ t, (s.thief t).lowered = false
  · exact (h.fin hlow).le
  · push Not at hlow
    obtain ⟨t, ht⟩ := hlow
    have hti := h.thief t
    cases hpc : s.thief t <;> rw [hpc] at hti ht
      <;> simp only [ThiefInv, ThiefPc.lowered] at hti ht
      <;> first | omega | exact absurd rfl ht

theorem liEnd_of_owner_crit (ho : s.owner.crit = true) : s.liEnd = E := by
  refine h.fin fun t => ?_
  by_contra hlow
  have hc : s.crit (some t) :=
    ThiefPc.crit_of_lowered (by simpa using hlow)
  have := h.lock.unique none (some t) ho hc
  cases this

theorem thiefInv_other {t u : Nat} {E' fin' : Int} (ht : (s.thief t).crit = true)
    (hne : u ≠ t) : ThiefInv E' fin' (s.thief u) := by
  refine thiefInv_of_not_crit fun hu => hne ?_
  have := h.lock.unique (some u) (some t) hu ht
  exact Option.some.inj this

/-- While a thief has the lock the owner has not. -/
theorem owner_not_crit {t : Nat} (ht : (s.thief t).crit = true) :
    ¬ s.owner.crit = true := by
  intro ho
  have := h.lock.unique none (some t) ho ht
  cases this

end

end InvAt

-- ======== frame assemblers

theorem lockInv_owner (h : LockInv s.lock s.crit) (hlock : s'.lock = s.lock)
    (hthief : s'.thief = s.thief) (hcrit : s'.owner.crit = s.owner.crit) :
    LockInv s'.lock s'.crit := by
  rw [hlock]
  refine h.congr fun p => ?_
  cases p with
  | none => simp only [St.crit, hcrit]
  | some t => simp only [St.crit, hthief]

theorem lockInv_thief (h : LockInv s.lock s.crit) (hcrit : pc.crit = (s.thief t).crit) :
    LockInv s.lock (s.setThief t pc).crit := by
  refine h.congr fun p => ?_
  rw [St.crit_setThief]
  by_cases hp : p = some t
  · subst hp
    simp [St.crit, hcrit]
  · simp [hp]

/-- Moving a thief between positions that assume nothing and lower
nothing keeps the data part of the invariant. -/
theorem InvAt.moveThief {B : Int} {l : KaapiLock} (h : InvAt b e B E s)
    (hlock : LockInv l (({ s with lock := l }).setThief t pc).crit)
    (hti : ThiefInv E s.liEnd pc) (hlow : (s.thief t).lowered = pc.lowered) :
    InvAt b e B E ({ s with lock := l }.setThief t pc) where
  lock := hlock
  le := h.le
  pops := h.pops
  steals := h.steals
  owner := h.owner
  thief u := by
    by_cases hu : u = t
    · subst hu
      rw [St.setThief_self]
      exact hti
    · rw [St.setThief_ne _ _ _ hu]
      exact h.thief u
  fin hno := by
    refine h.fin fun u => ?_
    have := hno u
    by_cases hu : u = t
    · subst hu
      rwa [hlow, ← St.setThief_self { s with lock := l } u pc]
    · rwa [St.setThief_ne _ _ _ hu] at this

-- ======== owner steps

/-- Every step of the owner keeps the invariant. -/
theorem ownerStep_inv (h : Inv b e s) (hstep : ownerStep s = some s') : Inv b e s' := by
  obtain ⟨B, E, h⟩ := h
  have ho := h.owner
  have hp := h.pops
  unfold ownerStep at hstep
  generalize hpc : s.owner = pc at ho hp hstep
  cases pc with
  | idle => cases hstep
  | popReadBeg m =>
    cases hstep
    exact ⟨B, E, lockInv_owner h.lock rfl rfl (by rw [hpc]; rfl), h.le,
      hp, h.steals, ⟨ho.1, ho.1, ho.2⟩, h.thief, h.fin⟩
  | popWriteBeg m li =>
    cases hstep
    refine ⟨B, E, lockInv_owner h.lock rfl rfl (by rw [hpc]; rfl), h.le,
      hp, h.steals, ⟨?_, ho.2.1, ho.2.2⟩, h.thief, h.fin⟩
    simp only [ho.2.1]
  | popReadEnd m li =>
    obtain ⟨hbeg, hli, hm⟩ := ho
    dsimp only at hstep
    split at hstep
    · -- no conflict: the ghost bound moves up to the stored `beg`
      next hlt =>
      cases hstep
      have hE := h.liEnd_le
      refine ⟨B + m, E, lockInv_owner h.lock rfl rfl (by rw [hpc]; rfl),
        by omega, ?_, h.steals, hbeg, h.thief, h.fin⟩
      simp only [OwnerPc.taken, List.append_nil] at hp ⊢
      have hnew : (li + m - m, li + m) = (B, B + m) := by
        rw [hli]
        exact Prod.ext (by simp only; omega) rfl
      rw [hnew]
      exact hp.snoc (by omega)
    · cases hstep
      exact ⟨B, E, lockInv_owner h.lock rfl rfl (by rw [hpc]; rfl), h.le,
        hp, h.steals, ⟨hbeg, hli, hm⟩, h.thief, h.fin⟩
  | popRollback m li =>
    cases hstep
    exact ⟨B, E, lockInv_owner h.lock rfl rfl (by rw [hpc]; rfl), h.le,
      hp, h.steals, ⟨ho.2.1, ho.2.2⟩, h.thief, h.fin⟩
  | slowLock m pc =>
    dsimp only at hstep
    split at hstep
    next l pc' hl =>
      cases hstep
      refine ⟨B, E, ?_, h.le, hp, h.steals, ho, h.thief, h.fin⟩
      refine (h.lock.lock_pending hl).congr fun p => ?_
      cases p <;> simp [St.crit, hpc, OwnerPc.crit]
    next l hl =>
      cases hstep
      have hno : ∀ u, ¬ s.crit u := (h.lock.lock_found_free hl).2
      have hcrit : ∀ p, St.crit { s with
          lock := l, owner := .slowReadBeg m } p ↔ p = none := by
        intro p
        cases p with
        | none => simp [St.crit, OwnerPc.crit]
        | some t => simpa [St.crit] using hno (some t)
      exact ⟨B, E, h.lock.lock_acquired hl hcrit, h.le, hp, h.steals,
        ho, h.thief, h.fin⟩
  | slowReadBeg m =>
    cases hstep
    exact ⟨B, E, lockInv_owner h.lock rfl rfl (by rw [hpc]; rfl), h.le,
      hp, h.steals, ⟨ho.1, ho.1, ho.2⟩, h.thief, h.fin⟩
  | slowReadEnd m lb =>
    obtain ⟨hbeg, hlb, hm⟩ := ho
    have hE : s.liEnd = E := h.liEnd_of_owner_crit (by rw [hpc]; rfl)
    have hle := h.le
    dsimp only at hstep
    split at hstep
    · cases hstep
      exact ⟨B, E, lockInv_owner h.lock rfl rfl (by rw [hpc]; rfl), h.le,
        by simpa [OwnerPc.taken] using hp, h.steals, hbeg, h.thief, h.fin⟩
    · next hne =>
      cases hstep
      refine ⟨B, E, lockInv_owner h.lock rfl rfl (by rw [hpc]; rfl), h.le,
        hp, h.steals, ⟨hbeg, hlb, ?_, ?_⟩, h.thief, h.fin⟩
      · split <;> omega
      · split <;> omega
  | slowWriteBeg size lb =>
    obtain ⟨hbeg, hlb, hsize, hle⟩ := ho
    cases hstep
    refine ⟨B + size, E, lockInv_owner h.lock rfl rfl (by rw [hpc]; rfl),
      hle, ?_, h.steals, ?_, h.thief, h.fin⟩
    · simp only [OwnerPc.taken, List.append_nil, Option.toList] at hp ⊢
      have hnew : (lb + size - size, lb + size) = (B, B + size) := by
        rw [hlb]
        exact Prod.ext (by simp only; omega) rfl
      rw [hnew]
      exact hp.snoc (by omega)
    · simp only [OwnerInv, hlb]
  | slowUnlock res pc =>
    dsimp only at hstep
    split at hstep
    next l pc' hl =>
      cases hstep
      refine ⟨B, E, ?_, h.le, hp, h.steals, ho, h.thief, h.fin⟩
      refine (h.lock.unlock_pending hl).congr fun p => ?_
      cases p <;> simp [St.crit, hpc, OwnerPc.crit]
    next l hl =>
      cases hstep
      refine ⟨B, E, ?_, h.le, ?_, h.steals, ho, h.thief, h.fin⟩
      · refine h.lock.unlock_released (t := none) hl
          (by simp [St.crit, hpc, OwnerPc.crit]) fun p => ?_
        cases p <;> simp [St.crit, OwnerPc.crit]
      · simpa [OwnerPc.taken] using hp

-- ======== thief steps

/-- Every step of a thief keeps it. -/
theorem thiefStep_inv (h : Inv b e s) (hstep : thiefStep t s = some s') : Inv b e s' := by
  obtain ⟨B, E, h⟩ := h
  have hti := h.thief t
  unfold thiefStep at hstep
  generalize hpc : s.thief t = pc at hti hstep
  cases pc with
  | out => cases hstep
  | held => cases hstep
  | locking pc =>
    dsimp only at hstep
    split at hstep
    next l pc' hl =>
      cases hstep
      refine ⟨B, E, h.moveThief ?_ trivial (by rw [hpc]; rfl)⟩
      exact lockInv_thief (s := { s with lock := l })
        (h.lock.lock_pending hl) (by simp [hpc, ThiefPc.crit])
    next l hl =>
      cases hstep
      have hno : ∀ u, ¬ s.crit u := (h.lock.lock_found_free hl).2
      refine ⟨B, E, h.moveThief ?_ trivial (by rw [hpc]; rfl)⟩
      refine h.lock.lock_acquired (t := some t) hl fun p => ?_
      rw [St.crit_setThief]
      have hnop : ¬ St.crit { s with lock := l } p := hno p
      simp [ThiefPc.crit, hnop]
  | trylocking pc =>
    dsimp only at hstep
    split at hstep
    next l pc' hl =>
      cases hstep
      refine ⟨B, E, h.moveThief ?_ trivial (by rw [hpc]; rfl)⟩
      exact lockInv_thief (s := { s with lock := l })
        (h.lock.trylock_pending (by simp) hl) (by simp [hpc, ThiefPc.crit])
    next l hl =>
      cases hstep
      have hno : ∀ u, ¬ s.crit u := (h.lock.trylock_found_free hl).2
      refine ⟨B, E, h.moveThief ?_ trivial (by rw [hpc]; rfl)⟩
      refine h.lock.trylock_acquired (t := some t) hl fun p => ?_
      rw [St.crit_setThief]
      have hnop : ¬ St.crit { s with lock := l } p := hno p
      simp [ThiefPc.crit, hnop]
    next l hl =>
      cases hstep
      refine ⟨B, E, h.moveThief ?_ trivial (by rw [hpc]; rfl)⟩
      exact lockInv_thief (s := { s with lock := l })
        (h.lock.trylock_pending (by simp) hl) (by simp [hpc, ThiefPc.crit])
  | stealReadEnd size =>
    cases hstep
    have ht : (s.thief t).crit = true := by rw [hpc]; rfl
    -- nobody else can have lowered `end`, and `t` has not yet
    have hE : s.liEnd = E := by
      refine h.fin fun u => ?_
      by_cases hu : u = t
      · rw [hu, hpc]
        rfl
      · by_contra hlow
        have hc : (s.thief u).crit = true :=
          ThiefPc.crit_of_lowered (by simpa using hlow)
        exact hu (Option.some.inj (h.lock.unique (some u) (some t) hc ht))
    exact ⟨B, E, h.moveThief (lockInv_thief h.lock (by rw [hpc]; rfl)) ⟨hE, hti⟩
      (by rw [hpc]; rfl)⟩
  | stealWriteEnd size li =>
    obtain ⟨hli, hsize⟩ := hti
    cases hstep
    have ht : (s.thief t).crit = true := by rw [hpc]; rfl
    refine ⟨B, E, lockInv_thief (s := { s with liEnd := li - size })
      h.lock (by simp [hpc, ThiefPc.crit]), h.le, h.pops, h.steals,
      h.owner, fun u => ?_, fun hno => ?_⟩
    · by_cases hu : u = t
      · subst hu
        rw [St.setThief_self]
        exact ⟨by simp [hli], hli, hsize⟩
      · rw [St.setThief_ne _ _ _ hu]
        exact h.thiefInv_other ht hu
    · have := hno t
      rw [St.setThief_self] at this
      cases this
  | stealReadBeg size li =>
    obtain ⟨hfin, hli, hsize⟩ := hti
    have ht : (s.thief t).crit = true := by rw [hpc]; rfl
    dsimp only at hstep
    split at hstep
    · cases hstep
      exact ⟨B, E, h.moveThief (lockInv_thief h.lock (by rw [hpc]; rfl))
        ⟨hfin, hli, hsize⟩ (by rw [hpc]; rfl)⟩
    · -- success: the ghost bound moves down to the stored `end`
      next hge =>
      cases hstep
      have hB := h.le_liBeg
      refine ⟨B, E - size, lockInv_thief (s := { s with
          steals := (li - size, li - size + size) :: s.steals })
        h.lock (by simp [hpc, ThiefPc.crit]), by omega, h.pops, ?_,
        ownerInv_of_not_crit (h.owner_not_crit ht) h.owner,
        fun u => ?_, fun _ => hfin⟩
      · have hnew : (li - size, li - size + size) = (E - size, E) := by
          rw [hli]
          exact Prod.ext rfl (by simp only; omega)
        simp only [St.setThief_steals, hnew]
        exact h.steals.cons (by omega)
      · by_cases hu : u = t
        · subst hu
          rw [St.setThief_self]
          trivial
        · rw [St.setThief_ne _ _ _ hu]
          exact h.thiefInv_other ht hu
  | stealRollback size li =>
    obtain ⟨hfin, hli, hsize⟩ := hti
    have ht : (s.thief t).crit = true := by rw [hpc]; rfl
    cases hstep
    refine ⟨B, E, lockInv_thief (s := { s with liEnd := li }) h.lock
      (by simp [hpc, ThiefPc.crit]), h.le, h.pops, h.steals, h.owner,
      fun u => ?_, fun _ => hli⟩
    by_cases hu : u = t
    · subst hu
      rw [St.setThief_self]
      trivial
    · rw [St.setThief_ne _ _ _ hu]
      exact h.thiefInv_other ht hu
  | unlocking pc =>
    dsimp only at hstep
    split at hstep
    next l pc' hl =>
      cases hstep
      refine ⟨B, E, h.moveThief ?_ trivial (by rw [hpc]; rfl)⟩
      exact lockInv_thief (s := { s with lock := l })
        (h.lock.unlock_pending hl) (by simp [hpc, ThiefPc.crit])
    next l hl =>
      cases hstep
      refine ⟨B, E, h.moveThief ?_ trivial (by rw [hpc]; rfl)⟩
      refine h.lock.unlock_released (t := some t) hl
        (by simp [St.crit, hpc, ThiefPc.crit]) fun p => ?_
      rw [St.crit_setThief]
      by_cases hp : p = some t
      · simp [hp, ThiefPc.crit]
      · simp only [hp, ne_eq, not_false_eq_true, false_and, true_and,
          false_or, and_true]
        exact Iff.rfl

-- ======== calls

/-- A call changes positions only, and none of them is critical before or
after in a way the lock word could notice. -/
theorem inv_step {a : Act} (h : Inv b e s) (hstep : step a s = some s') : Inv b e s' := by
  cases a with
  | owner => exact ownerStep_inv h hstep
  | thief t => exact thiefStep_inv h hstep
  | popCall m =>
    obtain ⟨B, E, h⟩ := h
    simp only [step] at hstep
    split at hstep
    next hcall =>
      cases hstep
      have ho := h.owner
      have hp := h.pops
      rw [hcall.1] at ho hp
      exact ⟨B, E, lockInv_owner h.lock rfl rfl (by rw [hcall.1]; rfl),
        h.le, hp, h.steals, ⟨ho, hcall.2⟩, h.thief, h.fin⟩
    · cases hstep
  | lockCall t =>
    obtain ⟨B, E, h⟩ := h
    simp only [step] at hstep
    split at hstep
    next hout =>
      cases hstep
      exact ⟨B, E, h.moveThief (lockInv_thief h.lock (by rw [hout]; rfl))
        trivial (by rw [hout]; rfl)⟩
    · cases hstep
  | trylockCall t =>
    obtain ⟨B, E, h⟩ := h
    simp only [step] at hstep
    split at hstep
    next hout =>
      cases hstep
      exact ⟨B, E, h.moveThief (lockInv_thief h.lock (by rw [hout]; rfl))
        trivial (by rw [hout]; rfl)⟩
    · cases hstep
  | stealCall t size =>
    obtain ⟨B, E, h⟩ := h
    simp only [step] at hstep
    split at hstep
    next hcall =>
      cases hstep
      exact ⟨B, E, h.moveThief
        (lockInv_thief h.lock (by rw [hcall.1]; rfl)) hcall.2
        (by rw [hcall.1]; rfl)⟩
    · cases hstep
  | unlockCall t =>
    obtain ⟨B, E, h⟩ := h
    simp only [step] at hstep
    split at hstep
    next hheld =>
      cases hstep
      exact ⟨B, E, h.moveThief
        (lockInv_thief h.lock (by rw [hheld]; rfl)) trivial
        (by rw [hheld]; rfl)⟩
    · cases hstep

/-- Every run keeps the invariant. -/
theorem workqueue_inv (hbe : b ≤ e) {acts : List Act}
    (hrun : run step acts (workqueueInit b e) = some s) : Inv b e s :=
  run_preserves inv_step (inv_init hbe) hrun

-- ======== returned ranges

theorem pops_prefix_step {a : Act} (hstep : step a s = some s') : s.pops <+: s'.pops := by
  cases a with
  | owner =>
    simp only [step, ownerStep] at hstep
    repeat' split at hstep
    all_goals cases hstep
    all_goals simp
  | thief t =>
    simp only [step, thiefStep] at hstep
    repeat' split at hstep
    all_goals cases hstep
    all_goals simp
  | popCall _ | lockCall _ | trylockCall _ | stealCall _ _ | unlockCall _ =>
    simp only [step] at hstep
    split at hstep
    all_goals cases hstep
    all_goals simp

/-- The pops of a run go on. -/
theorem pops_prefix_run {acts : List Act} (hrun : run step acts s = some s') :
    s.pops <+: s'.pops :=
  run_related (R := fun s s' => s.pops <+: s'.pops)
    (fun s => List.prefix_refl s.pops) List.IsPrefix.trans
    pops_prefix_step hrun

namespace InvAt

variable {b e B E : Int} {s : St}

theorem liEnd_of_held (h : InvAt b e B E s) {t : Nat}
    (ht : s.thief t = .held) : s.liEnd = E := by
  refine h.fin fun u => ?_
  by_contra hlow
  have hc : (s.thief u).crit = true :=
    ThiefPc.crit_of_lowered (by simpa using hlow)
  have hut := h.lock.unique (some u) (some t) hc
    (by simp [St.crit, ht, ThiefPc.crit])
  rw [Option.some.inj hut, ht] at hlow
  exact hlow rfl

theorem idle (h : InvAt b e B E s) (ho : s.owner = .idle) :
    s.liBeg = B ∧ Tiles b B s.pops := by
  have h₁ := h.owner
  have h₂ := h.pops
  rw [ho] at h₁ h₂
  exact ⟨h₁, by simpa [OwnerPc.taken] using h₂⟩

theorem returned_pops (h : InvAt b e B E s) :
    ∃ B', B' ≤ B ∧ Tiles b B' s.pops := by
  obtain ⟨B', h₁, h₂⟩ := h.pops.split
  exact ⟨B', h₂.le, h₁⟩

/-- A queue at rest. -/
theorem quiescent (h : InvAt b e B E s) (hq : s.Quiescent) :
    s.liBeg = B ∧ Tiles b B s.pops ∧ s.liEnd = E := by
  obtain ⟨hB, hpops⟩ := h.idle hq.1
  refine ⟨hB, hpops, h.fin fun t => ?_⟩
  have := hq.2 t
  cases hpc : s.thief t <;> rw [hpc] at this <;> first | rfl | cases this

end InvAt

/-- Safety of the work queue. In every run from `[b, e)`, the returned
ranges are disjoint pieces of `[b, e)`; with no operation in flight they
and the remaining queue make up `[b, e)` exactly; and between two moments
at which a thief stands in the lock with no successful steal in between,
`end` is the same and `beg` has moved by the owner's pops alone. -/
theorem workqueue_safe {b e : Int} (hbe : b ≤ e) {acts : List Act} {s : St}
    (hrun : run step acts (workqueueInit b e) = some s) :
    (s.pops ++ s.steals).Pairwise RangeDisjoint
    ∧ (∀ r ∈ s.pops ++ s.steals, b ≤ r.1 ∧ r.1 < r.2 ∧ r.2 ≤ e)
    ∧ (s.Quiescent → s.liBeg ≤ s.liEnd ∧
        (∀ r ∈ s.pops ++ s.steals, RangeDisjoint r (s.liBeg, s.liEnd)) ∧
        ∀ i, i ∈ Set.Ico b e ↔
          (∃ r ∈ s.pops ++ s.steals, i ∈ Set.Ico r.1 r.2)
            ∨ i ∈ Set.Ico s.liBeg s.liEnd)
    ∧ ∀ (t : Nat) (acts' : List Act) (s' : St), s.thief t = .held →
        run step acts' s = some s' → s'.thief t = .held →
        s'.steals = s.steals →
        s'.liEnd = s.liEnd ∧
        (s.owner = .idle → s'.owner = .idle →
          ∃ new, s'.pops = s.pops ++ new ∧ Tiles s.liBeg s'.liBeg new) := by
  obtain ⟨B, E, h⟩ := workqueue_inv hbe hrun
  obtain ⟨B', hB', hpops⟩ := h.returned_pops
  have hgap : B' ≤ E := hB'.trans h.le
  refine ⟨hpops.pairwise_append hgap h.steals, fun r hr => ?_,
    fun hq => ?_, fun t acts' s' ht hrun' ht' hsteals => ?_⟩
  · rcases List.mem_append.mp hr with hr | hr
    · obtain ⟨h₁, h₂, h₃⟩ := hpops.mem_bounds hr
      exact ⟨h₁, h₂, h₃.trans (hgap.trans h.steals.le)⟩
    · obtain ⟨h₁, h₂, h₃⟩ := h.steals.mem_bounds hr
      exact ⟨(hpops.le.trans hgap).trans h₁, h₂, h₃⟩
  · obtain ⟨hbeg, hq_pops, hend⟩ := h.quiescent hq
    refine ⟨by rw [hbeg, hend]; exact h.le, fun r hr => ?_, fun i => ?_⟩
    · rw [hbeg, hend, RangeDisjoint, Set.Ico_disjoint_Ico]
      rcases List.mem_append.mp hr with hr | hr
      · have := (hq_pops.mem_bounds hr).2.2
        exact (min_le_left _ _).trans (this.trans (le_max_right _ _))
      · have := (h.steals.mem_bounds hr).1
        exact (min_le_right _ _).trans (this.trans (le_max_left _ _))
    · have hall : i ∈ Set.Ico b e ↔
          i ∈ Set.Ico b B ∨ i ∈ Set.Ico B E ∨ i ∈ Set.Ico E e := by
        have h₁ := hq_pops.le
        have h₂ := h.steals.le
        have h₃ := h.le
        simp only [Set.mem_Ico]
        omega
      rw [hall, hq_pops.mem_Ico_iff, h.steals.mem_Ico_iff, hbeg, hend]
      simp only [List.mem_append, or_and_right, exists_or]
      rw [or_assoc]
      exact or_congr_right or_comm
  · obtain ⟨B₂, E₂, h'⟩ := run_preserves inv_step ⟨B, E, h⟩ hrun'
    have hE : E₂ = E := by
      have h₂ := h'.steals
      rw [hsteals] at h₂
      exact h₂.lo_unique h.steals
    refine ⟨by rw [h'.liEnd_of_held ht', h.liEnd_of_held ht, hE],
      fun hidle hidle' => ?_⟩
    obtain ⟨new, hnew⟩ := pops_prefix_run hrun'
    obtain ⟨hbeg, hp⟩ := h.idle hidle
    obtain ⟨hbeg', hp'⟩ := h'.idle hidle'
    rw [← hnew] at hp'
    exact ⟨new, hnew.symm, hbeg ▸ hbeg' ▸ hp.append_right hp'⟩

/-- A pop of 3, a steal of 4, a failed steal of 4 and a slow pop on
`[0, 10)`, ending quiescent with the queue empty. -/
def conflictRun : List Act :=
  [.popCall 3, .owner, .owner, .owner,
   .lockCall 0, .thief 0, .stealCall 0 4, .thief 0, .thief 0, .thief 0,
   .stealCall 0 4, .thief 0, .thief 0, .thief 0, .thief 0,
   .unlockCall 0, .thief 0, .thief 0,
   .popCall 5, .owner, .owner, .owner, .owner, .owner, .owner, .owner,
   .owner, .owner, .owner]

theorem workqueue_safe_conflictRun :
    ∃ s, run step conflictRun (workqueueInit 0 10) = some s
      ∧ s.pops = [(0, 3), (3, 6)] ∧ s.steals = [(6, 10)]
      ∧ (s.pops ++ s.steals).Pairwise RangeDisjoint :=
  ⟨_, rfl, rfl, rfl, (workqueue_safe (b := 0) (e := 10) (by decide)
    (rfl : run step conflictRun (workqueueInit 0 10) = some _)).1⟩

end XKaapi.Workqueue
