/-
Any number of tasks on one OpenMP lock, simple or nestable: what the calls
return is the history of a lock (`LockState.Correct`), as long as the
acquisitions of a task in progress fit in the `int` that counts them.

# Method

`Crit` is the stretch from the decrement that takes the lock to the store
that puts it back; by `LockInv` the counter knows whether there is one. All
that a task outside of it has to know of the lock is that it is not the
owner: `Fine` says so, and for the task inside where the count is.
-/
import XKaapi.Omp.Lock

namespace XKaapi.Omp

open StepMachine
open Function (update update_of_ne update_self)
open XKaapi.Foreach (toInt32)

-- ======== the property

namespace LockState

variable {τ : Type} [DecidableEq τ]

/-- Whoever calls now gets the lock, when the others let it. -/
def Acquirable (k : LockKind) (s : LockState τ) : Prop :=
  ∀ t, s.call t = .out →
    (∃ n s', run (step k) (.set t :: List.replicate n (.step t)) s = some s'
      ∧ s'.log = s.log ++ [.set t])
    ∧ ∃ n s', run (step k) (.test t :: List.replicate n (.step t)) s = some s'
      ∧ s'.log = s.log ++ [.tested t 1]

/-- The calls are those of a lock: one holder at a time, released by its
last unset, and acquirable after that. -/
structure Correct (k : LockKind) (s : LockState τ) : Prop where
  history : ∃ h, holding k s.log = some h
  taken : ∀ t, s.nesting k t ≠ 0 → s.lock.lock ≠ 1
  acquirable : ∀ a t s', step k a s = some s' →
    s'.log = s.log ++ [.unset t true] → s'.Acquirable k

/-- The `int` of a nestable lock can count one acquisition more. -/
def Below (k : LockKind) : LockAction τ → LockState τ → Prop
  | .set t, s => k = .nest → s.nesting k t + 1 < 2 ^ 31
  | .test t, s => k = .nest → s.nesting k t + 1 < 2 ^ 31
  | _, _ => True

instance Below.decidable (k : LockKind) :
    ∀ (a : LockAction τ) (s : LockState τ), Decidable (Below k a s)
  | .set t, s => inferInstanceAs (Decidable (k = .nest → s.nesting k t + 1 < 2 ^ 31))
  | .test t, s => inferInstanceAs (Decidable (k = .nest → s.nesting k t + 1 < 2 ^ 31))
  | .unset _, _ => isTrue trivial
  | .step _, _ => isTrue trivial

end LockState

-- ======== the invariant

/-- A task that has taken the lock in a call that is not over. -/
def LockCall.inside : LockCall → Bool
  | .setClaim => true
  | .setCount => true
  | .setStore _ => true
  | .testClaim => true
  | .testOne => true
  | _ => false

/-- The calls of a task that does not have the lock. -/
def LockCall.outside : LockCall → Bool
  | .out => true
  | .set _ => true
  | .test _ => true
  | .setOwner => true
  | .testOwner => true
  | _ => false

variable {τ : Type} [DecidableEq τ]

/-- The lock is the task's, whether the call that took it is over or not. -/
def Crit (s : LockState τ) (h : Holding τ) (t : τ) : Prop :=
  h.nesting t ≠ 0 ∨ (s.call t).inside = true

/-- What a task knows of the lock, by its call. -/
def Fine (k : LockKind) (l : NestLock τ) (h : Holding τ) (t : τ) (c : LockCall) : Prop :=
  let n := h.nesting t
  match k, c with
  | .simple, .out | .simple, .set _ | .simple, .test _ => n ≤ 1
  | .simple, .unset => n = 1
  | .simple, _ => False
  | .nest, .out => (l.owner = some t ↔ n ≠ 0) ∧ (n ≠ 0 → l.count = n)
  | .nest, .setOwner | .nest, .testOwner =>
    (l.owner = some t ↔ n ≠ 0) ∧ (n ≠ 0 → l.count = n) ∧ n + 1 < 2 ^ 31
  | .nest, .set _ | .nest, .test _ => l.owner ≠ some t ∧ n = 0
  | .nest, .setClaim | .nest, .testClaim => l.owner = none ∧ n = 0 ∧ l.count = 0
  | .nest, .setCount => l.owner = some t ∧ l.count = n ∧ n + 1 < 2 ^ 31
  | .nest, .setStore v => l.owner = some t ∧ v = n + 1 ∧ n + 1 < 2 ^ 31
  | .nest, .testCount => l.owner = some t ∧ n ≠ 0 ∧ l.count = n ∧ n + 1 < 2 ^ 31
  | .nest, .testStore v => l.owner = some t ∧ n ≠ 0 ∧ v = n + 1 ∧ n + 1 < 2 ^ 31
  | .nest, .testReturn => l.owner = some t ∧ n ≠ 0 ∧ l.count = n + 1 ∧ n + 1 < 2 ^ 31
  | .nest, .testOne => l.owner = some t ∧ n = 0
  | .nest, .unsetCount => l.owner = some t ∧ n ≠ 0 ∧ l.count = n
  | .nest, .unsetStore v => l.owner = some t ∧ n ≠ 0 ∧ v + 1 = n ∧ l.count = n
  | .nest, .unsetOwner => l.owner = some t ∧ n = 1 ∧ l.count = 0
  | .nest, .unset => l.owner = none ∧ n = 1 ∧ l.count = 0

/-- The history is that of a lock, and the lock agrees with it. -/
structure Inv (k : LockKind) (s : LockState τ) (h : Holding τ) : Prop where
  history : holding k s.log = some h
  pos : ∀ t, h ≠ some (t, 0)
  word : LockInv ⟨s.lock.lock, false⟩ (Crit s h)
  small : ∀ t, h.nesting t < 2 ^ 31
  fine : ∀ t, Fine k s.lock h t (s.call t)
  free : k = .nest → s.lock.lock = 1 → s.lock.owner = none ∧ s.lock.count = 0

section Holding

variable {k : LockKind} {h h' : Holding τ} {t u : τ}

/-- The holder has the lock as often as it took it. -/
theorem nesting_self (t : τ) (n : Nat) : Holding.nesting (some (t, n)) t = n := if_pos rfl

/-- The others do not have it. -/
theorem nesting_other (hne : t ≠ u) (n : Nat) : Holding.nesting (some (t, n)) u = 0 :=
  if_neg hne

/-- The lock has one holder. -/
theorem eq_of_nesting_ne (hn : h.nesting t ≠ 0) : h = some (t, h.nesting t) := by
  match h with
  | none => exact absurd rfl hn
  | some (u, n) =>
    by_cases hu : u = t
    · subst hu
      rw [nesting_self]
    · exact absurd (nesting_other hu n) hn

/-- One more event of the log. -/
theorem holding_concat {log : List (LockEvent τ)} (hlog : holding k log = some h)
    (e : LockEvent τ) : holding k (log ++ [e]) = e.apply k h := by
  unfold holding at hlog ⊢
  rw [List.foldlM_append, hlog]
  change (e.apply k h >>= pure) = _
  rw [bind_pure]

end Holding

variable {k : LockKind} {s s' : LockState τ} {h h' : Holding τ} {t u : τ}
variable {l l' : NestLock τ} {c : LockCall} {w : Int} {n : Nat} {e : LockEvent τ}
  {a : LockAction τ}

/-- The word of the lock is no part of what a task knows. -/
theorem fine_setLock (w : Int) (hf : Fine k l h t c) : Fine k { l with lock := w } h t c := by
  cases k <;> cases c <;> exact hf

/-- A task that neither has the lock nor is in a call knows nothing. -/
theorem Fine.out (hf : Fine k l h t c) (hn : h.nesting t = 0) (hc : c.inside = false) :
    c.outside = true := by
  unfold Fine at hf
  dsimp only at hf
  rw [hn] at hf
  cases k with
  | simple =>
    cases c with
    | out => rfl
    | set pc => rfl
    | test pc => rfl
    | unset => cases hf
    | _ => exact hf.elim
  | nest =>
    cases c with
    | out => rfl
    | set pc => rfl
    | test pc => rfl
    | setOwner => rfl
    | testOwner => rfl
    | unset => cases hf.2.1
    | unsetOwner => cases hf.2.1
    | testCount => exact absurd rfl hf.2.1
    | testStore v => exact absurd rfl hf.2.1
    | testReturn => exact absurd rfl hf.2.1
    | unsetCount => exact absurd rfl hf.2.1
    | unsetStore v => exact absurd rfl hf.2.1
    | _ => cases hc

/-- Outside, a task does not depend on the lock. -/
theorem fine_of_outside (hf : Fine k l h t c) (hc : c.outside = true)
    (hn : h'.nesting t = 0) (ho : k = .nest → l'.owner ≠ some t) : Fine k l' h' t c := by
  unfold Fine at hf ⊢
  dsimp only at hf ⊢
  rw [hn]
  cases k with
  | simple =>
    cases c with
    | out => exact Nat.zero_le 1
    | set pc => exact Nat.zero_le 1
    | test pc => exact Nat.zero_le 1
    | setOwner => exact hf
    | testOwner => exact hf
    | _ => cases hc
  | nest =>
    have ho := ho rfl
    have hno : l'.owner = some t ↔ 0 ≠ 0 := iff_of_false ho fun h => h rfl
    have hcount : 0 ≠ 0 → l'.count = ((0 : Nat) : Int) := fun h => absurd rfl h
    cases c with
    | out => exact ⟨hno, hcount⟩
    | set pc => exact ⟨ho, rfl⟩
    | test pc => exact ⟨ho, rfl⟩
    | setOwner => exact ⟨hno, hcount, by decide⟩
    | testOwner => exact ⟨hno, hcount, by decide⟩
    | _ => cases hc

-- ======== the steps

/-- The others are in the critical section as before. -/
theorem crit_update (hcall : s'.call = update s.call t c) (hne : u ≠ t) :
    Crit s' h' u ↔ h'.nesting u ≠ 0 ∨ (s.call u).inside = true := by
  unfold Crit
  rw [hcall, update_of_ne hne]

/-- The task that moves is in the section when it has the lock or is inside
of a call. -/
theorem crit_self (hcall : s'.call = update s.call t c) :
    Crit s' h' t ↔ h'.nesting t ≠ 0 ∨ c.inside = true := by
  unfold Crit
  rw [hcall, update_self]

section

variable (hi : Inv k s h)
include hi

/-- What a move of one task must keep. -/
theorem Inv.move (hcall : s'.call = update s.call t c) (hlog : holding k s'.log = some h')
    (hpos : ∀ u, h' ≠ some (u, 0)) (hword : LockInv ⟨s'.lock.lock, false⟩ (Crit s' h'))
    (hsmall : h'.nesting t < 2 ^ 31) (hfine : Fine k s'.lock h' t c)
    (hfree : k = .nest → s'.lock.lock = 1 → s'.lock.owner = none ∧ s'.lock.count = 0)
    (hothers : ∀ u, u ≠ t → h'.nesting u ≤ h.nesting u ∧ Fine k s'.lock h' u (s.call u)) :
    Inv k s' h' where
  history := hlog
  pos := hpos
  word := hword
  small u := by
    by_cases hu : u = t
    · rw [hu]
      exact hsmall
    · exact Nat.lt_of_le_of_lt (hothers u hu).1 (hi.small u)
  fine u := by
    rw [hcall]
    by_cases hu : u = t
    · subst hu
      rw [update_self]
      exact hfine
    · rw [update_of_ne hu]
      exact (hothers u hu).2
  free := hfree

/-- A task moves outside of the section. -/
theorem Inv.outside (hcall : s'.call = update s.call t c)
    (hlock : s'.lock = { s.lock with lock := w }) (hlog : holding k s'.log = some h)
    (hword : LockInv ⟨w, false⟩ (Crit s h)) (hin : c.inside = (s.call t).inside)
    (hfine : Fine k s.lock h t c) : Inv k s' h := by
  have hcrit : ∀ u, Crit s' h u ↔ Crit s h u := by
    intro u
    by_cases hu : u = t
    · subst hu
      rw [crit_self hcall, hin]
      rfl
    · exact crit_update hcall hu
  refine hi.move hcall hlog hi.pos ?_ (hi.small t) ?_ ?_ fun u hu => ⟨Nat.le_refl _, ?_⟩
  · rw [hlock]
    exact hword.congr hcrit
  · rw [hlock]
    exact fine_setLock w hfine
  · rw [hlock]
    intro hk hw
    exact hi.free hk (hi.word.free_iff.mpr (hword.free_iff.mp hw))
  · rw [hlock]
    exact fine_setLock w (hi.fine u)

/-- While a task is in the section, the others have nothing. -/
theorem Inv.others (ht : Crit s h t) (hu : u ≠ t) (hn : h'.nesting u = 0)
    (ho : l'.owner ≠ some u) :
    h'.nesting u ≤ h.nesting u ∧ Fine k l' h' u (s.call u) := by
  have hno : ¬ Crit s h u := fun hc => hu (hi.word.unique u t hc ht)
  obtain ⟨hn', hin⟩ := not_or.mp hno
  refine ⟨by rw [hn]; exact Nat.zero_le _, ?_⟩
  exact fine_of_outside (hi.fine u)
    ((hi.fine u).out (not_not.mp hn') (Bool.eq_false_iff.mpr hin)) hn fun _ => ho

/-- A task moves within the section. -/
theorem Inv.own (ht : Crit s h t) (hcall : s'.call = update s.call t c)
    (hlock : s'.lock.lock = s.lock.lock) (hlog : holding k s'.log = some h')
    (hpos : ∀ u, h' ≠ some (u, 0))
    (hown : ∀ u, u ≠ t → h'.nesting u = 0 ∧ s'.lock.owner ≠ some u)
    (ht' : h'.nesting t ≠ 0 ∨ c.inside = true) (hsmall : h'.nesting t < 2 ^ 31)
    (hfine : Fine k s'.lock h' t c) : Inv k s' h' := by
  have hcrit : ∀ u, Crit s' h' u ↔ Crit s h u := by
    intro u
    by_cases hu : u = t
    · subst hu
      exact iff_of_true ((crit_self hcall).mpr ht') ht
    · have hno : ¬ Crit s h u := fun hc => hu (hi.word.unique u t hc ht)
      rw [crit_update hcall hu, (hown u hu).1]
      refine iff_of_false (fun hc => ?_) hno
      exact hno (.inr (hc.resolve_left fun h => h rfl))
  refine hi.move hcall hlog hpos ?_ hsmall hfine (fun _ hw => ?_) fun u hu => ?_
  · rw [hlock]
    exact hi.word.congr hcrit
  · rw [hlock] at hw
    exact absurd ht (hi.word.free_iff.mp hw t)
  · exact hi.others ht hu (hown u hu).1 (hown u hu).2

/-- A task takes the free lock. -/
theorem Inv.enter (hnone : ∀ u, ¬ Crit s h u) (hcall : s'.call = update s.call t c)
    (hlock : s'.lock = { s.lock with lock := 0 }) (hlog : holding k s'.log = some h')
    (hpos : ∀ u, h' ≠ some (u, 0)) (hown : ∀ u, u ≠ t → h'.nesting u = 0)
    (ht' : h'.nesting t ≠ 0 ∨ c.inside = true) (hsmall : h'.nesting t < 2 ^ 31)
    (hfine : Fine k s'.lock h' t c) : Inv k s' h' := by
  have hcrit : ∀ u, Crit s' h' u ↔ u = t := by
    intro u
    by_cases hu : u = t
    · subst hu
      exact iff_of_true ((crit_self hcall).mpr ht') rfl
    · rw [crit_update hcall hu, hown u hu]
      refine iff_of_false (fun hc => ?_) hu
      exact hnone u (.inr (hc.resolve_left fun h => h rfl))
  refine hi.move hcall hlog hpos (LockInv.taken (by rw [hlock]) hcrit) hsmall hfine
    (fun _ hw => ?_) fun u hu => ?_
  · rw [hlock] at hw
    cases hw
  · obtain ⟨hn, hin⟩ := not_or.mp (hnone u)
    have hout := (hi.fine u).out (not_not.mp hn) (Bool.eq_false_iff.mpr hin)
    refine ⟨by rw [hown u hu]; exact Nat.zero_le _, ?_⟩
    rw [hlock]
    refine fine_setLock 0 (fine_of_outside (hi.fine u) hout (hown u hu) fun hk => ?_)
    rw [(hi.free hk (hi.word.free_iff.mpr hnone)).1]
    exact nofun

/-- A task gives the lock back. -/
theorem Inv.leave (ht : Crit s h t) (hcall : s'.call = update s.call t .out)
    (hlock : s'.lock = { s.lock with lock := 1 }) (hlog : holding k s'.log = some none)
    (howner : k = .nest → s.lock.owner = none ∧ s.lock.count = 0) : Inv k s' none := by
  have hno : ∀ u, ¬ Crit s' none u := by
    intro u
    by_cases hu : u = t
    · subst hu
      rw [crit_self hcall]
      exact not_or.mpr ⟨fun h => h rfl, Bool.false_ne_true⟩
    · rw [crit_update hcall hu]
      refine not_or.mpr ⟨fun h => h rfl, fun hin => ?_⟩
      exact hu (hi.word.unique u t (.inr hin) ht)
  have hword : LockInv ⟨1, false⟩ (Crit s' none) :=
    ⟨Int.le_refl _, iff_of_true rfl hno, fun u _ hu => absurd hu (hno u)⟩
  have hfine : Fine k s'.lock none t .out := by
    rw [hlock]
    cases k with
    | simple => exact Nat.zero_le 1
    | nest =>
      refine ⟨iff_of_false ?_ fun h => h rfl, fun h => absurd rfl h⟩
      rw [(howner rfl).1]
      exact nofun
  refine hi.move hcall hlog (fun _ => nofun) ?_ (by decide : 0 < 2 ^ 31) hfine
    (fun hk _ => ?_) fun u hu => ?_
  · rw [hlock]
    exact hword
  · rw [hlock]
    exact howner hk
  · have hn : ¬ Crit s h u := fun hc => hu (hi.word.unique u t hc ht)
    obtain ⟨hn, hin⟩ := not_or.mp hn
    have hout := (hi.fine u).out (not_not.mp hn) (Bool.eq_false_iff.mpr hin)
    refine ⟨Nat.zero_le _, ?_⟩
    rw [hlock]
    refine fine_setLock 1 (fine_of_outside (hi.fine u) hout rfl fun hk => ?_)
    rw [(howner hk).1]
    exact nofun

end

-- ======== one action

/-- omp_set_lock is the lock of kaapi_atomic.h. -/
theorem kompSetLock_eq (pc : LockPc) (w : Int) : atomicLock pc ⟨w, false⟩
    = (⟨(kompSetLock pc w).1, false⟩, (kompSetLock pc w).2) := by
  unfold atomicLock kompSetLock
  cases pc with
  | decr =>
    dsimp only
    split <;> rfl
  | spin =>
    dsimp only
    split <;> rfl

/-- omp_test_lock is its trylock. -/
theorem kompTestLock_eq (pc : TrylockPc) (w : Int) : atomicTrylock pc ⟨w, false⟩
    = (⟨(kompTestLock pc w).1, false⟩, (kompTestLock pc w).2) := by
  unfold atomicTrylock kompTestLock
  cases pc with
  | read =>
    dsimp only
    split <;> rfl
  | decr => rfl

/-- A count below 2^31 does not wrap. -/
theorem toInt32_eq {v : Int} (hv : v = n) (hn : n < 2 ^ 31) : toInt32 v = n := by
  unfold toInt32
  rw [hv]
  exact Int.bmod_eq_of_le (by omega) (by omega)

/-- A lock that nobody has is free. -/
theorem Inv.eq_none (hi : Inv k s h) (hnone : ∀ u, h.nesting u = 0) : h = none := by
  match hh : h with
  | none => rfl
  | some (u, n) =>
    have hn := hnone u
    rw [nesting_self] at hn
    subst hn
    exact absurd rfl (hi.pos u)

section

variable (hi : Inv k s h) (hothers : ∀ u, u ≠ t → h.nesting u = 0)
  (hk : k = .nest ∨ h.nesting t = 0)
include hi hothers hk

/-- The task that takes the lock is its holder, once more. -/
theorem Inv.acquire : h.acquire k t = some (some (t, h.nesting t + 1)) := by
  by_cases hn : h.nesting t = 0
  · have hnone : ∀ u, h.nesting u = 0 := by
      intro u
      by_cases hu : u = t
      · rw [hu]
        exact hn
      · exact hothers u hu
    rw [hi.eq_none hnone]
    rfl
  · rw [eq_of_nesting_ne hn, nesting_self]
    exact if_pos ⟨hk.resolve_right hn, rfl⟩

/-- The log after a lock. -/
theorem Inv.apply_set :
    holding k (s.log ++ [.set t]) = some (some (t, h.nesting t + 1)) :=
  (holding_concat hi.history _).trans (hi.acquire hothers hk)

/-- The log after a test that took the lock. -/
theorem Inv.apply_tested {v : Int} (hv : v = h.nesting t + 1) :
    holding k (s.log ++ [.tested t v]) = some (some (t, h.nesting t + 1)) := by
  refine (holding_concat hi.history _).trans ?_
  refine (if_neg (by omega)).trans ?_
  rw [hi.acquire hothers hk]
  exact if_pos hv

end

/-- The log after a test that did not. -/
theorem Inv.apply_refused (hi : Inv k s h) (hk : k = .nest → h.nesting t = 0) :
    holding k (s.log ++ [.tested t 0]) = some h := by
  refine (holding_concat hi.history _).trans ?_
  unfold LockEvent.apply
  dsimp only
  rw [if_pos rfl, if_neg]
  exact fun ⟨hnest, hn⟩ => hn (hk hnest)

/-- The log after an unlock. -/
theorem Inv.apply_unset (hi : Inv k s h) (hn : h.nesting t ≠ 0) (released : Bool)
    (hr : released = (h.nesting t == 1)) : holding k (s.log ++ [.unset t released])
      = some (if h.nesting t = 1 then none else some (t, h.nesting t - 1)) := by
  refine (holding_concat hi.history _).trans ?_
  rw [eq_of_nesting_ne hn, nesting_self]
  exact if_pos ⟨rfl, hr⟩

omit [DecidableEq τ] in
theorem pos_some (hn : n ≠ 0) (u : τ) : (some (t, n) : Holding τ) ≠ some (u, 0) := by
  intro heq
  cases heq
  exact hn rfl

/-- A task takes the free simple lock. -/
theorem Inv.enter_simple (hi : Inv .simple s h) (hnone : ∀ u, ¬ Crit s h u)
    (he : holding .simple (s.log ++ [e]) = some (some (t, 1))) :
    Inv .simple (s.returns t { s.lock with lock := 0 } e) (some (t, 1)) := by
  refine hi.enter (c := .out) hnone rfl rfl he (pos_some (by decide))
    (fun u hu => nesting_other hu.symm 1) (.inl ?_) ?_ ?_
  · rw [nesting_self]
    decide
  · rw [nesting_self]
    decide
  · exact (nesting_self t 1).le

/-- An access of omp_set_lock. -/
theorem Inv.afterSet (hi : Inv k s h) {pc : LockPc} (hc : s.call t = .set pc) :
    ∃ h', Inv k (s.afterSet k t (kompSetLock pc s.lock.lock)) h' := by
  have hf := hi.fine t
  have heq := kompSetLock_eq pc s.lock.lock
  rw [hc] at hf
  rcases hres : kompSetLock pc s.lock.lock with ⟨w, r⟩
  rw [hres] at heq
  cases r with
  | some pc' =>
    refine ⟨h, hi.outside (c := .set pc') rfl rfl hi.history (hi.word.lock_pending heq) ?_ ?_⟩
    · rw [hc]
      rfl
    · cases k <;> exact hf
  | none =>
    obtain ⟨hw, hnone⟩ := hi.word.lock_found_free heq
    dsimp only at hw
    subst hw
    have hn : ∀ u, h.nesting u = 0 := fun u => not_not.mp (not_or.mp (hnone u)).1
    cases k with
    | simple =>
      have he := hi.apply_set (fun u _ => hn u) (.inr (hn t))
      rw [hn t] at he
      exact ⟨some (t, 1), hi.enter_simple hnone he⟩
    | nest =>
      obtain ⟨ho, hcount⟩ := hi.free rfl (hi.word.free_iff.mpr hnone)
      exact ⟨h, hi.enter (t := t) (c := .setClaim) hnone rfl rfl hi.history hi.pos
        (fun u _ => hn u) (.inr rfl) (hi.small t) ⟨ho, hn t, hcount⟩⟩

/-- An access of omp_test_lock. -/
theorem Inv.afterTest (hi : Inv k s h) {pc : TrylockPc} (hc : s.call t = .test pc) :
    ∃ h', Inv k (s.afterTest k t (kompTestLock pc s.lock.lock)) h' := by
  have hf := hi.fine t
  have heq := kompTestLock_eq pc s.lock.lock
  rw [hc] at hf
  rcases hres : kompTestLock pc s.lock.lock with ⟨w, r⟩
  rw [hres] at heq
  match r with
  | .inl pc' =>
    refine ⟨h, hi.outside (c := .test pc') rfl rfl hi.history
      (hi.word.trylock_pending (r := .inl pc') nofun heq) ?_ ?_⟩
    · rw [hc]
      rfl
    · cases k <;> exact hf
  | .inr false =>
    have he : holding k (s.log ++ [.tested t 0]) = some h := by
      refine hi.apply_refused fun hk => ?_
      subst hk
      exact hf.2
    refine ⟨h, hi.outside (c := .out) rfl rfl he
      (hi.word.trylock_pending (r := .inr false) nofun heq) ?_ ?_⟩
    · rw [hc]
      rfl
    · cases k with
      | simple => exact hf
      | nest => exact ⟨iff_of_false hf.1 fun hn => hn hf.2, fun hn => absurd hf.2 hn⟩
  | .inr true =>
    obtain ⟨hw, hnone⟩ := hi.word.trylock_found_free heq
    dsimp only at hw
    subst hw
    have hn : ∀ u, h.nesting u = 0 := fun u => not_not.mp (not_or.mp (hnone u)).1
    cases k with
    | simple =>
      have he := hi.apply_tested (v := 1) (fun u _ => hn u) (.inr (hn t)) (by rw [hn t]; rfl)
      rw [hn t] at he
      exact ⟨some (t, 1), hi.enter_simple hnone he⟩
    | nest =>
      obtain ⟨ho, hcount⟩ := hi.free rfl (hi.word.free_iff.mpr hnone)
      exact ⟨h, hi.enter (t := t) (c := .testClaim) hnone rfl rfl hi.history hi.pos
        (fun u _ => hn u) (.inr rfl) (hi.small t) ⟨ho, hn t, hcount⟩⟩

/-- The holder moves in a call on a nestable lock. -/
theorem Inv.own_nest (hi : Inv .nest s h) (ht : Crit s h t)
    (hcall : s'.call = update s.call t c)
    (hlock : s'.lock.lock = s.lock.lock) (hlog : s'.log = s.log)
    (howner : s'.lock.owner = none ∨ s'.lock.owner = some t)
    (ht' : h.nesting t ≠ 0 ∨ c.inside = true) (hfine : Fine .nest s'.lock h t c) :
    Inv .nest s' h := by
  refine hi.own ht hcall hlock (by rw [hlog]; exact hi.history) hi.pos (fun u hu => ⟨?_, ?_⟩)
    ht' (hi.small t) hfine
  · have hno : ¬ Crit s h u := fun hc => hu (hi.word.unique u t hc ht)
    exact not_not.mp (not_or.mp hno).1
  · rcases howner with ho | ho
    · rw [ho]
      exact nofun
    · rw [ho]
      exact fun heq => hu (Option.some.inj heq).symm

/-- The holder returns from such a call. -/
theorem Inv.returns_nest (hi : Inv .nest s h) (ht : Crit s h t) (e : LockEvent τ)
    (he : holding .nest (s.log ++ [e]) = some (some (t, n)))
    (hlock : l.lock = s.lock.lock) (howner : l.owner = some t) (hcount : l.count = n)
    (hn : n ≠ 0) (hsmall : n < 2 ^ 31) : Inv .nest (s.returns t l e) (some (t, n)) := by
  refine hi.own (c := .out) ht rfl hlock he (pos_some hn) (fun u hu => ⟨?_, ?_⟩) (.inl ?_) ?_ ?_
  · exact nesting_other hu.symm n
  · change l.owner ≠ some u
    rw [howner]
    exact fun heq => hu (Option.some.inj heq).symm
  · rw [nesting_self]
    exact hn
  · rw [nesting_self]
    exact hsmall
  · refine ⟨?_, ?_⟩
    · rw [nesting_self]
      exact iff_of_true howner hn
    · rw [nesting_self]
      exact fun _ => hcount

/-- While a task is in the section, no other one has the lock. -/
theorem Inv.others_zero (hi : Inv k s h) (ht : Crit s h t) (u : τ) (hu : u ≠ t) :
    h.nesting u = 0 := by
  have hno : ¬ Crit s h u := fun hc => hu (hi.word.unique u t hc ht)
  exact not_not.mp (not_or.mp hno).1

/-- The unlock of a simple lock. -/
theorem Inv.afterUnset (hi : Inv k s h) (hc : s.call t = .unset) :
    Inv k (s.returns t { s.lock with lock := kompUnsetLock } (.unset t true)) none := by
  have hf := hi.fine t
  rw [hc] at hf
  have hone : h.nesting t = 1 := by
    cases k with
    | simple => exact hf
    | nest => exact hf.2.1
  have hn : h.nesting t ≠ 0 := by
    rw [hone]
    decide
  have he := hi.apply_unset hn true (by rw [hone]; rfl)
  rw [if_pos hone] at he
  refine hi.leave (.inl hn) rfl rfl he fun hk => ?_
  subst hk
  exact ⟨hf.1, hf.2.2⟩

/-- Every access of a nestable call keeps the invariant. -/
theorem Inv.next_nest (hi : Inv .nest s h) (hs : s.next .nest t = some s') :
    ∃ h', Inv .nest s' h' := by
  have hf := hi.fine t
  unfold LockState.next LockState.access at hs
  dsimp only at hs
  cases hc : s.call t with
  | out =>
    rw [hc] at hs
    cases hs
  | set pc =>
    rw [hc] at hs
    cases hs
    exact hi.afterSet hc
  | test pc =>
    rw [hc] at hs
    cases hs
    exact hi.afterTest hc
  | unset =>
    rw [hc] at hs
    cases hs
    exact ⟨none, hi.afterUnset hc⟩
  | setOwner =>
    rw [hc] at hs hf
    cases hs
    obtain ⟨howner, hcount, hsmall⟩ := hf
    by_cases ho : s.lock.owner = some t
    · have hn := howner.mp ho
      rw [if_neg (not_not.mpr ho)]
      refine ⟨h, hi.own_nest (c := .setCount) (.inl hn) rfl rfl rfl (.inr ho) (.inl hn) ?_⟩
      exact ⟨ho, hcount hn, hsmall⟩
    · have hn : h.nesting t = 0 := not_not.mp (mt howner.mpr ho)
      rw [if_pos ho]
      refine ⟨h, hi.outside (c := .set .decr) rfl rfl hi.history hi.word ?_ ⟨ho, hn⟩⟩
      rw [hc]
      rfl
  | setClaim =>
    rw [hc] at hs hf
    cases hs
    obtain ⟨-, hn, hcount⟩ := hf
    have hin : Crit s h t := .inr (by rw [hc]; rfl)
    refine ⟨h, hi.own_nest (c := .setCount) hin rfl rfl rfl (.inr rfl) (.inr rfl) ⟨rfl, ?_⟩⟩
    rw [hn]
    exact ⟨hcount, by decide⟩
  | setCount =>
    rw [hc] at hs hf
    cases hs
    obtain ⟨ho, hcount, hsmall⟩ := hf
    have hin : Crit s h t := .inr (by rw [hc]; rfl)
    have hv : toInt32 (s.lock.count + 1) = ((h.nesting t + 1 : Nat) : Int) :=
      toInt32_eq (by omega) hsmall
    rw [hv]
    exact ⟨h, hi.own_nest (c := .setStore _) hin rfl rfl rfl (.inr ho) (.inr rfl)
      ⟨ho, rfl, hsmall⟩⟩
  | setStore v =>
    rw [hc] at hs hf
    cases hs
    obtain ⟨ho, rfl, hsmall⟩ := hf
    have hin : Crit s h t := .inr (by rw [hc]; rfl)
    exact ⟨_, hi.returns_nest hin _ (hi.apply_set (hi.others_zero hin) (.inl rfl)) rfl ho rfl
      (Nat.succ_ne_zero _) hsmall⟩
  | testOwner =>
    rw [hc] at hs hf
    cases hs
    obtain ⟨howner, hcount, hsmall⟩ := hf
    by_cases ho : s.lock.owner = some t
    · have hn := howner.mp ho
      rw [if_pos ho]
      refine ⟨h, hi.own_nest (c := .testCount) (.inl hn) rfl rfl rfl (.inr ho) (.inl hn) ?_⟩
      exact ⟨ho, hn, hcount hn, hsmall⟩
    · have hn : h.nesting t = 0 := not_not.mp (mt howner.mpr ho)
      rw [if_neg ho]
      refine ⟨h, hi.outside (c := .test .read) rfl rfl hi.history hi.word ?_ ⟨ho, hn⟩⟩
      rw [hc]
      rfl
  | testCount =>
    rw [hc] at hs hf
    cases hs
    obtain ⟨ho, hn, hcount, hsmall⟩ := hf
    have hv : toInt32 (s.lock.count + 1) = ((h.nesting t + 1 : Nat) : Int) :=
      toInt32_eq (by omega) hsmall
    rw [hv]
    exact ⟨h, hi.own_nest (c := .testStore _) (.inl hn) rfl rfl rfl (.inr ho) (.inl hn)
      ⟨ho, hn, rfl, hsmall⟩⟩
  | testStore v =>
    rw [hc] at hs hf
    cases hs
    obtain ⟨ho, hn, rfl, hsmall⟩ := hf
    exact ⟨h, hi.own_nest (c := .testReturn) (.inl hn) rfl rfl rfl (.inr ho) (.inl hn)
      ⟨ho, hn, rfl, hsmall⟩⟩
  | testReturn =>
    rw [hc] at hs hf
    cases hs
    obtain ⟨ho, hn, hcount, hsmall⟩ := hf
    have hin : Crit s h t := .inl hn
    exact ⟨_, hi.returns_nest hin _
      (hi.apply_tested (hi.others_zero hin) (.inl rfl) hcount) rfl ho hcount
      (Nat.succ_ne_zero _) hsmall⟩
  | testClaim =>
    rw [hc] at hs hf
    cases hs
    obtain ⟨-, hn, -⟩ := hf
    have hin : Crit s h t := .inr (by rw [hc]; rfl)
    exact ⟨h, hi.own_nest (c := .testOne) hin rfl rfl rfl (.inr rfl) (.inr rfl) ⟨rfl, hn⟩⟩
  | testOne =>
    rw [hc] at hs hf
    cases hs
    obtain ⟨ho, hn⟩ := hf
    have hin : Crit s h t := .inr (by rw [hc]; rfl)
    have he := hi.apply_tested (v := 1) (hi.others_zero hin) (.inl rfl) (by rw [hn]; rfl)
    rw [hn] at he
    exact ⟨_, hi.returns_nest hin _ he rfl ho rfl (by decide) (by decide)⟩
  | unsetCount =>
    rw [hc] at hs hf
    cases hs
    obtain ⟨ho, hn, hcount⟩ := hf
    have hsmall := hi.small t
    have hv : toInt32 (s.lock.count - 1) = ((h.nesting t - 1 : Nat) : Int) :=
      toInt32_eq (by omega) (by omega)
    rw [hv]
    refine ⟨h, hi.own_nest (c := .unsetStore _) (.inl hn) rfl rfl rfl (.inr ho) (.inl hn) ?_⟩
    exact ⟨ho, hn, by omega, hcount⟩
  | unsetStore v =>
    rw [hc] at hs hf
    cases hs
    obtain ⟨ho, hn, hv, hcount⟩ := hf
    have hsmall := hi.small t
    by_cases hz : v = 0
    · subst hz
      rw [if_pos rfl]
      exact ⟨h, hi.own_nest (c := .unsetOwner) (.inl hn) rfl rfl rfl (.inr ho) (.inl hn)
        ⟨ho, by omega, rfl⟩⟩
    · have hone : h.nesting t ≠ 1 := by omega
      have hv' : v = ((h.nesting t - 1 : Nat) : Int) := by omega
      have he := hi.apply_unset hn false (beq_eq_false_iff_ne.mpr hone).symm
      rw [if_neg hone] at he
      rw [if_neg hz]
      exact ⟨_, hi.returns_nest (.inl hn) _ he rfl ho hv' (by omega) (by omega)⟩
  | unsetOwner =>
    rw [hc] at hs hf
    cases hs
    obtain ⟨-, hone, hcount⟩ := hf
    have hn : h.nesting t ≠ 0 := by
      rw [hone]
      decide
    exact ⟨h, hi.own_nest (c := .unset) (.inl hn) rfl rfl rfl (.inl rfl) (.inl hn)
      ⟨rfl, hone, hcount⟩⟩

/-- Every access keeps it. -/
theorem Inv.next (hi : Inv k s h) (hs : s.next k t = some s') : ∃ h', Inv k s' h' := by
  cases k with
  | nest => exact hi.next_nest hs
  | simple =>
    have hf := hi.fine t
    unfold LockState.next LockState.access at hs
    dsimp only at hs
    cases hc : s.call t with
    | out =>
      rw [hc] at hs
      cases hs
    | set pc =>
      rw [hc] at hs
      cases hs
      exact hi.afterSet hc
    | test pc =>
      rw [hc] at hs
      cases hs
      exact hi.afterTest hc
    | unset =>
      rw [hc] at hs
      cases hs
      exact ⟨none, hi.afterUnset hc⟩
    | _ =>
      rw [hc] at hf
      exact hf.elim

/-- A task begins a call when it is in none. -/
theorem begins_eq_some (hs : s.begins t c = some s') :
    s.call t = .out ∧ s' = s.goes t s.lock c := by
  unfold LockState.begins at hs
  split at hs
  next hc =>
    cases hs
    exact ⟨hc, rfl⟩
  next => cases hs

/-- The begin of a call keeps the invariant. -/
theorem Inv.begins (hi : Inv k s h) (hs : s.begins t c = some s') (hc : c.inside = false)
    (hfine : Fine k s.lock h t .out → Fine k s.lock h t c) : Inv k s' h := by
  obtain ⟨hout, rfl⟩ := begins_eq_some hs
  have hf := hi.fine t
  rw [hout] at hf
  refine hi.outside (c := c) rfl rfl hi.history hi.word ?_ (hfine hf)
  rw [hout, hc]
  rfl

/-- The count of the lock is that of the log. -/
theorem Inv.nesting_eq (hi : Inv k s h) (t : τ) : s.nesting k t = h.nesting t := by
  unfold LockState.nesting
  rw [hi.history]
  rfl

/-- Every step keeps the invariant, below 2^31 nestings. -/
theorem Inv.step (hi : Inv k s h) (hb : LockState.Below k a s)
    (hs : LockState.step k a s = some s') : ∃ h', Inv k s' h' := by
  cases a with
  | step t => exact hi.next hs
  | set t =>
    cases k with
    | simple => exact ⟨h, hi.begins hs rfl fun hf => hf⟩
    | nest =>
      have hsmall := hb rfl
      rw [hi.nesting_eq] at hsmall
      exact ⟨h, hi.begins hs rfl fun hf => ⟨hf.1, hf.2, hsmall⟩⟩
  | test t =>
    cases k with
    | simple => exact ⟨h, hi.begins hs rfl fun hf => hf⟩
    | nest =>
      have hsmall := hb rfl
      rw [hi.nesting_eq] at hsmall
      exact ⟨h, hi.begins hs rfl fun hf => ⟨hf.1, hf.2, hsmall⟩⟩
  | unset t =>
    unfold LockState.step at hs
    dsimp only at hs
    rw [hi.nesting_eq] at hs
    split at hs
    next => cases hs
    next hn =>
      cases k with
      | simple =>
        refine ⟨h, hi.begins hs rfl fun hf => ?_⟩
        exact Nat.le_antisymm hf (Nat.pos_of_ne_zero hn)
      | nest => exact ⟨h, hi.begins hs rfl fun hf => ⟨hf.1.mpr hn, hn, hf.2 hn⟩⟩

/-- A lock that was just initialised. -/
theorem inv_init : Inv k (LockState.init : LockState τ) none where
  history := rfl
  pos _ := nofun
  word := LockInv.init fun _ hc => hc.elim (fun h => h rfl) Bool.false_ne_true
  small _ := (by decide : 0 < 2 ^ 31)
  fine t := by
    cases k with
    | simple => exact Nat.zero_le 1
    | nest => exact ⟨iff_of_false nofun fun h => h rfl, fun h => absurd rfl h⟩
  free _ _ := ⟨rfl, rfl⟩

/-- Every run below the bound keeps it. -/
theorem inv_of_run {as : List (LockAction τ)}
    (hb : Along (LockState.step k) (LockState.Below k) as LockState.init)
    (hr : run (LockState.step k) as LockState.init = some s) : ∃ h, Inv k s h :=
  hb.run_inv (P := fun s => ∃ h, Inv k s h) (fun hq hP hs => hP.elim fun _ hi => hi.step hq hs)
    ⟨none, inv_init⟩ hr

-- ======== acquirable

theorem goes_call (s : LockState τ) (t : τ) (l : NestLock τ) (c : LockCall) :
    (s.goes t l c).call t = c :=
  update_self ..

theorem next_goes (s : LockState τ) (t : τ) (l : NestLock τ) (c : LockCall) :
    (s.goes t l c).next k t = (s.goes t l c).access k t c :=
  congrArg (LockState.access k _ t) (goes_call s t l c)

/-- Steps of one task alone up to the end of its call. -/
def Ends (k : LockKind) (t : τ) (s : LockState τ) (log : List (LockEvent τ)) : Prop :=
  ∃ n s', run (LockState.step k) (List.replicate n (.step t)) s = some s' ∧ s'.log = log

theorem ends_refl (s : LockState τ) : Ends k t s s.log := ⟨0, s, rfl, rfl⟩

/-- A call that ends after an access ends before it. -/
theorem ends_goes {log : List (LockEvent τ)} (hs : (s.goes t l c).access k t c = some s')
    (h : Ends k t s' log) : Ends k t (s.goes t l c) log := by
  obtain ⟨n, s'', hr, hlog⟩ := h
  refine ⟨n + 1, s'', ?_, hlog⟩
  rw [List.replicate_succ]
  exact run_cons_eq_some.mpr ⟨s', (next_goes s t l c).trans hs, hr⟩

/-- A call that begins ends, by steps of its task. -/
theorem ends_call {log : List (LockEvent τ)} (hs : LockState.step k a s = some s')
    (h : Ends k t s' log) :
    ∃ n s'', run (LockState.step k) (a :: List.replicate n (.step t)) s = some s''
      ∧ s''.log = log := by
  obtain ⟨n, s'', hr, hlog⟩ := h
  exact ⟨n, s'', run_cons_eq_some.mpr ⟨s', hs, hr⟩, hlog⟩

/-- A free lock can be taken. -/
theorem acquirable_of_free (hw : s.lock.lock = 1) (ho : k = .nest → s.lock.owner = none) :
    s.Acquirable k := by
  intro t hout
  obtain ⟨⟨w, n, o⟩, call, log⟩ := s
  change w = 1 at hw
  subst hw
  cases k with
  | simple =>
    refine ⟨ends_call (if_pos hout) ?_, ends_call (if_pos hout) ?_⟩
    · exact ends_goes rfl (ends_refl _)
    · exact ends_goes rfl (ends_goes rfl (ends_refl _))
  | nest =>
    obtain rfl : o = none := ho rfl
    refine ⟨ends_call (if_pos hout) ?_, ends_call (if_pos hout) ?_⟩
    · refine ends_goes rfl (ends_goes rfl (ends_goes rfl (ends_goes rfl (ends_goes rfl ?_))))
      exact ends_refl _
    · refine ends_goes rfl (ends_goes rfl (ends_goes rfl (ends_goes rfl (ends_goes rfl ?_))))
      exact ends_refl _

theorem goes_released (h : (s.goes t l c).log = s.log ++ [e]) : False := by
  have hlen := congrArg List.length h
  rw [List.length_append] at hlen
  exact absurd hlen (Nat.ne_of_lt (Nat.lt_succ_self _))

theorem returns_eq {e' : LockEvent τ} (h : (s.returns t l e).log = s.log ++ [e']) :
    e = e' :=
  (List.cons.inj (List.append_cancel_left h)).1

/-- Only an unlock releases the lock. -/
theorem access_released (hs : s.access k t c = some s')
    (hlog : s'.log = s.log ++ [.unset u true]) :
    c = .unset ∧ s'.lock = { s.lock with lock := 1 } := by
  unfold LockState.access at hs
  dsimp only at hs
  cases c with
  | out => cases hs
  | unset =>
    cases hs
    exact ⟨rfl, rfl⟩
  | set pc =>
    cases hs
    rcases hres : kompSetLock pc s.lock.lock with ⟨w, _ | pc'⟩
    · rw [hres] at hlog
      cases k with
      | simple => cases returns_eq hlog
      | nest => exact (goes_released hlog).elim
    · rw [hres] at hlog
      exact (goes_released hlog).elim
  | test pc =>
    cases hs
    rcases hres : kompTestLock pc s.lock.lock with ⟨w, pc' | _ | _⟩
    · rw [hres] at hlog
      exact (goes_released hlog).elim
    · rw [hres] at hlog
      cases returns_eq hlog
    · rw [hres] at hlog
      cases k with
      | simple => cases returns_eq hlog
      | nest => exact (goes_released hlog).elim
  | unsetStore v =>
    cases hs
    split at hlog
    next => exact (goes_released hlog).elim
    next => cases returns_eq hlog
  | setStore v =>
    cases hs
    cases returns_eq hlog
  | testReturn =>
    cases hs
    cases returns_eq hlog
  | testOne =>
    cases hs
    cases returns_eq hlog
  | _ =>
    cases hs
    exact (goes_released hlog).elim

/-- A lock that was just released can be taken. -/
theorem Inv.acquirable (hi : Inv k s h) (hs : LockState.step k a s = some s')
    (hlog : s'.log = s.log ++ [.unset t true]) : s'.Acquirable k := by
  cases a with
  | set u =>
    obtain ⟨-, rfl⟩ := begins_eq_some hs
    exact (goes_released hlog).elim
  | test u =>
    obtain ⟨-, rfl⟩ := begins_eq_some hs
    exact (goes_released hlog).elim
  | unset u =>
    unfold LockState.step at hs
    dsimp only at hs
    split at hs
    next => cases hs
    next =>
      obtain ⟨-, rfl⟩ := begins_eq_some hs
      exact (goes_released hlog).elim
  | step u =>
    obtain ⟨hc, hlock⟩ := access_released hs hlog
    have hf := hi.fine u
    rw [hc] at hf
    refine acquirable_of_free (by rw [hlock]) fun hk => ?_
    subst hk
    rw [hlock]
    exact hf.1

-- ======== results

/-- The invariant gives mutual exclusion and the counts. -/
theorem Inv.correct (hi : Inv k s h) : s.Correct k where
  history := ⟨h, hi.history⟩
  taken t hn hw := by
    rw [hi.nesting_eq] at hn
    exact hi.word.free_iff.mp hw t (.inl hn)
  acquirable _ _ _ hs hlog := hi.acquirable hs hlog

/-- Whatever the tasks do in whatever order, as long as the `int` of a
nestable lock can count the acquisitions. -/
theorem omp_locks_correct {as : List (LockAction τ)}
    (hr : run (LockState.step k) as LockState.init = some s)
    (hb : Along (LockState.step k) (LockState.Below k) as LockState.init) :
    s.Correct k := by
  obtain ⟨h, hi⟩ := inv_of_run hb hr
  exact hi.correct

/-- Two tasks: the test of the second one finds the lock free, and its
decrement comes after that of the first one. -/
def contended : List (LockAction Nat) :=
  [.set 0, .step 0, .test 1, .step 1, .step 1, .step 0, .step 1, .step 0, .step 0, .step 0,
    .unset 0, .step 0, .step 0, .step 0, .step 0]

/-- The lock is released all the same. -/
theorem omp_locks_correct_contended :
    ∃ s, run (LockState.step .nest) contended LockState.init = some s
      ∧ s.log = [.tested 1 0, .set 0, .unset 0 true] ∧ s.Correct .nest := by
  have hlog : (run (LockState.step .nest) contended LockState.init).map LockState.log
      = some [.tested 1 0, .set 0, .unset 0 true] := by decide
  obtain ⟨s, hr, hlog⟩ := Option.map_eq_some_iff.mp hlog
  exact ⟨s, hr, hlog, omp_locks_correct hr (by decide)⟩

-- ======== the int overflows

section Overflow

variable {s : LockState Unit} {c : Int}

/-- The holder takes a nestable lock once more. -/
theorem set_again (hout : s.call () = .out) (hl : s.lock = ⟨0, c, some ()⟩) :
    ∃ s', run (LockState.step .nest) [.set (), .step (), .step (), .step ()] s = some s'
      ∧ s'.call () = .out ∧ s'.lock = ⟨0, toInt32 (c + 1), some ()⟩
      ∧ s'.log = s.log ++ [.set ()] := by
  obtain ⟨l, call, log⟩ := s
  change l = _ at hl
  subst hl
  exact ⟨_, run_cons_eq_some.mpr ⟨_, if_pos hout, rfl⟩, rfl, rfl, rfl⟩

theorem test_again (hout : s.call () = .out) (hl : s.lock = ⟨0, c, some ()⟩) :
    ∃ s', run (LockState.step .nest) [.test (), .step (), .step (), .step (), .step ()] s
        = some s'
      ∧ s'.log = s.log ++ [.tested () (toInt32 (c + 1))] := by
  obtain ⟨l, call, log⟩ := s
  change l = _ at hl
  subst hl
  exact ⟨_, run_cons_eq_some.mpr ⟨_, if_pos hout, rfl⟩, rfl⟩

theorem nested_sets (n : Nat) (hn : n + 1 < 2 ^ 31) :
    ∃ as s, run (LockState.step .nest) as (LockState.init : LockState Unit) = some s
      ∧ s.call () = .out ∧ s.lock = ⟨0, n + 1, some ()⟩
      ∧ holding .nest s.log = some (some ((), n + 1)) := by
  induction n with
  | zero =>
    exact ⟨[.set (), .step (), .step (), .step (), .step (), .step ()], _, rfl, rfl, rfl, rfl⟩
  | succ n ih =>
    obtain ⟨as, s, hr, hout, hl, hlog⟩ := ih (Nat.lt_of_succ_lt hn)
    obtain ⟨s', hr', hout', hl', hlog'⟩ := set_again hout hl
    refine ⟨as ++ [.set (), .step (), .step (), .step ()], s',
      run_append_eq_some.mpr ⟨s, hr, hr'⟩, hout', ?_, ?_⟩
    · have hv : toInt32 ((n : Int) + 1 + 1) = ((n + 2 : Nat) : Int) := toInt32_eq rfl hn
      rw [hl', hv]
      rfl
    · rw [hlog', holding_concat hlog]
      rfl

/-- The acquisition after the last that the `int` can count is not the
number of acquisitions in progress. -/
theorem nest_count_overflows :
    ¬ ∀ as s, run (LockState.step .nest) as (LockState.init : LockState Unit) = some s
      → s.Correct .nest := by
  intro hall
  obtain ⟨as, s, hr, hout, hl, hlog⟩ := nested_sets (2 ^ 31 - 2) (by decide)
  obtain ⟨s', hr', hlog'⟩ := test_again hout hl
  obtain ⟨h, hh⟩ := (hall _ s' (run_append_eq_some.mpr ⟨s, hr, hr'⟩)).history
  rw [hlog', holding_concat hlog] at hh
  cases hh

end Overflow

end XKaapi.Omp
