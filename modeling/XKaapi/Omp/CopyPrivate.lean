/-
The `single copyprivate` construct (libgomp_single.c): the master executes
the body and publishes a pointer in `single_data`; the others poll it and
return it. A barrier ends the construct, and the next one uses the same
`single_data`, which nothing resets.

The barrier is that of the team (`Team.step`), so the constructs of a
thread are counted by its barrier points. The test of the polling loop and
the read that returns the pointer are two steps.

A thread that comes to the second construct before the master has ended
it there finds the pointer of the first one. `copyprivate_iff` says that
nothing else goes wrong.
-/
import XKaapi.Omp.Barrier

namespace XKaapi.Omp

open StepMachine
open Function (update update_of_ne update_self)

-- ======== data

/-- Where a thread is in a construct: before the call, in the body that
only the master executes, past the polling loop, in the barrier. -/
inductive SinglePc
  | start
  | body
  | ret
  | barrier
deriving DecidableEq, Repr

/-- 1 past the end of the construct, in its barrier. -/
def SinglePc.past : SinglePc → Nat
  | .barrier => 1
  | _ => 0

/-- What a call of `GOMP_single_copy_start` has returned, in the
`construct`th construct. -/
structure Returned where
  thread : Nat
  construct : Nat
  value : Nat
deriving DecidableEq, Repr

/-- The constructs end with `GOMP_barrier`. -/
def barriers (_ : Nat) : Construct := .barrier

/-- The team; 0 is the null pointer. -/
structure CopyTeam where
  team : Team
  singleData : Nat
  pc : Nat → SinglePc
  returned : List Returned

namespace CopyTeam

/-- The team after `komp_init_parallel_start`. -/
def init (n : Nat) : CopyTeam where
  team := Team.init n
  singleData := 0
  pc _ := .start
  returned := []

/-- The number of the construct that the thread is in. -/
def construct (t : Nat) (s : CopyTeam) : Nat := (s.team.threads t).point

def setPc (t : Nat) (pc : SinglePc) (s : CopyTeam) : CopyTeam :=
  { s with pc := update s.pc t pc }

/-- `GOMP_single_copy_start`, up to the end of the polling loop. -/
def singleCopyStart (t : Nat) (s : CopyTeam) : Option CopyTeam :=
  if t = 0 then some (s.setPc t .body)
  else if s.singleData = 0 then none
  else some (s.setPc t .ret)

/-- The read that `GOMP_single_copy_start` returns. -/
def singleCopyReturn (t : Nat) (s : CopyTeam) : CopyTeam :=
  { s with returned := ⟨t, s.construct t, s.singleData⟩ :: s.returned }.setPc t
    .barrier

/-- `GOMP_single_copy_end` -/
def singleCopyEnd (t data : Nat) (s : CopyTeam) : CopyTeam :=
  { s with singleData := data }.setPc t .barrier

/-- A step in `GOMP_barrier`; the thread that leaves it goes to the next
construct. -/
def barrierStep (t : Nat) (s : CopyTeam) : Option CopyTeam :=
  (Team.step barriers t s.team).map fun team =>
    { s with team := team }.setPc t
      (if (team.threads t).point = s.construct t then .barrier else .start)

/-- One step of the thread `t`; `data k` is the pointer of the `k`th
construct. -/
def step (data : Nat → Nat) (t : Nat) (s : CopyTeam) : Option CopyTeam :=
  if t < s.team.nthreads then
    match s.pc t with
    | .start => singleCopyStart t s
    | .body => some (singleCopyEnd t (data (s.construct t)) s)
    | .ret => some (singleCopyReturn t s)
    | .barrier => barrierStep t s
  else none

/-- Every value returned is the pointer of the construct it was returned
in. -/
def Good (data : Nat → Nat) (s : CopyTeam) : Prop :=
  ∀ r ∈ s.returned, r.value = data r.construct

/-- The master has ended the constructs below this number. -/
def ended (s : CopyTeam) : Nat := s.construct 0 + (s.pc 0).past

/-- A thread that reads the pointer to return it finds its construct ended
by the master, or the pointer of the construct before is the same. -/
def Meets (data : Nat → Nat) (t : Nat) (s : CopyTeam) : Prop :=
  s.pc t = .ret → s.construct t < s.ended
    ∨ (0 < s.construct t ∧ data (s.construct t - 1) = data (s.construct t))

instance (data : Nat → Nat) (t : Nat) (s : CopyTeam) :
    Decidable (Meets data t s) :=
  inferInstanceAs (Decidable (_ → _))

-- ======== the invariant

/-- `single_data` is the pointer of the last construct that the master has
ended, and a thread outside of the barrier has not arrived there. -/
structure Inv (data : Nat → Nat) (s : CopyTeam) : Prop where
  team : Team.Inv barriers s.team
  idle : ∀ t, s.pc t ≠ .barrier → (s.team.threads t).pc = .idle
  data : s.singleData = if s.ended = 0 then 0 else data (s.ended - 1)
  body : ∀ t, s.pc t = .body → t = 0
  ret : ∀ t, s.pc t = .ret → t ≠ 0 ∧ 0 < s.ended

variable {data : Nat → Nat} {s s' : CopyTeam} {t : Nat}

theorem init_inv (data : Nat → Nat) (n : Nat) : Inv data (init n) where
  team := Team.inv_init barriers n
  idle _ _ := rfl
  data := rfl
  body _ h := nomatch h
  ret _ h := nomatch h

theorem past_le_one (pc : SinglePc) : pc.past ≤ 1 := by
  cases pc <;> decide

theorem Inv.ended_bounds (h : Inv data s) (ht : t < s.team.nthreads)
    (hpc : s.pc t ≠ .barrier) :
    s.construct t ≤ s.ended ∧ s.ended ≤ s.construct t + 1 := by
  have hsafe := h.team.safe
  have hidle := h.idle t hpc
  have h₀ : 0 < s.team.nthreads := Nat.zero_lt_of_lt ht
  unfold ended
  constructor
  · by_contra hlt
    have harr := hsafe.left t ht (s.construct t - 1) (by
      unfold construct at hlt ⊢
      omega) rfl 0 h₀
    -- the master has arrived at the barrier before, so it is in it or past it
    rcases harr with hp | ⟨hp, hc⟩
    · unfold construct at hlt hp
      omega
    · have hbar : s.pc 0 = .barrier := by
        by_contra hne
        rw [h.idle 0 hne] at hc
        cases hc
      have hp1 : SinglePc.past .barrier = 1 := rfl
      rw [hbar, hp1] at hlt
      unfold construct at hp hlt
      omega
  · by_contra hlt
    have hle : s.construct t < s.construct 0 := by
      have hp := past_le_one (s.pc 0)
      omega
    rcases hsafe.left 0 h₀ (s.construct t) hle rfl t ht with hp | ⟨-, hc⟩
    · exact Nat.lt_irrefl _ hp
    · rw [hidle] at hc
      cases hc

theorem team_step {prog : Nat → Construct} {s s' : Team}
    (hs : Team.step prog t s = some s') :
    s'.nthreads = s.nthreads ∧ ∃ th,
      s'.threads = update s.threads t th
      ∧ (th.point = (s.threads t).point
        ∨ th.point = (s.threads t).point + 1 ∧ th.pc = .idle) := by
  have ht := Team.lt_of_step hs
  cases hth : s.threads t with
  | mk k pc =>
    cases pc with
    | idle =>
      rw [Team.step_idle ht hth] at hs
      cases hs
      exact ⟨rfl, _, rfl, .inl rfl⟩
    | arriving cur =>
      rw [Team.step_arriving ht hth] at hs
      cases hs
      refine ⟨rfl, _, rfl, ?_⟩
      split
      next => exact .inl rfl
      next =>
        split
        next => exact .inl rfl
        next => exact .inr ⟨rfl, rfl⟩
    | advancing cur =>
      rw [Team.step_advancing ht hth] at hs
      cases hs
      exact ⟨rfl, _, rfl, .inl rfl⟩
    | cleaning cur =>
      rw [Team.step_cleaning ht hth] at hs
      cases hs
      exact ⟨rfl, _, rfl, .inr ⟨rfl, rfl⟩⟩
    | suspended next =>
      obtain ⟨-, rfl⟩ := Team.step_suspended ht hth hs
      exact ⟨rfl, _, rfl, .inr ⟨rfl, rfl⟩⟩

-- ======== the steps

/-- What a step can do. -/
inductive Effect (data : Nat → Nat) (s : CopyTeam) (t : Nat) : CopyTeam → Prop
  | begin (ht : t = 0) (hpc : s.pc t = .start) :
      Effect data s t (s.setPc t .body)
  | found (ht : t ≠ 0) (hpc : s.pc t = .start) (hd : s.singleData ≠ 0) :
      Effect data s t (s.setPc t .ret)
  | ends (hpc : s.pc t = .body) :
      Effect data s t (singleCopyEnd t (data (s.construct t)) s)
  | returns (hpc : s.pc t = .ret) : Effect data s t (singleCopyReturn t s)
  | barrier (team : Team) (hpc : s.pc t = .barrier)
      (hs : Team.step barriers t s.team = some team) :
      Effect data s t ({ s with team := team }.setPc t
        (if (team.threads t).point = s.construct t then .barrier else .start))

theorem lt_of_step (hs : step data t s = some s') : t < s.team.nthreads :=
  (Option.ite_none_right_eq_some.mp hs).1

theorem effect (hs : step data t s = some s') : Effect data s t s' := by
  obtain ⟨-, hs⟩ := Option.ite_none_right_eq_some.mp hs
  cases hpc : s.pc t with
  | start =>
    rw [hpc] at hs
    have hs : singleCopyStart t s = some s' := hs
    unfold singleCopyStart at hs
    by_cases ht : t = 0
    · rw [if_pos ht] at hs
      cases hs
      exact .begin ht hpc
    · rw [if_neg ht] at hs
      obtain ⟨hd, hs⟩ := Option.ite_none_left_eq_some.mp hs
      cases hs
      exact .found ht hpc hd
  | body =>
    rw [hpc] at hs
    cases hs
    exact .ends hpc
  | ret =>
    rw [hpc] at hs
    cases hs
    exact .returns hpc
  | barrier =>
    rw [hpc] at hs
    obtain ⟨team, hteam, rfl⟩ := Option.map_eq_some_iff.mp hs
    exact .barrier team hpc hteam

theorem ended_setPc_of_ne (pc : SinglePc) (ht : t ≠ 0) (s : CopyTeam) :
    (s.setPc t pc).ended = s.ended := by
  unfold ended setPc
  dsimp only
  rw [update_of_ne ht.symm]
  rfl

theorem ended_setPc_zero {pc : SinglePc} (s : CopyTeam) :
    (s.setPc 0 pc).ended = s.construct 0 + pc.past := by
  unfold ended setPc
  dsimp only
  rw [update_self]
  rfl

theorem ended_barrier {team : Team} (hpc : s.pc t = .barrier)
    (hs : Team.step barriers t s.team = some team) :
    ({ s with team := team }.setPc t (if (team.threads t).point = s.construct t
      then .barrier else .start)).ended = s.ended := by
  obtain ⟨-, th, hth, hpoint⟩ := team_step hs
  by_cases ht : t = 0
  · subst ht
    rw [ended_setPc_zero]
    unfold ended
    rw [hpc]
    unfold construct at *
    dsimp only
    rw [hth, update_self]
    rcases hpoint with hp | ⟨hp, -⟩
    · rw [hp, if_pos rfl]
    · rw [hp, if_neg (Nat.succ_ne_self _)]
      rfl
  · rw [ended_setPc_of_ne _ ht]
    unfold ended construct
    dsimp only
    rw [hth, update_of_ne (Ne.symm ht)]

theorem Inv.setPc (h : Inv data s) {pc : SinglePc} (s' : CopyTeam)
    (hteam : s'.team = s.team) (hpc' : s'.pc = update s.pc t pc)
    (hnot : s.pc t ≠ .barrier)
    (hdata : s'.singleData = if s'.ended = 0 then 0 else data (s'.ended - 1))
    (hended : s.ended ≤ s'.ended) (hbody : pc = .body → t = 0)
    (hret : pc = .ret → t ≠ 0 ∧ 0 < s'.ended) : Inv data s' := by
  have hcases : ∀ u, (u = t ∧ s'.pc u = pc) ∨ s'.pc u = s.pc u := by
    intro u
    rw [hpc']
    by_cases hu : u = t
    · exact .inl ⟨hu, by rw [hu, update_self]⟩
    · exact .inr (update_of_ne hu _ _)
  refine ⟨hteam ▸ h.team, fun u hu => ?_, hdata, fun u hu => ?_, fun u hu => ?_⟩
  · rw [hteam]
    rcases hcases u with ⟨rfl, -⟩ | hsame
    · exact h.idle u hnot
    · exact h.idle u (hsame ▸ hu)
  · rcases hcases u with ⟨rfl, hp⟩ | hsame
    · exact hbody (hp.symm.trans hu)
    · exact h.body u (hsame.symm.trans hu)
  · rcases hcases u with ⟨rfl, hp⟩ | hsame
    · exact hret (hp.symm.trans hu)
    · obtain ⟨hne, hpos⟩ := h.ret u (hsame.symm.trans hu)
      exact ⟨hne, Nat.lt_of_lt_of_le hpos hended⟩

theorem Inv.step (h : Inv data s) (hs : CopyTeam.step data t s = some s') :
    Inv data s' := by
  cases effect hs with
  | begin ht hpc =>
    subst ht
    have hended : (s.setPc 0 .body).ended = s.ended := by
      rw [ended_setPc_zero]
      unfold ended
      rw [hpc]
      rfl
    refine h.setPc _ rfl rfl (by rw [hpc]; decide) ?_ (Nat.le_of_eq hended.symm)
      (fun _ => rfl) nofun
    rw [hended]
    exact h.data
  | found ht hpc hd =>
    have hended := ended_setPc_of_ne .ret ht s
    have hpos : 0 < s.ended := by
      by_contra hz
      refine hd (h.data.trans (if_pos ?_))
      omega
    refine h.setPc _ rfl rfl (by rw [hpc]; decide) ?_ (Nat.le_of_eq hended.symm)
      nofun fun _ => ⟨ht, hended ▸ hpos⟩
    rw [hended]
    exact h.data
  | ends hpc =>
    have ht := h.body t hpc
    subst ht
    have hended : (singleCopyEnd 0 (data (s.construct 0)) s).ended
        = s.construct 0 + 1 := ended_setPc_zero _
    refine h.setPc _ rfl rfl (by rw [hpc]; decide) ?_ ?_ nofun
      nofun
    · rw [hended]
      rfl
    · rw [hended]
      exact Nat.add_le_add_left (past_le_one _) _
  | returns hpc =>
    have ht := (h.ret t hpc).1
    have hended : (singleCopyReturn t s).ended = s.ended :=
      ended_setPc_of_ne _ ht _
    refine h.setPc _ rfl rfl (by rw [hpc]; decide) ?_ (Nat.le_of_eq hended.symm)
      nofun nofun
    rw [hended]
    exact h.data
  | barrier team hpc hteam =>
    have hended := ended_barrier hpc hteam
    obtain ⟨-, th, hth, hpoint⟩ := team_step hteam
    have hcases : ∀ u, u = t ∨ (u ≠ t ∧ team.threads u = s.team.threads u) := by
      intro u
      by_cases hu : u = t
      · exact .inl hu
      · exact .inr ⟨hu, by rw [hth, update_of_ne hu]⟩
    refine ⟨h.team.step nofun hteam, fun u hu => ?_, ?_,
      fun u hu => ?_, fun u hu => ?_⟩
    · unfold CopyTeam.setPc at hu ⊢
      dsimp only at hu ⊢
      rcases hcases u with rfl | ⟨hne, hsame⟩
      · rw [update_self] at hu
        have hmoved : (team.threads u).point ≠ s.construct u := fun he =>
          hu (if_pos he)
        rw [hth, update_self] at hmoved ⊢
        exact (hpoint.resolve_left hmoved).2
      · rw [update_of_ne hne] at hu
        rw [hsame]
        exact h.idle u hu
    · rw [hended]
      exact h.data
    · unfold CopyTeam.setPc at hu
      dsimp only at hu
      rcases hcases u with rfl | ⟨hne, -⟩
      · rw [update_self] at hu
        split at hu
        next => cases hu
        next => cases hu
      · rw [update_of_ne hne] at hu
        exact h.body u hu
    · rw [hended]
      unfold CopyTeam.setPc at hu
      dsimp only at hu
      rcases hcases u with rfl | ⟨hne, -⟩
      · rw [update_self] at hu
        split at hu
        next => cases hu
        next => cases hu
      · rw [update_of_ne hne] at hu
        exact h.ret u hu

/-- The value that is returned is the right one iff the construct was
ended, or the pointer is that of the construct before. -/
theorem Inv.value_iff (h : Inv data s) (ht : t < s.team.nthreads)
    (hpc : s.pc t = .ret) :
    s.singleData = data (s.construct t) ↔ Meets data t s := by
  obtain ⟨hle, hge⟩ := h.ended_bounds ht (by rw [hpc]; decide)
  have hpos := (h.ret t hpc).2
  unfold Meets
  rw [h.data, if_neg (Nat.pos_iff_ne_zero.mp hpos), forall_prop_of_true hpc]
  rcases Nat.lt_or_ge (s.construct t) s.ended with hlt | heq
  · have he : s.ended = s.construct t + 1 := by omega
    refine iff_of_true ?_ (.inl hlt)
    rw [he, Nat.add_sub_cancel]
  · have he : s.ended = s.construct t := by omega
    rw [he]
    constructor
    · intro hv
      exact .inr ⟨he ▸ hpos, hv⟩
    · rintro (hlt | ⟨-, hv⟩)
      · exact absurd hlt (Nat.lt_irrefl _)
      · exact hv

theorem Inv.step_good (h : Inv data s) (hg : Good data s)
    (hs : CopyTeam.step data t s = some s') : Good data s' ↔ Meets data t s := by
  have hother : s'.returned = s.returned → s.pc t ≠ .ret →
      (Good data s' ↔ Meets data t s) := by
    intro hr hpc
    refine iff_of_true ?_ fun hp => absurd hp hpc
    unfold Good
    rw [hr]
    exact hg
  have ht := lt_of_step hs
  cases effect hs with
  | begin _ hpc => exact hother rfl (by rw [hpc]; decide)
  | found _ hpc _ => exact hother rfl (by rw [hpc]; decide)
  | ends hpc => exact hother rfl (by rw [hpc]; decide)
  | returns hpc =>
    rw [← h.value_iff ht hpc]
    show (∀ r ∈ _ :: s.returned, _) ↔ _
    rw [List.forall_mem_cons]
    exact and_iff_left hg
  | barrier team hpc hteam => exact hother rfl (by rw [hpc]; decide)

-- ======== the statement

/-- In every run of any team: all values returned so far are those of
their constructs, in every state of the run, iff every thread reads the
pointer after the master has ended the same construct (or the construct
before had the same pointer). -/
theorem copyprivate_iff (n : Nat) (data : Nat → Nat) (acts : List Nat)
    (s : CopyTeam) (hrun : run (step data) acts (init n) = some s) :
    (∀ bs, bs <+: acts → ∀ t, run (step data) bs (init n) = some t →
        Good data t)
      ↔ Along (step data) (Meets data) acts (init n) := by
  refine Along.iff_good (P := fun s => Inv data s ∧ Good data s)
    (fun hP => hP.2) (fun hQ hP hs => ?_) (fun hQ hP hs hG => ?_)
    ⟨init_inv data n, fun r hr => nomatch hr⟩ hrun
  · exact ⟨hP.1.step hs, (hP.1.step_good hP.2 hs).mpr hQ⟩
  · exact hQ ((hP.1.step_good hP.2 hs).mp hG)

/-- Two constructs of a team of two: the slave reads the second pointer
after the master has ended the second construct. -/
def twoConstructs : List Nat :=
  [0, 0, 1, 1, 0, 0, 1, 1, 1, 1, 0, 0, 0, 1, 1]

theorem copyprivate_iff_two : ∃ s,
    run (step fun k => 100 + k) twoConstructs (init 2) = some s
    ∧ s.returned = [⟨1, 1, 101⟩, ⟨1, 0, 100⟩]
    ∧ Good (fun k => 100 + k) s := by
  refine ⟨_, rfl, rfl, ?_⟩
  exact (copyprivate_iff 2 (fun k => 100 + k) twoConstructs _ rfl).mpr
    (by decide) _ (List.prefix_refl _) _ rfl

/-- The slave reaches the second construct first, and returns the pointer
of the first one. -/
theorem copyprivate_stale : ∃ s,
    run (step fun k => 100 + k)
      [0, 0, 1, 1, 0, 0, 1, 1, 1, 1, 1, 1] (init 2) = some s
    ∧ s.returned = [⟨1, 1, 100⟩, ⟨1, 0, 100⟩]
    ∧ ¬ Good (fun k => 100 + k) s := by
  refine ⟨_, rfl, rfl, fun h => ?_⟩
  exact absurd (h ⟨1, 1, 100⟩ List.mem_cons_self) (by decide)

end CopyTeam

end XKaapi.Omp
