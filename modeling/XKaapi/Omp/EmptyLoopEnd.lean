/-
A loop without iterations never ends well.

Nobody initialises a work descriptor for it, but the end of the loop is
the common one and uses the descriptor of the workshare: what the memory
held, or what an earlier loop has left there. And when the loop opens the
parallel region, no other thread is created, so that the master waits for
the whole team alone.
-/
import XKaapi.Omp.EmptyLoop
import Mathlib.Algebra.Order.BigOperators.Group.Finset

namespace XKaapi.Omp.LoopTeam

open StepMachine
open Function (update update_of_ne update_self)

variable {c : LoopCall} {s s' : LoopTeam} {past : Nat → Option Workshare} {a : LoopAct}
  {th : LoopThread} {t : Nat}

/-- The threads that exist if the loop is empty. -/
def Here (c : LoopCall) (t : Nat) : Prop :=
  t < c.numthreads ∧ (c.form = .parallel → t = 0)

/-- The thread has a workshare for the empty loop. -/
def Started (c : LoopCall) (th : LoopThread) : Prop :=
  ∃ ws, th.workshare = some ws ∧ ws.incr = 0 ∧ ws.lwork ≠ .ofLoop c.number

/-- What a thread may be doing. -/
def ThreadOk (c : LoopCall) (th : LoopThread) : Prop :=
  match th.pc with
  | .absent => True
  | .spawned => False
  | .entry => ∀ ws, th.workshare = some ws → ws.lwork ≠ .ofLoop c.number
  | _ => Started c th

/-- The thread has been counted by the barrier. -/
def LoopPc.counted : LoopPc → Bool
  | .waiting | .done => true
  | _ => false

/-- The invariant of the runs of an empty loop. -/
structure Inv (c : LoopCall) (s : LoopTeam) : Prop where
  here : ∀ t, (s.threads t).pc ≠ .absent ↔ Here c t
  thread : ∀ t, ThreadOk c (s.threads t)
  arrived : ∀ t, t ∈ s.arrived ↔ LoopPc.counted (s.threads t).pc = true
  nodup : s.arrived.Nodup
  used : ∀ w ∈ s.used, w ≠ .ofLoop c.number
  master : (s.threads 0).pc = .done → s.used ≠ []

theorem init_thread (hn : 0 < c.numthreads) (hp : Past c past) (t : Nat) :
    ((init c past).threads t = ⟨.absent, none⟩ ∧ ¬ Here c t)
      ∨ ∃ ws, (init c past).threads t = ⟨.entry, ws⟩ ∧ Here c t
        ∧ ∀ w, ws = some w → w.lwork ≠ .ofLoop c.number := by
  unfold init Here
  cases hf : c.form with
  | parallel =>
    dsimp only
    by_cases ht : t = 0
    · rw [if_pos ht]
      exact .inr ⟨none, rfl, ⟨ht ▸ hn, fun _ => ht⟩, fun w hw => nomatch hw⟩
    · rw [if_neg ht]
      exact .inl ⟨rfl, fun h => ht (h.2 rfl)⟩
  | region nowait =>
    dsimp only
    by_cases ht : t < c.numthreads
    · rw [if_pos ht]
      exact .inr ⟨past t, rfl, ⟨ht, nofun⟩, hp t⟩
    · rw [if_neg ht]
      exact .inl ⟨rfl, fun h => ht h.1⟩

theorem init_inv (hn : 0 < c.numthreads) (hp : Past c past) :
    Inv c (init c past) := by
  refine ⟨fun t => ?_, fun t => ?_, fun t => ?_, List.nodup_nil,
    fun w hw => (nomatch hw), fun h => ?_⟩
  · rcases init_thread hn hp t with ⟨h, hno⟩ | ⟨ws, h, hhere, -⟩
    · rw [h]
      exact iff_of_false (fun hne => hne rfl) hno
    · rw [h]
      exact iff_of_true nofun hhere
  · rcases init_thread hn hp t with ⟨h, -⟩ | ⟨ws, h, -, hws⟩
    · rw [h]
      trivial
    · rw [h]
      exact hws
  · refine iff_of_false List.not_mem_nil ?_
    rcases init_thread hn hp t with ⟨h, -⟩ | ⟨ws, h, -, -⟩
    · rw [h]
      exact Bool.false_ne_true
    · rw [h]
      exact Bool.false_ne_true
  · rcases init_thread hn hp 0 with ⟨h₀, -⟩ | ⟨ws, h₀, -, -⟩
    · rw [h₀] at h
      cases h
    · rw [h₀] at h
      cases h

-- ======== the steps

/-- What a step of an empty loop can do: the call, the end of the loop
without an iteration, the arrival, and what follows the barrier. -/
inductive Effect (c : LoopCall) (s : LoopTeam) (t : Nat) : LoopTeam → Prop
  | call (pc : LoopPc) (ws : Workshare) (n : Nat)
      (hpc : (s.threads t).pc = .entry) (hpc' : pc = .loop ∨ pc = .atEnd)
      (hincr : ws.incr = 0) (hlwork : ws.lwork ≠ .ofLoop c.number) :
      Effect c s t ({ s with serial := n }.setThread t ⟨pc, some ws⟩)
  | next (hpc : (s.threads t).pc = .loop) : Effect c s t (s.setPc t .atEnd)
  | arrive (hpc : (s.threads t).pc = .atEnd) : Effect c s t (arrive c t s)
  | leave (ws : Workshare) (hpc : (s.threads t).pc = .waiting)
      (hws : (s.threads t).workshare = some ws)
      (hfull : s.arrived.length = c.numthreads) :
      Effect c s t ({ s with
        gwork := none
        used := ws.lwork :: s.used }.setPc t .done)

theorem startInit_lwork {raw : Nat} (ws : Option Workshare)
    (h : ∀ w, ws = some w → w.lwork ≠ .ofLoop c.number) :
    (startInit c raw ws s).1.lwork ≠ .ofLoop c.number := by
  unfold startInit
  cases ws with
  | none => exact nofun
  | some w => exact h w rfl

theorem Inv.effect (hno : c.NoIteration) (h : Inv c s) (hs : step c a s = some s') :
    Effect c s a.t s' := by
  unfold LoopCall.NoIteration at hno
  have hth := h.thread a.t
  unfold ThreadOk at hth
  unfold step at hs
  cases hpc : (s.threads a.t).pc with
  | absent =>
    rw [hpc] at hs
    cases hs
  | spawned =>
    rw [hpc] at hth
    exact hth.elim
  | entry =>
    rw [hpc] at hs hth
    cases hf : c.form with
    | parallel =>
      rw [hf] at hs
      have ht : a.t = 0 := ((h.here a.t).mp (by rw [hpc]; decide)).2 hf
      have hs : (if Loop.noIteration c.start.val c.stop.val c.incr.val then _
        else _) = some s' := hs
      rw [if_pos hno] at hs
      cases hs
      rw [ht] at hpc ⊢
      exact .call .loop _ _ hpc (.inl rfl) rfl
        (startInit_lwork (s := s) none fun w hw => nomatch hw)
    | region nowait =>
      rw [hf] at hs
      have hs : (if Loop.noIteration c.start.val c.stop.val c.incr.val then _
        else _) = some s' := hs
      rw [if_pos hno] at hs
      cases hs
      exact .call .atEnd _ _ hpc (.inr rfl) rfl (startInit_lwork (s := s) _ hth)
  | loop =>
    rw [hpc] at hs hth
    obtain ⟨ws, hws, hincr, -⟩ := hth
    unfold loopDynamicNext at hs
    rw [hws] at hs
    dsimp only at hs
    rw [if_pos (.inl hincr)] at hs
    cases hs
    exact .next hpc
  | atEnd =>
    rw [hpc] at hs
    cases hs
    exact .arrive hpc
  | waiting =>
    rw [hpc] at hs
    obtain ⟨hfull, hs⟩ := Option.ite_none_right_eq_some.mp hs
    obtain ⟨ws, hws, rfl⟩ := Option.map_eq_some_iff.mp hs
    exact .leave ws hpc hws hfull
  | done =>
    rw [hpc] at hs
    cases hs

theorem Inv.move (h : Inv c s) (hthreads : s'.threads = update s.threads t th)
    (hpc : (s.threads t).pc ≠ .absent) (hpc' : th.pc ≠ .absent) (hok : ThreadOk c th)
    (harr : ∀ u, u ∈ s'.arrived ↔ LoopPc.counted (s'.threads u).pc = true)
    (hnd : s'.arrived.Nodup) (hused : ∀ w ∈ s'.used, w ≠ .ofLoop c.number)
    (hmaster : (s'.threads 0).pc = .done → s'.used ≠ []) : Inv c s' := by
  refine ⟨fun u => ?_, fun u => ?_, harr, hnd, hused, hmaster⟩
  · rw [hthreads]
    by_cases hu : u = t
    · rw [hu, update_self]
      exact iff_of_true hpc' ((h.here t).mp hpc)
    · rw [update_of_ne hu]
      exact h.here u
  · rw [hthreads]
    by_cases hu : u = t
    · rw [hu, update_self]
      exact hok
    · rw [update_of_ne hu]
      exact h.thread u

theorem Inv.move_uncounted (h : Inv c s) (hthreads : s'.threads = update s.threads t th)
    (hpc : (s.threads t).pc ≠ .absent) (hpc' : th.pc ≠ .absent) (hok : ThreadOk c th)
    (hc : LoopPc.counted (s.threads t).pc = false) (hc' : LoopPc.counted th.pc = false)
    (harr : s'.arrived = s.arrived) (hused : s'.used = s.used) : Inv c s' := by
  refine h.move hthreads hpc hpc' hok (fun u => ?_) (harr ▸ h.nodup)
    (hused ▸ h.used) fun hdone => ?_
  · rw [harr, h.arrived u, hthreads]
    by_cases hu : u = t
    · rw [hu, update_self, hc, hc']
    · rw [update_of_ne hu]
  · rw [hused]
    refine h.master ?_
    rw [hthreads] at hdone
    by_cases hu : 0 = t
    · rw [hu, update_self] at hdone
      rw [hdone] at hc'
      cases hc'
    · rwa [update_of_ne hu] at hdone

theorem ne_absent_of_counted {pc : LoopPc} (h : LoopPc.counted pc = true) :
    pc ≠ .absent := by
  rintro rfl
  cases h

theorem threadOk_of_counted {pc : LoopPc} (h : LoopPc.counted pc = true)
    (hst : Started c th) : ThreadOk c { th with pc := pc } := by
  cases pc with
  | waiting => exact hst
  | done => exact hst
  | _ => cases h

theorem Inv.step (hno : c.NoIteration) (h : Inv c s) (hs : LoopTeam.step c a s = some s') :
    Inv c s' := by
  cases h.effect hno hs with
  | call pc ws n hpc hpc' hincr hlwork =>
    have hstarted : Started c ⟨pc, some ws⟩ := ⟨ws, rfl, hincr, hlwork⟩
    rcases hpc' with rfl | rfl
    · exact h.move_uncounted rfl (by rw [hpc]; decide) nofun hstarted
        (by rw [hpc]; rfl) rfl rfl rfl
    · exact h.move_uncounted rfl (by rw [hpc]; decide) nofun hstarted
        (by rw [hpc]; rfl) rfl rfl rfl
  | next hpc =>
    have hok := h.thread a.t
    unfold ThreadOk at hok
    rw [hpc] at hok
    exact h.move_uncounted rfl (by rw [hpc]; decide) (by simp) hok
      (by rw [hpc]; rfl) rfl rfl rfl
  | arrive hpc =>
    have hok := h.thread a.t
    unfold ThreadOk at hok
    rw [hpc] at hok
    have hnew : a.t ∉ s.arrived := by
      rw [h.arrived, hpc]
      exact Bool.false_ne_true
    have hcount : LoopPc.counted
        (if c.waits a.t then .waiting else .done) = true := by
      split
      next => rfl
      next => rfl
    refine h.move (t := a.t) rfl (by rw [hpc]; decide)
      (ne_absent_of_counted hcount) (threadOk_of_counted hcount hok)
      (fun u => ?_) (List.nodup_cons.mpr ⟨hnew, h.nodup⟩) h.used
      fun hdone => ?_
    · show u ∈ a.t :: s.arrived ↔ LoopPc.counted
        (update s.threads a.t _ u).pc = true
      rw [List.mem_cons]
      by_cases hu : u = a.t
      · rw [hu, update_self]
        exact iff_of_true (.inl rfl) hcount
      · rw [update_of_ne hu, h.arrived u]
        exact or_iff_right hu
    · have hdone : (update s.threads a.t
          { s.threads a.t with
            pc := if c.waits a.t then .waiting else .done } 0).pc = .done :=
        hdone
      by_cases hu : 0 = a.t
      · rw [hu, update_self, if_pos (by
          unfold LoopCall.waits
          rw [← hu]
          rfl)] at hdone
        cases hdone
      · rw [update_of_ne hu] at hdone
        exact h.master hdone
  | leave ws hpc hws hfull =>
    have hok := h.thread a.t
    unfold ThreadOk at hok
    rw [hpc] at hok
    obtain ⟨ws', hws', hincr, hlwork⟩ := hok
    cases hws.symm.trans hws'
    refine h.move (t := a.t) rfl (by rw [hpc]; decide) nofun
      ⟨ws, hws, hincr, hlwork⟩ (fun u => ?_) h.nodup
      (List.forall_mem_cons.mpr ⟨hlwork, h.used⟩)
      fun _ => List.cons_ne_nil _ _
    show u ∈ s.arrived ↔ LoopPc.counted (update s.threads a.t _ u).pc = true
    by_cases hu : u = a.t
    · rw [hu, update_self, h.arrived, hpc]
      exact iff_of_true rfl rfl
    · rw [update_of_ne hu]
      exact h.arrived u

-- ======== the end

/-- How far a thread is from the end. -/
def LoopPc.rank : LoopPc → Nat
  | .absent => 0
  | .spawned => 0
  | .entry => 4
  | .loop => 3
  | .atEnd => 2
  | .waiting => 1
  | .done => 0

/-- How far the team is from the end. -/
def rank (c : LoopCall) (s : LoopTeam) : Nat :=
  ∑ t ∈ Finset.range c.numthreads, LoopPc.rank (s.threads t).pc

theorem rank_update (ht : t < c.numthreads)
    (hthreads : s'.threads = update s.threads t th)
    (hlt : LoopPc.rank th.pc < LoopPc.rank (s.threads t).pc) : rank c s' < rank c s := by
  unfold rank
  refine Finset.sum_lt_sum (fun u _ => ?_) ⟨t, Finset.mem_range.mpr ht, ?_⟩
  · rw [hthreads]
    by_cases hu : u = t
    · rw [hu, update_self]
      exact Nat.le_of_lt hlt
    · rw [update_of_ne hu]
  · rw [hthreads, update_self]
    exact hlt

theorem Inv.rank_lt (hno : c.NoIteration) (h : Inv c s)
    (hs : LoopTeam.step c a s = some s') : rank c s' < rank c s := by
  have hhere : (s.threads a.t).pc ≠ .absent → a.t < c.numthreads :=
    fun hne => ((h.here a.t).mp hne).1
  cases h.effect hno hs with
  | call pc ws n hpc hpc' hincr hlwork =>
    refine rank_update (hhere (by rw [hpc]; decide)) rfl ?_
    rw [hpc]
    rcases hpc' with rfl | rfl
    · exact Nat.lt_succ_self 3
    · exact Nat.lt_succ_of_lt (Nat.lt_succ_self 2)
  | next hpc =>
    refine rank_update (hhere (by rw [hpc]; decide)) rfl ?_
    rw [hpc]
    exact Nat.lt_succ_self 2
  | arrive hpc =>
    refine rank_update (hhere (by rw [hpc]; decide)) rfl ?_
    rw [hpc]
    dsimp only
    split
    next => decide
    next => decide
  | leave ws hpc hws hfull =>
    refine rank_update (hhere (by rw [hpc]; decide)) rfl ?_
    rw [hpc]
    exact Nat.lt_succ_self 0

theorem Inv.exists_complete (hno : c.NoIteration) (h : Inv c s) :
    ∃ acts s', run (LoopTeam.step c) acts s = some s' ∧ Complete c s' := by
  obtain ⟨acts, s', -, hrun, -, hend⟩ := Along.exists_run (LoopTeam.step c)
    (fun _ _ => True) (Inv c) (Complete c) (rank c) (fun s hs hnot => by
      obtain ⟨a, ha⟩ := not_forall.mp hnot
      obtain ⟨s', hs'⟩ := Option.ne_none_iff_exists'.mp ha
      exact ⟨a, s', trivial, hs', hs.step hno hs', hs.rank_lt hno hs'⟩) h
  exact ⟨acts, s', hrun, hend⟩

/-- When nobody can go on, every thread is counted, and nobody waits
although all have arrived. -/
theorem Inv.complete (hno : c.NoIteration) (h : Inv c s) (hend : Complete c s)
    (ht : Here c t) :
    LoopPc.counted (s.threads t).pc = true
      ∧ (s.arrived.length = c.numthreads → (s.threads t).pc = .done) := by
  have hok := h.thread t
  have hend := hend ⟨t, 0, 0⟩
  unfold ThreadOk at hok
  unfold LoopTeam.step at hend
  cases hpc : (s.threads t).pc with
  | absent => exact absurd ht fun hh => (h.here t).mpr hh hpc
  | spawned =>
    rw [hpc] at hok
    exact hok.elim
  | entry =>
    rw [hpc] at hend
    unfold LoopCall.NoIteration at hno
    cases hf : c.form with
    | parallel =>
      rw [hf] at hend
      have hend : (if Loop.noIteration c.start.val c.stop.val c.incr.val
        then some _ else _) = none := hend
      rw [if_pos hno] at hend
      cases hend
    | region nowait =>
      rw [hf] at hend
      have hend : (if Loop.noIteration c.start.val c.stop.val c.incr.val
        then some _ else _) = none := hend
      rw [if_pos hno] at hend
      cases hend
  | loop =>
    rw [hpc] at hok hend
    obtain ⟨ws, hws, hincr, -⟩ := hok
    unfold loopDynamicNext at hend
    rw [hws] at hend
    dsimp only at hend
    rw [if_pos (.inl hincr)] at hend
    cases hend
  | atEnd =>
    rw [hpc] at hend
    cases hend
  | waiting =>
    refine ⟨rfl, fun hfull => ?_⟩
    rw [hpc] at hok hend
    obtain ⟨ws, hws, -, -⟩ := hok
    unfold loopEnd at hend
    rw [if_pos hfull, hws] at hend
    cases hend
  | done => exact ⟨rfl, fun _ => rfl⟩

/-- The number of threads that exist if the loop is empty. -/
def present (c : LoopCall) : Nat :=
  if c.form = .parallel then 1 else c.numthreads

theorem here_iff (hn : 0 < c.numthreads) (t : Nat) : Here c t ↔ t < present c := by
  unfold Here present
  split
  next hf =>
    rw [Nat.lt_one_iff]
    exact ⟨fun h => h.2 hf, fun h => ⟨h ▸ hn, fun _ => h⟩⟩
  next hf => exact and_iff_left fun h => absurd h hf

theorem Inv.arrived_length (hno : c.NoIteration) (hn : 0 < c.numthreads)
    (h : Inv c s) (hend : Complete c s) : s.arrived.length = present c := by
  have hmem : ∀ t, t ∈ s.arrived ↔ t ∈ List.range (present c) := by
    intro t
    rw [List.mem_range, ← here_iff hn, h.arrived]
    constructor
    · intro hc
      exact (h.here t).mp (ne_absent_of_counted hc)
    · intro ht
      exact (h.complete hno hend ht).1
  rw [((List.perm_ext_iff_of_nodup h.nodup List.nodup_range).mpr hmem).length_eq,
    List.length_range]

/-- A loop without iterations never ends well: in a parallel loop of more
than one thread the barrier expects threads that do not exist, and in all
other cases a descriptor is used that was not initialised for the loop. -/
theorem emptyLoop_never (c : LoopCall) (past : Nat → Option Workshare)
    (hn : 0 < c.numthreads) (hno : c.NoIteration) (hp : Past c past) :
    (∃ acts s, run (step c) acts (init c past) = some s ∧ Complete c s)
    ∧ ∀ acts s, run (step c) acts (init c past) = some s → Complete c s →
      ¬ EndsWell c s
      ∧ (s.arrived.length = c.numthreads ↔
          ¬ (c.form = .parallel ∧ 1 < c.numthreads))
      ∧ (s.arrived.length = c.numthreads →
          ∃ w ∈ s.used, w ≠ .ofLoop c.number) := by
  have h₀ := init_inv hn hp
  refine ⟨h₀.exists_complete hno, fun acts s hrun hend => ?_⟩
  have h : Inv c s := run_preserves (fun hi hs => hi.step hno hs) h₀ hrun
  have hlen := h.arrived_length hno hn hend
  have hused : s.arrived.length = c.numthreads →
      ∃ w ∈ s.used, w ≠ .ofLoop c.number := by
    intro hfull
    have hdone := (h.complete hno hend (t := 0) ⟨hn, fun _ => rfl⟩).2 hfull
    obtain ⟨w, hw⟩ := List.exists_mem_of_ne_nil _ (h.master hdone)
    exact ⟨w, hw, h.used w hw⟩
  refine ⟨fun hwell => ?_, ?_, hused⟩
  · obtain ⟨w, hw, hne⟩ := hused hwell.1
    exact hne (hwell.2 w hw)
  · rw [hlen]
    unfold present
    by_cases hf : c.form = .parallel
    · rw [if_pos hf]
      constructor
      · rintro h₁ ⟨-, h₂⟩
        exact Nat.lt_irrefl 1 (h₁ ▸ h₂)
      · intro hnot
        have hle : ¬ 1 < c.numthreads := fun h₂ => hnot ⟨hf, h₂⟩
        omega
    · rw [if_neg hf]
      exact iff_of_true rfl fun hb => hf hb.1

/-- `#pragma omp parallel for` over `for (i = 5; i < 5; ++i)` with two
threads. -/
def fiveToFive (form : Form) : LoopCall where
  form := form
  numthreads := 2
  number := 1
  start := ⟨5, by decide⟩
  stop := ⟨5, by decide⟩
  incr := ⟨1, by decide⟩

theorem emptyLoop_never_fiveToFive :
    (∃ acts s, run (step (fiveToFive .parallel)) acts
        (init (fiveToFive .parallel) fun _ => none) = some s
      ∧ Complete (fiveToFive .parallel) s)
    ∧ ∀ acts s, run (step (fiveToFive .parallel)) acts
        (init (fiveToFive .parallel) fun _ => none) = some s →
      Complete (fiveToFive .parallel) s →
      ¬ EndsWell (fiveToFive .parallel) s := by
  have hall := emptyLoop_never (fiveToFive .parallel) (fun _ => none)
    (by decide) rfl nofun
  exact ⟨hall.1, fun acts s hrun hend => (hall.2 acts s hrun hend).1⟩

/-- The master of a parallel loop waits alone; in a region the two threads
end the loop with what the memory held. -/
theorem fiveToFive_ends :
    (∃ s, run (step (fiveToFive .parallel)) [⟨0, 9, 0⟩, ⟨0, 0, 0⟩, ⟨0, 0, 0⟩]
        (init (fiveToFive .parallel) fun _ => none) = some s
      ∧ s.arrived.length = 1 ∧ (s.threads 0).pc = .waiting)
    ∧ ∃ s, run (step (fiveToFive (.region false)))
        [⟨0, 9, 0⟩, ⟨1, 9, 0⟩, ⟨0, 0, 0⟩, ⟨1, 0, 0⟩, ⟨0, 0, 0⟩, ⟨1, 0, 0⟩]
        (init (fiveToFive (.region false)) fun _ => none) = some s
      ∧ s.arrived.length = 2 ∧ s.used = [.raw 9, .raw 9]
      ∧ ¬ EndsWell (fiveToFive (.region false)) s := by
  refine ⟨⟨_, rfl, rfl, rfl⟩, _, rfl, rfl, rfl, fun h => ?_⟩
  exact absurd (h.2 (.raw 9) List.mem_cons_self) (by decide)

end XKaapi.Omp.LoopTeam
