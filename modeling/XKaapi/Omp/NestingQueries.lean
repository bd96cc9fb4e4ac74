/-
What the nesting queries answer, over every run of `Nest.step`.

The invariant is about the contexts that some kprocessor has in use: they
have the level, the thread number and the chain of teams of the regions
around their code. The contexts of one kprocessor differ by their depth,
so what is pushed above leaves them as they are.

`nesting_iff`: a run reflects the structure of the program in each of its
states iff no task starts from a block of memory that is wrong where the
trampoline does not fill it.
-/
import XKaapi.Omp.Nesting

namespace XKaapi.Omp

open StepMachine

-- ======== the right context

/-- The number of the thread that executes the innermost region. -/
def headThread : List Region → Int
  | [] => 0
  | r :: _ => r.threadNum

/-- The chain of the teams of the regions. What the team of the sequential
part has is never read. -/
def TeamOf : List Region → TeamRef → Prop
  | [], _ => True
  | r :: outer, .team previousTeam fatherId numthreads =>
    numthreads = r.teamSize ∧ fatherId = headThread outer
      ∧ TeamOf outer previousTeam
  | _ :: _, _ => False

/-- What the queries need of a context. -/
structure CtxtOk (ctxt : Ctxt) (enclosing : List Region) : Prop where
  level : ctxt.icv.nestedLevel = enclosing.length
  thread : ctxt.icv.threadId = headThread enclosing
  team : TeamOf enclosing ctxt.teaminfo

variable {t : TeamRef} {enclosing : List Region} {hops : Nat}

/-- The team of a nested region and those around it. -/
theorem TeamOf.cons {r : Region} {outer : List Region} (h : TeamOf (r :: outer) t) :
    ∃ previousTeam, t = .team previousTeam (headThread outer) r.teamSize
      ∧ TeamOf outer previousTeam := by
  cases t with
  | null => exact absurd h id
  | wild => exact absurd h id
  | team previousTeam fatherId numthreads =>
    obtain ⟨rfl, rfl, hprev⟩ := h
    exact ⟨previousTeam, rfl, hprev⟩

/-- Inside of a region there is a team. -/
theorem TeamOf.ne_null (h : TeamOf enclosing t) (hne : enclosing ≠ []) : t ≠ .null := by
  cases enclosing with
  | nil => exact absurd rfl hne
  | cons r outer =>
    obtain ⟨_, rfl, -⟩ := h.cons
    exact nofun

/-- A hop outwards in the loops of the queries. -/
theorem TeamOf.hop {r : Region} {outer : List Region} {β : Type}
    (h : TeamOf (r :: outer) t) (hne : outer ≠ []) (next : TeamRef → Option β)
    (error : Option β) :
    ∃ previousTeam, TeamOf outer previousTeam
      ∧ t.fatherId? = some (headThread outer)
      ∧ (match t.previousTeam? with
        | none => none
        | some .null => error
        | some previous => next previous) = next previousTeam := by
  obtain ⟨previousTeam, rfl, hprev⟩ := h.cons
  refine ⟨previousTeam, hprev, rfl, ?_⟩
  cases outer with
  | nil => exact absurd rfl hne
  | cons r' outer' =>
    obtain ⟨_, rfl, -⟩ := hprev.cons
    rfl

/-- The loop of omp_get_team_size finds the size of the region. -/
theorem teamSizeLoop_eq (h : TeamOf enclosing t) (hlt : hops < enclosing.length) :
    t.teamSizeLoop hops = some (enclosing[hops]).teamSize := by
  induction hops generalizing enclosing t with
  | zero =>
    cases enclosing with
    | nil => exact absurd hlt (Nat.not_lt_zero _)
    | cons r outer =>
      obtain ⟨_, rfl, -⟩ := h.cons
      rfl
  | succ hops ih =>
    cases enclosing with
    | nil => exact absurd hlt (Nat.not_lt_zero _)
    | cons r outer =>
      have hlt' : hops < outer.length := Nat.lt_of_succ_lt_succ hlt
      have hne : outer ≠ [] := List.ne_nil_of_length_pos (Nat.zero_lt_of_lt hlt')
      obtain ⟨previousTeam, hprev, -, hhop⟩ := h.hop hne
        (TeamRef.teamSizeLoop hops) (some (-1))
      exact hhop.trans (ih hprev hlt')

/-- The loop of omp_get_ancestor_thread_num finds the number there. -/
theorem ancestorLoop_eq {prevTeam : TeamRef} (h : TeamOf enclosing t)
    (hprevTeam : hops = 0 → prevTeam.fatherId? = some (headThread enclosing))
    (hlt : hops < enclosing.length) :
    t.ancestorLoop hops prevTeam = some (enclosing[hops]).threadNum := by
  induction hops generalizing enclosing prevTeam t with
  | zero =>
    cases enclosing with
    | nil => exact absurd hlt (Nat.not_lt_zero _)
    | cons r outer => exact hprevTeam rfl
  | succ hops ih =>
    cases enclosing with
    | nil => exact absurd hlt (Nat.not_lt_zero _)
    | cons r outer =>
      have hlt' : hops < outer.length := Nat.lt_of_succ_lt_succ hlt
      have hne : outer ≠ [] := List.ne_nil_of_length_pos (Nat.zero_lt_of_lt hlt')
      obtain ⟨previousTeam, hprev, hfather, hhop⟩ := h.hop hne
        (TeamRef.ancestorLoop hops · t) (some (-1))
      exact hhop.trans (ih hprev (fun _ => hfather) hlt')

/-- Counting the levels from outside or from inside. -/
theorem reverse_getElem? {level : Nat} (h : hops + level = enclosing.length)
    (hlevel : 0 < level) (hlt : hops < enclosing.length) :
    enclosing.reverse[level - 1]? = some enclosing[hops] := by
  rw [List.getElem?_reverse (by omega), List.getElem?_eq_getElem (by omega)]
  have hidx : enclosing.length - 1 - (level - 1) = hops := by omega
  simp only [hidx]

/-- A context that is in order answers the queries right. -/
theorem answers_of_ok {ctxt : Ctxt} (h : CtxtOk ctxt enclosing) :
    Answers ctxt enclosing := by
  refine ⟨h.level, fun level => ?_⟩
  unfold ompGetAncestorThreadNum ompGetTeamSize threadNumAt teamSizeAt ompGetLevel
  rw [h.level]
  dsimp only
  by_cases h0 : level = 0
  · subst h0
    rw [if_pos rfl, if_pos rfl, if_pos rfl, if_pos rfl, if_neg (by omega)]
    exact ⟨rfl, rfl⟩
  · rw [if_neg h0, if_neg h0, if_neg h0, if_neg h0]
    by_cases hneg : level < 0
    · rw [if_neg (by omega), if_pos (.inl hneg), if_pos hneg, if_pos (.inl hneg),
        if_pos hneg]
      exact ⟨rfl, rfl⟩
    · rw [if_neg hneg, if_neg hneg]
      by_cases hbig : (enclosing.length : Int) < level
      · have hnone : enclosing.reverse[level.toNat - 1]? = none := by
          rw [List.getElem?_eq_none_iff, List.length_reverse]
          omega
        rw [hnone, if_neg (by omega), if_pos (.inr (.inl (by omega))),
          if_pos (.inr (by omega))]
        exact ⟨rfl, rfl⟩
      · obtain ⟨hops, hhops⟩ : ∃ hops : Nat, hops + level.toNat = enclosing.length :=
          ⟨enclosing.length - level.toNat, by omega⟩
        have hlt : hops < enclosing.length := by omega
        have hne : enclosing ≠ [] := List.ne_nil_of_length_pos (by omega)
        have hsub : (enclosing.length : Int) - level = hops := by omega
        rw [reverse_getElem? hhops (by omega) hlt, hsub,
          if_neg (by omega : ¬ (level < 0 ∨ (hops : Int) < 0))]
        cases hops with
        | zero =>
          rw [if_pos Int.natCast_zero, if_pos Int.natCast_zero, h.thread]
          cases enclosing with
          | nil => exact absurd rfl hne
          | cons r outer =>
            obtain ⟨_, hteam, -⟩ := h.team.cons
            rw [hteam]
            exact ⟨rfl, rfl⟩
        | succ hops =>
          have hnot : ¬ (level < 0 ∨ ((hops + 1 : Nat) : Int) < 0
              ∨ ctxt.teaminfo = .null) := by
            have := h.team.ne_null hne
            rintro (h1 | h1 | h1)
            · exact hneg h1
            · omega
            · exact this h1
          rw [if_neg (by omega), if_neg hnot, if_neg (by omega), Int.toNat_natCast,
            ancestorLoop_eq h.team (absurd · (Nat.succ_ne_zero _)) hlt,
            teamSizeLoop_eq h.team hlt]
          exact ⟨rfl, rfl⟩

-- ======== the invariant

namespace Nest

/-- What the end of a construct gives back, and the context of its code. -/
def FrameOk (f : Frame) (ctxt : Ctxt) : Prop :=
  match f.saved with
  | .local old => old = f.entry ∧ CtxtOk ctxt f.enclosing
  | .region => ctxt.saveCtxt = some f.entry ∧ CtxtOk ctxt f.enclosing
  | .ending old => old = some f.entry

/-- The contexts that a kprocessor has in use, from the current one down. -/
def StackOk (heap : CtxtId → Ctxt) (serial k : Nat) : CtxtId → List Frame → Prop
  | id, [] => id.kproc = k ∧ id.depth = 0 ∧ id.serial < serial
    ∧ CtxtOk (heap id) []
  | id, f :: frames => id.kproc = k ∧ id.depth = frames.length + 1
    ∧ id.serial < serial ∧ FrameOk f (heap id)
    ∧ StackOk heap serial k f.entry frames

/-- The argument of a task, and the context of its parent. -/
def TaskOk (heap : CtxtId → Ctxt) (serial : Nat) (t : PushedTask) : Prop :=
  t.icv.threadId = headThread t.enclosing
    ∧ t.icv.nestedLevel = t.enclosing.length
    ∧ match t.arg with
      | .parallel arg => TeamOf t.enclosing arg.teaminfo
        ∧ arg.threadid = t.icv.threadId ∧ arg.nextnumthreads = t.icv.nextNumthreads
        ∧ arg.nestedlevel = t.icv.nestedLevel
        ∧ arg.nestedparallel = t.icv.nestedParallel
        ∧ arg.activeLevel = t.icv.activeLevel
      | .parallelFor arg => TeamOf t.enclosing arg.teaminfo
        ∧ arg.threadid = t.icv.threadId ∧ arg.nextnumthreads = t.icv.nextNumthreads
      | .explicit parent => parent.serial < serial
        ∧ (heap parent).icv.threadId = t.icv.threadId
        ∧ (TeamOf t.enclosing (heap parent).teaminfo
          ∨ (heap parent).teaminfo = .null)

structure Inv (scope : TaskKind → Prop) (s : Nest) : Prop where
  idle : ∀ k, (s.kprocs k).tls = none → (s.kprocs k).frames = []
  inUse : ∀ k id, (s.kprocs k).tls = some id →
    StackOk s.heap s.serial k id (s.kprocs k).frames
  tasks : ∀ t ∈ s.tasks, TaskOk s.heap s.serial t
  inherited : ∀ t ∈ s.started, scope t.kind → t.got = t.inherited
  restored : ∀ e ∈ s.ended, e.2 = some e.1

variable {cfg : OmpConfig} {scope : TaskKind → Prop} {s s' : Nest}
  {heap heap' : CtxtId → Ctxt} {serial serial' k : Nat} {id : CtxtId}
  {frames : List Frame} {ctxt' ctxt mem : Ctxt} {t : PushedTask}

/-- Before the first region. -/
theorem init_inv (scope : TaskKind → Prop) (heap : CtxtId → Ctxt) :
    Inv scope (init heap) where
  idle _ _ := rfl
  inUse _ _ h := nomatch h
  tasks _ h := absurd h List.not_mem_nil
  inherited _ h := absurd h List.not_mem_nil
  restored _ h := absurd h List.not_mem_nil

/-- What the queries and the end of a construct read of a context. -/
def Same (ctxt ctxt' : Ctxt) : Prop :=
  ctxt'.teaminfo = ctxt.teaminfo ∧ ctxt'.saveCtxt = ctxt.saveCtxt
    ∧ ctxt'.icv.threadId = ctxt.icv.threadId
    ∧ ctxt'.icv.nestedLevel = ctxt.icv.nestedLevel

theorem Same.of_eq (h : ctxt' = ctxt) : Same ctxt ctxt' := by
  subst h
  exact ⟨rfl, rfl, rfl, rfl⟩

/-- The order of a context depends on what the queries read. -/
theorem Same.ok {enclosing : List Region} (h : Same ctxt ctxt')
    (hok : CtxtOk ctxt enclosing) : CtxtOk ctxt' enclosing := by
  obtain ⟨hteam, -, hthread, hlevel⟩ := h
  exact ⟨hlevel.trans hok.level, hthread.trans hok.thread, hteam ▸ hok.team⟩

/-- So does the order of a frame. -/
theorem Same.frame {f : Frame} (h : Same ctxt ctxt') (hok : FrameOk f ctxt) :
    FrameOk f ctxt' := by
  unfold FrameOk at hok ⊢
  cases hs : f.saved with
  | «local» old =>
    rw [hs] at hok
    exact ⟨hok.1, h.ok hok.2⟩
  | region =>
    rw [hs] at hok
    exact ⟨h.2.1.trans hok.1, h.ok hok.2⟩
  | ending old =>
    rw [hs] at hok
    exact hok

/-- The contexts on a stack stay in order when new ones are made. -/
theorem StackOk.mono (h : StackOk heap serial k id frames)
    (hle : serial ≤ serial')
    (hsame : ∀ id, id.kproc = k → id.depth ≤ frames.length → id.serial < serial →
      Same (heap id) (heap' id)) :
    StackOk heap' serial' k id frames := by
  induction frames generalizing id with
  | nil =>
    obtain ⟨hk, hd, hs, hok⟩ := h
    exact ⟨hk, hd, Nat.lt_of_lt_of_le hs hle,
      (hsame id hk (Nat.le_of_eq hd) hs).ok hok⟩
  | cons f frames ih =>
    obtain ⟨hk, hd, hs, hok, hrest⟩ := h
    refine ⟨hk, hd, Nat.lt_of_lt_of_le hs hle,
      (hsame id hk (Nat.le_of_eq hd) hs).frame hok, ih hrest ?_⟩
    exact fun id hk hd => hsame id hk (Nat.le_succ_of_le hd)

/-- So do the tasks that were pushed. -/
theorem TaskOk.mono (h : TaskOk heap serial t) (hle : serial ≤ serial')
    (hkeep : ∀ id, id.serial < serial →
      (heap' id).icv.threadId = (heap id).icv.threadId
        ∧ ((heap' id).teaminfo = (heap id).teaminfo ∨ (heap' id).teaminfo = .null)) :
    TaskOk heap' serial' t := by
  obtain ⟨hthread, hlevel, harg⟩ := h
  refine ⟨hthread, hlevel, ?_⟩
  cases ha : t.arg with
  | parallel arg =>
    rw [ha] at harg
    exact harg
  | parallelFor arg =>
    rw [ha] at harg
    exact harg
  | explicit parent =>
    rw [ha] at harg
    obtain ⟨hlt, hid, hteam⟩ := harg
    obtain ⟨hid', hteam'⟩ := hkeep parent hlt
    refine ⟨Nat.lt_of_lt_of_le hlt hle, hid'.trans hid, ?_⟩
    rcases hteam' with heq | hnull
    · rw [heq]
      exact hteam
    · exact .inr hnull

/-- A context on a stack was made before. -/
theorem StackOk.serial_lt (h : StackOk heap serial k id frames) :
    id.serial < serial := by
  cases frames with
  | nil => exact h.2.2.1
  | cons f frames => exact h.2.2.1

/-- The context of a running kprocessor is in order. -/
theorem Inv.current (h : Inv scope s) (htls : (s.kprocs k).tls = some id)
    (hrun : (s.kprocs k).running) :
    CtxtOk (s.heap id) (s.kprocs k).enclosing := by
  have hst := h.inUse k id htls
  unfold OmpKproc.running at hrun
  unfold OmpKproc.enclosing
  cases hf : (s.kprocs k).frames with
  | nil =>
    rw [hf] at hst
    exact hst.2.2.2
  | cons f frames =>
    rw [hf] at hst hrun
    obtain ⟨-, -, -, hok, -⟩ := hst
    unfold FrameOk at hok
    dsimp only at hrun
    cases hs : f.saved with
    | «local» old =>
      rw [hs] at hok
      exact hok.2
    | region =>
      rw [hs] at hok
      exact hok.2
    | ending old =>
      rw [hs] at hrun
      cases hrun

-- ======== the first call

/-- What `komp_get_ctxtkproc` changes. -/
structure Got (k : Nat) (s s' : Nest) (id : CtxtId) : Prop where
  tls : (s'.kprocs k).tls = some id
  frames : (s'.kprocs k).frames = (s.kprocs k).frames
  tasks : s'.tasks = s.tasks
  heap : ∀ id, id.serial < s.serial → s'.heap id = s.heap id

/-- What komp_get_ctxtkproc does, with or without a context. -/
theorem got (cfg : OmpConfig) (k : Nat) (mem : FirstMem) (s : Nest) :
    Got k s (s.kompGetCtxtkproc cfg k mem).1 (s.kompGetCtxtkproc cfg k mem).2 := by
  unfold kompGetCtxtkproc
  cases htls : (s.kprocs k).tls with
  | some id => exact ⟨htls, rfl, rfl, fun _ _ => rfl⟩
  | none =>
    let p : OmpKproc := ⟨some ⟨k, 0, s.serial⟩, (s.kprocs k).frames⟩
    have hp : Function.update s.kprocs k p k = p :=
      Function.update_self k p s.kprocs
    have hframes := congrArg OmpKproc.frames hp
    refine ⟨congrArg OmpKproc.tls hp, hframes, rfl,
      fun id hid => Function.update_of_ne ?_ _ _⟩
    rintro rfl
    exact Nat.lt_irrefl _ hid

/-- One kprocessor moves. -/
theorem Inv.update (h : Inv scope s) {p : OmpKproc}
    (hkprocs : s'.kprocs = Function.update s.kprocs k p)
    (hidle : p.tls = none → p.frames = [])
    (hstack : ∀ id, p.tls = some id → StackOk s'.heap s'.serial k id p.frames)
    (hle : s.serial ≤ s'.serial)
    (hheap : ∀ id, id.serial < s.serial → id.kproc ≠ k → s'.heap id = s.heap id)
    (htasks : ∀ t ∈ s'.tasks, TaskOk s'.heap s'.serial t)
    (hinherited : ∀ t ∈ s'.started, scope t.kind → t.got = t.inherited)
    (hrestored : ∀ e ∈ s'.ended, e.2 = some e.1) : Inv scope s' := by
  have hcases : ∀ j, (j = k ∧ s'.kprocs j = p)
      ∨ (j ≠ k ∧ s'.kprocs j = s.kprocs j) := by
    intro j
    rw [hkprocs]
    by_cases hj : j = k
    · subst hj
      exact .inl ⟨rfl, Function.update_self j _ _⟩
    · exact .inr ⟨hj, Function.update_of_ne hj _ _⟩
  refine ⟨fun j hj => ?_, fun j id hj => ?_, htasks, hinherited, hrestored⟩
  · rcases hcases j with ⟨-, hp⟩ | ⟨-, hp⟩
    · rw [hp] at hj ⊢
      exact hidle hj
    · rw [hp] at hj ⊢
      exact h.idle j hj
  · rcases hcases j with ⟨rfl, hp⟩ | ⟨hne, hp⟩
    · rw [hp] at hj ⊢
      exact hstack id hj
    · rw [hp] at hj ⊢
      refine (h.inUse j id hj).mono hle fun id hid _ hs => .of_eq ?_
      exact hheap id hs (hid ▸ hne)

/-- A task depends on the contexts made before it. -/
theorem TaskOk.of_heap (h : TaskOk heap serial t) (hle : serial ≤ serial')
    (hheap : ∀ id, id.serial < serial → heap' id = heap id) : TaskOk heap' serial' t :=
  h.mono hle fun id hid => ⟨by rw [hheap id hid], .inl (by rw [hheap id hid])⟩

/-- The first context of a kprocessor is outside of all regions. -/
theorem firstCtxt_ok (cfg : OmpConfig) (mem : FirstMem) :
    CtxtOk (firstCtxt cfg mem) [] :=
  ⟨rfl, rfl, trivial⟩

/-- komp_get_ctxtkproc keeps the invariant. -/
theorem Inv.got (h : Inv scope s) (cfg : OmpConfig) (k : Nat) (mem : FirstMem) :
    Inv scope (s.kompGetCtxtkproc cfg k mem).1 := by
  unfold kompGetCtxtkproc
  cases htls : (s.kprocs k).tls with
  | some id => exact h
  | none =>
    have hnew : ∀ id : CtxtId, id.serial < s.serial →
        Function.update s.heap ⟨k, 0, s.serial⟩ (firstCtxt cfg mem) id
          = s.heap id := by
      intro id hid
      refine Function.update_of_ne ?_ _ _
      rintro rfl
      exact Nat.lt_irrefl _ hid
    refine h.update (k := k) rfl nofun (fun id hid => ?_)
      (Nat.le_succ _) (fun id hid _ => hnew id hid)
      (fun t ht => (h.tasks t ht).of_heap (Nat.le_succ _) hnew) h.inherited h.restored
    cases hid
    dsimp only
    rw [h.idle k htls]
    refine ⟨rfl, rfl, Nat.lt_succ_self _, ?_⟩
    have hself := Function.update_self ⟨k, 0, s.serial⟩ (firstCtxt cfg mem) s.heap
    exact (Same.of_eq hself).ok (firstCtxt_ok cfg mem)

/-- A new context is put on the stack. -/
theorem Inv.push (h : Inv scope s) {f : Frame} (htls : (s.kprocs k).tls = some f.entry)
    (hok : FrameOk f ctxt) : Inv scope (s.pushCtxt k ctxt f) := by
  have hst := h.inUse k f.entry htls
  let new : CtxtId := ⟨k, (s.kprocs k).frames.length + 1, s.serial⟩
  have hnew : ∀ id : CtxtId, id.serial < s.serial →
      Function.update s.heap new ctxt id = s.heap id := by
    intro id hid
    refine Function.update_of_ne ?_ _ _
    rintro rfl
    exact Nat.lt_irrefl _ hid
  refine h.update (k := k) rfl nofun (fun id hid => ?_)
    (Nat.le_succ _) (fun id hid _ => hnew id hid)
    (fun t ht => (h.tasks t ht).of_heap (Nat.le_succ _) hnew) h.inherited h.restored
  cases hid
  refine ⟨rfl, rfl, Nat.lt_succ_self _, ?_, hst.mono (Nat.le_succ _) ?_⟩
  · have hself := Function.update_self new ctxt s.heap
    exact (Same.of_eq hself).frame hok
  · exact fun id _ _ hs => .of_eq (hnew id hs)

/-- Tasks are pushed and started. -/
theorem Inv.record (h : Inv scope s) (tasks : List PushedTask)
    (started : List Started) (htasks : ∀ t ∈ tasks, TaskOk s.heap s.serial t)
    (hstarted : ∀ t ∈ started, scope t.kind → t.got = t.inherited) :
    Inv scope { s with
      tasks := tasks
      started := started } :=
  ⟨h.idle, h.inUse, htasks, hstarted, h.restored⟩

-- ======== the steps

/-- The context of the master of a region. -/
theorem masterCtxt_ok {outer : List Region} (h : CtxtOk ctxt outer) (mem : Ctxt)
    (id : CtxtId) (n : Nat) : CtxtOk (masterCtxt mem ctxt id n) (⟨0, n⟩ :: outer) where
  level := by
    have := h.level
    change 1 + ctxt.icv.nestedLevel = ((outer.length + 1 : Nat) : Int)
    omega
  thread := rfl
  team := ⟨rfl, h.thread, h.team⟩

/-- It inherits the control variables iff the block had those it does not
set. -/
theorem masterCtxt_icv_eq_iff (mem ctxt : Ctxt) (id : CtxtId) (n : Nat) :
    (masterCtxt mem ctxt id n).icv = inherits ctxt.icv n 0
      ↔ mem.icv.SameSched ctxt.icv := by
  unfold masterCtxt inherits Icv.SameSched
  rw [Icv.mk.injEq]
  constructor
  · rintro ⟨-, -, -, -, -, hdyn, hsched, hchunk⟩
    exact ⟨hdyn, hsched, hchunk⟩
  · rintro ⟨hdyn, hsched, hchunk⟩
    exact ⟨rfl, rfl, Int.add_comm _ _, rfl, rfl, hdyn, hsched, hchunk⟩

/-- The task of a slave of the region. -/
theorem slave_ok {outer : List Region} (h : CtxtOk ctxt outer) (mem : Ctxt) (n i : Nat)
    (arg : Ctxt → Nat → TaskArg) (harg : arg = kompTaskPrepare ∨ arg = parallelForArg) :
    TaskOk heap serial
      ⟨arg (masterCtxt mem ctxt id n) i, ⟨i, n⟩ :: outer, inherits ctxt.icv n i⟩ := by
  have hlevel : (inherits ctxt.icv n i).nestedLevel
      = ((⟨i, n⟩ : Region) :: outer).length := by
    have := h.level
    change ctxt.icv.nestedLevel + 1 = ((outer.length + 1 : Nat) : Int)
    omega
  have hteam : TeamOf (⟨i, n⟩ :: outer) (teamOf ctxt n) := ⟨rfl, h.thread, h.team⟩
  refine ⟨rfl, hlevel, ?_⟩
  rcases harg with rfl | rfl
  · exact ⟨hteam, rfl, rfl, Int.add_comm _ _, rfl, rfl⟩
  · exact ⟨hteam, rfl, rfl⟩

/-- The start of a region keeps the invariant. -/
theorem Inv.startRegion (h : Inv scope s) (htls : (s.kprocs k).tls = some id)
    (hrun : (s.kprocs k).running) {num : Nat} {arg : Ctxt → Nat → TaskArg}
    {slaves : Nat → List Nat} (harg : arg = kompTaskPrepare ∨ arg = parallelForArg)
    (hmeets : scope .implicit → mem.icv.SameSched (s.heap id).icv) :
    Inv scope (s.startRegion cfg k num mem arg slaves id) := by
  have hok := h.current htls hrun
  refine (h.record _ _ ?_ ?_).push htls ⟨rfl, masterCtxt_ok hok mem id _⟩
  · intro t ht
    rcases List.mem_append.mp ht with ht | ht
    · exact h.tasks t ht
    · obtain ⟨i, -, rfl⟩ := List.mem_map.mp ht
      exact slave_ok hok mem _ i arg harg
  · intro t ht hscope
    rcases List.mem_cons.mp ht with rfl | ht
    · exact (masterCtxt_icv_eq_iff _ _ id _).mpr (hmeets hscope)
    · exact h.inherited t ht hscope

/-- So does its end. -/
theorem Inv.parallelEnd (h : Inv scope s) (htls : (s.kprocs k).tls = some id)
    (hs : s.gompParallelEnd k id = some s') : Inv scope s' := by
  have hst := h.inUse k id htls
  unfold gompParallelEnd at hs
  split at hs
  next enclosing entry frames hf =>
    rw [hf] at hst
    obtain ⟨hk, hd, hlt, hok, hrest⟩ := hst
    cases hs
    have hother : ∀ id', id' ≠ id → Function.update s.heap id
        { s.heap id with teaminfo := .null } id' = s.heap id' :=
      fun id' hne => Function.update_of_ne hne _ _
    refine h.update (k := k) rfl nofun (fun id' hid => ?_)
      (Nat.le_refl _) (fun id' _ hne => hother id' fun he => hne (he ▸ hk))
      (fun t ht => (h.tasks t ht).mono (Nat.le_refl _) fun id' _ => ?_)
      h.inherited h.restored
    · cases hid
      refine ⟨hk, hd, hlt, hok.1, hrest.mono (Nat.le_refl _) fun id' _ hd' _ => ?_⟩
      refine .of_eq (hother id' ?_)
      rintro rfl
      omega
    · by_cases he : id' = id
      · subst he
        have hself := Function.update_self id' { s.heap id' with teaminfo := .null } s.heap
        exact ⟨congrArg (·.icv.threadId) hself, .inr (congrArg (·.teaminfo) hself)⟩
      · exact ⟨congrArg (·.icv.threadId) (hother id' he),
          .inl (congrArg (·.teaminfo) (hother id' he))⟩
  next => cases hs

/-- A setter changes nothing that the queries of levels read. -/
theorem Setter.apply_same (setter : Setter) (ctxt : Ctxt) :
    Same ctxt { ctxt with icv := setter.apply ctxt.icv } := by
  cases setter <;> exact ⟨rfl, rfl, rfl, rfl⟩

/-- A setter keeps the invariant. -/
theorem Inv.set (h : Inv scope s) (id : CtxtId) (setter : Setter) :
    Inv scope (s.setCtxt id
      { s.heap id with icv := setter.apply (s.heap id).icv }) := by
  have hsame : ∀ id', Same (s.heap id') (Function.update s.heap id
      { s.heap id with icv := setter.apply (s.heap id).icv } id') := by
    intro id'
    by_cases he : id' = id
    · subst he
      rw [Function.update_self]
      exact Setter.apply_same setter _
    · exact .of_eq (Function.update_of_ne he _ _)
  refine ⟨h.idle, fun j id' hj => (h.inUse j id' hj).mono (Nat.le_refl _)
    fun id' _ _ _ => hsame id', fun t ht => (h.tasks t ht).mono (Nat.le_refl _)
    fun id' _ => ?_, h.inherited, h.restored⟩
  obtain ⟨hteam, -, hthread, -⟩ := hsame id'
  exact ⟨hthread, .inl hteam⟩

/-- GOMP_task keeps the invariant. -/
theorem Inv.gompTask (h : Inv scope s) (htls : (s.kprocs k).tls = some id)
    (hrun : (s.kprocs k).running) (ifClause : Bool) :
    Inv scope (s.gompTask k ifClause id) := by
  have hok := h.current htls hrun
  cases ifClause with
  | true =>
    refine h.record _ _ (fun t ht => ?_) h.inherited
    rcases List.mem_append.mp ht with ht | ht
    · exact h.tasks t ht
    · obtain rfl := List.mem_singleton.mp ht
      exact ⟨hok.thread, hok.level, (h.inUse k id htls).serial_lt, rfl, .inl hok.team⟩
  | false =>
    refine (h.record _ _ h.tasks ?_).push htls ⟨rfl, hok.level, hok.thread, hok.team⟩
    intro t ht hscope
    rcases List.mem_cons.mp ht with rfl | ht
    · rfl
    · exact h.inherited t ht hscope

/-- The end of a frame keeps it. -/
theorem Inv.leave (h : Inv scope s) (hs : s.leave k = some s') : Inv scope s' := by
  unfold Nest.leave at hs
  split at hs
  next f frames hf =>
    cases htls : (s.kprocs k).tls with
    | none =>
      have := h.idle k htls
      rw [hf] at this
      cases this
    | some id =>
      have hst := h.inUse k id htls
      rw [hf] at hst
      obtain ⟨-, -, -, hok, hrest⟩ := hst
      unfold FrameOk at hok
      have hgo : s' = { s with ended := (f.entry, some f.entry) :: s.ended }.setKproc k
          ⟨some f.entry, frames⟩ := by
        split at hs
        next old hsaved =>
          rw [hsaved] at hok
          rw [hok.1] at hs
          exact (Option.some.inj hs).symm
        next old hsaved =>
          rw [hsaved] at hok
          have hok : old = some f.entry := hok
          rw [hok] at hs
          exact (Option.some.inj hs).symm
        next => cases hs
      subst hgo
      refine h.update (k := k) rfl nofun (fun id' hid => ?_)
        (Nat.le_refl _) (fun _ _ _ => rfl) h.tasks h.inherited fun e he => ?_
      · cases hid
        exact hrest
      · rcases List.mem_cons.mp he with rfl | he
        · rfl
        · exact h.restored e he
  next => cases hs

/-- A started task is in order when it met the condition. -/
theorem TaskOk.start (h : TaskOk heap serial t) (hmeets : t.Meets scope heap mem)
    (id : CtxtId) :
    CtxtOk (taskCtxt heap mem id t.arg) t.enclosing
      ∧ (scope t.arg.kind → (taskCtxt heap mem id t.arg).icv = t.icv) := by
  obtain ⟨hthread, hlevel, harg⟩ := h
  unfold PushedTask.Meets at hmeets
  cases ha : t.arg with
  | parallel arg =>
    rw [ha] at harg hmeets
    obtain ⟨hteam, hid, hnum, hlev, hnested, hactive⟩ := harg
    refine ⟨⟨hlev.trans hlevel, hid.trans hthread, hteam⟩, fun hscope => ?_⟩
    obtain ⟨hdyn, hsched, hchunk⟩ := hmeets hscope
    exact Icv.ext hid hnum hlev hnested hactive hdyn hsched.symm hchunk.symm
  | parallelFor arg =>
    rw [ha] at harg hmeets
    obtain ⟨hteam, hid, hnum⟩ := harg
    obtain ⟨hlev, hunset⟩ := hmeets
    refine ⟨⟨hlev, hid.trans hthread, hteam⟩, fun hscope => ?_⟩
    obtain ⟨hnested, hactive, hdyn, hsched, hchunk⟩ := hunset hscope
    exact Icv.ext hid hnum (hlev.trans hlevel.symm) hnested hactive hdyn hsched hchunk
  | explicit parent =>
    rw [ha] at harg hmeets
    obtain ⟨-, hid, hteam⟩ := harg
    obtain ⟨hlev, hnull, hunset⟩ := hmeets
    refine ⟨⟨hlev, hid.trans hthread, ?_⟩, fun hscope => ?_⟩
    · rcases hteam with hteam | heq
      · exact hteam
      · cases he : t.enclosing with
        | nil => trivial
        | cons r outer => exact absurd heq (hnull (by rw [he]; exact List.cons_ne_nil r outer))
    · obtain ⟨⟨hnested, hactive, hdyn, hsched, hchunk⟩, hnum⟩ := hunset hscope
      exact Icv.ext hid hnum (hlev.trans hlevel.symm) hnested hactive hdyn hsched hchunk

/-- A context that answers right inside of a region has a team. -/
theorem team_ne_null_of_answers {enclosing : List Region} (h : Answers ctxt enclosing)
    (hne : enclosing ≠ []) : ctxt.teaminfo ≠ .null := by
  intro hnull
  have hpos : 0 < enclosing.length := List.length_pos_iff.mpr hne
  have hlevel : ctxt.icv.nestedLevel = enclosing.length := h.1
  have hsize := (h.2 enclosing.length).2
  unfold ompGetTeamSize ompGetLevel at hsize
  rw [hlevel] at hsize
  dsimp only at hsize
  rw [if_neg (by omega), if_neg (by omega), if_pos (by omega), hnull] at hsize
  cases hsize

/-- A started task that answers right has met the condition. -/
theorem meets_of_start (hans : Answers (taskCtxt heap mem id t.arg) t.enclosing)
    (hicv : scope t.arg.kind → (taskCtxt heap mem id t.arg).icv = t.icv) :
    t.Meets scope heap mem := by
  unfold PushedTask.Meets
  cases ha : t.arg with
  | parallel arg =>
    rw [ha] at hicv
    intro hscope
    obtain ⟨-, -, -, -, -, hdyn, hsched, hchunk⟩ := Icv.ext_iff.mp (hicv hscope)
    exact ⟨hdyn, hsched.symm, hchunk.symm⟩
  | parallelFor arg =>
    rw [ha] at hicv hans
    refine ⟨hans.1, fun hscope => ?_⟩
    obtain ⟨-, -, -, hnested, hactive, hdyn, hsched, hchunk⟩ :=
      Icv.ext_iff.mp (hicv hscope)
    exact ⟨hnested, hactive, hdyn, hsched, hchunk⟩
  | explicit parent =>
    rw [ha] at hicv hans
    have hnull := team_ne_null_of_answers hans
    refine ⟨hans.1, hnull, fun hscope => ?_⟩
    obtain ⟨-, hnum, -, hnested, hactive, hdyn, hsched, hchunk⟩ :=
      Icv.ext_iff.mp (hicv hscope)
    exact ⟨⟨hnested, hactive, hdyn, hsched, hchunk⟩, hnum⟩

/-- The condition depends on the contexts made before. -/
theorem TaskOk.meets_iff (h : TaskOk heap serial t)
    (hheap : ∀ id, id.serial < serial → heap' id = heap id) :
    t.Meets scope heap' mem ↔ t.Meets scope heap mem := by
  obtain ⟨-, -, harg⟩ := h
  unfold PushedTask.Meets
  cases ha : t.arg with
  | parallel arg => exact Iff.rfl
  | parallelFor arg => exact Iff.rfl
  | explicit parent =>
    rw [ha] at harg
    dsimp only
    rw [hheap parent harg.1]

/-- The start of a task keeps the invariant. -/
theorem Inv.execute (h : Inv scope s) (htls : (s.kprocs k).tls = some id) {j : Nat}
    (hmeets : ∀ t, s.tasks[j]? = some t → t.Meets scope s.heap mem)
    (hs : s.execute k j mem id = some s') : Inv scope s' := by
  unfold Nest.execute at hs
  split at hs
  next => cases hs
  next t hj =>
    have htask := h.tasks t (List.mem_of_getElem? hj)
    obtain ⟨hok, hicv⟩ := htask.start (hmeets t hj) id
    cases hs
    refine (h.record _ _ (fun t ht => ?_) fun t ht hscope => ?_).push htls ⟨rfl, hok⟩
    · exact h.tasks t (List.mem_of_mem_eraseIdx ht)
    · rcases List.mem_cons.mp ht with rfl | ht
      · exact hicv hscope
      · exact h.inherited t ht hscope

theorem running_got (cfg : OmpConfig) (k : Nat) (mem : FirstMem) (s : Nest) :
    ((s.kompGetCtxtkproc cfg k mem).1.kprocs k).running = (s.kprocs k).running := by
  unfold OmpKproc.running
  rw [(got cfg k mem s).frames]

theorem enclosing_got (cfg : OmpConfig) (k : Nat) (mem : FirstMem) (s : Nest) :
    ((s.kompGetCtxtkproc cfg k mem).1.kprocs k).enclosing
      = (s.kprocs k).enclosing := by
  unfold OmpKproc.enclosing
  rw [(got cfg k mem s).frames]

/-- Every call keeps it. -/
theorem Inv.call (h : Inv scope s) (htls : (s.kprocs k).tls = some id) {e : Event}
    (hmeets : ∀ mem, (∃ num, e = .parallel num mem)
        ∨ (∃ num start stop incr, e = .parallelLoop num start stop incr mem) →
      scope .implicit → mem.icv.SameSched (s.heap id).icv)
    (hs : s.call cfg k e id = some s') : Inv scope s' := by
  obtain ⟨hrun, hs⟩ := Option.ite_none_right_eq_some.mp hs
  cases e with
  | parallel num mem =>
    cases hs
    exact h.startRegion htls hrun (.inl rfl) (hmeets mem (.inl ⟨num, rfl⟩))
  | parallelLoop num start stop incr mem =>
    cases hs
    exact h.startRegion htls hrun (.inr rfl)
      (hmeets mem (.inr ⟨num, start, stop, incr, rfl⟩))
  | parallelEnd => exact h.parallelEnd htls hs
  | task ifClause =>
    cases hs
    exact h.gompTask htls hrun ifClause
  | set setter =>
    cases hs
    exact h.set id setter
  | execute j mem => cases hs
  | leave => cases hs

/-- Every step that meets the condition keeps the invariant. -/
theorem Inv.step (h : Inv scope s) {a : Action} (hmeets : Meets cfg scope a s)
    (hs : Nest.step cfg a s = some s') : Inv scope s' := by
  obtain ⟨k, first, e⟩ := a
  have hgot := Nest.got cfg k first s
  have hinv := h.got cfg k first
  have hcall : ∀ {e : Event}, Meets cfg scope ⟨k, first, e⟩ s →
      (s.kompGetCtxtkproc cfg k first).1.call cfg k e
        (s.kompGetCtxtkproc cfg k first).2 = some s' → Inv scope s' := by
    intro e hmeets hs
    refine hinv.call hgot.tls (fun mem he => ?_) hs
    rcases he with ⟨num, rfl⟩ | ⟨num, start, stop, incr, rfl⟩
    · exact hmeets
    · exact hmeets
  cases e with
  | leave => exact h.leave hs
  | execute j mem =>
    refine hinv.execute hgot.tls (fun t ht => ?_) hs
    rw [hgot.tasks] at ht
    have htask := h.tasks t (List.mem_of_getElem? ht)
    exact (htask.meets_iff hgot.heap).mpr (hmeets t ht)
  | parallel num mem => exact hcall hmeets hs
  | parallelLoop num start stop incr mem => exact hcall hmeets hs
  | parallelEnd => exact hcall hmeets hs
  | task ifClause => exact hcall hmeets hs
  | set setter => exact hcall hmeets hs

/-- The invariant gives the answers of the queries. -/
theorem Inv.reflects (h : Inv scope s) (cfg : OmpConfig) : Reflects cfg scope s := by
  refine ⟨fun k first hrun => ?_, h.inherited, h.restored⟩
  have hgot := Nest.got cfg k first s
  have hok := (h.got cfg k first).current hgot.tls ((running_got cfg k first s).trans hrun)
  rw [enclosing_got] at hok
  exact answers_of_ok hok

-- ======== the exact condition

theorem pushCtxt_kproc (k : Nat) (ctxt : Ctxt) (f : Frame) (s : Nest) :
    (s.pushCtxt k ctxt f).kprocs k
      = ⟨some ⟨k, (s.kprocs k).frames.length + 1, s.serial⟩,
        f :: (s.kprocs k).frames⟩ := by
  unfold pushCtxt setKproc
  dsimp only
  rw [Function.update_self]

/-- The context pushed is the one that is got. -/
theorem kompGetCtxt_push (cfg : OmpConfig) (mem : FirstMem) (ctxt : Ctxt) (f : Frame)
    (s : Nest) : (s.pushCtxt k ctxt f).kompGetCtxt cfg k mem = ctxt := by
  unfold kompGetCtxt kompGetCtxtkproc
  rw [pushCtxt_kproc]
  exact Function.update_self _ ctxt s.heap

/-- A kprocessor that pushed a frame runs in its regions. -/
theorem push_enclosing (k : Nat) (ctxt : Ctxt) (f : Frame) (s : Nest)
    (hf : ∀ old, f.saved ≠ .ending old) : ((s.pushCtxt k ctxt f).kprocs k).running
      ∧ ((s.pushCtxt k ctxt f).kprocs k).enclosing = f.enclosing := by
  rw [pushCtxt_kproc]
  refine ⟨?_, rfl⟩
  unfold OmpKproc.running
  dsimp only
  cases hs : f.saved with
  | «local» old => rfl
  | region => rfl
  | ending old => exact absurd hs (hf old)

/-- A region whose master answers right has met the condition. -/
theorem sameSched_of_reflects {num : Nat} {arg : Ctxt → Nat → TaskArg}
    {slaves : Nat → List Nat}
    (h : Reflects cfg scope (s.startRegion cfg k num mem arg slaves id))
    (hscope : scope .implicit) : mem.icv.SameSched (s.heap id).icv :=
  (masterCtxt_icv_eq_iff _ _ id _).mp (h.inherited _ List.mem_cons_self hscope)

/-- So has a task. -/
theorem meets_of_execute {j : Nat} (hs : s.execute k j mem id = some s')
    (hr : Reflects cfg scope s') (first : FirstMem) (hj : s.tasks[j]? = some t) :
    t.Meets scope s.heap mem := by
  unfold Nest.execute at hs
  rw [hj] at hs
  have hs := (Option.some.inj hs).symm
  subst hs
  obtain ⟨hrun, henc⟩ := push_enclosing k (taskCtxt s.heap mem id t.arg)
    ⟨.local id, t.enclosing, id⟩
    { s with
      tasks := s.tasks.eraseIdx j
      started := ⟨t.arg.kind, t.icv, (taskCtxt s.heap mem id t.arg).icv⟩ :: s.started }
    fun old hold => nomatch hold
  have hans := hr.answers k first hrun
  rw [kompGetCtxt_push, henc] at hans
  exact meets_of_start hans (hr.inherited _ List.mem_cons_self)

/-- A step into a state that answers right has met the condition. -/
theorem Inv.meets_of_reflects (h : Inv scope s) {a : Action}
    (hs : Nest.step cfg a s = some s') (hr : Reflects cfg scope s') :
    Meets cfg scope a s := by
  obtain ⟨k, first, e⟩ := a
  have hgot := Nest.got cfg k first s
  cases e with
  | leave => trivial
  | parallelEnd => trivial
  | task ifClause => trivial
  | set setter => trivial
  | execute j mem =>
    intro t ht
    have htask := h.tasks t (List.mem_of_getElem? ht)
    refine (htask.meets_iff hgot.heap).mp ?_
    refine meets_of_execute hs hr first ?_
    exact (congrArg (·[j]?) hgot.tasks).trans ht
  | parallel num mem =>
    obtain ⟨-, hs⟩ := Option.ite_none_right_eq_some.mp hs
    cases hs
    exact sameSched_of_reflects hr
  | parallelLoop num start stop incr mem =>
    obtain ⟨-, hs⟩ := Option.ite_none_right_eq_some.mp hs
    cases hs
    exact sameSched_of_reflects hr

/-- Every state of a run reflects the structure of the program iff each of
its events met the condition, whatever tasks the sentence about the
control variables is taken to be about. -/
theorem nesting_iff (cfg : OmpConfig) (scope : TaskKind → Prop)
    (heap : CtxtId → Ctxt) (as : List Action)
    (hrun : (run (Nest.step cfg) as (init heap)).isSome) :
    (∀ bs, bs <+: as → ∀ s, run (Nest.step cfg) bs (init heap) = some s →
        Reflects cfg scope s)
      ↔ Along (Nest.step cfg) (Meets cfg scope) as (init heap) := by
  obtain ⟨s, hs⟩ := Option.isSome_iff_exists.mp hrun
  refine Along.iff_good (P := Inv scope) (fun h => h.reflects cfg)
    (fun hm h hst => h.step hm hst) (fun hm h hst hr => hm ?_)
    (init_inv scope heap) hs
  exact h.meets_of_reflects hst hr

/-- Two kprocessors; regions may be nested. -/
def twoKprocs : OmpConfig where
  concurrency := 2
  envNthreads := 0
  maxActiveLevels := 4

def noFirst : FirstMem := ⟨.wild, 0, none⟩

/-- A block of memory in which a context of that level has been. -/
def block (level : Int) : Ctxt where
  teaminfo := .null
  icv := ⟨1, 2, level, 0, 0, 0, .dynamic, 0⟩
  saveCtxt := none

/-- A region of two threads; the second executes an undeferred task. -/
def regionRun : List Action :=
  [⟨0, noFirst, .parallel 2 (block 0)⟩, ⟨1, noFirst, .execute 0 (block 0)⟩,
    ⟨1, noFirst, .task false⟩, ⟨1, noFirst, .leave⟩, ⟨1, noFirst, .leave⟩,
    ⟨0, noFirst, .parallelEnd⟩, ⟨0, noFirst, .leave⟩]

theorem nesting_iff_regionRun : ∃ s,
    run (Nest.step twoKprocs) regionRun (init fun _ => block 0) = some s
    ∧ Reflects twoKprocs (fun _ => True) s := by
  refine ⟨_, rfl, ?_⟩
  refine (nesting_iff twoKprocs (fun _ => True) (fun _ => block 0) regionRun
    rfl).mpr ?_ _ (List.prefix_refl _) _ rfl
  refine ⟨fun _ => ⟨rfl, rfl, rfl⟩, fun s₁ h₁ => ?_⟩
  cases h₁
  refine ⟨fun t ht => ?_, fun s₂ h₂ => ?_⟩
  · cases ht
    exact fun _ => ⟨rfl, rfl, rfl⟩
  cases h₂
  refine ⟨trivial, fun s₃ h₃ => ⟨trivial, fun s₄ h₄ => ⟨trivial, fun s₅ h₅ => ?_⟩⟩⟩
  exact ⟨trivial, fun s₆ h₆ => ⟨trivial, fun s₇ h₇ => trivial⟩⟩

/-- A deferred task of the sequential part, executed in a block where a
context of level 7 has been, is at level 7. -/
theorem leftover_level :
    ¬ ∀ as s, run (Nest.step twoKprocs) as (init fun _ => block 0) = some s →
      Reflects twoKprocs (fun _ => False) s := by
  intro h
  have hr := h [⟨0, noFirst, .task true⟩, ⟨1, noFirst, .execute 0 (block 7)⟩] _ rfl
  have hlevel := (hr.answers 1 noFirst rfl).1
  exact absurd hlevel (by decide)

end Nest

end XKaapi.Omp
