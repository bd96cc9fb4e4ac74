/-
Do tasks spawned with a kid keep the sequential semantics? The task is
marked stolen and published without any look at the tasks before it in
the frame, so whoever serves the mailbox may run it at once. It is in
order exactly as far as the spawning body takes care of it: in every run
in which a task is distributed only when the earlier tasks of the frame
it conflicts with are over, no task is lost or run twice, none starts too
early and none overlaps a later one it conflicts with
(`kidOk_of_meets`).

The invariant is cut by what a step touches: the frames and their words
(`Frames`), the mailboxes (`Mail`), the steal tasks given out (`Jobs`),
and the order among the tasks (`Order`).
-/
import XKaapi.Mailbox.Distribute
import Mathlib.Data.List.Nodup

namespace XKaapi.Mailbox

open XKaapi.Task
open Function (update update_apply update_of_ne update_self)
open StepMachine

-- ======== the statement

/-- Two accesses conflict: on one datum, not both reading. `cwcw` tells
whether two cumulative writes count as a conflict. -/
def accessesConflict (cwcw : Bool) (p q : Dfg.Param) : Bool :=
  p.data == q.data && (p.reads || p.writes) && (q.reads || q.writes)
    && (p.writes || q.writes) && (cwcw || !(p.m == Dfg.modeCW && q.m == Dfg.modeCW))

def tasksConflict (cwcw : Bool) (ps qs : List Dfg.Param) : Bool :=
  ps.any fun p => qs.any fun q => accessesConflict cwcw p q

/-- What a thread has pushed so far, without the state words. -/
def St.spawned (s : St) (t : Nat) : List (List Dfg.Param × Bool) :=
  (s.tasks t).map fun task => (task.params, task.remote)

def St.Running (s : St) (x : Id) : Prop := x ∈ s.begun ∧ x ∉ s.ended

/-- The sequential semantics of the tasks with a kid, in one state. -/
structure KidOk (cwcw : Bool) (s : St) : Prop where
  fifo : ∀ kid, ∃ l, Fifo.Holds s.next (s.mailbox kid) l ∧ s.sent kid
    = s.served kid ++ l
  atMostOnce : ∀ x, s.begun.count x ≤ 1
  passed : ∀ t i, i < s.pc t → s.begun.count (t, i) = 1 ∧ s.ended.count (t, i) = 1
  after : ∀ t i j ps qs r, i < j → (s.spawned t)[i]? = some (ps, r) →
    (s.spawned t)[j]? = some (qs, true) → tasksConflict cwcw ps qs = true →
    (t, j) ∈ s.begun → (t, i) ∈ s.ended
  apart : ∀ t i j ps qs r, i < j → (s.spawned t)[i]? = some (ps, true) →
    (s.spawned t)[j]? = some (qs, r) → tasksConflict cwcw ps qs = true →
    ¬(s.Running (t, i) ∧ s.Running (t, j))

/-- The distributed task can still be executed. -/
def CanExecute (concurrency : Nat) (s : St) (x : Id) : Prop :=
  ∃ as s', run (step concurrency) as s = some s' ∧ x ∈ s'.ended

/-- The condition on a step: a task is given to another processor when the
earlier tasks of the frame it conflicts with are over. -/
def Meets (concurrency : Nat) (cwcw : Bool) (a : Act) (s : St) : Prop :=
  match a with
  | .distribute t params kid =>
    t ≠ (if concurrency ≤ kid then kid % concurrency else kid) →
      ∀ i ps r, (s.spawned t)[i]? = some (ps, r) → tasksConflict cwcw ps params
        = true →
        (t, i) ∈ s.ended
  | _ => True

instance (concurrency : Nat) (cwcw : Bool) : ∀ a s,
    Decidable (Meets concurrency cwcw a s)
  | .distribute t params kid, s =>
    decidable_of_iff
      (t ≠ (if concurrency ≤ kid then kid % concurrency else kid) →
        ∀ i : Fin (s.spawned t).length,
          tasksConflict cwcw ((s.spawned t)[i]).1 params = true
            → (t, i.val) ∈ s.ended)
      ⟨fun h hkid i ps r hi hc => by
        rcases List.getElem?_eq_some_iff.mp hi with ⟨hlt, heq⟩
        exact h hkid ⟨i, hlt⟩ (by
          show tasksConflict cwcw ((s.spawned t)[i]).1 params = true
          rw [heq]
          exact hc),
      fun h hkid i hc => h hkid i _ _ (List.getElem?_eq_getElem i.isLt) hc⟩
  | .push .., _ | .execframe .., _ | .owner .., _ | .serve .., _ | .job ..,
    _ => isTrue trivial

-- ======== the words

section Views

variable (s : St) (t : Nat) (x : Id)

/-- The state words are no part of what was spawned. -/
theorem spawned_setWord (w : StateWord) : (s.setWord x w).spawned = s.spawned := by
  funext u
  unfold St.spawned St.setWord
  by_cases hu : u = x.1
  · subst hu
    dsimp only
    rw [update_self]
    refine List.ext_getElem (by simp) fun i h1 h2 => ?_
    simp only [List.getElem_map, List.getElem_modify]
    split <;> rfl
  · dsimp only
    rw [update_of_ne hu]

/-- The word written is the word read. -/
theorem word_setWord_self {w : StateWord} (hx : x.2 < (s.spawned x.1).length) :
    (s.setWord x w).word x = w := by
  unfold St.spawned at hx
  rw [List.length_map] at hx
  unfold St.word St.setWord
  dsimp only
  rw [update_self, List.getElem?_modify, List.getElem?_eq_getElem hx]
  simp

/-- The other words stay. -/
theorem word_setWord_ne {w : StateWord} {y : Id} (hy : y ≠ x) :
    (s.setWord x w).word y = s.word y := by
  unfold St.word St.setWord
  dsimp only
  by_cases hu : y.1 = x.1
  · have hne : x.2 ≠ y.2 := fun h => hy (Prod.ext hu h.symm)
    rw [hu, update_self, List.getElem?_modify]
    simp [hne]
  · rw [update_of_ne hu]

/-- A push appends to the frame of its thread. -/
theorem spawned_push_self (task : LocalTask) :
    (s.push t task).spawned t = s.spawned t ++ [(task.params, task.remote)] := by
  unfold St.spawned St.push
  dsimp only
  rw [update_self, List.map_append]
  rfl

/-- The frames of the others stay. -/
theorem spawned_push_ne (task : LocalTask) {u : Nat} (hu : u ≠ t) :
    (s.push t task).spawned u = s.spawned u := by
  unfold St.spawned St.push
  dsimp only
  rw [update_of_ne hu]

/-- A new task has the word it was pushed with. -/
theorem word_push_new (task : LocalTask) :
    (s.push t task).word (t, (s.spawned t).length) = task.word := by
  unfold St.spawned St.word St.push
  dsimp only
  rw [List.length_map, update_self, List.getElem?_concat_length]

/-- The tasks that were there keep their words. -/
theorem word_push_old (task : LocalTask) {y : Id}
    (hy : y.2 < (s.spawned y.1).length) :
    (s.push t task).word y = s.word y := by
  unfold St.spawned at hy
  rw [List.length_map] at hy
  unfold St.word St.push
  dsimp only
  by_cases hu : y.1 = t
  · subst hu
    rw [update_self, List.getElem?_append_left hy]
  · rw [update_of_ne hu]

theorem getElem?_concat_cases {α : Type} {l : List α} {a b : α} {i : Nat}
    (h : (l ++ [a])[i]? = some b) : l[i]? = some b ∨ (i = l.length ∧ b = a) := by
  rcases Nat.lt_trichotomy i l.length with hlt | rfl | hgt
  · rw [List.getElem?_append_left hlt] at h
    exact .inl h
  · rw [List.getElem?_concat_length] at h
    exact .inr ⟨rfl, (Option.some.inj h).symm⟩
  · rw [List.getElem?_eq_none (by rw [List.length_append]; exact hgt)] at h
    cases h

/-- A task after a push was there, or is the one pushed. -/
theorem getElem?_spawned_push {task : LocalTask} {u i : Nat}
    {ps : List Dfg.Param} {r : Bool}
    (h : ((s.push t task).spawned u)[i]? = some (ps, r)) :
    (s.spawned u)[i]? = some (ps, r) ∨
      (u = t ∧ i = (s.spawned t).length ∧ ps = task.params ∧ r = task.remote) := by
  by_cases hu : u = t
  · subst hu
    rw [spawned_push_self] at h
    rcases getElem?_concat_cases h with h | ⟨hi, heq⟩
    · exact .inl h
    · cases heq
      exact .inr ⟨rfl, hi, rfl, rfl⟩
  · rw [spawned_push_ne s t task hu] at h
    exact .inl h

end Views

-- ======== the invariant

/-- The thread stands before a task it found stolen. -/
def OwnerPc.OnStolen : OwnerPc → Prop
  | .trylock | .readState | .signal | .unlock _ | .suspended => True
  | _ => False

/-- The frames: what is behind `pc` is over, what is before it untouched
when local, and stolen when distributed, TERM only once it is over. -/
structure Frames (s : St) : Prop where
  pcLe : ∀ t, s.pc t ≤ (s.spawned t).length
  passed : ∀ t i, i < s.pc t → (t, i) ∈ s.ended
  begunNodup : s.begun.Nodup
  endedNodup : s.ended.Nodup
  endedBegun : ∀ x ∈ s.ended, x ∈ s.begun
  begunSpawned : ∀ x ∈ s.begun, x.2 < (s.spawned x.1).length
  localBegun : ∀ t i ps, (s.spawned t)[i]? = some (ps, false) → (t, i) ∈ s.begun →
    i < s.pc t ∨ (i = s.pc t ∧ s.owner t = .running)
  localWord : ∀ t i ps, (s.spawned t)[i]? = some (ps, false) → s.pc t ≤ i →
    ¬(i = s.pc t ∧ s.owner t = .running) → s.word (t, i) = taskStateInit
  running : ∀ t, s.owner t = .running →
    (∃ ps, (s.spawned t)[s.pc t]? = some (ps, false)) ∧ s.Running (t, s.pc t)
  stolen : ∀ t, (s.owner t).OnStolen → ∃ ps,
    (s.spawned t)[s.pc t]? = some (ps, true)
  remoteWord : ∀ t i ps, (s.spawned t)[i]? = some (ps, true) →
    Has (s.word (t, i)) taskStateSteal ∧ ¬Has (s.word (t, i)) taskStateMerge ∧
      (Has (s.word (t, i)) taskStateTerm → (t, i) ∈ s.ended)

/-- The mailboxes hold, in order, what was sent and not yet served. A
distributed task is sent once, the one being distributed not yet. -/
structure Mail (s : St) (q : Nat → List Id) : Prop where
  holds : ∀ kid, Fifo.Holds s.next (s.mailbox kid) (q kid)
  split : ∀ kid, s.sent kid = s.served kid ++ q kid
  nodup : ∀ kid, (s.sent kid).Nodup
  one : ∀ x k k', x ∈ s.sent k → x ∈ s.sent k' → k = k'
  sentRemote : ∀ x k, x ∈ s.sent k → ∃ ps, (s.spawned x.1)[x.2]? = some (ps, true)
  pending : ∀ t kid, s.owner t = .mailbox kid → ∃ n ps,
    (s.spawned t).length = n + 1 ∧
    (s.spawned t)[n]? = some (ps, true) ∧ ∀ k, (t, n) ∉ s.sent k
  remoteSent : ∀ t i ps, (s.spawned t)[i]? = some (ps, true) →
    (∃ k, (t, i) ∈ s.sent k) ∨
      ∃ kid, s.owner t = .mailbox kid ∧ i + 1 = (s.spawned t).length

/-- What the place of a steal task says about the task it is on. -/
def JobOk (s : St) (job : Job) : Prop :=
  match job.pc with
  | .markexec => job.origin ∉ s.begun ∧ ¬Has job.word taskExecutionState
  | .running => s.Running job.origin
  | .lock | .mark | .unlock | .done => job.origin ∈ s.ended
  | .refused => False

/-- The steal tasks given out: one for each task served, and a
distributed task begins in it only. -/
structure Jobs (s : St) : Prop where
  served : ∀ x, (∃ n : Nat, ∃ job, s.jobs[n]? = some job ∧ job.origin = x) ↔
    ∃ k, x ∈ s.served k
  unique : ∀ (n m : Nat) job job', s.jobs[n]? = some job → s.jobs[m]? = some job' →
    job.origin = job'.origin → n = m
  ok : ∀ (n : Nat) job, s.jobs[n]? = some job → JobOk s job
  remoteBegun : ∀ t i ps, (s.spawned t)[i]? = some (ps, true) → (t, i) ∈ s.begun →
    ∃ k, (t, i) ∈ s.served k
  record : ∀ x, ¬Has (s.remoteTask x) taskExecutionState

/-- The tasks before a distributed one that it conflicts with are over. -/
structure Order (cwcw : Bool) (s : St) : Prop where
  earlier : ∀ t i j ps qs r, i < j → (s.spawned t)[i]? = some (ps, r) →
    (s.spawned t)[j]? = some (qs, true) → tasksConflict cwcw ps qs = true
      → (t, i) ∈ s.ended
  pushing : ∀ t params kid, s.owner t = .pushtask params kid →
    ∀ i ps r, (s.spawned t)[i]? = some (ps, r) → tasksConflict cwcw ps params
      = true →
      (t, i) ∈ s.ended

structure Inv (cwcw : Bool) (s : St) : Prop where
  frames : Frames s
  mail : ∃ q, Mail s q
  jobs : Jobs s
  order : Order cwcw s

-- ======== the frames

variable {s s' : St} {t : Nat} {x : Id} {ps params : List Dfg.Param} {w : StateWord}
  {pc : OwnerPc} {task : LocalTask} {kid n : Nat} {job : Job}

/-- A word of a remote task changes: still stolen, not merged, terminated
only after its end. -/
theorem Frames.setWord (h : Frames s) (hx : (s.spawned x.1)[x.2]? = some (ps, true))
    (hsteal : Has w taskStateSteal) (hmerge : ¬Has w taskStateMerge)
    (hterm : Has w taskStateTerm → x ∈ s.ended) : Frames (s.setWord x w) := by
  have hlt : x.2 < (s.spawned x.1).length := (List.getElem?_eq_some_iff.mp hx).1
  have hsp := spawned_setWord s x w
  refine ⟨?_, h.passed, h.begunNodup, h.endedNodup, h.endedBegun, ?_, ?_, ?_,
    ?_, ?_, ?_⟩
  all_goals rw [hsp]
  · exact h.pcLe
  · exact h.begunSpawned
  · exact h.localBegun
  · intro u i qs hu hle hrun
    have hne : ((u, i) : Id) ≠ x := by
      intro heq
      subst heq
      rw [hu] at hx
      cases hx
    rw [word_setWord_ne s x hne]
    exact h.localWord u i qs hu hle hrun
  · exact h.running
  · exact h.stolen
  · intro u i qs hu
    by_cases hux : ((u, i) : Id) = x
    · subst hux
      rw [word_setWord_self s _ hlt]
      exact ⟨hsteal, hmerge, hterm⟩
    · rw [word_setWord_ne s x hux]
      exact h.remoteWord u i qs hu

theorem owner_setOwner (s : St) (t u : Nat) (pc : OwnerPc) :
    (s.setOwner t pc).owner u = if u = t then pc else s.owner u := by
  unfold St.setOwner
  dsimp only
  rw [update_apply]

/-- The owner moves between steps at which it executes nothing. -/
theorem Frames.setOwner (h : Frames s) (hold : s.owner t ≠ .running)
    (hnew : pc ≠ .running)
    (hstolen : pc.OnStolen → ∃ ps, (s.spawned t)[s.pc t]? = some (ps, true)) :
    Frames (s.setOwner t pc) := by
  have hrun : ∀ u, (s.setOwner t pc).owner u = .running ↔ s.owner u = .running := by
    intro u
    rw [owner_setOwner]
    by_cases hu : u = t
    · subst hu
      rw [if_pos rfl]
      exact ⟨fun hpc => absurd hpc hnew, fun hpc => absurd hpc hold⟩
    · rw [if_neg hu]
  refine ⟨h.pcLe, h.passed, h.begunNodup, h.endedNodup, h.endedBegun,
    h.begunSpawned, ?_, ?_,
    ?_, ?_, h.remoteWord⟩
  · intro u i ps hu hb
    rw [hrun]
    exact h.localBegun u i ps hu hb
  · intro u i ps hu hle hni
    rw [hrun] at hni
    exact h.localWord u i ps hu hle hni
  · intro u hu
    exact h.running u ((hrun u).mp hu)
  · intro u hu
    rw [owner_setOwner] at hu
    by_cases hut : u = t
    · rw [if_pos hut] at hu
      subst hut
      exact hstolen hu
    · rw [if_neg hut] at hu
      exact h.stolen u hu

/-- Past a task that is over, and may be so only now. -/
theorem Frames.passTo (h : Frames s) {ended : List Id}
    (hlt : s.pc t < (s.spawned t).length) (hb : (t, s.pc t) ∈ s.begun)
    (hend : (t, s.pc t) ∈ ended) (hnodup : ended.Nodup)
    (hsub : ∀ x ∈ s.ended, x ∈ ended)
    (honly : ∀ x ∈ ended, x ∈ s.ended ∨ x = (t, s.pc t)) :
    Frames { s.pass t with ended := ended } := by
  have howner : ∀ u, (s.pass t).owner u = if u = t then .markexec else s.owner u :=
    fun u => update_apply ..
  have hpc : ∀ u, (s.pass t).pc u = if u = t then s.pc t + 1 else s.pc u :=
    fun u => update_apply ..
  refine ⟨?_, ?_, h.begunNodup, hnodup, ?_, h.begunSpawned, ?_, ?_, ?_, ?_, ?_⟩
  · intro u
    show (s.pass t).pc u ≤ (s.spawned u).length
    rw [hpc]
    split
    next hu => rw [hu]; exact hlt
    next => exact h.pcLe u
  · intro u i hi
    have hi' : i < (s.pass t).pc u := hi
    rw [hpc] at hi'
    split at hi'
    next hu =>
      subst hu
      rcases Nat.lt_succ_iff_lt_or_eq.mp hi' with hlt | rfl
      · exact hsub _ (h.passed u i hlt)
      · exact hend
    next => exact hsub _ (h.passed u i hi')
  · intro x hx
    rcases honly x hx with hx | rfl
    · exact h.endedBegun x hx
    · exact hb
  · intro u i qs hu hb
    show i < (s.pass t).pc u ∨ (i = (s.pass t).pc u ∧ (s.pass t).owner u = .running)
    rw [howner, hpc]
    rcases h.localBegun u i qs hu hb with hlt | ⟨rfl, hrun⟩
    · refine .inl ?_
      split
      next hut => subst hut; omega
      next => exact hlt
    · by_cases hut : u = t
      · subst hut
        rw [if_pos rfl]
        exact .inl (Nat.lt_succ_self _)
      · rw [if_neg hut, if_neg hut]
        exact .inr ⟨rfl, hrun⟩
  · intro u i qs hu hle hni
    have hle' : (s.pass t).pc u ≤ i := hle
    have hni' : ¬(i = (s.pass t).pc u ∧ (s.pass t).owner u = .running) := hni
    rw [howner, hpc] at hni'
    rw [hpc] at hle'
    show s.word (u, i) = _
    by_cases hut : u = t
    · subst hut
      rw [if_pos rfl] at hle'
      refine h.localWord u i qs hu (by omega) ?_
      intro h
      obtain ⟨rfl, -⟩ := h
      omega
    · rw [if_neg hut] at hle'
      rw [if_neg hut, if_neg hut] at hni'
      exact h.localWord u i qs hu hle' hni'
  · intro u hu
    have hu' : (s.pass t).owner u = .running := hu
    show (∃ ps, (s.spawned u)[(s.pass t).pc u]? = some (ps, false)) ∧
      (u, (s.pass t).pc u) ∈ s.begun ∧ (u, (s.pass t).pc u) ∉ ended
    rw [howner] at hu'
    rw [hpc]
    by_cases hut : u = t
    · rw [if_pos hut] at hu'
      cases hu'
    · rw [if_neg hut] at hu' ⊢
      rcases h.running u hu' with ⟨hex, hb', he'⟩
      exact ⟨hex, hb', fun hmem => (honly _ hmem).elim he' fun heq =>
        hut (congrArg Prod.fst heq)⟩
  · intro u hu
    have hu' : ((s.pass t).owner u).OnStolen := hu
    show ∃ ps, (s.spawned u)[(s.pass t).pc u]? = some (ps, true)
    rw [howner] at hu'
    rw [hpc]
    by_cases hut : u = t
    · rw [if_pos hut] at hu'
      exact hu'.elim
    · rw [if_neg hut] at hu' ⊢
      exact h.stolen u hu'
  · intro u i qs hu
    rcases h.remoteWord u i qs hu with ⟨hsteal, hmerge, hterm⟩
    exact ⟨hsteal, hmerge, fun hw => hsub _ (hterm hw)⟩

/-- The owner passes a task that has ended. -/
theorem Frames.pass (h : Frames s) (hlt : s.pc t < (s.spawned t).length)
    (hend : (t, s.pc t) ∈ s.ended) : Frames (s.pass t) :=
  h.passTo hlt (h.endedBegun _ hend) hend h.endedNodup (fun _ hx => hx)
    fun _ => .inl

/-- A push keeps the tasks that were there. -/
theorem getElem?_push_of_some (s : St) (t : Nat) (task : LocalTask) {u i : Nat}
    {x : List Dfg.Param × Bool} (h : (s.spawned u)[i]? = some x) :
    ((s.push t task).spawned u)[i]? = some x := by
  by_cases hu : u = t
  · subst hu
    rw [spawned_push_self,
      List.getElem?_append_left (List.getElem?_eq_some_iff.mp h).1]
    exact h
  · rw [spawned_push_ne s t task hu]
    exact h

theorem length_le_push (s : St) (t : Nat) (task : LocalTask) (u : Nat) :
    (s.spawned u).length ≤ ((s.push t task).spawned u).length := by
  by_cases hu : u = t
  · subst hu
    rw [spawned_push_self, List.length_append]
    exact Nat.le_add_right _ _
  · exact Nat.le_of_eq (congrArg List.length (spawned_push_ne s t task hu).symm)

theorem nodup_concat {α : Type} {l : List α} {a : α} (hl : l.Nodup) (ha : a ∉ l) :
    (l ++ [a]).Nodup :=
  List.nodup_append.mpr ⟨hl, List.nodup_singleton a,
    fun _ hb _ hc hbc => ha (List.mem_singleton.mp hc ▸ hbc ▸ hb)⟩

/-- A push: a local task is not marked, a distributed one stolen. -/
theorem Frames.push (h : Frames s)
    (hlocal : task.remote = false → task.word = taskStateInit)
    (hremote : task.remote = true → Has task.word taskStateSteal ∧
      ¬Has task.word taskStateMerge ∧ ¬Has task.word taskStateTerm) :
    Frames (s.push t task) := by
  refine ⟨fun u => Nat.le_trans (h.pcLe u) (length_le_push s t task u),
    h.passed, h.begunNodup,
    h.endedNodup, h.endedBegun,
    fun x hx => Nat.lt_of_lt_of_le (h.begunSpawned x hx)
      (length_le_push s t task x.1),
    ?_, ?_, ?_, ?_, ?_⟩
  · intro u i ps hu hb
    rcases getElem?_spawned_push s t hu with hold | ⟨rfl, rfl, -, -⟩
    · exact h.localBegun u i ps hold hb
    · exact absurd (h.begunSpawned _ hb) (Nat.lt_irrefl _)
  · intro u i ps hu hle hni
    rcases getElem?_spawned_push s t hu with hold | ⟨rfl, rfl, -, hr⟩
    · rw [word_push_old s t task (List.getElem?_eq_some_iff.mp hold).1]
      exact h.localWord u i ps hold hle hni
    · rw [word_push_new]
      exact hlocal hr.symm
  · intro u hu
    rcases h.running u hu with ⟨⟨ps, hps⟩, hrun⟩
    exact ⟨⟨ps, getElem?_push_of_some s t task hps⟩, hrun⟩
  · intro u hu
    rcases h.stolen u hu with ⟨ps, hps⟩
    exact ⟨ps, getElem?_push_of_some s t task hps⟩
  · intro u i ps hu
    rcases getElem?_spawned_push s t hu with hold | ⟨rfl, rfl, -, hr⟩
    · rw [word_push_old s t task (List.getElem?_eq_some_iff.mp hold).1]
      exact h.remoteWord u i ps hold
    · rw [word_push_new]
      rcases hremote hr.symm with ⟨hsteal, hmerge, hterm⟩
      exact ⟨hsteal, hmerge, fun hw => absurd hw hterm⟩

/-- The thread begins the local task it stands at. -/
theorem Frames.beginOwner (h : Frames s) (hps : (s.spawned t)[s.pc t]? = some (ps, false))
    (hold : s.owner t ≠ .running) :
    Frames { (s.setWord (t, s.pc t) w).setOwner t .running with
      begun := s.begun ++ [(t, s.pc t)] } := by
  have hlt : s.pc t < (s.spawned t).length := (List.getElem?_eq_some_iff.mp hps).1
  have hsp : (s.setWord (t, s.pc t) w).spawned = s.spawned := spawned_setWord s _ w
  have hnot : (t, s.pc t) ∉ s.begun := by
    intro hb
    rcases h.localBegun t _ ps hps hb with hlt | ⟨-, hrun⟩
    · exact Nat.lt_irrefl _ hlt
    · exact hold hrun
  have hnotEnded : (t, s.pc t) ∉ s.ended := fun he => hnot (h.endedBegun _ he)
  have howner : ∀ u, ((s.setWord (t, s.pc t) w).setOwner t .running).owner u =
      if u = t then .running else s.owner u := fun u => owner_setOwner _ t u _
  have hword : ∀ y : Id, y ≠ (t, s.pc t) → (s.setWord (t, s.pc t) w).word y
    = s.word y :=
    fun y hy => word_setWord_ne s _ hy
  refine ⟨?_, h.passed, ?_, h.endedNodup, ?_, ?_, ?_, ?_, ?_, ?_, ?_⟩
  · show ∀ u, s.pc u ≤ ((s.setWord (t, s.pc t) w).spawned u).length
    rw [hsp]
    exact h.pcLe
  · exact nodup_concat h.begunNodup hnot
  · exact fun x hx => List.mem_append_left _ (h.endedBegun x hx)
  · intro x hx
    show x.2 < ((s.setWord (t, s.pc t) w).spawned x.1).length
    rw [hsp]
    rcases List.mem_append.mp hx with hb | hb
    · exact h.begunSpawned x hb
    · rw [List.mem_singleton.mp hb]
      exact hlt
  · intro u i qs hu hb
    show i < s.pc u ∨ (i = s.pc u
      ∧ ((s.setWord (t, s.pc t) w).setOwner t .running).owner u = _)
    rw [howner]
    rcases List.mem_append.mp hb with hb | hb
    · rcases h.localBegun u i qs (by rw [← hsp]; exact hu) hb with hlt | ⟨rfl, hrun⟩
      · exact .inl hlt
      · refine .inr ⟨rfl, ?_⟩
        split
        · rfl
        · exact hrun
    · cases List.mem_singleton.mp hb
      exact .inr ⟨rfl, if_pos rfl⟩
  · intro u i qs hu hle hni
    have hni' : ¬(i = s.pc u ∧ (if u = t then OwnerPc.running else s.owner u)
      = .running) := by
      rw [← howner]
      exact hni
    have hne : ((u, i) : Id) ≠ (t, s.pc t) := by
      intro heq
      cases heq
      exact hni' ⟨rfl, if_pos rfl⟩
    show (s.setWord (t, s.pc t) w).word (u, i) = _
    rw [hword _ hne]
    refine h.localWord u i qs (by rw [← hsp]; exact hu) hle fun hrun =>
      hni' ⟨hrun.1, ?_⟩
    split
    · rfl
    · exact hrun.2
  · intro u hu
    have hu' : (if u = t then OwnerPc.running else s.owner u) = .running := by
      rw [← howner]
      exact hu
    show (∃ ps, ((s.setWord (t, s.pc t) w).spawned u)[s.pc u]? = some (ps, false)) ∧
      (u, s.pc u) ∈ s.begun ++ [(t, s.pc t)] ∧ (u, s.pc u) ∉ s.ended
    rw [hsp]
    by_cases hut : u = t
    · subst hut
      exact ⟨⟨ps, hps⟩, List.mem_append_right _ (List.mem_singleton_self _),
        hnotEnded⟩
    · rw [if_neg hut] at hu'
      rcases h.running u hu' with ⟨hex, hb, he⟩
      exact ⟨hex, List.mem_append_left _ hb, he⟩
  · intro u hu
    have hu' : (if u = t then OwnerPc.running else s.owner u).OnStolen := by
      rw [← howner]
      exact hu
    show ∃ ps, ((s.setWord (t, s.pc t) w).spawned u)[s.pc u]? = some (ps, true)
    rw [hsp]
    by_cases hut : u = t
    · rw [if_pos hut] at hu'
      exact hu'.elim
    · rw [if_neg hut] at hu'
      exact h.stolen u hu'
  · intro u i qs hu
    have hu' : (s.spawned u)[i]? = some (qs, true) := by
      rw [← hsp]
      exact hu
    have hne : ((u, i) : Id) ≠ (t, s.pc t) := by
      intro heq
      cases heq
      rw [hps] at hu'
      cases hu'
    have hw := hword _ hne
    show Has ((s.setWord (t, s.pc t) w).word (u, i)) _ ∧
      ¬Has ((s.setWord (t, s.pc t) w).word (u, i)) _ ∧
      (Has ((s.setWord (t, s.pc t) w).word (u, i)) _ → (u, i) ∈ s.ended)
    rw [hw]
    exact h.remoteWord u i qs hu'

/-- The owner ends the task that it executes itself. -/
theorem Frames.finishOwner (h : Frames s) (hrun : s.owner t = .running) :
    Frames { s.pass t with ended := s.ended ++ [(t, s.pc t)] } := by
  rcases h.running t hrun with ⟨⟨ps, hps⟩, hb, he⟩
  refine h.passTo (List.getElem?_eq_some_iff.mp hps).1 hb
    (List.mem_append_right _ (List.mem_singleton_self _))
    (nodup_concat h.endedNodup he) (fun _ => List.mem_append_left _) fun x hx => ?_
  rwa [List.mem_append, List.mem_singleton] at hx

/-- A job begins a task that nobody has begun. -/
theorem Frames.beginJob (h : Frames s) (hx : (s.spawned x.1)[x.2]? = some (ps, true))
    (hnot : x ∉ s.begun) (jobs : List Job) :
    Frames { s with begun := s.begun ++ [x], jobs := jobs } := by
  refine ⟨h.pcLe, h.passed, ?_, h.endedNodup,
    fun y hy => List.mem_append_left _ (h.endedBegun y hy), ?_, ?_,
      h.localWord, ?_, h.stolen,
    h.remoteWord⟩
  · exact nodup_concat h.begunNodup hnot
  · intro y hy
    rcases List.mem_append.mp hy with hy | hy
    · exact h.begunSpawned y hy
    · rw [List.mem_singleton.mp hy]
      exact (List.getElem?_eq_some_iff.mp hx).1
  · intro u i qs hu hb
    rcases List.mem_append.mp hb with hb | hb
    · exact h.localBegun u i qs hu hb
    · cases List.mem_singleton.mp hb
      rw [show (s.spawned u)[i]? = some (qs, false) from hu] at hx
      cases hx
  · intro u hu
    rcases h.running u hu with ⟨hex, hb, he⟩
    exact ⟨hex, List.mem_append_left _ hb, he⟩

/-- A job ends the task that it executes. -/
theorem Frames.finishJob (h : Frames s) (hx : (s.spawned x.1)[x.2]? = some (ps, true))
    (hrun : s.Running x) (jobs : List Job) :
    Frames { s with ended := s.ended ++ [x], jobs := jobs } := by
  refine ⟨h.pcLe, fun u i hi => List.mem_append_left _ (h.passed u i hi),
    h.begunNodup, ?_, ?_,
    h.begunSpawned, h.localBegun, h.localWord, ?_, h.stolen, ?_⟩
  · exact nodup_concat h.endedNodup hrun.2
  · intro y hy
    rcases List.mem_append.mp hy with hy | hy
    · exact h.endedBegun y hy
    · rw [List.mem_singleton.mp hy]
      exact hrun.1
  · intro u hu
    rcases h.running u hu with ⟨⟨qs, hqs⟩, hb, he⟩
    refine ⟨⟨qs, hqs⟩, hb, fun hmem => ?_⟩
    rcases List.mem_append.mp hmem with hmem | hmem
    · exact he hmem
    · rw [← List.mem_singleton.mp hmem, show (s.spawned u)[s.pc u]? = some
        (qs, false) from hqs]
        at hx
      cases hx
  · intro u i qs hu
    rcases h.remoteWord u i qs hu with ⟨hsteal, hmerge, hterm⟩
    exact ⟨hsteal, hmerge, fun hw => List.mem_append_left _ (hterm hw)⟩

-- ======== the mailboxes

variable {q : Nat → List Id}

/-- The mail depends on the boxes and the sent and served requests only. -/
theorem Mail.congr (h : Mail s q) (hnext : s'.next = s.next)
    (hbox : s'.mailbox = s.mailbox)
    (hsent : s'.sent = s.sent) (hserved : s'.served = s.served)
    (hsp : s'.spawned = s.spawned)
    (howner : ∀ u kid, s'.owner u = .mailbox kid ↔ s.owner u = .mailbox kid) :
    Mail s' q := by
  refine ⟨?_, ?_, ?_, ?_, ?_, ?_, ?_⟩
  · rw [hnext, hbox]
    exact h.holds
  · rw [hsent, hserved]
    exact h.split
  · rw [hsent]
    exact h.nodup
  · rw [hsent]
    exact h.one
  · rw [hsent, hsp]
    exact h.sentRemote
  · intro u kid hu
    rw [hsent, hsp]
    exact h.pending u kid ((howner u kid).mp hu)
  · intro u i ps hu
    rw [hsent, hsp]
    rw [hsp] at hu
    simp only [howner]
    exact h.remoteSent u i ps hu

/-- The owner that moves is not about to send. -/
theorem mailbox_setOwner (hold : ∀ kid, s.owner t ≠ .mailbox kid)
    (hnew : ∀ kid, pc ≠ .mailbox kid) (u kid : Nat) :
    (s.setOwner t pc).owner u = .mailbox kid ↔ s.owner u = .mailbox kid := by
  rw [owner_setOwner]
  by_cases hu : u = t
  · subst hu
    rw [if_pos rfl]
    exact ⟨fun h => absurd h (hnew kid), fun h => absurd h (hold kid)⟩
  · rw [if_neg hu]

theorem mailbox_pass (hold : ∀ kid, s.owner t ≠ .mailbox kid) (u kid : Nat) :
    (s.pass t).owner u = .mailbox kid ↔ s.owner u = .mailbox kid := by
  show (s.setOwner t .markexec).owner u = _ ↔ _
  refine mailbox_setOwner hold ?_ u kid
  intro k hk
  cases hk

section

variable (h : Mail s q)
include h

/-- The owner moves elsewhere than into a box. -/
theorem Mail.setOwner (hold : ∀ kid, s.owner t ≠ .mailbox kid)
    (hnew : ∀ kid, pc ≠ .mailbox kid) : Mail (s.setOwner t pc) q :=
  h.congr rfl rfl rfl rfl rfl (mailbox_setOwner hold hnew)

theorem Mail.setWord (x : Id) (w : StateWord) : Mail
    (s.setWord x w) q :=
  h.congr rfl rfl rfl rfl (spawned_setWord s x w) fun _ _ => Iff.rfl

/-- A push of a local task touches no box. -/
theorem Mail.push (hold : s.owner t = .spawning) (hlocal : task.remote = false) :
    Mail (s.push t task) q := by
  refine ⟨h.holds, h.split, h.nodup, h.one, ?_, ?_, ?_⟩
  · intro x k hx
    rcases h.sentRemote x k hx with ⟨ps, hps⟩
    exact ⟨ps, getElem?_push_of_some s t task hps⟩
  · intro u kid hu
    have hut : u ≠ t := by
      intro heq
      subst heq
      rw [show s.owner u = .mailbox kid from hu] at hold
      cases hold
    rw [spawned_push_ne s t task hut]
    exact h.pending u kid hu
  · intro u i ps hu
    rcases getElem?_spawned_push s t hu with hin | ⟨-, -, -, hr⟩
    · rcases h.remoteSent u i ps hin with hsent | ⟨kid, hu', hlen⟩
      · exact .inl hsent
      · have hut : u ≠ t := by
          intro heq
          subst heq
          rw [hold] at hu'
          cases hu'
        rw [spawned_push_ne s t task hut]
        exact .inr ⟨kid, hu', hlen⟩
    · rw [hlocal] at hr
      cases hr

/-- The task marked stolen is pushed in the frame, not in a mailbox yet. -/
theorem Mail.pushtask (hold : s.owner t = .pushtask params kid)
    (hremote : task.remote = true) (kid' : Nat) :
    Mail ((s.push t task).setOwner t (.mailbox kid')) q := by
  have hsp : ((s.push t task).setOwner t (.mailbox kid')).spawned
    = (s.push t task).spawned :=
    rfl
  have howner : ∀ u, ((s.push t task).setOwner t (.mailbox kid')).owner u =
      if u = t then .mailbox kid' else s.owner u := fun u => owner_setOwner _ t u _
  refine ⟨h.holds, h.split, h.nodup, h.one, ?_, ?_, ?_⟩
  · intro x k hx
    rcases h.sentRemote x k hx with ⟨ps, hps⟩
    exact ⟨ps, getElem?_push_of_some s t task hps⟩
  · intro u k hu
    rw [hsp]
    by_cases hut : u = t
    · subst hut
      rw [spawned_push_self]
      refine ⟨(s.spawned u).length, task.params, by simp, ?_, fun k' hk' => ?_⟩
      · rw [List.getElem?_concat_length, hremote]
      · rcases h.sentRemote _ k' hk' with ⟨ps, hps⟩
        exact Nat.lt_irrefl _ (List.getElem?_eq_some_iff.mp hps).1
    · rw [howner, if_neg hut] at hu
      rw [spawned_push_ne s t task hut]
      exact h.pending u k hu
  · intro u i ps hu
    rw [hsp] at hu ⊢
    rcases getElem?_spawned_push s t hu with hin | ⟨rfl, rfl, -, -⟩
    · rcases h.remoteSent u i ps hin with hsent | ⟨k, hu', hlen⟩
      · exact .inl hsent
      · have hut : u ≠ t := by
          intro heq
          subst heq
          rw [hold] at hu'
          cases hu'
        rw [spawned_push_ne s t task hut, howner, if_neg hut]
        exact .inr ⟨k, hu', hlen⟩
    · refine .inr ⟨kid', by rw [howner, if_pos rfl], ?_⟩
      rw [spawned_push_self, List.length_append]
      rfl

/-- What is in a box was sent there. -/
theorem Mail.mem_sent (hx : x ∈ q kid) : x ∈ s.sent kid := by
  rw [h.split]
  exact List.mem_append_right _ hx

/-- No request is twice in a box. -/
theorem Mail.nodup_queue (kid : Nat) : (q kid).Nodup := by
  have hnd := h.nodup kid
  rw [h.split] at hnd
  exact (List.nodup_append.mp hnd).2.1

/-- The push in tail, under the lock of the processor. -/
theorem Mail.sendTask (hold : s.owner t = .mailbox kid) :
    Mail ((mailboxPush kid (t, (s.tasks t).length - 1) s).setOwner t .spawning)
      (update q kid (q kid ++ [(t, (s.tasks t).length - 1)])) := by
  rcases h.pending t kid hold with ⟨n, ps, hlen, hps, hnot⟩
  have hlen' : (s.tasks t).length - 1 = n := by
    unfold St.spawned at hlen
    rw [List.length_map] at hlen
    omega
  rw [hlen']
  have hfresh : ∀ k, (t, n) ∉ q k := fun k hmem => hnot k (h.mem_sent hmem)
  have hsent : ∀ k, ((mailboxPush kid (t, n) s).setOwner t .spawning).sent k =
      if k = kid then s.sent kid ++ [(t, n)] else s.sent k :=
    fun k => update_apply ..
  have hmem : ∀ x k, x ∈ ((mailboxPush kid (t, n) s).setOwner t .spawning).sent k →
      x ∈ s.sent k ∨ (x = (t, n) ∧ k = kid) := by
    intro x k hx
    rw [hsent] at hx
    split at hx
    next hk =>
      rcases List.mem_append.mp hx with hx | hx
      · exact .inl (hk ▸ hx)
      · exact .inr ⟨List.mem_singleton.mp hx, hk⟩
    next => exact .inl hx
  have howner : ∀ u, ((mailboxPush kid (t, n) s).setOwner t .spawning).owner u =
      if u = t then .spawning else s.owner u := fun u => owner_setOwner _ t u _
  refine ⟨?_, ?_, ?_, ?_, ?_, ?_, ?_⟩
  · intro k
    show Fifo.Holds (Fifo.pushTail s.next (s.mailbox kid) (t, n)).1
      (update s.mailbox kid (Fifo.pushTail s.next (s.mailbox kid) (t, n)).2 k)
      (update q kid (q kid ++ [(t, n)]) k)
    by_cases hk : k = kid
    · subst hk
      rw [update_self, update_self]
      exact (h.holds k).pushTail (h.nodup_queue k) (hfresh k)
    · rw [update_of_ne hk, update_of_ne hk]
      refine (h.holds k).congr fun a ha => Fifo.pushTail_next (h.holds kid) ?_ ?_
      · exact fun ha' => hk (h.one a k kid (h.mem_sent ha) (h.mem_sent ha'))
      · intro heq
        subst heq
        exact hfresh k ha
  · intro k
    rw [hsent, update_apply]
    show _ = s.served k ++ _
    split
    next hk => rw [hk, h.split, List.append_assoc]
    next => exact h.split k
  · intro k
    rw [hsent]
    split
    · exact nodup_concat (h.nodup kid) (hnot kid)
    · exact h.nodup k
  · intro x k k' hx hx'
    rcases hmem x k hx with hx | ⟨rfl, rfl⟩
    · rcases hmem x k' hx' with hx' | ⟨rfl, -⟩
      · exact h.one x k k' hx hx'
      · exact absurd hx (hnot k)
    · rcases hmem _ k' hx' with hx' | ⟨-, rfl⟩
      · exact absurd hx' (hnot k')
      · rfl
  · intro x k hx
    rcases hmem x k hx with hx | ⟨rfl, -⟩
    · exact h.sentRemote x k hx
    · exact ⟨ps, hps⟩
  · intro u k hu
    rw [howner] at hu
    split at hu
    next => cases hu
    next hut =>
      rcases h.pending u k hu with ⟨m, qs, hm, hqs, hnot'⟩
      refine ⟨m, qs, hm, hqs, fun k' hk' => ?_⟩
      rcases hmem _ k' hk' with hk' | ⟨heq, -⟩
      · exact hnot' k' hk'
      · exact hut (congrArg Prod.fst heq)
  · intro u i qs hu
    rcases h.remoteSent u i qs hu with ⟨k, hk⟩ | ⟨k, hu', hi⟩
    · refine .inl ⟨k, ?_⟩
      rw [hsent]
      split
      next hkid => exact List.mem_append_left _ (hkid ▸ hk)
      next => exact hk
    · by_cases hut : u = t
      · subst hut
        have hin : i = n := by omega
        subst hin
        refine .inl ⟨kid, ?_⟩
        rw [hsent, if_pos rfl]
        exact List.mem_append_right _ (List.mem_singleton_self _)
      · refine .inr ⟨k, ?_, hi⟩
        rw [howner, if_neg hut]
        exact hu'

/-- A kid serves the first request of its box. -/
theorem Mail.serve {f : Fifo Id} {jobs : List Job}
    (hpop : Fifo.popHead s.next (s.mailbox kid) = some (x, f)) :
    ∃ l, q kid = x :: l ∧ Mail { s with
        mailbox := update s.mailbox kid f
        served := update s.served kid (s.served kid ++ [x])
        jobs := jobs } (update q kid l) := by
  rcases (h.holds kid).popHead_eq (h.nodup_queue kid) hpop with ⟨l, hl, hholds⟩
  refine ⟨l, hl, ?_, ?_, h.nodup, h.one, h.sentRemote, h.pending, h.remoteSent⟩
  · intro k
    show Fifo.Holds s.next (update s.mailbox kid f k) _
    by_cases hk : k = kid
    · subst hk
      rw [update_self, update_self]
      exact hholds
    · rw [update_of_ne hk, update_of_ne hk]
      exact h.holds k
  · intro k
    show s.sent k = update s.served kid (s.served kid ++ [x]) k ++ _
    by_cases hk : k = kid
    · subst hk
      rw [update_self, update_self, h.split, hl,
        List.append_assoc]
      rfl
    · rw [update_of_ne hk, update_of_ne hk]
      exact h.split k

end

-- ======== the order

variable {cwcw : Bool}

/-- The order between tasks survives more ends. -/
theorem Order.mono (h : Order cwcw s) (hsp : s'.spawned = s.spawned)
    (hended : ∀ x ∈ s.ended, x ∈ s'.ended)
    (howner : ∀ u params kid, s'.owner u = .pushtask params kid →
      s.owner u = .pushtask params kid) : Order cwcw s' := by
  refine ⟨?_, ?_⟩
  · intro u i j ps qs r hij hi hj hc
    rw [hsp] at hi hj
    exact hended _ (h.earlier u i j ps qs r hij hi hj hc)
  · intro u params kid hu i ps r hi hc
    rw [hsp] at hi
    exact hended _ (h.pushing u params kid (howner u params kid hu) i ps r hi hc)

theorem pushtask_setOwner (hnew : ∀ params kid, pc ≠ .pushtask params kid) (u : Nat)
    (params : List Dfg.Param) (kid : Nat)
    (h : (s.setOwner t pc).owner u = .pushtask params kid) : s.owner u
      = .pushtask params kid := by
  rw [owner_setOwner] at h
  split at h
  · exact absurd h (hnew params kid)
  · exact h

theorem pushtask_pass (u : Nat) (params : List Dfg.Param) (kid : Nat)
    (h : (s.pass t).owner u = .pushtask params kid) : s.owner u
      = .pushtask params kid := by
  have h' : (s.setOwner t .markexec).owner u = .pushtask params kid := h
  refine pushtask_setOwner ?_ u params kid h'
  intro params kid hk
  cases hk

/-- The owner moves elsewhere than before a push. -/
theorem Order.setOwner (h : Order cwcw s) (hnew : ∀ params kid, pc ≠ .pushtask params kid) :
    Order cwcw
      (s.setOwner t pc) :=
  h.mono rfl (fun _ hx => hx) (pushtask_setOwner hnew)

theorem Order.setWord (h : Order cwcw s) (x : Id) (w : StateWord) : Order cwcw
    (s.setWord x w) :=
  h.mono (spawned_setWord s x w) (fun _ hx => hx) fun _ _ _ hu => hu

/-- A task is distributed after the ends of those it conflicts with. -/
theorem Order.distribute (h : Order cwcw s)
    (hmeets : ∀ i ps r, (s.spawned t)[i]? = some (ps, r) →
      tasksConflict cwcw ps params = true → (t, i) ∈ s.ended) :
    Order cwcw (s.setOwner t (.pushtask params kid)) := by
  refine ⟨h.earlier, fun u params' kid' hu i ps r hi hc => ?_⟩
  rw [owner_setOwner] at hu
  split at hu
  next hut =>
    cases hu
    subst hut
    exact hmeets i ps r hi hc
  next => exact h.pushing u params' kid' hu i ps r hi hc

/-- A local task is pushed. -/
theorem Order.push (h : Order cwcw s) (hold : s.owner t = .spawning)
    (hlocal : task.remote = false) : Order cwcw (s.push t task) := by
  refine ⟨?_, ?_⟩
  · intro u i j ps qs r hij hi hj hc
    rcases getElem?_spawned_push s t hj with hj' | ⟨-, -, -, hr⟩
    · rcases getElem?_spawned_push s t hi with hi' | ⟨rfl, rfl, -, -⟩
      · exact h.earlier u i j ps qs r hij hi' hj' hc
      · have hlt := (List.getElem?_eq_some_iff.mp hj').1
        omega
    · rw [hlocal] at hr
      cases hr
  · intro u params kid hu i ps r hi hc
    rcases getElem?_spawned_push s t hi with hi | ⟨rfl, -, -, -⟩
    · exact h.pushing u params kid hu i ps r hi hc
    · rw [show s.owner u = .pushtask params kid from hu] at hold
      cases hold

/-- The distributed task is pushed: it is the one of the check. -/
theorem Order.pushtask (h : Order cwcw s) (hold : s.owner t = .pushtask params kid)
    (hparams : task.params = params) (kid' : Nat) :
    Order cwcw ((s.push t task).setOwner t (.mailbox kid')) := by
  refine ⟨?_, ?_⟩
  · intro u i j ps qs r hij hi hj hc
    rcases getElem?_spawned_push s t hj with hj' | ⟨rfl, rfl, rfl, -⟩
    · rcases getElem?_spawned_push s t hi with hi' | ⟨rfl, rfl, -, -⟩
      · exact h.earlier u i j ps qs r hij hi' hj' hc
      · have hlt := (List.getElem?_eq_some_iff.mp hj').1
        omega
    · rcases getElem?_spawned_push s u hi with hi | ⟨-, rfl, -, -⟩
      · rw [hparams] at hc
        exact h.pushing u params kid hold i ps r hi hc
      · omega
  · intro u params' k hu i ps r hi hc
    rw [owner_setOwner] at hu
    split at hu
    next => cases hu
    next hut =>
      rcases getElem?_spawned_push s t hi with hi | ⟨rfl, -, -, -⟩
      · exact h.pushing u params' k hu i ps r hi hc
      · exact absurd rfl hut

-- ======== the steal tasks

/-- The jobs depend on their records and on what was served and begun. -/
theorem Jobs.frame (h : Jobs s) (hjobs : s'.jobs = s.jobs)
    (hserved : s'.served = s.served)
    (hrecord : ∀ x, ¬Has (s'.remoteTask x) taskExecutionState)
    (hremote : ∀ u i ps, (s'.spawned u)[i]? = some (ps, true) → (u, i) ∈ s'.begun →
      (s.spawned u)[i]? = some (ps, true))
    (hbegun : ∀ x ps, (s.spawned x.1)[x.2]? = some (ps, true)
      → (x ∈ s'.begun ↔ x ∈ s.begun))
    (hended : ∀ x ps, (s.spawned x.1)[x.2]? = some (ps, true)
      → (x ∈ s'.ended ↔ x ∈ s.ended))
    (horigin : ∀ x k, x ∈ s.served k → ∃ ps,
      (s.spawned x.1)[x.2]? = some (ps, true)) :
    Jobs s' := by
  refine ⟨by rw [hjobs, hserved]; exact h.served,
    by rw [hjobs]; exact h.unique, ?_, ?_, hrecord⟩
  · intro n job hn
    rw [hjobs] at hn
    rcases (h.served job.origin).mp ⟨n, job, hn, rfl⟩ with ⟨k, hk⟩
    rcases horigin _ k hk with ⟨ps, hps⟩
    have hok := h.ok n job hn
    unfold JobOk St.Running at hok ⊢
    rw [hbegun _ ps hps, hended _ ps hps]
    exact hok
  · intro u i ps hu hb
    have hu' := hremote u i ps hu hb
    rw [hserved]
    exact h.remoteBegun u i ps hu' ((hbegun (u, i) ps hu').mp hb)

theorem Jobs.setOwner (h : Jobs s) (t : Nat) (pc : OwnerPc) : Jobs
    (s.setOwner t pc) :=
  ⟨h.served, h.unique, h.ok, h.remoteBegun, h.record⟩

theorem Jobs.setWord (h : Jobs s) (x : Id) (w : StateWord) : Jobs (s.setWord x w) :=
  ⟨h.served, h.unique, h.ok, by rw [spawned_setWord]; exact h.remoteBegun, h.record⟩

theorem Jobs.pass (h : Jobs s) (t : Nat) : Jobs (s.pass t) :=
  ⟨h.served, h.unique, h.ok, h.remoteBegun, h.record⟩

/-- A push changes no job. -/
theorem Jobs.push (h : Jobs s) (hf : Frames s) (t : Nat) (task : LocalTask) :
    Jobs (s.push t task) := by
  refine ⟨h.served, h.unique, h.ok, fun u i ps hu hb => ?_, h.record⟩
  rcases getElem?_spawned_push s t hu with hin | ⟨rfl, rfl, -, -⟩
  · exact h.remoteBegun u i ps hin hb
  · exact absurd (hf.begunSpawned _ hb) (Nat.lt_irrefl _)

/-- What was served is a remote task. -/
theorem Mail.servedRemote (h : Mail s q) {k : Nat} (hx : x ∈ s.served k) :
    ∃ ps, (s.spawned x.1)[x.2]? = some (ps, true) :=
  h.sentRemote x k (by rw [h.split]; exact List.mem_append_left _ hx)

/-- What is still in a box was not served. -/
theorem Mail.not_served (h : Mail s q) (hx : x ∈ q kid) (k : Nat) : x ∉ s.served k := by
  intro hk
  have hk' : x ∈ s.sent k := by
    rw [h.split]
    exact List.mem_append_left _ hk
  have heq := h.one x k kid hk' (h.mem_sent hx)
  subst heq
  have hnd := h.nodup k
  rw [h.split] at hnd
  exact (List.nodup_append.mp hnd).2.2 x hk x hx rfl

/-- A request served gives out a steal task on a task not begun. -/
theorem Jobs.serve (h : Jobs s) (hm : Mail s q) (hx : x ∈ q kid) (f : Fifo Id) :
    Jobs { s with
      mailbox := update s.mailbox kid f
      served := update s.served kid (s.served kid ++ [x])
      jobs := s.jobs ++ [⟨x, s.remoteTask x, .markexec⟩] } := by
  rcases hm.sentRemote x kid (hm.mem_sent hx) with ⟨ps, hps⟩
  have hnotBegun : x ∉ s.begun := by
    intro hb
    rcases h.remoteBegun x.1 x.2 ps hps hb with ⟨k, hk⟩
    exact hm.not_served hx k hk
  have hserved : ∀ y, (∃ k,
    y ∈ update s.served kid (s.served kid ++ [x]) k) ↔
      (∃ k, y ∈ s.served k) ∨ y = x := by
    intro y
    constructor
    · intro ⟨k, hk⟩
      rw [update_apply] at hk
      split at hk
      · rcases List.mem_append.mp hk with hk | hk
        · exact .inl ⟨kid, hk⟩
        · exact .inr (List.mem_singleton.mp hk)
      · exact .inl ⟨k, hk⟩
    · rintro (⟨k, hk⟩ | rfl)
      · refine ⟨k, ?_⟩
        rw [update_apply]
        split
        next hkid => exact List.mem_append_left _ (hkid ▸ hk)
        next => exact hk
      · refine ⟨kid, ?_⟩
        rw [update_self]
        exact List.mem_append_right _ (List.mem_singleton_self _)
  have hold : ∀ (n : Nat) job, s.jobs[n]? = some job → job.origin ≠ x := by
    rintro n job hn rfl
    rcases (h.served _).mp ⟨n, job, hn, rfl⟩ with ⟨k, hk⟩
    exact hm.not_served hx k hk
  refine ⟨?_, ?_, ?_, ?_, h.record⟩
  · intro y
    show _ ↔ ∃ k, y ∈ update s.served kid (s.served kid ++ [x]) k
    rw [hserved, ← h.served y]
    constructor
    · intro h
      obtain ⟨n, job, hn, rfl⟩ := h
      rcases getElem?_concat_cases hn with hn' | ⟨-, rfl⟩
      · exact .inl ⟨n, job, hn', rfl⟩
      · exact .inr rfl
    · rintro (⟨n, job, hn, rfl⟩ | rfl)
      · refine ⟨n, job, ?_, rfl⟩
        show (s.jobs ++ _)[n]? = _
        rw [List.getElem?_append_left (List.getElem?_eq_some_iff.mp hn).1]
        exact hn
      · exact ⟨s.jobs.length, _, List.getElem?_concat_length, rfl⟩
  · intro n m job job' hn hm' heq
    rcases getElem?_concat_cases hn with hn' | ⟨rfl, rfl⟩
    · rcases getElem?_concat_cases hm' with hm'' | ⟨rfl, rfl⟩
      · exact h.unique n m job job' hn' hm'' heq
      · exact absurd heq (hold n job hn')
    · rcases getElem?_concat_cases hm' with hm'' | ⟨rfl, rfl⟩
      · exact absurd heq.symm (hold m job' hm'')
      · rfl
  · intro n job hn
    rcases getElem?_concat_cases hn with hn' | ⟨-, rfl⟩
    · exact h.ok n job hn'
    · exact ⟨hnotBegun, h.record x⟩
  · intro u i qs hu hb
    exact (hserved (u, i)).mpr (.inl (h.remoteBegun u i qs hu hb))

/-- A step of one steal task: the others do not see that its task begins
or is over. -/
theorem Jobs.move (h : Jobs s) (hn : s.jobs[n]? = some job) {g : Job → Job}
    (horigin : (g job).origin = job.origin) (hserved : s'.served = s.served)
    (hrecord : s'.remoteTask = s.remoteTask) (hjobs : s'.jobs = s.jobs.modify n g)
    (hsp : s'.spawned = s.spawned)
    (hbegun : ∀ y, y ≠ job.origin → (y ∈ s'.begun ↔ y ∈ s.begun))
    (hended : ∀ y, y ≠ job.origin → (y ∈ s'.ended ↔ y ∈ s.ended)) (hok : JobOk s' (g job)) :
    Jobs s' := by
  have hget : ∀ (m : Nat) job', s'.jobs[m]? = some job' →
      (m = n ∧ job' = g job) ∨ (m ≠ n ∧ s.jobs[m]? = some job') := by
    intro m job' hm
    rw [hjobs, List.getElem?_modify] at hm
    by_cases hmn : n = m
    · subst hmn
      rw [hn] at hm
      simp at hm
      exact .inl ⟨rfl, hm.symm⟩
    · simp [hmn] at hm
      exact .inr ⟨fun heq => hmn heq.symm, hm⟩
  have hself : s'.jobs[n]? = some (g job) := by
    rw [hjobs, List.getElem?_modify, hn]
    simp
  have hothers : ∀ (m : Nat) job', m ≠ n → s.jobs[m]? = some job' → s'.jobs[m]?
    = some job' := by
    intro m job' hmn hm
    rw [hjobs, List.getElem?_modify, hm]
    simp [Ne.symm hmn]
  refine ⟨?_, ?_, ?_, ?_, by rw [hrecord]; exact h.record⟩
  · intro x
    rw [hserved, ← h.served x]
    constructor
    · intro h
      obtain ⟨m, job', hm, rfl⟩ := h
      rcases hget m job' hm with ⟨rfl, rfl⟩ | ⟨-, hm'⟩
      · exact ⟨m, job, hn, horigin.symm⟩
      · exact ⟨m, job', hm', rfl⟩
    · intro h
      obtain ⟨m, job', hm, rfl⟩ := h
      by_cases hmn : m = n
      · subst hmn
        rw [hn] at hm
        cases hm
        exact ⟨m, _, hself, horigin⟩
      · exact ⟨m, job', hothers m job' hmn hm, rfl⟩
  · intro m m' job₁ job₂ h₁ h₂ heq
    rcases hget m job₁ h₁ with ⟨rfl, rfl⟩ | ⟨hmn, h₁'⟩
    · rcases hget m' job₂ h₂ with ⟨rfl, rfl⟩ | ⟨-, h₂'⟩
      · rfl
      · exact h.unique m m' job job₂ hn h₂' (horigin.symm.trans heq)
    · rcases hget m' job₂ h₂ with ⟨rfl, rfl⟩ | ⟨-, h₂'⟩
      · exact h.unique m m' job₁ job h₁' hn (heq.trans horigin)
      · exact h.unique m m' job₁ job₂ h₁' h₂' heq
  · intro m job' hm
    rcases hget m job' hm with ⟨rfl, rfl⟩ | ⟨hmn, hm'⟩
    · exact hok
    · have hne : job'.origin ≠ job.origin := fun heq =>
        hmn (h.unique m n job' job hm' hn heq)
      have hjob := h.ok m job' hm'
      unfold JobOk St.Running at hjob ⊢
      rw [hbegun _ hne, hended _ hne]
      exact hjob
  · intro u i ps hu hb
    rw [hsp] at hu
    rw [hserved]
    by_cases heq : ((u, i) : Id) = job.origin
    · exact (h.served _).mp ⟨n, job, hn, heq.symm⟩
    · exact h.remoteBegun u i ps hu ((hbegun _ heq).mp hb)

-- ======== the steps

/-- A thread with an empty frame. -/
theorem Inv.start (cwcw : Bool) : Inv cwcw St.start := by
  refine ⟨⟨fun t => Nat.le_refl _, fun t i hi => absurd hi (Nat.not_lt_zero _),
    List.nodup_nil,
    List.nodup_nil, (fun x hx => nomatch hx), (fun x hx => nomatch hx),
    (fun t i ps _ hb => nomatch hb), (fun t i ps h => nomatch h),
      (fun t h => nomatch h),
    fun t h => h.elim, fun t i ps h => nomatch h⟩, ⟨fun _ => [], ?_⟩, ?_, ?_⟩
  · exact ⟨fun kid => ⟨rfl, rfl, trivial⟩, fun kid => rfl, fun kid =>
      List.nodup_nil,
      (fun x k k' hx => nomatch hx), (fun x k hx => nomatch hx),
        (fun t kid h => nomatch h),
      fun t i ps h => nomatch h⟩
  · exact ⟨fun x => ⟨(fun ⟨n, job, hn, _⟩ => nomatch hn), fun ⟨k, hk⟩ =>
      nomatch hk⟩,
      (fun n m job job' hn => nomatch hn), (fun n job hn => nomatch hn),
      (fun t i ps h => nomatch h), fun x => not_has_init⟩
  · exact ⟨(fun t i j ps qs r _ h => nomatch h), fun t params kid h => nomatch h⟩

section

variable (h : Inv cwcw s)
include h

/-- The owner moves between steps that touch neither a box nor a task. -/
theorem Inv.setOwner (hrunning : s.owner t ≠ .running)
    (hbox : ∀ kid, s.owner t ≠ .mailbox kid) (hrunning' : pc ≠ .running)
    (hbox' : ∀ kid, pc ≠ .mailbox kid) (hpush : ∀ params kid, pc ≠ .pushtask params kid)
    (hstolen : pc.OnStolen → ∃ ps, (s.spawned t)[s.pc t]? = some (ps, true)) :
    Inv cwcw (s.setOwner t pc) := by
  rcases h.mail with ⟨q, hq⟩
  exact ⟨h.frames.setOwner hrunning hrunning' hstolen, ⟨q, hq.setOwner hbox hbox'⟩,
    h.jobs.setOwner t pc, h.order.setOwner hpush⟩

/-- A word of a remote task changes. -/
theorem Inv.setWord (hx : (s.spawned x.1)[x.2]? = some (ps, true))
    (hsteal : Has w taskStateSteal) (hmerge : ¬Has w taskStateMerge)
    (hterm : Has w taskStateTerm → x ∈ s.ended) : Inv cwcw (s.setWord x w) := by
  rcases h.mail with ⟨q, hq⟩
  exact ⟨h.frames.setWord hx hsteal hmerge hterm, ⟨q, hq.setWord x w⟩,
    h.jobs.setWord x w,
    h.order.setWord x w⟩

/-- The owner passes a task that has ended. -/
theorem Inv.pass (hlt : s.pc t < (s.spawned t).length)
    (hbox : ∀ kid, s.owner t ≠ .mailbox kid) (hend : (t, s.pc t) ∈ s.ended) :
    Inv cwcw (s.pass t) := by
  rcases h.mail with ⟨q, hq⟩
  refine ⟨h.frames.pass hlt hend, ⟨q, ?_⟩, h.jobs.pass t, ?_⟩
  · exact hq.congr rfl rfl rfl rfl rfl (mailbox_pass hbox)
  · exact h.order.mono rfl (fun _ hx => hx) pushtask_pass

/-- The owner pushes a local task. -/
theorem Inv.push (hold : s.owner t = .spawning) (params : List Dfg.Param) :
    Inv cwcw (s.push t ⟨params, false, taskStateInit⟩) := by
  rcases h.mail with ⟨q, hq⟩
  exact ⟨h.frames.push (fun _ => rfl) nofun, ⟨q, hq.push hold rfl⟩,
    h.jobs.push h.frames t _, h.order.push hold rfl⟩

/-- The owner begins kaapi_task_distribute. -/
theorem Inv.distribute {concurrency : Nat} (hold : s.owner t = .spawning)
    (hmeets : Meets concurrency cwcw (.distribute t params kid) s) :
    Inv cwcw (distributeTask concurrency t params kid s) := by
  unfold Meets at hmeets
  unfold distributeTask
  by_cases hkid : t = (if concurrency ≤ kid then kid % concurrency else kid)
  · rw [if_pos hkid]
    exact h.push hold params
  · rw [if_neg hkid]
    rcases h.mail with ⟨q, hq⟩
    refine ⟨h.frames.setOwner (by rw [hold]; decide) nofun
      (fun hk => hk.elim), ⟨q, hq.setOwner ?_ (fun k hk => nomatch hk)⟩,
      h.jobs.setOwner t _, h.order.distribute (hmeets hkid)⟩
    intro k hk
    rw [hold] at hk
    cases hk

/-- It pushes the task, marked as stolen. -/
theorem Inv.pushtask (hold : s.owner t = .pushtask params kid) :
    Inv cwcw ((s.push t ⟨params, true, (taskMarksteal taskStateInit).1⟩).setOwner t
      (.mailbox kid)) := by
  rcases h.mail with ⟨q, hq⟩
  have hword : Has (taskMarksteal taskStateInit).1 taskStateSteal ∧
      ¬Has (taskMarksteal taskStateInit).1 taskStateMerge ∧
      ¬Has (taskMarksteal taskStateInit).1 taskStateTerm := by decide
  have hpush : Frames (s.push t ⟨params, true, (taskMarksteal taskStateInit).1⟩) :=
    h.frames.push nofun fun _ => hword
  refine ⟨hpush.setOwner ?_ nofun (fun hk => hk.elim),
    ⟨q, hq.pushtask hold rfl kid⟩, (h.jobs.push h.frames t _).setOwner t _,
    h.order.pushtask hold rfl kid⟩
  show s.owner t ≠ .running
  rw [hold]
  intro hk
  cases hk

/-- It sends the task to the box of the kid. -/
theorem Inv.sendTask (hold : s.owner t = .mailbox kid) :
    Inv cwcw ((mailboxPush kid (t, (s.tasks t).length - 1) s).setOwner t
      .spawning) := by
  rcases h.mail with ⟨q, hq⟩
  have hframes : Frames (s.setOwner t .spawning) := by
    refine h.frames.setOwner ?_ nofun fun hk => hk.elim
    rw [hold]
    intro hk
    cases hk
  have hjobs : Jobs (s.setOwner t .spawning) := h.jobs.setOwner t _
  have horder : Order cwcw (s.setOwner t .spawning) :=
    h.order.setOwner fun params k hk => nomatch hk
  exact ⟨⟨hframes.pcLe, hframes.passed, hframes.begunNodup, hframes.endedNodup,
      hframes.endedBegun, hframes.begunSpawned, hframes.localBegun,
        hframes.localWord,
      hframes.running, hframes.stolen, hframes.remoteWord⟩,
    ⟨_, hq.sendTask hold⟩,
    ⟨hjobs.served, hjobs.unique, hjobs.ok, hjobs.remoteBegun, hjobs.record⟩,
    ⟨horder.earlier, horder.pushing⟩⟩

/-- A kid serves a request. -/
theorem Inv.serve (hstep : serveRequest kid s = some s') : Inv cwcw s' := by
  rcases h.mail with ⟨q, hq⟩
  unfold serveRequest at hstep
  cases hpop : Fifo.popHead s.next (s.mailbox kid) with
  | none =>
    rw [hpop] at hstep
    cases hstep
  | some xf =>
    obtain ⟨x, f⟩ := xf
    rw [hpop] at hstep
    cases hstep
    rcases hq.serve hpop with ⟨l, hl, hq'⟩
    have hf := h.frames
    exact ⟨⟨hf.pcLe, hf.passed, hf.begunNodup, hf.endedNodup, hf.endedBegun,
      hf.begunSpawned,
        hf.localBegun, hf.localWord, hf.running, hf.stolen, hf.remoteWord⟩,
      ⟨_, hq'⟩, h.jobs.serve hq (by rw [hl]; exact List.mem_cons_self) f,
      ⟨h.order.earlier, h.order.pushing⟩⟩

/-- Bits are set in the word of a remote task. -/
theorem Inv.orWord {m : StateWord} (hx : (s.spawned x.1)[x.2]? = some (ps, true))
    (hmerge : ¬Has m taskStateMerge) (hterm : Has m taskStateTerm → x ∈ s.ended) :
    Inv cwcw
      (s.setWord x (s.word x ||| m)) := by
  rcases h.frames.remoteWord x.1 x.2 ps hx with ⟨hsteal, hnotMerge, hover⟩
  refine h.setWord hx (has_or.mpr (.inl hsteal)) ?_ ?_
  · intro hw
    rcases has_or.mp hw with hw | hw
    · exact hnotMerge hw
    · exact hmerge hw
  · intro hw
    rcases has_or.mp hw with hw | hw
    · exact hover hw
    · exact hterm hw

/-- The lock bit of a remote task is cleared. -/
theorem Inv.unlockWord (hx : (s.spawned x.1)[x.2]? = some (ps, true)) :
    Inv cwcw (s.setWord x (taskUnlock (s.word x))) := by
  rcases h.frames.remoteWord x.1 x.2 ps hx with ⟨hsteal, hnotMerge, hover⟩
  exact h.setWord hx ((has_unlock (by decide)).mpr hsteal)
    (fun hw => hnotMerge ((has_unlock (by decide)).mp hw))
    fun hw => hover ((has_unlock (by decide)).mp hw)

/-- The owner begins a local task. -/
theorem Inv.beginOwner (hps : (s.spawned t)[s.pc t]? = some (ps, false))
    (hrunning : s.owner t ≠ .running) (hbox : ∀ kid, s.owner t ≠ .mailbox kid) :
    Inv cwcw { (s.setWord (t, s.pc t) w).setOwner t .running with
      begun := s.begun ++ [(t, s.pc t)] } := by
  rcases h.mail with ⟨q, hq⟩
  have hmail : Mail ((s.setWord (t, s.pc t) w).setOwner t .running) q :=
    (hq.setWord _ w).setOwner hbox fun k hk => nomatch hk
  have horder : Order cwcw ((s.setWord (t, s.pc t) w).setOwner t .running) :=
    (h.order.setWord _ w).setOwner fun ps k hk => nomatch hk
  have hne : ∀ (x : Id) qs, (s.spawned x.1)[x.2]? = some (qs, true) → x
    ≠ (t, s.pc t) := by
    rintro x qs hx rfl
    rw [hps] at hx
    cases hx
  refine ⟨h.frames.beginOwner hps hrunning, ⟨q, hmail.congr rfl rfl rfl rfl rfl
    fun _ _ => Iff.rfl⟩, ?_, horder.mono rfl (fun _ hx => hx) fun _ _ _ hu => hu⟩
  refine h.jobs.frame rfl rfl h.jobs.record ?_ ?_ (fun _ _ _ => Iff.rfl)
    fun x k hk => hq.servedRemote hk
  · intro u i qs hu _
    rw [← spawned_setWord s (t, s.pc t) w]
    exact hu
  · intro x qs hx
    show x ∈ s.begun ++ [(t, s.pc t)] ↔ _
    rw [List.mem_append, List.mem_singleton]
    exact or_iff_left (hne x qs hx)

/-- The owner ends it. -/
theorem Inv.finishOwner (hrun : s.owner t = .running) :
    Inv cwcw { s.pass t with ended := s.ended ++ [(t, s.pc t)] } := by
  rcases h.mail with ⟨q, hq⟩
  rcases h.frames.running t hrun with ⟨⟨ps, hps⟩, -⟩
  have hne : ∀ (x : Id) qs, (s.spawned x.1)[x.2]? = some (qs, true) → x
    ≠ (t, s.pc t) := by
    rintro x qs hx rfl
    rw [hps] at hx
    cases hx
  refine ⟨h.frames.finishOwner hrun, ⟨q, hq.congr rfl rfl rfl rfl rfl ?_⟩, ?_, ?_⟩
  · refine mailbox_pass fun kid hk => ?_
    rw [hrun] at hk
    cases hk
  · refine h.jobs.frame rfl rfl h.jobs.record (fun _ _ _ hu _ => hu)
      (fun _ _ _ => Iff.rfl) ?_
      fun x k hk => hq.servedRemote hk
    intro x qs hx
    show x ∈ s.ended ++ [(t, s.pc t)] ↔ _
    rw [List.mem_append, List.mem_singleton]
    exact or_iff_left (hne x qs hx)
  · exact h.order.mono rfl (fun _ hx => List.mem_append_left _ hx) pushtask_pass

/-- The owner goes on with the task that it found stolen. -/
theorem Inv.onStolen (hold : (s.owner t).OnStolen) (hnew : pc.OnStolen ∨ pc = .markexec) :
    Inv cwcw (s.setOwner t pc) := by
  have hstolen := h.frames.stolen t hold
  refine h.setOwner ?_ ?_ ?_ ?_ ?_ fun _ => hstolen
  · intro hk
    rw [hk] at hold
    exact hold
  · intro k hk
    rw [hk] at hold
    exact hold
  · intro heq
    subst heq
    rcases hnew with hk | hk
    · exact hk
    · cases hk
  · rintro k rfl
    rcases hnew with hk | hk
    · exact hk
    · cases hk
  · rintro ps k rfl
    rcases hnew with hk | hk
    · exact hk
    · cases hk

/-- It passes the remote task that has terminated. -/
theorem Inv.passRemote (hps : (s.spawned t)[s.pc t]? = some (ps, true))
    (hbox : ∀ kid, s.owner t ≠ .mailbox kid)
    (hterm : Has (s.word (t, s.pc t)) taskStateTerm) : Inv cwcw (s.pass t) :=
  h.pass (List.getElem?_eq_some_iff.mp hps).1 hbox
    ((h.frames.remoteWord t _ ps hps).2.2 hterm)

/-- `kaapi_task_markexec` by the owner: a local task is not marked yet, a
distributed one is stolen. -/
theorem Inv.markexec (hold : s.owner t = .markexec) (hstep : ownerStep t s = some s') :
    Inv cwcw s' := by
  have hrunning : s.owner t ≠ .running := fun hk => nomatch hold.symm.trans hk
  have hbox : ∀ kid, s.owner t ≠ .mailbox kid := fun kid hk =>
    nomatch hold.symm.trans hk
  unfold ownerStep at hstep
  rw [hold] at hstep
  dsimp only at hstep
  cases htask : (s.tasks t)[s.pc t]? with
  | none =>
    rw [htask] at hstep
    cases hstep
    exact h.setOwner hrunning hbox nofun (fun k hk => nomatch hk)
      (fun ps k hk => nomatch hk) fun hk => hk.elim
  | some task =>
    have hps : (s.spawned t)[s.pc t]? = some (task.params, task.remote) := by
      unfold St.spawned
      rw [List.getElem?_map, htask]
      rfl
    have hword : s.word (t, s.pc t) = task.word := by
      unfold St.word
      rw [htask]
    rw [htask] at hstep
    dsimp only at hstep
    cases hremote : task.remote with
    | false =>
      rw [hremote] at hps
      have hinit : task.word = taskStateInit := by
        rw [← hword]
        exact h.frames.localWord t _ task.params hps (Nat.le_refl _) fun hk =>
          hrunning hk.2
      rw [hinit, if_pos (by decide)] at hstep
      cases hstep
      exact h.beginOwner hps hrunning hbox
    | true =>
      rw [hremote] at hps
      rcases h.frames.remoteWord t _ task.params hps with ⟨hsteal, hmerge, hterm⟩
      have hor : Inv cwcw (s.setWord (t, s.pc t)
        (task.word ||| taskStateExec)) := by
        rw [← hword]
        exact h.orWord hps (by decide) fun hk => absurd hk (by decide)
      have hps' : ((s.setWord (t, s.pc t)
        (task.word ||| taskStateExec)).spawned t)[s.pc t]? =
          some (task.params, true) := by
        rw [spawned_setWord]
        exact hps
      rw [hword] at hsteal hmerge
      have hstealOld : Has (taskMarkexec task.word).2 taskStateSteal :=
        (has_taskMarkexec (by decide)).mpr hsteal
      have hmergeOld : ¬Has (taskMarkexec task.word).2 taskStateMerge :=
        fun hk => hmerge ((has_taskMarkexec (by decide)).mp hk)
      rw [if_neg (fun hk => (taskMarkexec_eq_zero.mp hk).2.1 hsteal),
        if_neg hmergeOld,
        if_pos hstealOld] at hstep
      split at hstep
      next hover =>
        cases hstep
        refine hor.passRemote hps' hbox ?_
        show Has ((s.setWord (t, s.pc t) _).word (t, s.pc t)) _
        rw [word_setWord_self s _ (List.getElem?_eq_some_iff.mp hps).1]
        exact has_or.mpr (.inl ((has_taskMarkexec (by decide)).mp hover))
      next =>
        cases hstep
        exact hor.setOwner hrunning hbox nofun (fun k hk => nomatch hk)
          (fun ps k hk => nomatch hk) fun _ => ⟨_, hps'⟩

/-- Bits other than the execution ones are set in the record of a request.
-/
theorem Inv.setRecord {m : StateWord} (hm : ¬Has m taskExecutionState) :
    Inv cwcw { s with
      remoteTask := update s.remoteTask x (s.remoteTask x ||| m) } := by
  rcases h.mail with ⟨q, hq⟩
  have hf := h.frames
  refine ⟨⟨hf.pcLe, hf.passed, hf.begunNodup, hf.endedNodup, hf.endedBegun,
    hf.begunSpawned,
      hf.localBegun, hf.localWord, hf.running, hf.stolen, hf.remoteWord⟩,
    ⟨q, hq.congr rfl rfl rfl rfl rfl fun _ _ => Iff.rfl⟩,
    ⟨h.jobs.served, h.jobs.unique, h.jobs.ok, h.jobs.remoteBegun, fun y hy => ?_⟩,
    ⟨h.order.earlier, h.order.pushing⟩⟩
  have hword : update s.remoteTask x (s.remoteTask x ||| m) y =
      if y = x then s.remoteTask x ||| m else s.remoteTask y :=
        update_apply ..
  rw [show ({ s with
    remoteTask := update s.remoteTask x (s.remoteTask x ||| m) } :
    St).remoteTask y = _ from hword] at hy
  split at hy
  · rcases has_or.mp hy with hy | hy
    · exact h.jobs.record x hy
    · exact hm hy
  · exact h.jobs.record y hy

/-- Every step of an owner keeps the invariant. -/
theorem Inv.of_ownerStep (hstep : ownerStep t s = some s') : Inv cwcw s' := by
  cases hold : s.owner t with
  | markexec => exact h.markexec hold hstep
  | spawning =>
    unfold ownerStep at hstep
    rw [hold] at hstep
    cases hstep
  | pushtask params kid =>
    unfold ownerStep at hstep
    rw [hold] at hstep
    cases hstep
    exact h.pushtask hold
  | mailbox kid =>
    unfold ownerStep at hstep
    rw [hold] at hstep
    cases hstep
    exact h.sendTask hold
  | running =>
    unfold ownerStep at hstep
    rw [hold] at hstep
    cases hstep
    exact h.finishOwner hold
  | trylock =>
    have hon : (s.owner t).OnStolen := by rw [hold]; trivial
    rcases h.frames.stolen t hon with ⟨ps, hps⟩
    unfold ownerStep at hstep
    rw [hold] at hstep
    cases hstep
    refine (h.orWord hps (m := taskStateLocked) (by decide) fun hk =>
      absurd hk (by decide)).onStolen hon (.inl ?_)
    split <;> trivial
  | readState =>
    have hon : (s.owner t).OnStolen := by rw [hold]; trivial
    rcases h.frames.stolen t hon with ⟨ps, hps⟩
    unfold ownerStep at hstep
    rw [hold] at hstep
    dsimp only at hstep
    rw [if_neg (h.frames.remoteWord t _ ps hps).2.1] at hstep
    split at hstep
    next hterm =>
      cases hstep
      exact h.passRemote hps (by rw [hold]; exact fun k hk => nomatch hk) hterm
    next =>
      cases hstep
      exact h.onStolen hon (.inl trivial)
  | signal =>
    have hon : (s.owner t).OnStolen := by rw [hold]; trivial
    unfold ownerStep at hstep
    rw [hold] at hstep
    cases hstep
    exact (h.setRecord fun hk => absurd hk (by decide)).onStolen hon
      (.inl trivial)
  | unlock eintr =>
    have hon : (s.owner t).OnStolen := by rw [hold]; trivial
    rcases h.frames.stolen t hon with ⟨ps, hps⟩
    unfold ownerStep at hstep
    rw [hold] at hstep
    cases hstep
    refine (h.unlockWord hps).onStolen hon ?_
    split
    · exact .inr rfl
    · exact .inl trivial
  | suspended =>
    have hon : (s.owner t).OnStolen := by rw [hold]; trivial
    unfold ownerStep at hstep
    rw [hold] at hstep
    cases hstep
    refine h.onStolen hon ?_
    split
    · exact .inr rfl
    · exact .inl trivial

/-- A job moves on. -/
theorem Inv.setJob (hn : s.jobs[n]? = some job) {pc : JobPc}
    (hok : JobOk s { job with pc := pc }) : Inv cwcw
      (s.setJob n pc) := by
  rcases h.mail with ⟨q, hq⟩
  have hf := h.frames
  refine ⟨⟨hf.pcLe, hf.passed, hf.begunNodup, hf.endedNodup, hf.endedBegun,
    hf.begunSpawned,
      hf.localBegun, hf.localWord, hf.running, hf.stolen, hf.remoteWord⟩,
    ⟨q, hq.congr rfl rfl rfl rfl rfl fun _ _ => Iff.rfl⟩, ?_,
      ⟨h.order.earlier, h.order.pushing⟩⟩
  exact h.jobs.move hn (g := fun job => { job with pc := pc }) rfl rfl rfl rfl rfl
    (fun _ _ => Iff.rfl) (fun _ _ => Iff.rfl) hok

end

theorem mem_concat_of_ne {y : Id} {l : List Id} (hne : y ≠ x) : y ∈ l ++ [x]
    ↔ y ∈ l := by
  rw [List.mem_append, List.mem_singleton]
  exact or_iff_left hne

section

variable (h : Inv cwcw s) (hn : s.jobs[n]? = some job)
include h hn

/-- The task of a job is a remote one. -/
theorem Inv.originRemote :
    ∃ ps, (s.spawned job.origin.1)[job.origin.2]? = some (ps, true) := by
  rcases h.mail with ⟨q, hq⟩
  rcases (h.jobs.served job.origin).mp ⟨n, job, hn, rfl⟩ with ⟨k, hk⟩
  exact hq.servedRemote hk

/-- A job begins its task. -/
theorem Inv.beginJob (hnot : job.origin ∉ s.begun) (w : StateWord) :
    Inv cwcw { s with
      begun := s.begun ++ [job.origin]
      jobs := s.jobs.modify n fun job =>
        { job with word := w, pc := .running } } := by
  rcases h.mail with ⟨q, hq⟩
  rcases h.originRemote hn with ⟨ps, hps⟩
  refine ⟨h.frames.beginJob hps hnot _,
    ⟨q, hq.congr rfl rfl rfl rfl rfl fun _ _ => Iff.rfl⟩, ?_,
    ⟨h.order.earlier, h.order.pushing⟩⟩
  refine h.jobs.move hn
    (g := fun job => { job with word := w, pc := .running }) rfl rfl rfl rfl
    rfl (fun y hy => mem_concat_of_ne hy) (fun _ _ => Iff.rfl) ?_
  exact ⟨List.mem_append_right _ (List.mem_singleton_self _),
    fun he => hnot (h.frames.endedBegun _ he)⟩

/-- A job ends its task. -/
theorem Inv.finishJob (hrun : s.Running job.origin) :
    Inv cwcw { s.setJob n .lock with ended := s.ended ++ [job.origin] } := by
  rcases h.mail with ⟨q, hq⟩
  rcases h.originRemote hn with ⟨ps, hps⟩
  refine ⟨h.frames.finishJob hps hrun _,
    ⟨q, hq.congr rfl rfl rfl rfl rfl fun _ _ => Iff.rfl⟩, ?_,
    h.order.mono rfl (fun _ hx => List.mem_append_left _ hx) fun _ _ _ hu => hu⟩
  refine h.jobs.move hn
    (g := fun job => { job with pc := .lock }) rfl rfl rfl rfl rfl
    (fun _ _ => Iff.rfl) (fun y hy => mem_concat_of_ne hy) ?_
  exact List.mem_append_right _ (List.mem_singleton_self _)

end

/-- Every step of a job keeps the invariant. -/
theorem Inv.of_jobStep (h : Inv cwcw s) (hstep : jobStep n s = some s') :
    Inv cwcw s' := by
  unfold jobStep at hstep
  cases hn : s.jobs[n]? with
  | none =>
    rw [hn] at hstep
    cases hstep
  | some job =>
    have hok := h.jobs.ok n job hn
    rcases h.originRemote hn with ⟨ps, hps⟩
    rw [hn] at hstep
    unfold JobOk at hok
    cases hpc : job.pc with
    | markexec =>
      rw [hpc] at hok
      dsimp only at hstep
      rw [hpc] at hstep
      dsimp only at hstep
      rw [if_pos (taskMarkexec_eq_zero.mpr
        (not_has_executionState.mp hok.2))] at hstep
      cases hstep
      have hbegin := h.beginJob hn hok.1 (taskMarkexec job.word).1
      unfold St.setJob
      dsimp only
      rw [List.modify_modify_eq]
      exact hbegin
    | running =>
      rw [hpc] at hok
      dsimp only at hstep
      rw [hpc] at hstep
      cases hstep
      exact h.finishJob hn hok
    | lock =>
      rw [hpc] at hok
      dsimp only at hstep
      rw [hpc] at hstep
      cases hstep
      refine (h.orWord hps (m := taskStateLocked) (by decide) fun hk =>
        absurd hk (by decide)).setJob hn ?_
      split <;> exact hok
    | mark =>
      rw [hpc] at hok
      dsimp only at hstep
      rw [hpc] at hstep
      cases hstep
      exact (h.orWord hps (m := taskStateTerm) (by decide) fun _ =>
        hok).setJob hn hok
    | unlock =>
      rw [hpc] at hok
      dsimp only at hstep
      rw [hpc] at hstep
      cases hstep
      exact (h.unlockWord hps).setJob hn hok
    | done =>
      dsimp only at hstep
      rw [hpc] at hstep
      cases hstep
    | refused =>
      dsimp only at hstep
      rw [hpc] at hstep
      cases hstep

/-- Every step that meets the condition keeps the invariant. -/
theorem Inv.of_step {concurrency : Nat} {a : Act}
    (hmeets : Meets concurrency cwcw a s)
    (h : Inv cwcw s) (hstep : step concurrency a s = some s') : Inv cwcw s' := by
  cases a with
  | push t params =>
    unfold step at hstep
    dsimp only at hstep
    split at hstep
    next hold =>
      cases hstep
      exact h.push hold params
    next => cases hstep
  | distribute t params kid =>
    unfold step at hstep
    dsimp only at hstep
    split at hstep
    next hold =>
      cases hstep
      exact h.distribute hold hmeets
    next => cases hstep
  | execframe t =>
    unfold step at hstep
    dsimp only at hstep
    split at hstep
    next hold =>
      cases hstep
      refine h.setOwner ?_ ?_ nofun (fun k hk => nomatch hk)
        (fun ps k hk => nomatch hk) fun hk => hk.elim
      · rw [hold]
        exact nofun
      · rw [hold]
        exact fun k hk => nomatch hk
    next => cases hstep
  | owner t => exact h.of_ownerStep hstep
  | serve kid => exact h.serve hstep
  | job n => exact h.of_jobStep hstep

-- ======== the results

/-- The invariant gives what is promised of the distribution. -/
theorem Inv.kidOk (h : Inv cwcw s) : KidOk cwcw s := by
  have hf := h.frames
  rcases h.mail with ⟨q, hq⟩
  refine ⟨fun kid => ⟨q kid, hq.holds kid, hq.split kid⟩,
    List.nodup_iff_count_le_one.mp hf.begunNodup, ?_, ?_, ?_⟩
  · intro u i hi
    have hend := hf.passed u i hi
    exact ⟨List.count_eq_one_of_mem hf.begunNodup (hf.endedBegun _ hend),
      List.count_eq_one_of_mem hf.endedNodup hend⟩
  · intro u i j ps qs r hij hi hj hc _
    exact h.order.earlier u i j ps qs r hij hi hj hc
  · intro u i j ps qs r hij hi hj hc hrun
    cases r with
    | true => exact hrun.1.2 (h.order.earlier u i j ps qs true hij hi hj hc)
    | false =>
      -- the owner is at the later task, so it has passed the earlier one
      have hle : j ≤ s.pc u := by
        rcases hf.localBegun u j qs hj hrun.2.1 with hlt | ⟨heq, -⟩
        · exact Nat.le_of_lt hlt
        · exact Nat.le_of_eq heq
      exact hrun.1.2 (hf.passed u i (Nat.lt_of_lt_of_le hij hle))

variable {concurrency : Nat}

/-- A task that has ended can execute. -/
theorem CanExecute.of_ended (hx : x ∈ s.ended) : CanExecute concurrency s x :=
  ⟨[], s, rfl, hx⟩

/-- What can execute after a step can before it. -/
theorem CanExecute.of_step {a : Act} (hstep : step concurrency a s = some s')
    (h : CanExecute concurrency s' x) : CanExecute concurrency s x := by
  rcases h with ⟨as, s'', hrun, hx⟩
  exact ⟨a :: as, s'', run_cons_eq_some.mpr ⟨s', hstep, hrun⟩, hx⟩

/-- The task that a job executes can end. -/
theorem CanExecute.of_running (hn : s.jobs[n]? = some job) (hpc : job.pc = .running) :
    CanExecute concurrency s job.origin := by
  have hstep : step concurrency (.job n) s =
      some { s.setJob n .lock with ended := s.ended ++ [job.origin] } := by
    show jobStep n s = _
    unfold jobStep
    rw [hn]
    dsimp only
    rw [hpc]
  exact .of_step hstep (.of_ended
    (List.mem_append_right _ (List.mem_singleton_self _)))

/-- The task of a job can execute. -/
theorem Inv.canExecute_served (h : Inv cwcw s) (hn : s.jobs[n]? = some job) :
    CanExecute concurrency s job.origin := by
  have hok := h.jobs.ok n job hn
  unfold JobOk at hok
  cases hpc : job.pc with
  | markexec =>
    rw [hpc] at hok
    have hword := taskMarkexec_eq_zero.mpr (not_has_executionState.mp hok.2)
    have hstep : ∃ s', step concurrency (.job n) s = some s' ∧
        s'.jobs[n]? = some { job with
          word := (taskMarkexec job.word).1
          pc := .running } := by
      show ∃ s', jobStep n s = some s' ∧ _
      unfold jobStep
      rw [hn]
      dsimp only
      rw [hpc]
      dsimp only
      rw [if_pos hword]
      refine ⟨_, rfl, ?_⟩
      unfold St.setJob
      dsimp only
      rw [List.modify_modify_eq, List.getElem?_modify, hn]
      simp
    rcases hstep with ⟨s', hs', hn'⟩
    refine .of_step hs' ?_
    show CanExecute concurrency s'
      ({ job with word := (taskMarkexec job.word).1, pc := .running } : Job).origin
    exact CanExecute.of_running hn' rfl
  | running => exact CanExecute.of_running hn hpc
  | lock =>
    rw [hpc] at hok
    exact .of_ended hok
  | mark =>
    rw [hpc] at hok
    exact .of_ended hok
  | unlock =>
    rw [hpc] at hok
    exact .of_ended hok
  | done =>
    rw [hpc] at hok
    exact .of_ended hok
  | refused =>
    rw [hpc] at hok
    exact hok.elim

/-- So can a task in a box. -/
theorem Inv.canExecute_queued (h : Inv cwcw s) {l : List Id}
    (hl : Fifo.Holds s.next (s.mailbox kid) l) (hnd : l.Nodup) (hx : x ∈ l) :
    CanExecute concurrency s x := by
  induction l generalizing s with
  | nil => cases hx
  | cons y l ih =>
    rcases hl.popHead hnd with ⟨f, hpop, hholds⟩
    have hstep : ∃ s', serveRequest kid s = some s' ∧ s'.next = s.next
      ∧ s'.mailbox kid = f ∧
        s'.jobs[s.jobs.length]? = some ⟨y, s.remoteTask y, .markexec⟩ := by
      unfold serveRequest
      rw [hpop]
      exact ⟨_, rfl, rfl, update_self .., List.getElem?_concat_length⟩
    rcases hstep with ⟨s', hs', hnext, hbox, hjob⟩
    have h' : Inv cwcw s' := h.serve hs'
    refine .of_step (a := .serve kid) hs' ?_
    rcases List.mem_cons.mp hx with rfl | hx
    · exact h'.canExecute_served hjob
    · refine ih h' ?_ (List.nodup_cons.mp hnd).2 hx
      rw [hnext, hbox]
      exact hholds

/-- So can every distributed task. -/
theorem Inv.canExecute (h : Inv cwcw s) {i : Nat}
    (hi : (s.spawned t)[i]? = some (ps, true)) : CanExecute concurrency s
      (t, i) := by
  -- once sent, the task is in the mailbox or was served
  have hsent : ∀ {s' : St}, Inv cwcw s' → (∃ k, (t, i) ∈ s'.sent k) →
      CanExecute concurrency s' (t, i) := by
    rintro s' h' ⟨k, hk⟩
    rcases h'.mail with ⟨q, hq⟩
    rw [hq.split] at hk
    rcases List.mem_append.mp hk with hk | hk
    · rcases (h'.jobs.served (t, i)).mpr ⟨k, hk⟩ with ⟨n, job, hn, horigin⟩
      rw [← horigin]
      exact h'.canExecute_served hn
    · exact h'.canExecute_queued (hq.holds k) (hq.nodup_queue k) hk
  rcases h.mail with ⟨q, hq⟩
  rcases hq.remoteSent t i ps hi with hk | ⟨kid, howner, hlen⟩
  · exact hsent h hk
  · have hlen' : (s.tasks t).length - 1 = i := by
      unfold St.spawned at hlen
      rw [List.length_map] at hlen
      omega
    have hstep : step concurrency (.owner t) s =
        some ((mailboxPush kid (t, (s.tasks t).length - 1) s).setOwner t
          .spawning) := by
      show ownerStep t s = _
      unfold ownerStep
      rw [howner]
    refine .of_step hstep (hsent (h.sendTask howner) ⟨kid, ?_⟩)
    show (t, i) ∈ update s.sent kid _ kid
    rw [update_self, hlen']
    exact List.mem_append_right _ (List.mem_singleton_self _)

/-- For any number of processors and of threads, any tasks and any
interleaving: as long as a task is distributed to another processor only
when the earlier tasks of its frame with a conflicting access are over,
the tasks keep the sequential semantics and each distributed one can
still be executed. -/
theorem kidOk_of_meets (concurrency : Nat) (cwcw : Bool) (as : List Act) (s : St)
    (hm : Along (step concurrency) (Meets concurrency cwcw) as St.start)
    (hrun : run (step concurrency) as St.start = some s) :
    KidOk cwcw s ∧ ∀ t i ps, (s.spawned t)[i]? = some (ps, true) →
      CanExecute concurrency s (t, i) := by
  have h := hm.run_inv (P := Inv cwcw) (fun hq h hs => h.of_step hq hs)
    (Inv.start cwcw) hrun
  exact ⟨h.kidOk, fun t i ps hi => h.canExecute hi⟩

/-- A task that writes a datum, over before a task that reads it is
distributed to processor 1. -/
def distributeAfter : List Act :=
  [.push 0 [⟨Dfg.modeW, 0⟩], .execframe 0, .owner 0, .owner 0, .owner 0,
    .distribute 0 [⟨Dfg.modeR, 0⟩] 1, .owner 0, .owner 0]

theorem kidOk_of_meets_after :
    ∃ s, run (step 2) distributeAfter St.start = some s ∧ KidOk true s ∧
      CanExecute 2 s (0, 1) := by
  have hm : Along (step 2)
    (Meets 2 true) distributeAfter St.start := by decide +kernel
  have hspawned : ((run (step 2) distributeAfter St.start).bind fun s =>
    (s.spawned 0)[1]?) = some ([⟨Dfg.modeR, 0⟩], true) := by decide +kernel
  rcases Option.bind_eq_some_iff.mp hspawned with ⟨s, hrun, hs⟩
  rcases kidOk_of_meets 2 true distributeAfter s hm hrun with ⟨hok, hcan⟩
  exact ⟨s, hrun, hok, hcan 0 1 _ hs⟩

/-- The same two tasks, the first one not executed yet: whoever serves the
mailbox begins the second one. -/
theorem kidOk_fails :
    ¬∀ as s, run (step 2) as St.start = some s → KidOk false s := by
  intro hall
  have hbegun : ((run (step 2)
    [.push 0 [⟨Dfg.modeW, 0⟩], .distribute 0 [⟨Dfg.modeR, 0⟩] 1,
      .owner 0, .owner 0, .serve 1, .job 0] St.start).map fun s =>
        (s.spawned 0, s.begun, s.ended)) =
      some ([([⟨Dfg.modeW, 0⟩], false), ([⟨Dfg.modeR, 0⟩], true)], [(0, 1)],
        []) := by
    decide +kernel
  rcases Option.map_eq_some_iff.mp hbegun with ⟨s, hrun, hproj⟩
  simp only [Prod.mk.injEq] at hproj
  rcases hproj with ⟨hspawned, hb, he⟩
  have hafter := (hall _ s hrun).after 0 0 1 [⟨Dfg.modeW, 0⟩] [⟨Dfg.modeR, 0⟩] false
    Nat.zero_lt_one (by rw [hspawned]; rfl) (by rw [hspawned]; rfl) (by decide)
    (by rw [hb]; exact List.mem_singleton_self _)
  rw [he] at hafter
  cases hafter

end XKaapi.Mailbox
