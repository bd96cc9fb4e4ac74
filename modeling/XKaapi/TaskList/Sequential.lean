/-
The execution of task lists gives the data what the sequential execution
of their frames gives them.

A body is a function on the data that reads what its task accesses and
writes what its task accesses to write. The links order the tasks
(`popped_ordered`), tasks that do not conflict commute (`Respects.comm`),
so when every conflict of a frame is ordered all the orders in which its
ready list may be popped have the same result (`sequential_result`). When
several lists are executed at once, thieves taking part, what is executed
of each is an execution of this list alone (`executed_steps`), and has the
same result (`migrated_result`).
-/
import XKaapi.Lib.Reorder
import XKaapi.TaskList.AccountEnd
import XKaapi.TaskList.Order

namespace XKaapi.TaskList

open Dfg Activation Relation
open StepMachine (run)

/-- The task of a descriptor. -/
def TdId.task? : TdId → Option Nat
  | .task k => some k
  | .init _ => none

/-- `body k` is a body for the task `k`. -/
structure Respects {V : Type*} (tasks : List Task)
    (body : Nat → (Addr → V) → Addr → V) : Prop where
  keeps : ∀ {k a} m, ¬ WriteOf tasks k a → body k m a = m a
  reads : ∀ {k a m m'}, (∀ p, AccessOf tasks k p → m p.data = m' p.data) →
    WriteOf tasks k a → body k m a = body k m' a

section Frame

variable {V : Type*} {tasks : List Task} {body : Nat → (Addr → V) → Addr → V}
  {tl tl' : FrameTasklist} {ids : List TdId} {a : State TdId}

theorem Respects.comm (h : Respects tasks body) (hcw : NoCW tasks) {i k : Nat}
    (hno : ¬ Conflict tasks i k) (m : Addr → V) :
    body k (body i m) = body i (body k m) := by
  -- what one of them writes the other does not access
  have hi : ∀ {q}, AccessOf tasks k q → ¬ WriteOf tasks i q.data := by
    rintro q hq ⟨p, hp, hd, hw⟩
    exact hno ⟨p, q, hp, hq, hd, .inl hw, fun hc => hcw i p hp hc.1⟩
  have hk : ∀ {p}, AccessOf tasks i p → ¬ WriteOf tasks k p.data := by
    rintro p hp ⟨q, hq, hd, hw⟩
    exact hno ⟨p, q, hp, hq, hd.symm, .inr hw, fun hc => hcw i p hp hc.1⟩
  funext a
  by_cases hwk : WriteOf tasks k a
  · obtain ⟨q, hq, rfl, -⟩ := id hwk
    rw [h.keeps _ (hi hq)]
    exact h.reads (fun p hp => h.keeps m (hi hp)) hwk
  · rw [h.keeps _ hwk]
    by_cases hwi : WriteOf tasks i a
    · exact (h.reads (fun p hp => h.keeps m (hk hp)) hwi).symm
    · rw [h.keeps _ hwi, h.keeps _ hwi, h.keeps _ hwk]

theorem formatted_pairwise (k : Nat) (ts : List Task) :
    (formatted k ts).Pairwise (· < ·) := by
  induction ts generalizing k with
  | nil => exact .nil
  | cons t ts ih =>
    cases t with
    | none => exact ih (k + 1)
    | some params =>
      refine List.pairwise_cons.mpr ⟨fun i hi => ?_, ih (k + 1)⟩
      obtain ⟨j, -, -, rfl⟩ := mem_formatted_iff.mp hi
      omega

/-- Nothing that leads to a descriptor is executed after it. -/
theorem popped_ordered (htl : computereadylist tasks = some tl)
    (hsteps : run (step tl.graph) ids (start tl.readylist.reverse) = some a) :
    ids.Pairwise fun u v => ¬ TransGen (Edge tl) v u := by
  obtain ⟨opened, h⟩ := computereadylist_spec htl
  have hwf := h.wellFormed (events_sorted 0 tasks)
  have hbefore : ∀ {u v}, TransGen (Edge tl) u v →
      ∀ l r, ids = l ++ v :: r → u ∈ l := by
    intro u v hpath
    have hone : ∀ {u v}, Edge tl u v → ∀ l r, ids = l ++ v :: r → u ∈ l := by
      rintro u v huv l r rfl
      refine pred_mem hwf hsteps ?_ huv
      by_contra hu
      rw [Edge, h.unallocated u hu] at huv
      cases huv
    induction hpath with
    | single huv => exact hone huv
    | tail _ hvw ih =>
      intro l r hids
      obtain ⟨l', r', rfl⟩ := List.append_of_mem (hone hvw l r hids)
      rw [List.append_assoc] at hids
      exact List.mem_append_left _ (ih l' _ hids)
  refine List.pairwise_iff_forall_sublist.mpr fun {u v} hsub hpath => ?_
  obtain ⟨r₁, r₂, rfl, hu, hv⟩ := List.cons_sublist_iff.mp hsub
  obtain ⟨l, r, rfl⟩ := List.append_of_mem hu
  have hfirst := hbefore hpath l (r ++ r₂) (by simp)
  have hdone : a.done = (l ++ u :: r) ++ r₂ := run_done hsteps
  have hnd := (List.nodup_append.mp (inv_run hwf hsteps).nodup).1
  rw [hdone] at hnd
  exact (List.nodup_append.mp hnd).2.2 v (List.mem_append_left _ hfirst) v
    (List.singleton_sublist.mp hv) rfl

/-- When all the descriptors have been executed, the tasks that have a
format have, each once. -/
theorem tasks_perm (htl : computereadylist tasks = some tl) (hperm : ids.Perm tl.tds) :
    (ids.filterMap TdId.task?).Perm (formatted 0 tasks) := by
  obtain ⟨opened, h⟩ := computereadylist_spec htl
  have hmem : ∀ k, k ∈ ids.filterMap TdId.task? ↔ k ∈ formatted 0 tasks := by
    intro k
    rw [← h.task_mem, ← hperm.mem_iff, List.mem_filterMap]
    constructor
    · rintro ⟨id, hid, hk⟩
      cases id <;> cases hk
      exact hid
    · exact fun hid => ⟨_, hid, rfl⟩
  have hnodup : (ids.filterMap TdId.task?).Nodup := by
    refine (hperm.nodup_iff.mpr h.balanced.nodup).filterMap fun u v k hu hv => ?_
    cases u <;> cases v <;> cases hu <;> cases hv
    rfl
  have hsorted := formatted_pairwise 0 tasks
  exact (List.perm_ext_iff_of_nodup hnodup (hsorted.imp fun h => Nat.ne_of_lt h)).mpr hmem

/-- When the conflicts of the frame are ordered, every execution of all the
descriptors leaves what the tasks leave one after the other. -/
theorem steps_result (hmodes : DfgModes tasks) (hord : Ordered tasks)
    (htl : computereadylist tasks = some tl) (hbody : Respects tasks body)
    (hsteps : run (step tl.graph) ids (start tl.readylist.reverse) = some a)
    (hperm : ids.Perm tl.tds) (m : Addr → V) :
    (ids.filterMap TdId.task?).foldl (fun m k => body k m) m
      = (formatted 0 tasks).foldl (fun m k => body k m) m := by
  have hsorted := formatted_pairwise 0 tasks
  refine (Reorder.foldl_eq_of_perm (P := (· < ·))
    (Q := fun i k => ¬ TransGen (Edge tl) (.task k) (.task i)) ?_ ?_ hsorted ?_ m).symm
  · intro i k hik hnot m
    refine hbody.comm ((built_iff_noCW hmodes).mp ⟨tl, htl⟩) (fun hc => hnot ?_) m
    obtain ⟨tl₁, htl₁, hpath⟩ := hord i k hik hc
    cases htl.symm.trans htl₁
    exact hpath
  · exact (tasks_perm htl hperm).symm
  · refine List.pairwise_filterMap.mpr ((popped_ordered htl hsteps).imp ?_)
    rintro u v hnot i hu k hv
    cases u <;> cases v <;> cases hu <;> cases hv
    exact hnot

/-- A task list whose frame has all its conflicts ordered, executed to its
end, leaves the data as the sequential execution does. -/
theorem sequential_result (hmodes : DfgModes tasks) (hord : Ordered tasks)
    (htl : computereadylist tasks = some tl)
    (hshared : ∀ t ∈ tasks, ∀ params, t = some params → ∃ p ∈ params, p.m ≠ modeV)
    (hbody : Respects tasks body)
    (hrun : run execTd ids tl.tasklistreadyPushInit = some tl')
    (hend : tl'.rtl = []) (m : Addr → V) :
    (ids.filterMap TdId.task?).foldl (fun m k => body k m) m
      = (formatted 0 tasks).foldl (fun m k => body k m) m := by
  obtain ⟨opened, h⟩ := computereadylist_spec htl
  obtain ⟨hi, -, rfl⟩ := h.inv_execTd hrun
  refine steps_result hmodes hord htl hbody (h.state_init ▸ (run_execTd hrun).1) ?_ m
  exact run_complete (h.wellFormed (events_sorted 0 tasks)) hi hend fun v hv hw =>
    List.mem_reverse.mpr (h.ready_of_wait hshared hv hw)

end Frame

/-- Two tasks that update datum 0. -/
def twoUpdates : List Task := [some [⟨modeRW, 0⟩], some [⟨modeRW, 0⟩]]

def bump (k : Nat) (m : Addr → Nat) : Addr → Nat :=
  if k < 2 then Function.update m 0 (m 0 + 1) else m

theorem respects_bump : Respects twoUpdates bump where
  keeps := by
    intro k a m h
    unfold bump
    split
    next hk =>
      refine Function.update_of_ne ?_ _ _
      rintro rfl
      obtain rfl | rfl : k = 0 ∨ k = 1 := by omega
      all_goals
        exact h ⟨_, ⟨_, rfl, List.mem_singleton_self _, by decide⟩, rfl, by decide⟩
    next => rfl
  reads := by
    rintro k a m m' h ⟨p, hp, rfl, -⟩
    have hsame := h p hp
    unfold bump
    split
    · by_cases hz : p.data = 0
      · rw [hz] at hsame ⊢
        simp [hsame]
      · simp [hz, hsame]
    · exact hsame

theorem ordered_twoUpdates : Ordered twoUpdates := by
  rintro i j hij ⟨p, q, hp, hq, -⟩
  rw [accessOf_iff] at hp hq
  obtain ⟨rfl, rfl⟩ : i = 0 ∧ j = 1 := by
    simp [events, twoUpdates] at hp hq
    omega
  exact ⟨_, rfl, .single (by unfold Edge; decide)⟩

theorem sequential_result_twoUpdates :
    ([TdId.init 0, .task 0, .task 1].filterMap TdId.task?).foldl
        (fun m k => bump k m) (fun _ => 0)
      = (formatted 0 twoUpdates).foldl (fun m k => bump k m) fun _ => 0 :=
  sequential_result (by unfold DfgModes; decide) ordered_twoUpdates rfl (by decide)
    respects_bump rfl rfl _

-- ======== several lists

section Lists

variable {W : Frames} {s s' : Lists} {i m : Nat}

theorem pushreadyTd_executed (td : Td) : (pushreadyTd W i td s).executed = s.executed := by
  unfold pushreadyTd
  dsimp only
  (repeat' split) <;> rfl

theorem loopStep_executed {c : PopChoice} (h : loopStep W i c s = some s') :
    s'.executed = s.executed
      ∨ ∃ td, (s.loop i).pc = .body td ∧ s'.executed = s.executed ++ [td] := by
  unfold loopStep at h
  cases hpc : (s.loop i).pc with
  | body td =>
    simp only [hpc] at h
    cases h
    exact .inr ⟨td, rfl, rfl⟩
  | start td =>
    simp only [hpc] at h
    cases h
    exact .inl (pushreadyTd_executed td)
  | pushactivated rest =>
    refine .inl ?_
    cases rest with
    | nil =>
      simp only [hpc] at h
      cases h
      rfl
    | cons v rest =>
      simp only [hpc, pushIfActivated] at h
      split at h <;> cases h
      split
      · exact pushreadyTd_executed v
      · rfl
  | _ =>
    simp only [hpc] at h
    (repeat' split at h) <;> cases h <;> exact .inl rfl

/-- A step that executes a descriptor runs the body a loop is at. -/
theorem listStep_executed {b : ListAct} (h : listStep W b s = some s') :
    s'.executed = s.executed ∨ ∃ i < s.n, ∃ td, (s.loop i).pc = .body td
      ∧ s'.executed = s.executed ++ [td] := by
  unfold listStep at h
  cases b with
  | thread i c =>
    simp only at h
    split at h
    next hi => exact (loopStep_executed h).imp_right fun htd => ⟨i, hi, htd⟩
    next => cases h
  | stealtasklist i td q =>
    simp only at h
    split at h <;> cases h
    exact .inl rfl
  | stealreadytasklist p remote td q =>
    cases remote <;> simp only at h <;> split at h <;> cases h <;> exact .inl rfl

/-- What a loop is about to execute is ready in its list. -/
theorem Flow.ready_steps (hf : Flow W s) (hi : i < s.n) {td : Td}
    (hpc : (s.loop i).pc = .body td) {a : State TdId}
    (hsteps : run (step (W.frame td.1).graph) (s.executedOf td.1)
      (start (W.frame td.1).readylist.reverse) = some a) : td.2 ∈ a.ready := by
  have hinv := inv_run (W.wellFormed td.1) hsteps
  have hdone : a.done = s.executedOf td.1 := run_done hsteps
  have hplaced : 0 < s.placed W td := by
    have hle := Finset.single_le_sum (f := fun i => (s.loop i).holds td)
      (fun _ _ => Nat.zero_le _) (Finset.mem_range.mpr hi)
    have hholds : 0 < (s.loop i).holds td := by
      unfold Loop.holds
      rw [hpc]
      simp
    unfold Lists.placed
    omega
  have hmem : td.2 ∈ a.done ++ a.ready := by
    refine (hinv.mem_iff td.2).mpr ((hf.ready_of_pos (v := td) (by omega)).imp ?_ ?_)
    · exact fun hr => List.mem_reverse.mpr hr.2
    · rintro ⟨hwc, hc⟩
      refine ⟨hwc, ?_⟩
      have hlow := hf.signals td
      have hup := hf.sent_le td
      have hsent : (s.executed.flatMap W.acl).count td
          = ((W.frame td.1).graph.sent (s.executedOf td.1)).count td.2 :=
        count_sent s.executed td.1 td.2
      rw [hinv.counter, hdone, ← hsent]
      show _ = (W.td td).wc
      omega
  refine (List.mem_append.mp hmem).resolve_left fun hin => ?_
  have hexec : 0 < s.executed.count td :=
    List.count_pos_iff.mpr (Flow.mem_executedOf.mp (hdone ▸ hin))
  have hle := hf.count_le td
  omega

/-- Whatever the interleaving and the thefts, the descriptors of each list
are executed as the list alone may be. -/
theorem executed_steps {acts : List ListAct}
    (hrun : run (ownStep W) acts W.initial = some s) :
    (Flow W s ∧ Books W s) ∧ ∀ m, ∃ a, run (step (W.frame m).graph) (s.executedOf m)
      (start (W.frame m).readylist.reverse) = some a := by
  refine StepMachine.run_preserves (P := fun s => (Flow W s ∧ Books W s) ∧ ∀ m, ∃ a,
    run (step (W.frame m).graph) (s.executedOf m)
      (start (W.frame m).readylist.reverse) = some a) (fun {b s s'} h hstep => ?_)
    ⟨⟨flow_initial W, books_initial W⟩, fun m => ⟨_, rfl⟩⟩ hrun
  unfold ownStep at hstep
  split at hstep
  next hown =>
    refine ⟨listStep_inv h.1.1 h.1.2 hown hstep, fun m => ?_⟩
    obtain ⟨a, ha⟩ := h.2 m
    rcases listStep_executed hstep with heq | ⟨i, hi, td, hpc, heq⟩
    · exact ⟨a, by rw [Lists.executedOf, heq]; exact ha⟩
    · rw [Lists.executedOf, heq, List.filter_append, List.map_append]
      by_cases hm : td.1 = m
      · subst hm
        obtain ⟨a', hstep', -⟩ := step_spec (W.wellFormed td.1)
          (inv_run (W.wellFormed td.1) ha) (h.1.1.ready_steps hi hpc ha)
        refine ⟨a', StepMachine.run_append_eq_some.mpr ⟨a, ha, ?_⟩⟩
        simp [StepMachine.run, hstep']
      · exact ⟨a, by simpa [hm, Lists.executedOf] using ha⟩
  next => cases hstep

/-- Several lists at once: a master list that ends, its conflicts ordered,
has had the effect of the sequential execution of its frame on its data,
which the tasks of the other lists do not touch. -/
theorem migrated_result {V : Type*} {tasks : List Task}
    {body : Nat → (Addr → V) → Addr → V} (hmodes : DfgModes tasks)
    (hord : Ordered tasks) (htl : computereadylist tasks = some (W.frame m))
    (hbody : Respects tasks body) {acts : List ListAct}
    (hrun : run (ownStep W) acts W.initial = some s) (hm : m < W.nmaster)
    (hend : (s.loop m).pc = .finished) (d : Addr → V) :
    ((s.executedOf m).filterMap TdId.task?).foldl (fun d k => body k d) d
      = (formatted 0 tasks).foldl (fun d k => body k d) d := by
  obtain ⟨⟨hf, hb⟩, hall⟩ := executed_steps hrun
  obtain ⟨a, ha⟩ := hall m
  refine steps_result hmodes hord htl hbody ha ?_ d
  refine (List.perm_ext_iff_of_nodup (hf.executedOf_nodup m)
    (W.wellFormed m).balanced.nodup).mpr fun id => ⟨fun hid => ?_, fun hid => ?_⟩
  · exact hf.executed_mem_tds (Flow.mem_executedOf.mp hid)
  · exact Flow.mem_executedOf.mpr ((hb.accounted hf).finished m hm hend id hid)

end Lists

/-- The list of the two updates, and two processors. -/
def updating : Frames where
  nproc := 2
  nmaster := 1
  frame _ := (computereadylist twoUpdates).getD frameTasklistInit
  proc _ := 0
  site _ := none
  built _ := ⟨twoUpdates, rfl⟩
  proc_lt _ := Nat.two_pos
  site_lt := nofun

/-- The other processor steals the first update and executes both. -/
def theft : List ListAct :=
  [.thread 0 (.pop (0, .init 0)), .thread 0 .no, .thread 0 .no, .thread 0 .no,
    .stealtasklist 0 (0, .task 0) 1, .thread 1 .no, .thread 1 (.pop (0, .task 0)),
    .thread 1 .no, .thread 1 .no, .thread 1 .no, .thread 1 (.pop (0, .task 1))]
  ++ List.replicate 8 (.thread 1 .no) ++ List.replicate 5 (.thread 0 .no)

theorem migrated_result_theft :
    ∃ s, run (ownStep updating) theft updating.initial = some s
      ∧ ((s.executedOf 0).filterMap TdId.task?).foldl (fun d k => bump k d) (fun _ => 0)
        = (formatted 0 twoUpdates).foldl (fun d k => bump k d) fun _ => 0 := by
  have heval : (run (ownStep updating) theft updating.initial).map
      (fun s => (s.loop 0).pc) = some .finished := by decide +kernel
  obtain ⟨s, hrun, hend⟩ := Option.map_eq_some_iff.mp heval
  exact ⟨s, hrun, migrated_result (by unfold DfgModes; decide) ordered_twoUpdates rfl
    respects_bump hrun Nat.one_pos hend _⟩

end XKaapi.TaskList
