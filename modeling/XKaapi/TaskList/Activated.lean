/-
The signals to the descriptors of a task list, on machine words
(kaapi_taskdescr_activated, src/kaapi_tasklist.h).

A descriptor counts its signals in a 32-bit word that is never reset: the
same list may be executed again, and the remainder by `wc` tells the end
of each round. Everything that signals is here: the activation list of a
descriptor (`kaapi_readytasklist_pushactivated`, at whatever moment), and
the initial tasks, which `kaapi_sched_computereadylist` passes to the same
helper although they wait for nothing. `kaapi_thread_tasklistready_push_init`
makes them ready without a signal.

`wc` is the number of accesses of one task, whose parameters are numbered
by an `unsigned int`: it does not wrap.

Each signal is logged with its answer; a remainder by 0 has none. Every
answer is right in every run that does not signal the initial tasks and
in which no counter wraps between two rounds (`activationOk_of_meets`).
-/
import Mathlib.Algebra.Group.Nat.Defs
import XKaapi.TaskList.Exec

namespace XKaapi.TaskList

open Dfg Activation StepMachine

-- ======== code

/-- `kaapi_taskdescr_activated`: the new counter, and whether the
remainder by `wc`, if it has one, is 0. -/
def taskdescrActivated (counter wc : Nat) : Nat × Option Bool :=
  let c := (counter + 1) % 2 ^ 32
  (c, if wc = 0 then none else some (decide (c % wc = 0)))

/-- A task list and what each signal to a descriptor has answered. -/
structure Signalled where
  tl : FrameTasklist
  log : List (TdId × Option Bool)

namespace Signalled

variable (s : Signalled)

/-- The body of the loop of `kaapi_readytasklist_push_from_activationlist`. -/
def pushIfActivated (id : TdId) : Signalled :=
  let t := s.tl.td id
  let r := taskdescrActivated t.counter t.wc
  let tl := s.tl.setTd id { t with counter := r.1 }
  { tl := { tl with rtl := if r.2 = some true then id :: tl.rtl else tl.rtl }
    log := s.log ++ [(id, r.2)] }

/-- `kaapi_readytasklist_push_from_activationlist`. -/
def pushFromActivationlist (ids : List TdId) : Signalled :=
  ids.foldl pushIfActivated s

end Signalled

/-- The calls that make descriptors of a list ready. -/
inductive ActivationCall
  | schedComputereadylist
  | readyPushInit
  | pushactivated (id : TdId)
deriving DecidableEq, Repr

/-- One call. -/
def activationStep (a : ActivationCall) (s : Signalled) : Option Signalled :=
  match a with
  | .schedComputereadylist =>
    some (s.pushFromActivationlist s.tl.readylist)
  | .readyPushInit => some { s with tl := s.tl.tasklistreadyPushInit }
  | .pushactivated id =>
    some (s.pushFromActivationlist (s.tl.td id).acl)

-- ======== the statement

/-- The signals to a descriptor among the first `n`. -/
def Signalled.signals (s : Signalled) (n : Nat) (id : TdId) : Nat :=
  ((s.log.take n).map Prod.fst).count id

/-- Every signal was answered, and by "ready" exactly when it completes a
round of `wc` signals. -/
def ActivationOk (s : Signalled) : Prop :=
  ∀ (n : Nat) (id : TdId) (r : Option Bool), s.log[n]? = some (id, r) →
    (s.tl.td id).wc ≠ 0
      ∧ r = some (decide ((s.tl.td id).wc ∣ s.signals (n + 1) id))

/-- The condition on a call: it does not signal initial tasks, and the
counters it moves do not wrap, unless they wrap with the rounds. -/
def ActivationMeets (a : ActivationCall) (s : Signalled) : Prop :=
  match a with
  | .schedComputereadylist => s.tl.readylist = []
  | .readyPushInit => True
  | .pushactivated id => ∀ v ∈ (s.tl.td id).acl,
      (s.tl.td v).wc ∣ 2 ^ 32
        ∨ (s.tl.td v).counter + (s.tl.td id).acl.count v < 2 ^ 32

instance : ∀ a s, Decidable (ActivationMeets a s)
  | .schedComputereadylist, s =>
    inferInstanceAs (Decidable (s.tl.readylist = []))
  | .readyPushInit, _ => isTrue trivial
  | .pushactivated id, s =>
    inferInstanceAs (Decidable (∀ v ∈ (s.tl.td id).acl,
      (s.tl.td v).wc ∣ 2 ^ 32
        ∨ (s.tl.td v).counter + (s.tl.td id).acl.count v < 2 ^ 32))

-- ======== one signal

section Signal

variable {s : Signalled} {id : TdId}

theorem pushIfActivated_wc (v : TdId) :
    ((s.pushIfActivated id).tl.td v).wc = (s.tl.td v).wc := by
  show ((s.tl.setTd id _).td v).wc = _
  unfold FrameTasklist.setTd
  dsimp only
  rw [Function.update_apply]
  split
  next h => rw [h]
  next => rfl

theorem pushIfActivated_acl (v : TdId) :
    ((s.pushIfActivated id).tl.td v).acl = (s.tl.td v).acl := by
  show ((s.tl.setTd id _).td v).acl = _
  unfold FrameTasklist.setTd
  dsimp only
  rw [Function.update_apply]
  split
  next h => rw [h]
  next => rfl

theorem pushIfActivated_counter (v : TdId) :
    ((s.pushIfActivated id).tl.td v).counter =
      if v = id then ((s.tl.td id).counter + 1) % 2 ^ 32
      else (s.tl.td v).counter := by
  show ((s.tl.setTd id _).td v).counter = _
  unfold FrameTasklist.setTd
  dsimp only
  rw [Function.update_apply]
  split <;> rfl

end Signal

-- ======== the invariant

/-- The number of signals a descriptor has received. -/
def Signalled.received (s : Signalled) (id : TdId) : Nat :=
  (s.log.map Prod.fst).count id

/-- A counter holds the signals modulo the word; it has not wrapped yet
where wrapping is not at the end of a round. -/
structure SignalInv (tl : FrameTasklist) (s : Signalled) : Prop where
  wc : ∀ v, (s.tl.td v).wc = (tl.td v).wc
  acl : ∀ v, (s.tl.td v).acl = (tl.td v).acl
  readylist : s.tl.readylist = tl.readylist
  counter : ∀ v, (s.tl.td v).counter = s.received v % 2 ^ 32
  noWrap : ∀ v, (tl.td v).wc ∣ 2 ^ 32 ∨ (s.tl.td v).counter = s.received v
  ok : ActivationOk s

section Inv

variable {tl : FrameTasklist} {s : Signalled} {id : TdId}

theorem received_push (v : TdId) : (s.pushIfActivated id).received v =
    s.received v + if v = id then 1 else 0 := by
  unfold Signalled.received
  show ((s.log ++ [_]).map Prod.fst).count v = _
  rw [List.map_append, List.count_append]
  show _ + [id].count v = _
  rw [List.count_singleton]
  by_cases hv : v = id
  · subst hv
    rw [if_pos rfl, if_pos (beq_self_eq_true v)]
  · rw [if_neg hv, if_neg fun heq => hv (beq_iff_eq.mp heq).symm]

theorem signals_push_old {n : Nat} (hn : n < s.log.length) (v : TdId) :
    (s.pushIfActivated id).signals (n + 1) v = s.signals (n + 1) v := by
  unfold Signalled.signals
  show (((s.log ++ [_]).take (n + 1)).map Prod.fst).count v = _
  rw [List.take_append_of_le_length hn]

theorem signals_push_new (v : TdId) :
    (s.pushIfActivated id).signals (s.log.length + 1) v =
      (s.pushIfActivated id).received v := by
  unfold Signalled.signals Signalled.received
  rw [List.take_of_length_le]
  show (s.log ++ [_]).length ≤ _
  rw [List.length_append]
  exact Nat.le_refl _

theorem answer_eq {counter received wc : Nat} (hwc : wc ≠ 0)
    (hcounter : counter = received % 2 ^ 32)
    (hnoWrap : wc ∣ 2 ^ 32 ∨ counter = received ∧ counter + 1 < 2 ^ 32) :
    (taskdescrActivated counter wc).2
      = some (decide (wc ∣ received + 1)) := by
  unfold taskdescrActivated
  dsimp only
  rw [if_neg hwc]
  congr 2
  rw [Nat.dvd_iff_mod_eq_zero]
  rcases hnoWrap with hdvd | ⟨heq, hlt⟩
  · rw [hcounter, Nat.mod_add_mod, Nat.mod_mod_of_dvd _ hdvd]
  · rw [heq] at hlt ⊢
    rw [Nat.mod_eq_of_lt hlt]

/-- One signal: the counter follows, and the answer is right. -/
theorem SignalInv.push (h : SignalInv tl s) (hwc : (tl.td id).wc ≠ 0)
    (hnoWrap : (tl.td id).wc ∣ 2 ^ 32 ∨ (s.tl.td id).counter + 1 < 2 ^ 32) :
    SignalInv tl (s.pushIfActivated id) := by
  have hmod : ∀ v, ((s.pushIfActivated id).tl.td v).counter =
      (s.pushIfActivated id).received v % 2 ^ 32 := by
    intro v
    rw [pushIfActivated_counter, received_push]
    split
    next hv =>
      rw [hv, h.counter id, Nat.mod_add_mod]
    next => exact h.counter v
  refine ⟨fun v => (pushIfActivated_wc v).trans (h.wc v),
    fun v => (pushIfActivated_acl v).trans (h.acl v), h.readylist, hmod, ?_, ?_⟩
  · intro v
    rw [pushIfActivated_counter, received_push]
    split
    next hv =>
      subst hv
      rcases hnoWrap with hdvd | hlt
      · exact .inl hdvd
      · rcases h.noWrap v with hdvd | heq
        · exact .inl hdvd
        · exact .inr (by rw [Nat.mod_eq_of_lt hlt, heq])
    next => exact h.noWrap v
  · intro n v r hr
    rw [pushIfActivated_wc]
    have hr' : (s.log ++ [(id, (taskdescrActivated (s.tl.td id).counter
        (s.tl.td id).wc).2)])[n]? = some (v, r) := hr
    by_cases hn : n < s.log.length
    · rw [List.getElem?_append_left hn] at hr'
      rw [signals_push_old hn]
      exact h.ok n v r hr'
    · have hlen := (List.getElem?_eq_some_iff.mp hr').1
      rw [List.length_append, List.length_singleton] at hlen
      have heq : n = s.log.length := by omega
      subst heq
      rw [List.getElem?_concat_length] at hr'
      cases hr'
      rw [signals_push_new, received_push, if_pos rfl, h.wc id]
      refine ⟨hwc, answer_eq hwc (h.counter id) ?_⟩
      rcases hnoWrap with hdvd | hlt
      · exact .inl hdvd
      · rcases h.noWrap id with hdvd | heq
        · exact .inl hdvd
        · exact .inr ⟨heq, hlt⟩

theorem SignalInv.pushFrom {ids : List TdId} (h : SignalInv tl s)
    (hwc : ∀ v ∈ ids, (tl.td v).wc ≠ 0)
    (hnoWrap : ∀ v ∈ ids, (tl.td v).wc ∣ 2 ^ 32
      ∨ (s.tl.td v).counter + ids.count v < 2 ^ 32) :
    SignalInv tl (s.pushFromActivationlist ids) := by
  induction ids generalizing s with
  | nil => exact h
  | cons id ids ih =>
    have hfirst : SignalInv tl (s.pushIfActivated id) := by
      refine h.push (hwc id List.mem_cons_self) ?_
      refine (hnoWrap id List.mem_cons_self).imp_right fun hlt => ?_
      rw [List.count_cons_self] at hlt
      omega
    refine ih hfirst (fun v hv => hwc v (List.mem_cons_of_mem _ hv)) ?_
    intro v hv
    refine (hnoWrap v (List.mem_cons_of_mem _ hv)).imp_right fun hlt => ?_
    rw [pushIfActivated_counter]
    split
    next hvid =>
      subst hvid
      rw [List.count_cons_self] at hlt
      have hle := Nat.mod_le ((s.tl.td v).counter + 1) (2 ^ 32)
      omega
    next hvid =>
      rw [List.count_cons_of_ne (fun heq => hvid heq.symm)] at hlt
      exact hlt

end Inv

-- ======== the results

section Built

variable {ks : List Nat} {opened : Set Addr} {evs : List Event}
  {tl : FrameTasklist}

theorem Built.wc_ne_zero (h : Built ks opened evs tl) {u v : TdId}
    (hv : v ∈ (tl.td u).acl) : (tl.td v).wc ≠ 0 := by
  have hu : u ∈ tl.tds := by
    by_contra hnot
    rw [h.unallocated u hnot] at hv
    cases hv
  have hwait : (tl.td v).wc = (tl.graph.sent tl.tds).count v :=
    h.balanced.wait_eq v
  rw [hwait]
  refine Nat.pos_iff_ne_zero.mp (List.count_pos_iff.mpr ?_)
  exact List.mem_flatMap.mpr ⟨u, hu, hv⟩

theorem Built.signalInv (h : Built ks opened evs tl) :
    SignalInv tl ⟨tl, []⟩ :=
  ⟨fun _ => rfl, fun _ => rfl, rfl, fun v => h.counter v,
    fun v => .inr (h.counter v), nofun⟩

theorem Built.signalInv_step (h : Built ks opened evs tl) {a : ActivationCall}
    {s s' : Signalled} (hm : ActivationMeets a s) (hs : SignalInv tl s)
    (hstep : activationStep a s = some s') : SignalInv tl s' := by
  cases a with
  | schedComputereadylist =>
    have hnil : s.tl.readylist = [] := hm
    unfold activationStep at hstep
    cases hstep
    rw [hnil]
    exact hs
  | readyPushInit =>
    unfold activationStep at hstep
    cases hstep
    exact ⟨hs.wc, hs.acl, hs.readylist, hs.counter, hs.noWrap, hs.ok⟩
  | pushactivated id =>
    unfold activationStep at hstep
    cases hstep
    refine hs.pushFrom (fun v hv => ?_) fun v hv => ?_
    · rw [hs.acl] at hv
      exact h.wc_ne_zero hv
    · rw [← hs.wc v]
      exact hm v hv

end Built

/-- For every frame that can be analysed and every sequence of calls, in
any order and any number of times: as long as the initial tasks are not
signalled and no counter wraps inside a round, no signal divides by zero
and a descriptor is reported ready exactly at the end of each round. -/
theorem activationOk_of_meets {tasks : List Task} {tl : FrameTasklist}
    (htl : computereadylist tasks = some tl) {as : List ActivationCall}
    {s : Signalled} (hm : Along activationStep ActivationMeets as ⟨tl, []⟩)
    (hrun : run activationStep as ⟨tl, []⟩ = some s) : ActivationOk s := by
  obtain ⟨opened, h⟩ := computereadylist_spec htl
  exact (hm.run_inv (P := SignalInv tl)
    (fun hq hs hstep => h.signalInv_step hq hs hstep) h.signalInv hrun).ok

/-- A reader then a writer of datum 0, executed twice. -/
def executeTwice : List ActivationCall :=
  [.readyPushInit, .pushactivated (.init 0), .pushactivated (.task 0),
    .pushactivated (.task 1), .readyPushInit, .pushactivated (.init 0),
    .pushactivated (.task 0), .pushactivated (.task 1)]

theorem activationOk_of_meets_twice :
    ∃ tl s, computereadylist readWrite = some tl
      ∧ run activationStep executeTwice ⟨tl, []⟩ = some s
      ∧ ActivationOk s := by
  refine ⟨_, _, rfl, rfl, activationOk_of_meets
    (rfl : computereadylist readWrite = some _) ?_
    (rfl : run activationStep executeTwice _ = some _)⟩
  decide +kernel

/-- The end of a static parallel region in which one task was created
that writes a datum: the initial task is signalled. -/
theorem activationOk_fails :
    ¬ ∀ (tasks : List Task) (tl : FrameTasklist)
      (as : List ActivationCall) (s : Signalled),
      computereadylist tasks = some tl →
      run activationStep as ⟨tl, []⟩ = some s → ActivationOk s := by
  intro hall
  have hok := hall [some [⟨modeW, 0⟩]] _ [.schedComputereadylist] _ rfl rfl
  exact (hok 0 (.init 0) none rfl).1 rfl

end XKaapi.TaskList
