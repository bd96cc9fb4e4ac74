/-
The counters of the master lists at the end.

`tasklist_accounted` is about every run whose steps meet `OwnPop`, and
`tasklist_miscounted` is a run that does not: a task bound to the
processor of another list is executed and counted by the loop of that
list.
-/
import XKaapi.TaskList.AccountSteps

namespace XKaapi.TaskList

open Dfg Activation

variable {W : Frames} {s s' : Lists} {i m : Nat} {l : Loop} {v td : Td}

-- ======== results

theorem flow_initial (W : Frames) : Flow W W.initial where
  shape := by
    refine ⟨Nat.le_refl _, fun i hi => ⟨W.proc_lt i, hi, ?_⟩⟩
    exact iff_of_true rfl hi
  tokens v := by
    have hholds : ∀ i, (W.initial.loop i).holds v
        = if i = v.1 then (W.frame v.1).readylist.count v.2 else 0 := by
      intro i
      have hcount : (W.initial.loop i).holds v
          = ((W.frame i).tasklistreadyPushInit.rtl.map
              fun id => (i, id)).count v := Nat.add_zero _
      rw [hcount, W.rtl_eq]
      by_cases hi : i = v.1
      · rw [if_pos hi, hi]
        have hinj : Function.Injective fun id : TdId => (v.1, id) :=
          fun a b hab => (Prod.mk.inj hab).2
        rw [← List.count_reverse (a := v.2)]
        exact List.count_map_of_injective _ _ hinj v.2
      · rw [if_neg hi, List.count_eq_zero]
        intro hmem
        obtain ⟨id, -, heq⟩ := List.mem_map.mp hmem
        exact hi (by rw [← heq])
    have hplaced : W.initial.placed W v
        = if v.1 < W.nmaster then (W.frame v.1).readylist.count v.2 else 0 := by
      have hzero : ∑ p ∈ Finset.range W.nproc, (W.initial.rtl p).count v = 0
          ∧ ∑ p ∈ Finset.range W.nproc, (W.initial.rtlRemote p).count v = 0 :=
        ⟨Finset.sum_eq_zero fun _ _ => rfl, Finset.sum_eq_zero fun _ _ => rfl⟩
      unfold Lists.placed
      rw [hzero.1, hzero.2, Nat.add_zero]
      simp only [hholds]
      rw [Finset.sum_ite_eq' (Finset.range W.initial.n) v.1]
      simp only [Finset.mem_range]
      rfl
    have hnodup : (W.frame v.1).readylist.Nodup :=
      List.nodup_reverse.mp (W.wellFormed v.1).pool_nodup
    have hready : W.initial.Ready W v
        ↔ v.1 < W.nmaster ∧ v.2 ∈ (W.frame v.1).readylist := by
      refine or_iff_left fun ⟨hpos, heq⟩ => ?_
      have hz : W.initial.counter v = 0 := W.counter_eq v
      omega
    have hexec : W.initial.executed.count v = 0 := rfl
    rw [hready, hplaced, hexec, Nat.add_zero]
    constructor
    · intro ⟨hlt, hmem⟩
      rw [if_pos hlt]
      exact List.count_eq_one_of_mem hnodup hmem
    · intro hno
      by_cases hlt : v.1 < W.nmaster
      · rw [if_pos hlt, List.count_eq_zero]
        exact fun hmem => hno ⟨hlt, hmem⟩
      · rw [if_neg hlt]
  signals v := by
    have hz : W.initial.counter v = 0 := W.counter_eq v
    have hp : W.initial.pending v = 0 := Finset.sum_eq_zero fun _ _ => rfl
    rw [hz, hp]
    exact Nat.zero_le _

theorem books_initial (W : Frames) : Books W W.initial where
  own i hi v hv := by
    have hv : 0 < (((W.frame i).tasklistreadyPushInit.rtl.map
      fun id => (i, id)).count v + 0) + 0 := hv
    obtain ⟨id, -, heq⟩ := List.mem_map.mp (List.count_pos_iff.mp hv)
    rw [← heq]
    rfl
  credit m := Finset.sum_eq_zero fun i _ => by
    have hz : (W.initial.loop i).credit = 0 := rfl
    rw [hz, ite_self]
  added i hi := True.intro
  complete i hi _ hc := by cases hc
  small v hv := by cases hv

theorem credit_eq (h : s.Shape W) (hm : m < W.nmaster) :
    s.credit m = (s.loop m).cntExec + s.unreported m := by
  have hmn := Finset.mem_range.mpr (hm.trans_le h.1)
  have hnone := (h.2 m (hm.trans_le h.1)).2.2.mpr hm
  have howner : s.owner m = m := by
    unfold Lists.owner
    rw [hnone]
    rfl
  unfold Lists.credit Lists.unreported
  rw [← Finset.add_sum_erase _ _ hmn, ← Finset.add_sum_erase _ _ hmn,
    if_pos howner, if_pos howner]
  have hrest : ∑ i ∈ (Finset.range s.n).erase m,
        (if s.owner i = m then (s.loop i).credit else 0)
      = ∑ i ∈ (Finset.range s.n).erase m,
        if s.owner i = m then (s.loop i).unreported else 0 := by
    apply Finset.sum_congr rfl
    intro i hi
    obtain ⟨hne, hin⟩ := Finset.mem_erase.mp hi
    by_cases ho : s.owner i = m
    · have hsome : (s.loop i).master ≠ none := by
        intro hc
        unfold Lists.owner at ho
        rw [hc] at ho
        exact hne ho
      rw [if_pos ho, if_pos ho]
      unfold Loop.credit Loop.unreported
      simp [hsome]
    · rw [if_neg ho, if_neg ho]
  have hown : (s.loop m).credit
      = (s.loop m).cntExec + (s.loop m).unreported := by
    unfold Loop.credit Loop.unreported
    simp [hnone]
    omega
  omega

/-- When all the descriptors of a list were executed, its loops hold
nothing. -/
theorem nothing_left (hf : Flow W s) (hb : Books W s) (hi : i < s.n)
    (hall : s.AllExecuted W (s.owner i)) (v : Td) :
    (s.loop i).holds v = 0 ∧ (s.loop i).pending v = 0 := by
  have hexec : v.1 = s.owner i → v.2 ∈ (W.frame v.1).tds →
      0 < s.executed.count v := by
    intro hv htds
    rw [hv] at htds
    have := hall v.2 htds
    rw [← hv] at this
    exact List.count_pos_iff.mpr this
  constructor
  · by_contra hne
    have hpos : 0 < (s.loop i).holds v := Nat.pos_of_ne_zero hne
    have hle : (s.loop i).holds v
        ≤ ∑ j ∈ Finset.range s.n, (s.loop j).holds v :=
      Tally.le_sum hi fun j => (s.loop j).holds v
    have hplaced : 0 < s.placed W v := by
      unfold Lists.placed
      omega
    have hone := hf.count_le v
    have := hexec (hb.own i hi v (by omega)) (hf.mem_tds (by omega))
    omega
  · by_contra hne
    have hpos : 0 < (s.loop i).pending v := Nat.pos_of_ne_zero hne
    have hle : (s.loop i).pending v ≤ s.pending v :=
      Tally.le_sum hi fun j => (s.loop j).pending v
    have hsig := hf.signals v
    have hsent := hf.sent_le v
    obtain ⟨u, hu, hvu⟩ := List.mem_flatMap.mp
      (List.count_pos_iff (a := v) (l := s.executed.flatMap W.acl) |>.mp
        (by omega))
    obtain ⟨id, hid, rfl⟩ := List.mem_map.mp hvu
    have htds := (W.wellFormed u.1).balanced.closed u.2
      (hf.executed_mem_tds hu) id hid
    have hdone := hexec (hb.own i hi _ (by omega)) htds
    -- an executed descriptor has had all its signals
    rcases hf.ready_of_pos (v := (u.1, id)) (by omega) with ⟨-, hinit⟩ | ⟨-, heq⟩
    · have hwait : (W.td (u.1, id)).wc = 0 :=
        (W.wellFormed u.1).pool_wait id (List.mem_reverse.mpr hinit)
      omega
    · omega

/-- How far a loop that holds nothing is from its report. -/
def LoopPc.rank : LoopPc → Nat
  | .start _ | .body _ => 0
  | .addBlocked => 9
  | .suspended => 8
  | .pushactivated _ => 7
  | .loop => 6
  | .popRtl => 5
  | .popRemote => 4
  | .add => 3
  | .test => 2
  | .report => 1
  | .finished => 0

/-- The steps that the loops of a list are from their reports. -/
def Lists.left (s : Lists) (m : Nat) : Nat :=
  ∑ i ∈ Finset.range s.n,
    if s.owner i = m ∧ 0 < (s.loop i).unreported then (s.loop i).pc.rank else 0

theorem left_setLoop (hi : i < s.n) (hm : l.master = (s.loop i).master)
    (m : Nat) :
    (s.setLoop i l).left m
        + (if s.owner i = m ∧ 0 < (s.loop i).unreported then
            (s.loop i).pc.rank else 0)
      = s.left m
        + if s.owner i = m ∧ 0 < l.unreported then l.pc.rank else 0 := by
  have := Tally.sum_update_at hi (fun j (l : Loop) =>
    if l.master.getD j = m ∧ 0 < l.unreported then l.pc.rank else 0) s.loop l
  simp only [hm] at this
  exact this

/-- A loop with executions to report comes closer to it. -/
theorem exists_closer (hf : Flow W s) (hb : Books W s) (hi : i < s.n)
    (hm : s.owner i = m) (hall : s.AllExecuted W m)
    (hun : 0 < (s.loop i).unreported) :
    ∃ s', listStep W (.thread i .no) s = some s' ∧ s'.executed = s.executed
      ∧ s'.left m < s.left m := by
  have hzero := nothing_left hf hb hi (hm ▸ hall)
  have hadded := hb.added i hi
  obtain ⟨l, hl⟩ : ∃ l, s.loop i = l := ⟨_, rfl⟩
  have hmove : ∀ l' : Loop, l'.master = l.master → l'.pc.rank < l.pc.rank →
      (s.setLoop i l').executed = s.executed
        ∧ (s.setLoop i l').left m < s.left m := by
    intro l' hm' hrank
    refine ⟨rfl, ?_⟩
    have hsum := left_setLoop hi (l := l') (hm'.trans (by rw [hl])) m
    rw [hl] at hsum hun
    rw [if_pos ⟨hm, hun⟩] at hsum
    split at hsum <;> omega
  unfold listStep loopStep
  simp only
  rw [if_pos hi]
  rw [hl] at hzero hadded hun
  rw [hl]
  obtain ⟨mas, proc, rtl, cntExec, cnt, pc⟩ := l
  have hrtl : rtl = [] := by
    rw [List.eq_nil_iff_forall_not_mem]
    intro v hv
    have hcount := List.count_pos_iff.mpr hv
    have hz : rtl.count v + _ = 0 := (hzero v).1
    omega
  cases pc with
  | start td =>
    have hz : rtl.count td + (if td = td then 1 else 0) = 0 := (hzero td).1
    rw [if_pos rfl] at hz
    omega
  | body td =>
    have hz : rtl.count td + (if td = td then 1 else 0) = 0 := (hzero td).1
    rw [if_pos rfl] at hz
    omega
  | loop =>
    simp only
    rw [if_pos hrtl]
    exact ⟨_, rfl, hmove _ rfl (by unfold LoopPc.rank; simp)⟩
  | pushactivated rest =>
    cases rest with
    | nil => exact ⟨_, rfl, hmove _ rfl (by unfold LoopPc.rank; simp)⟩
    | cons v rest =>
      have hz : (v :: rest).count v = 0 := (hzero v).2
      rw [List.count_cons_self] at hz
      omega
  | popRtl => exact ⟨_, rfl, hmove _ rfl (by unfold LoopPc.rank; simp)⟩
  | popRemote => exact ⟨_, rfl, hmove _ rfl (by unfold LoopPc.rank; simp)⟩
  | add => exact ⟨_, rfl, hmove _ rfl (by unfold LoopPc.rank; simp)⟩
  | addBlocked => exact ⟨_, rfl, hmove _ rfl (by unfold LoopPc.rank; simp)⟩
  | test =>
    have hcnt : cnt = 0 := hadded
    have hmas : mas ≠ none := by
      intro heq
      subst heq
      have hun : 0 < cnt + 0 := hun
      omega
    refine ⟨_, rfl, hmove _ rfl ?_⟩
    simp only
    rw [if_neg hmas]
    unfold LoopPc.rank
    simp
  | suspended =>
    have hcnt : cnt = 0 := hadded
    have hmas : mas ≠ none := by
      intro heq
      subst heq
      have hun : 0 < cnt + 0 := hun
      omega
    simp only
    rw [if_neg fun hc => hmas hc.1]
    exact ⟨_, rfl, hmove _ rfl (by unfold LoopPc.rank; simp)⟩
  | report =>
    obtain ⟨-, hlt, -⟩ := hf.shape.2 i hi
    obtain ⟨-, hmas⟩ := hadded
    rw [hm] at hlt
    have hmn : m < s.n := hlt.trans_le hf.shape.1
    have hmnone := (hf.shape.2 m hmn).2.2.mpr hlt
    have hne : i ≠ m := by
      intro heq
      rw [← heq, hl] at hmnone
      exact hmas hmnone
    refine ⟨_, rfl, rfl, ?_⟩
    rw [hm]
    let lm : Loop := { s.loop m with
      cntExec := (s.loop m).cntExec + cntExec }
    have hlm : lm.unreported = (s.loop m).unreported := by
      unfold Loop.unreported
      simp only [lm, hmnone]
      simp
    have hsame : (s.setLoop m lm).loop i = s.loop i := Lists.setLoop_ne s hne lm
    have h₁ := left_setLoop hmn (l := lm) rfl m
    have h₂ := left_setLoop (s := s.setLoop m lm) (i := i) hi
      (l := ⟨mas, proc, rtl, cntExec, cnt, .finished⟩) (by rw [hsame, hl]) m
    rw [hlm] at h₁
    have h₁ : (s.setLoop m lm).left m = s.left m := Nat.add_right_cancel h₁
    rw [hsame, hl, Lists.owner_setLoop (l := lm) rfl,
      if_pos ⟨hm, hun⟩, h₁] at h₂
    have hr : LoopPc.report.rank = 1 := rfl
    have hr' : LoopPc.finished.rank = 0 := rfl
    simp only [hr, hr', ite_self] at h₂
    show ((s.setLoop m lm).setLoop i
      ⟨mas, proc, rtl, cntExec, cnt, .finished⟩).left m < s.left m
    omega
  | finished =>
    have hcnt : cnt = 0 := hadded
    have hun : 0 < cnt + if mas = none ∨ LoopPc.finished = .finished then 0
      else cntExec := hun
    rw [if_pos (.inr rfl)] at hun
    omega

theorem executedOf_length_le (h : Flow W s) (m : Nat) :
    (s.executedOf m).length ≤ W.total m := by
  rw [W.total_eq]
  refine ((h.executedOf_nodup m).subperm fun id hid => ?_).length_le
  exact h.executed_mem_tds (Flow.mem_executedOf.mp hid)

theorem allExecuted_iff (h : Flow W s) (m : Nat) :
    s.AllExecuted W m ↔ (s.executedOf m).length = W.total m := by
  have hsub : ∀ id ∈ s.executedOf m, id ∈ (W.frame m).tds := fun id hid =>
    h.executed_mem_tds (Flow.mem_executedOf.mp hid)
  have hnodup := (W.wellFormed m).balanced.nodup
  rw [W.total_eq]
  constructor
  · intro hall
    refine le_antisymm ((h.executedOf_nodup m).subperm hsub).length_le ?_
    exact (List.Nodup.subperm hnodup fun id hid =>
      Flow.mem_executedOf.mpr (hall id hid)).length_le
  · intro heq id hid
    have hperm := ((h.executedOf_nodup m).subperm hsub).perm_of_length_le heq.ge
    exact Flow.mem_executedOf.mp (hperm.mem_iff.mpr hid)

theorem exists_ends (hf : Flow W s) (hb : Books W s) (hm : m < W.nmaster)
    (hall : s.AllExecuted W m) :
    ∃ s', StepMachine.Reachable (listStep W) s s' ∧ s'.executed = s.executed
      ∧ (s'.loop m).cntExec = W.total m := by
  -- by induction on the steps that its loops are from their reports
  induction hn : s.left m using Nat.strong_induction_on generalizing s with
  | _ n ih =>
    by_cases hzero : s.unreported m = 0
    · refine ⟨s, StepMachine.Reachable.refl s, rfl, ?_⟩
      have h₁ := credit_eq hf.shape hm
      have h₂ := hb.credit m
      rw [(allExecuted_iff hf m).mp hall] at h₂
      omega
    · obtain ⟨i, hi, hne⟩ := Finset.exists_ne_zero_of_sum_ne_zero hzero
      have hi := Finset.mem_range.mp hi
      have ho : s.owner i = m := by
        by_contra ho
        exact hne (if_neg ho)
      rw [if_pos ho] at hne
      obtain ⟨s₁, hstep, hexec, hlt⟩ :=
        exists_closer hf hb hi ho hall (Nat.pos_of_ne_zero hne)
      obtain ⟨hf₁, hb₁⟩ := listStep_inv (a := .thread i .no) hf hb
        True.intro hstep
      have hall₁ : s₁.AllExecuted W m := by
        intro id hid
        rw [hexec]
        exact hall id hid
      obtain ⟨s', hr, hexec', hc⟩ := ih _ (hn ▸ hlt) hf₁ hb₁ hall₁ rfl
      exact ⟨s', ((StepMachine.Reachable.refl s).tail hstep).trans hr,
        hexec'.trans hexec, hc⟩

theorem Books.accounted (hb : Books W s) (hf : Flow W s) : Accounted W s := by
  have hcount : ∀ m < W.nmaster,
      (s.loop m).cntExec + s.unreported m = (s.executedOf m).length := by
    intro m hm
    rw [← credit_eq hf.shape hm]
    exact hb.credit m
  exact
    { once := hf.executed_nodup
      own := fun v hv => hf.executed_mem_tds hv
      count := hcount
      complete := fun m hm => by
        have h₁ := hcount m hm
        have h₂ := executedOf_length_le hf m
        rw [allExecuted_iff hf m]
        omega
      finished := fun m hm hpc => by
        have hmn := hm.trans_le hf.shape.1
        have h₁ := hcount m hm
        have h₂ := executedOf_length_le hf m
        have h₃ := hb.complete m hmn ((hf.shape.2 m hmn).2.2.mpr hm) hpc
        rw [allExecuted_iff hf m]
        omega
      ends := fun m hm hall => exists_ends hf hb hm hall }

/-- In every run in which no loop pops a descriptor of another list from
the ready lists of its processor, each master list counts its own
descriptors. -/
theorem tasklist_accounted (W : Frames) {acts : List ListAct}
    (hrun : StepMachine.run (ownStep W) acts W.initial = some s) :
    Accounted W s := by
  have hinv : Flow W s ∧ Books W s := by
    refine StepMachine.run_preserves (P := fun s => Flow W s ∧ Books W s)
      (fun {a s s'} h hstep => ?_) ⟨flow_initial W, books_initial W⟩ hrun
    unfold ownStep at hstep
    split at hstep
    next hown => exact listStep_inv h.1 h.2 hown hstep
    · cases hstep
  exact hinv.2.accounted hinv.1

/-- Two master lists of one task each, the task of the second one bound to
`site`; the processor `m` executes the list `m`. -/
def twoLists (site : Option (Fin 2)) : Frames where
  nproc := 2
  nmaster := 2
  frame _ := (computereadylist [some [⟨modeW, 0⟩]]).getD frameTasklistInit
  proc m := m % 2
  site td := if td = (1, .task 0) then site.map Fin.val else none
  built _ := ⟨[some [⟨modeW, 0⟩]], rfl⟩
  proc_lt m := Nat.mod_lt m Nat.two_pos
  site_lt td p h := by
    split at h
    · obtain ⟨k, -, rfl⟩ := Option.map_eq_some_iff.mp h
      exact k.isLt
    · cases h

/-- The task of the second list is bound to the processor that executes
the list. -/
theorem tasklist_accounted_twoLists :
    ∃ acts s, StepMachine.run (ownStep (twoLists (some 1))) acts
        (twoLists (some 1)).initial = some s
      ∧ s.executed = [(1, .init 0), (1, .task 0)]
      ∧ Accounted (twoLists (some 1)) s := by
  let acts : List ListAct := [.thread 1 (.pop (1, .init 0)), .thread 1 .no,
    .thread 1 .no, .thread 1 .no, .thread 1 (.pop (1, .task 0)), .thread 1 .no]
  have heval : (StepMachine.run (ownStep (twoLists (some 1))) acts
      (twoLists (some 1)).initial).map (·.executed)
        = some [(1, .init 0), (1, .task 0)] := by decide +kernel
  obtain ⟨s, hrun, hexec⟩ := Option.map_eq_some_iff.mp heval
  exact ⟨acts, s, hrun, hexec, tasklist_accounted _ hrun⟩

/-- The task of the second list is bound to the processor of the first
one, whose loop executes it and counts it for the first list: all the
descriptors were executed and reported, the counts are 3 and 1 out of 2
and 2, and both lists wait for ever. -/
theorem tasklist_miscounted :
    ∃ acts s, StepMachine.run (listStep (twoLists (some 0))) acts
        (twoLists (some 0)).initial = some s
      ∧ (s.loop 0).cntExec = 3 ∧ (s.loop 1).cntExec = 1
      ∧ (s.loop 0).pc = .suspended ∧ (s.loop 1).pc = .suspended
      ∧ (twoLists (some 0)).total 0 = 2 ∧ (twoLists (some 0)).total 1 = 2
      ∧ ¬ Accounted (twoLists (some 0)) s := by
  let acts : List ListAct := [.thread 1 (.pop (1, .init 0)), .thread 1 .no,
    .thread 1 .no, .thread 1 .no, .thread 1 .no, .thread 1 .no, .thread 1 .no,
    .thread 1 .no, .thread 1 .no,
    .thread 0 (.pop (0, .init 0)), .thread 0 .no, .thread 0 .no, .thread 0 .no,
    .thread 0 (.pop (0, .task 0)), .thread 0 .no, .thread 0 .no, .thread 0 .no,
    .thread 0 .no, .thread 0 (.pop (1, .task 0)), .thread 0 .no, .thread 0 .no,
    .thread 0 .no, .thread 0 .no, .thread 0 .no, .thread 0 .no, .thread 0 .no]
  have heval : (StepMachine.run (listStep (twoLists (some 0))) acts
      (twoLists (some 0)).initial).map
        (fun s => (s.loop 0, s.loop 1, s.executed.length, s.executedOf 0))
        = some (⟨none, 0, [], 3, 0, .suspended⟩, ⟨none, 1, [], 1, 0, .suspended⟩,
          4, [.init 0, .task 0]) := by decide +kernel
  obtain ⟨s, hrun, hs⟩ := Option.map_eq_some_iff.mp heval
  obtain ⟨h₀, h₁, -, hexec⟩ := by simpa only [Prod.mk.injEq] using hs
  refine ⟨acts, s, hrun, by rw [h₀], by rw [h₁], by rw [h₀], by rw [h₁],
    rfl, rfl, fun hacc => ?_⟩
  have hcount := hacc.count 0 Nat.two_pos
  rw [hexec, h₀] at hcount
  have hcount : 3 + s.unreported 0 = 2 := hcount
  omega

end XKaapi.TaskList
