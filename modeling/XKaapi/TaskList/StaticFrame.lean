/-
What a statically scheduled task leaves behind.

# The condition

`Meets` is what the nest below a task has to be like: every statically
scheduled task pushes a task, every other one pushes none, and every
pushed task has a format, a parameter that is not by value, and code for
each of its accesses (`Schedulable`), is left to the processor of the
thread (`PushedTask.runsOn`), and has a body with handles. `Fits` adds
that there are frames enough, two for each level of the nest, and that the
processor has no descriptor of another list to execute.

# The argument

`Ran` is what can be said of any body that returns, whatever the nest: the
frames below it are as they were, and what it runs and what it returns
say whether the nest meets the condition. `taskBody_ran` is the induction,
on fuel, and `taskBody_returns`, on the nest, shows that a body returns.
-/
import XKaapi.TaskList.Static
import Mathlib.Data.List.Induction

namespace XKaapi.TaskList.Static

open Dfg StepMachine
open Function (update update_of_ne update_self)
open Task.Execframe (maxReccall)

-- ======== condition

/-- The names of a task and of all that is pushed below it. -/
def names : Spawn → List Nat := RoseTree.fold fun v ds => v.id :: ds.flatten

/-- The names of all that is pushed below a task. -/
def pushed (t : Spawn) : List Nat := t.kids.flatMap names

/-- The analysis of a frame takes the task, and its descriptor waits for a
signal. -/
def Schedulable (params : Task) : Prop :=
  ∃ ps, params = some ps ∧ (∃ p ∈ ps, p.m ≠ modeV)
    ∧ ∀ p ∈ ps, p.m ≠ modeV → accessHasCode p = true

/-- Processor `kid` pops the task of a descriptor and has a body to call. -/
structure Runnable (kid : Nat) (v : PushedTask) : Prop where
  params : Schedulable v.params
  takes : v.runsOn kid = true
  body : v.entrypointWh = true

/-- A pushed task, told whether it pushes none. -/
def Nested (kid : Nat) (v : PushedTask) (leaf : Bool) : Prop :=
  v.isStatic = !leaf ∧ Runnable kid v

/-- The nest below a task. -/
def Meets (kid : Nat) (t : Spawn) : Prop :=
  t.val.isStatic = !t.kids.isEmpty
    ∧ ∀ k ∈ t.kids, RoseTree.All (Nested kid) k

/-- The nest below a task that runs in the `n`-th frame. -/
def Fits (proc : Proc) (n : Nat) (t : Spawn) : Prop :=
  Meets proc.kid t
    ∧ (t.kids = [] ∨ n + 2 * t.depth < maxReccall ∧ proc.rtl = [])

variable {t : Spawn}

/-- Nested static tasks, level by level. -/
theorem all_nested {kid : Nat} :
    RoseTree.All (Nested kid) t ↔ Runnable kid t.val ∧ Meets kid t := by
  cases t with
  | node v ks =>
    rw [RoseTree.all_node]
    constructor
    · intro ⟨⟨hstatic, hrun⟩, hkids⟩
      exact ⟨hrun, hstatic, hkids⟩
    · intro ⟨hrun, hstatic, hkids⟩
      exact ⟨⟨hstatic, hrun⟩, hkids⟩

theorem depth_of_leaf (hkids : t.kids = []) : t.depth = 0 := by
  cases t with
  | node v ks =>
    have hnil : ks = [] := hkids
    rw [hnil]
    rfl

/-- The condition, one level down: the task of a descriptor runs two frames
above. -/
theorem fits_iff {proc : Proc} {n : Nat} (hkids : t.kids ≠ []) :
    Fits proc n t ↔ t.val.isStatic = true ∧ proc.rtl = []
      ∧ ∀ k ∈ t.kids, Runnable proc.kid k.val ∧ n + 2 < maxReccall
        ∧ Fits proc (n + 2) k := by
  have hstatic : t.val.isStatic = (!t.kids.isEmpty) ↔ t.val.isStatic = true := by
    rw [List.isEmpty_eq_false_iff.mpr hkids]
    rfl
  constructor
  · rintro ⟨⟨hs, hall⟩, hnil | ⟨hroom, hrtl⟩⟩
    · exact absurd hnil hkids
    refine ⟨hstatic.mp hs, hrtl, fun k hk => ?_⟩
    have hdepth := RoseTree.depth_lt hk
    obtain ⟨hrun, hmeets⟩ := all_nested.mp (hall k hk)
    exact ⟨hrun, by omega, hmeets, .inr ⟨by omega, hrtl⟩⟩
  · rintro ⟨hs, hrtl, hall⟩
    refine ⟨⟨hstatic.mpr hs, fun k hk => ?_⟩, .inr ⟨?_, hrtl⟩⟩
    · exact all_nested.mpr ⟨(hall k hk).1, (hall k hk).2.2.1⟩
    · obtain ⟨k, hk, hdepth⟩ := RoseTree.exists_depth hkids
      obtain ⟨-, hroom, -, hleaf | ⟨hdeep, -⟩⟩ := hall k hk
      · rw [hdepth, depth_of_leaf hleaf]
        exact hroom
      · rw [hdepth]
        omega

theorem names_eq (t : Spawn) : names t = t.val.id :: pushed t := by
  cases t with
  | node v ks =>
    rw [names, RoseTree.fold_node, ← List.flatMap_def]
    rfl

/-- The names below the task of a descriptor, in a frame of tasks. -/
def namesOf (ts : List Spawn) : TdId → List Nat
  | .init _ => []
  | .task k => (ts[k]?).elim [] names

/-- What is said of the tasks of a frame, said of that of a descriptor. -/
def MeetsAt (M : Spawn → Prop) (ts : List Spawn) (id : TdId) : Prop :=
  ∀ k t, id = .task k → ts[k]? = some t → M t

-- ======== what a body does

/-- The frames under the `n`-th and the task lists there are. -/
structure Below (n : Nat) (th th' : Thread) : Prop where
  frames : ∀ i < n, th'.stackframe i = th.stackframe i
  lists : ∀ a < th.brk, th'.lists a = th.lists a
  brk : th.brk ≤ th'.brk

theorem Below.refl (n : Nat) (th : Thread) : Below n th th :=
  ⟨fun _ _ => rfl, fun _ _ => rfl, Nat.le_refl _⟩

/-- What a body that returns has done: it has run the tasks `log`, of the
`ns` it should, and `rs` is what static tasks have found and left. -/
structure Ran (ns : List Nat) (meets : Prop) (th th' : Thread)
    (log : List Nat) (rs : List (Snapshot × Snapshot)) : Prop where
  below : Below th.sfp th th'
  sp_le : (th'.stackframe th.sfp).sp ≤ th'.frame.sp
  executed : th'.executed = th.executed ++ log
  returns : th'.returns = th.returns ++ rs
  length_le : log.length ≤ ns.length
  of_full : log.length = ns.length → (∀ r ∈ rs, r.1 = r.2) → meets
  of_meets : meets →
    log.Perm ns ∧ (∀ r ∈ rs, r.1 = r.2) ∧ th'.snapshot = th.snapshot

/-- What turns of the loop that have popped `ids` from the list at `a`
have done. -/
structure Turns (M : Spawn → Prop) (ts : List Spawn) (a : Nat)
    (ids : List TdId) (th th' : Thread) (log : List Nat)
    (rs : List (Snapshot × Snapshot)) : Prop where
  sfp : th'.sfp = th.sfp
  frames : ∀ i ≤ th.sfp, th'.stackframe i = th.stackframe i
  lists : ∀ b < th.brk, b ≠ a → th'.lists b = th.lists b
  brk : th.brk ≤ th'.brk
  executed : th'.executed = th.executed ++ log
  returns : th'.returns = th.returns ++ rs
  length_le : log.length ≤ (ids.flatMap (namesOf ts)).length
  of_full : log.length = (ids.flatMap (namesOf ts)).length →
    (∀ r ∈ rs, r.1 = r.2) → ∀ id ∈ ids, MeetsAt M ts id
  of_meets : (∀ id ∈ ids, MeetsAt M ts id) →
    log.Perm (ids.flatMap (namesOf ts)) ∧ (∀ r ∈ rs, r.1 = r.2)
      ∧ th'.unstealable = th.unstealable

section Turns

variable {M : Spawn → Prop} {ts : List Spawn} {a : Nat} {th th₁ th₂ : Thread}

theorem Turns.refl (M : Spawn → Prop) (ts : List Spawn) (a : Nat) (th : Thread) :
    Turns M ts a [] th th [] [] where
  sfp := rfl
  frames _ _ := rfl
  lists _ _ _ := rfl
  brk := Nat.le_refl _
  executed := (List.append_nil _).symm
  returns := (List.append_nil _).symm
  length_le := Nat.le_refl _
  of_full _ _ _ hid := nomatch hid
  of_meets _ := ⟨List.Perm.nil, nofun, rfl⟩

/-- Turns compose. -/
theorem Turns.trans {ids ids' : List TdId} {log log' : List Nat}
    {rs rs' : List (Snapshot × Snapshot)} (h : Turns M ts a ids th th₁ log rs)
    (h' : Turns M ts a ids' th₁ th₂ log' rs') :
    Turns M ts a (ids ++ ids') th th₂ (log ++ log') (rs ++ rs') := by
  have hlen := h.length_le
  have hlen' := h'.length_le
  refine ⟨h'.sfp.trans h.sfp, fun i hi => ?_, fun b hb hne => ?_,
    h.brk.trans h'.brk, ?_, ?_, ?_, fun hfull hrs id hid => ?_, fun hm => ?_⟩
  · exact (h'.frames i (h.sfp ▸ hi)).trans (h.frames i hi)
  · exact (h'.lists b (hb.trans_le h.brk) hne).trans (h.lists b hb hne)
  · rw [h'.executed, h.executed, List.append_assoc]
  · rw [h'.returns, h.returns, List.append_assoc]
  · rw [List.flatMap_append, List.length_append, List.length_append]
    exact Nat.add_le_add hlen hlen'
  · rw [List.flatMap_append, List.length_append, List.length_append] at hfull
    rcases List.mem_append.mp hid with hid | hid
    · exact h.of_full (by omega)
        (fun r hr => hrs r (List.mem_append_left _ hr)) id hid
    · exact h'.of_full (by omega)
        (fun r hr => hrs r (List.mem_append_right _ hr)) id hid
  · obtain ⟨hp, hr, hu⟩ := h.of_meets fun id hid =>
      hm id (List.mem_append_left _ hid)
    obtain ⟨hp', hr', hu'⟩ := h'.of_meets fun id hid =>
      hm id (List.mem_append_right _ hid)
    refine ⟨?_, fun r hmem => ?_, hu'.trans hu⟩
    · rw [List.flatMap_append]
      exact hp.append hp'
    · exact (List.mem_append.mp hmem).elim (hr r) (hr' r)

end Turns

-- ======== turns of the loop

section Loop

variable {M : Nat → Spawn → Prop} {proc : Proc} {choose : Thread → Nat}
  {stackExecframe : Thread → Option (Thread × Answer)}
  {body : Spawn → Thread → Option Thread} {th : Thread} {id : TdId} {a fuel : Nat}

/-- What is asked of the bodies of the tasks, `M n t` of a task that runs in
the `n`-th frame. -/
def Bodies (M : Nat → Spawn → Prop) (body : Spawn → Thread → Option Thread) :
    Prop :=
  ∀ t th th', body t th = some th' →
    ∃ log rs, Ran (pushed t) (M th.sfp t) th th' log rs

/-- What the pop of a descriptor and the call of its body say of it, in the
`n`-th frame. -/
structure Called (proc : Proc) (n : Nat) (ts : List Spawn) (id : TdId) :
    Prop where
  takes : proc.takes ts id = true
  room : n + 1 < maxReccall
  body : MeetsAt (fun t => t.val.entrypointWh = true) ts id

/-- A body runs what its task pushed. -/
theorem runBody_ran (hbody : Bodies M body) {ts : List Spawn} {th' : Thread}
    (h : runBody body ts id th = some th') :
    MeetsAt (fun t => t.val.entrypointWh = true) ts id
      ∧ ∃ log rs, Ran (namesOf ts id) (MeetsAt (M th.sfp) ts id) th th' log
        rs := by
  cases id with
  | init b =>
    cases h
    exact ⟨(fun k t hk => nomatch hk), [], [], Below.refl _ _, Int.le_refl _,
      (List.append_nil _).symm, (List.append_nil _).symm, Nat.le_refl _,
      (fun _ _ k t hk => nomatch hk),
      fun _ => ⟨List.Perm.nil, nofun, rfl⟩⟩
  | task k =>
    simp only [runBody] at h
    split at h
    · cases h
    · next t ht =>
        split at h
        case isFalse => cases h
        case isTrue hwh =>
        have hat : ∀ {P : Spawn → Prop}, MeetsAt P ts (.task k) ↔ P t := by
          intro P
          constructor
          · exact fun hm => hm k t rfl ht
          · rintro hm j u hj hu
            cases hj
            rw [ht] at hu
            injection hu with hu
            exact hu ▸ hm
        obtain ⟨log, rs, hran⟩ := hbody _ _ _ h
        have hns : namesOf ts (.task k) = t.val.id :: pushed t := by
          rw [namesOf, ht, ← names_eq]
          rfl
        refine ⟨hat.mpr hwh, t.val.id :: log, rs, ⟨hran.below.frames, hran.below.lists,
          hran.below.brk⟩, hran.sp_le, ?_, hran.returns, ?_,
          fun hfull hrs => ?_, fun hm => ?_⟩
        · rw [hran.executed]
          exact List.append_assoc _ _ _
        · rw [hns]
          exact Nat.succ_le_succ hran.length_le
        · rw [hns] at hfull
          exact hat.mpr (hran.of_full (Nat.succ.inj hfull) hrs)
        · obtain ⟨hp, hr, hsnap⟩ := hran.of_meets (hat.mp hm)
          rw [hns]
          exact ⟨hp.cons _, hr, hsnap⟩

/-- A body never has a frame above its own with fewer free slots, so the
loop does not see the tasks it has pushed. -/
theorem runTd_eq (hbody : Bodies M body) (id : TdId) (th : Thread) :
    runTd stackExecframe body id th
      = if th.sfp + 1 < maxReccall then
          (runBody body th.frame.tasks id
            { th.setFrame (th.sfp + 1) th.frame with sfp := th.sfp + 1 }).map
          fun th₁ => ({ th₁ with sfp := th.sfp }, .done)
        else none := by
  unfold runTd
  by_cases hroom : th.sfp + 1 < maxReccall
  case neg => simp only [if_neg hroom]
  simp only [if_pos hroom]
  cases hrun : runBody body th.frame.tasks id
      { th.setFrame (th.sfp + 1) th.frame with sfp := th.sfp + 1 } with
  | none => simp
  | some th₁ =>
    obtain ⟨-, log, rs, hran⟩ := runBody_ran hbody hrun
    have hsp : ¬ (th₁.stackframe (th.sfp + 1)).sp
        > (th₁.stackframe th₁.sfp).sp := Int.not_lt.mpr hran.sp_le
    simp only [Option.bind_some, if_neg hsp, Option.map_some,
      Nat.add_sub_cancel]

/-- One turn of the loop of a list. -/
theorem turn_spec (hbody : Bodies M body) {r : Thread × Answer} (ha : a < th.brk)
    (h : turn stackExecframe body a id th = some r) :
    r.2 = .done ∧ execTd id (th.lists a) = some (r.1.lists a)
      ∧ th.sfp + 1 < maxReccall
      ∧ MeetsAt (fun t => t.val.entrypointWh = true) th.frame.tasks id
      ∧ ∃ log rs, Turns (M (th.sfp + 1)) th.frame.tasks a [id] th r.1 log
        rs := by
  unfold turn at h
  split at h
  · next hid =>
      simp only [Option.bind_eq_some_iff] at h
      obtain ⟨r₁, h₁, h₂⟩ := h
      rw [runTd_eq hbody] at h₁
      split at h₁
      case isFalse => cases h₁
      case isTrue hroom =>
      obtain ⟨th₁, hrun, rfl⟩ := Option.map_eq_some_iff.mp h₁
      obtain ⟨tl, htl, rfl⟩ := Option.map_eq_some_iff.mp h₂
      obtain ⟨hwh, log, rs, hran⟩ := runBody_ran hbody hrun
      have hlist : th₁.lists a = (th.lists a).popTd id := by
        rw [hran.below.lists a ha]
        exact update_self ..
      refine ⟨rfl, ?_, hroom, hwh, log, rs, rfl, fun i hi => ?_,
        fun b hb hne => ?_, hran.below.brk, hran.executed, hran.returns, ?_,
        fun hfull hrs j hj => ?_, fun hm => ?_⟩
      · rw [execTd_eq, if_pos hid, ← hlist, htl]
        show some tl = some (update th₁.lists a tl a)
        rw [update_self]
      · have hlt : i < th.sfp + 1 := Nat.lt_succ_of_le hi
        show th₁.stackframe i = th.stackframe i
        exact (hran.below.frames i hlt).trans
          (update_of_ne (Nat.ne_of_lt hlt) ..)
      · have hsame := hran.below.lists b hb
        show update th₁.lists a tl b = th.lists b
        rw [update_of_ne hne, hsame]
        exact update_of_ne hne ..
      · rw [List.flatMap_singleton]
        exact hran.length_le
      · rw [List.flatMap_singleton] at hfull
        rw [List.mem_singleton] at hj
        exact hj ▸ hran.of_full hfull hrs
      · obtain ⟨hp, hr, hsnap⟩ :=
          hran.of_meets (hm id List.mem_cons_self)
        rw [List.flatMap_singleton]
        exact ⟨hp, hr, congrArg Snapshot.unstealable hsnap⟩
  · cases h

/-- The pop finds nothing when no descriptor is for the processor. -/
theorem readylistPop_eq_none {rtl : List TdId}
    (h : readylistPop proc choose th rtl = none) :
    rtl.filter (proc.takes th.frame.tasks) = [] := by
  rw [readylistPop, List.getElem?_eq_none_iff] at h
  by_contra hne
  have hpos := List.length_pos_of_ne_nil hne
  exact absurd (Nat.mod_lt (choose th) hpos) (Nat.not_lt.mpr h)

/-- What it finds is in the list, and is for the processor. -/
theorem mem_of_readylistPop {rtl : List TdId}
    (h : readylistPop proc choose th rtl = some id) :
    id ∈ rtl ∧ proc.takes th.frame.tasks id = true :=
  List.mem_filter.mp (List.mem_of_getElem? h)

/-- The loop runs the tasks of the list. -/
theorem execframeTasklist_spec (hbody : Bodies M body) {r : Thread × Answer}
    (ha : a < th.brk)
    (h : execframeTasklist proc choose stackExecframe body a fuel th = some r) :
    proc.rtl = [] ∧ ∃ ids log rs,
      run execTd ids (th.lists a) = some (r.1.lists a)
      ∧ (r.1.lists a).rtl.filter (proc.takes th.frame.tasks) = []
      ∧ (r.2 = .done ↔ (r.1.lists a).cntExec = (r.1.lists a).totalTasks)
      ∧ (∀ id ∈ ids, Called proc th.sfp th.frame.tasks id)
      ∧ Turns (M (th.sfp + 1)) th.frame.tasks a ids th r.1 log rs := by
  induction fuel generalizing th with
  | zero => cases h
  | succ fuel ih =>
    unfold execframeTasklist at h
    split at h
    · next hpop =>
        split at h
        · cases h
        · next hrtl =>
            refine ⟨not_not.mp hrtl, [], [], [], ?_⟩
            split at h
            · next hcnt =>
                cases h
                exact ⟨rfl, readylistPop_eq_none hpop, by simp [hcnt],
                  nofun, Turns.refl ..⟩
            · next hcnt =>
                cases h
                exact ⟨rfl, readylistPop_eq_none hpop, by simp [hcnt],
                  nofun, Turns.refl ..⟩
    · next id hpop =>
        obtain ⟨r₁, h₁, h₂⟩ := Option.bind_eq_some_iff.mp h
        obtain ⟨hdone, hexec, hroom, hwh, log, rs, hturn⟩ :=
          turn_spec hbody ha h₁
        simp only [hdone] at h₂
        obtain ⟨hrtl, ids, log', rs', hrun, hempty, hcnt, hcalled, hturns⟩ :=
          ih (ha.trans_le hturn.brk) h₂
        have hframe : r₁.1.frame = th.frame := by
          rw [Thread.frame, hturn.sfp]
          exact hturn.frames _ (Nat.le_refl _)
        rw [hframe] at hempty hcalled hturns
        rw [hturn.sfp] at hcalled hturns
        refine ⟨hrtl, id :: ids, log ++ log', rs ++ rs',
          (run_cons_eq_some).mpr ⟨_, hexec, hrun⟩, hempty, hcnt, ?_,
          hturn.trans hturns⟩
        exact List.forall_mem_cons.mpr
          ⟨⟨(mem_of_readylistPop hpop).2, hroom, hwh⟩, hcalled⟩

/-- An execution that would block is never resumed otherwise than blocked,
since nobody but the thread executes the list. -/
theorem schedSyncRedo_eq_none {redo : Nat} (hframe : th.frame.tasklist = some a)
    (hempty : (th.lists a).rtl.filter (proc.takes th.frame.tasks) = [])
    (hcnt : (th.lists a).cntExec ≠ (th.lists a).totalTasks) :
    schedSyncRedo proc choose stackExecframe body fuel redo th = none := by
  induction redo with
  | zero => rfl
  | succ redo ih =>
    unfold schedSyncRedo
    simp only [hframe]
    cases fuel with
    | zero => rfl
    | succ fuel =>
      have hpop : readylistPop proc choose th (th.lists a).rtl = none := by
        rw [readylistPop, hempty]
        rfl
      unfold execframeTasklist
      simp only [hpop, if_neg hcnt]
      split
      · rfl
      · exact ih

/-- kaapi_sched_sync_ returns only once the loop is done with the list. -/
theorem schedSyncRedo_spec (hbody : Bodies M body) {redo : Nat} {th' : Thread}
    (ha : a < th.brk) (hframe : th.frame.tasklist = some a)
    (h : schedSyncRedo proc choose stackExecframe body fuel redo th = some th') :
    execframeTasklist proc choose stackExecframe body a fuel th
      = some (th', .done) := by
  cases redo with
  | zero => cases h
  | succ redo =>
    unfold schedSyncRedo at h
    simp only [hframe] at h
    obtain ⟨r, h₁, h₂⟩ := Option.bind_eq_some_iff.mp h
    obtain ⟨th₁, ans⟩ := r
    cases ans with
    | done =>
      cases h₂
      exact h₁
    | ewouldblock =>
      obtain ⟨-, ids, log, rs, -, hempty, hcnt, -, hturns⟩ :=
        execframeTasklist_spec hbody ha h₁
      have hsame : th₁.frame = th.frame := by
        rw [Thread.frame, hturns.sfp, hturns.frames _ (Nat.le_refl _)]
        rfl
      have hne := mt hcnt.mpr (show ¬ Answer.ewouldblock = .done by decide)
      rw [schedSyncRedo_eq_none (hsame ▸ hframe) (hsame ▸ hempty) hne] at h₂
      cases h₂

end Loop

-- ======== all tasks of the frame

section Cover

/-- The task of a descriptor. -/
def taskIdx : TdId → Option Nat
  | .init _ => none
  | .task k => some k

variable {ids : List TdId}

theorem mem_filterMap_taskIdx {k : Nat} : k ∈ ids.filterMap taskIdx ↔ .task k ∈ ids := by
  rw [List.mem_filterMap]
  constructor
  · intro ⟨id, hid, hk⟩
    cases id with
    | init a => cases hk
    | task j =>
      cases hk
      exact hid
  · exact fun hk => ⟨_, hk, rfl⟩

theorem nodup_filterMap_taskIdx (h : ids.Nodup) : (ids.filterMap taskIdx).Nodup := by
  refine h.filterMap ?_
  intro id id' k hk hk'
  cases id with
  | init a => cases hk
  | task j =>
    cases id' with
    | init a => cases hk'
    | task j' =>
      cases hk
      cases hk'
      rfl

theorem flatMap_namesOf (ts : List Spawn) (ids : List TdId) :
    ids.flatMap (namesOf ts)
      = (ids.filterMap taskIdx).flatMap fun k => namesOf ts (.task k) := by
  induction ids with
  | nil => rfl
  | cons id ids ih =>
    rw [List.flatMap_cons, ih]
    cases id with
    | init a => rfl
    | task k => rfl

theorem flatMap_names (ts : List Spawn) :
    ts.flatMap names
      = (List.range ts.length).flatMap fun k => namesOf ts (.task k) := by
  induction ts using List.reverseRecOn with
  | nil => rfl
  | append_singleton ts t ih =>
    have hsame : ∀ k ∈ List.range ts.length,
        namesOf (ts ++ [t]) (.task k) = namesOf ts (.task k) := by
      intro k hk
      rw [namesOf, namesOf, List.getElem?_append_left (List.mem_range.mp hk)]
    have hlast : namesOf (ts ++ [t]) (.task ts.length) = names t := by
      rw [namesOf, List.getElem?_concat_length]
      rfl
    rw [List.flatMap_append, ih, List.length_append, List.length_singleton,
      List.range_succ, List.flatMap_append, List.flatMap_singleton,
      List.flatMap_singleton, hlast, List.flatMap_congr hsame]

/-- Descriptors popped once each stand for tasks of the frame once each,
and for all of them if the names are as many. -/
theorem cover {ts : List Spawn} (hnodup : ids.Nodup)
    (hlt : ∀ k, .task k ∈ ids → k < ts.length) :
    (ids.flatMap (namesOf ts)).length ≤ (ts.flatMap names).length
      ∧ ((ids.flatMap (namesOf ts)).length = (ts.flatMap names).length →
        ∀ k < ts.length, .task k ∈ ids)
      ∧ ((∀ k < ts.length, .task k ∈ ids) →
        (ids.flatMap (namesOf ts)).Perm (ts.flatMap names)) := by
  have hsub : (ids.filterMap taskIdx).Subperm (List.range ts.length) := by
    refine List.subperm_of_subset (nodup_filterMap_taskIdx hnodup) ?_
    intro k hk
    exact List.mem_range.mpr (hlt k (mem_filterMap_taskIdx.mp hk))
  obtain ⟨l, hperm, hsubl⟩ := hsub
  obtain ⟨rest, hrest⟩ := hsubl.exists_perm_append
  have hall : (List.range ts.length).Perm (ids.filterMap taskIdx ++ rest) :=
    hrest.trans (hperm.append_right rest)
  have hnames := hall.flatMap_right fun k => namesOf ts (.task k)
  rw [← flatMap_names, List.flatMap_append, ← flatMap_namesOf] at hnames
  have hlen := hnames.length_eq
  rw [List.length_append] at hlen
  refine ⟨by omega, fun heq k hk => ?_, fun hmem => ?_⟩
  · -- a task left over would have a name left over
    have hmem := hall.mem_iff.mp (List.mem_range.mpr hk)
    rcases List.mem_append.mp hmem with hmem | hmem
    · exact mem_filterMap_taskIdx.mp hmem
    · exfalso
      have hnil : rest.flatMap (fun k => namesOf ts (.task k)) = [] :=
        List.length_eq_zero_iff.mp (by omega)
      have hk' := List.flatMap_eq_nil_iff.mp hnil k hmem
      rw [namesOf, List.getElem?_eq_getElem hk] at hk'
      simp only [Option.elim_some, names_eq] at hk'
      cases hk'
  · have hnil : rest = [] := by
      by_contra hne
      obtain ⟨k, hk⟩ := List.exists_mem_of_ne_nil _ hne
      have hnd := hall.nodup_iff.mp List.nodup_range
      have hlt' := List.mem_range.mp
        (hall.mem_iff.mpr (List.mem_append_right _ hk))
      exact (List.nodup_append.mp hnd).2.2 k
        (mem_filterMap_taskIdx.mpr (hmem k hlt')) k hk rfl
    rw [hnil, List.flatMap_nil, List.append_nil] at hnames
    exact hnames.symm

end Cover

-- ======== the body

/-- The state in which a static task has pushed its tasks. -/
def spawned (t : Spawn) (th : Thread) : Thread :=
  ((th.pushFrame).setUnstealable 1).pushTasks t.kids

theorem spawned_frame (t : Spawn) (th : Thread) :
    (spawned t th).frame.pc = th.frame.sp
      ∧ (spawned t th).frame.tasks = t.kids := by
  simp [spawned, Thread.pushTasks, Thread.frame, Thread.setFrame,
    Thread.setUnstealable, Thread.pushFrame]

/-- A task that is started leaves the frames below. -/
theorem spawned_below (t : Spawn) (th : Thread) :
    Below (th.sfp + 1) th (spawned t th) where
  frames i hi := by
    have hne := Nat.ne_of_lt hi
    simp [spawned, Thread.pushTasks, Thread.frame, Thread.setFrame,
      Thread.setUnstealable, Thread.pushFrame, update_of_ne hne]
  lists _ _ := rfl
  brk := Nat.le_refl _

theorem spawned_isEmpty (t : Spawn) (th : Thread) :
    (spawned t th).frame.isEmpty = true ↔ t.kids = [] := by
  obtain ⟨-, htasks⟩ := spawned_frame t th
  rw [Frame.isEmpty, Frame.sp, decide_eq_true_eq, htasks,
    ← List.length_eq_zero_iff]
  omega

section Body

variable {proc : Proc} {choose : Thread → Nat}
  {stackExecframe : Thread → Option (Thread × Answer)}
  {body : Spawn → Thread → Option Thread} {t : Spawn} {th th' : Thread} {ts : List Spawn}
  {fuel : Nat}

/-- A static task that pushes nothing. -/
theorem ran_of_empty (hstatic : t.val.isStatic = true) (hkids : t.kids = []) :
    Ran (pushed t) (Fits proc th.sfp t) th ((spawned t th).ret th.snapshot) []
      [(th.snapshot, (spawned t th).snapshot)] := by
  obtain ⟨hpc, htasks⟩ := spawned_frame t th
  have hbelow := spawned_below t th
  refine ⟨⟨fun i hi => hbelow.frames i (Nat.lt_succ_of_lt hi), hbelow.lists,
    hbelow.brk⟩, ?_, (List.append_nil _).symm, rfl, Nat.zero_le _,
    fun _ hrs => ?_, fun hm => ?_⟩
  · have hsame := hbelow.frames th.sfp (Nat.lt_succ_self _)
    show ((spawned t th).stackframe th.sfp).sp ≤ (spawned t th).frame.sp
    rw [hsame, Frame.sp, Frame.sp, hpc, htasks, hkids]
    simp [Frame.sp, Thread.frame]
  · have heq := congrArg Snapshot.sfp (hrs _ List.mem_cons_self)
    exact absurd heq (Nat.ne_of_lt (Nat.lt_succ_self th.sfp))
  · have hm := hm.1.1
    rw [hstatic, hkids] at hm
    cases hm

/-- Schedulable tasks have a list. -/
theorem isSome_of_schedulable (h : ∀ t ∈ ts, Schedulable t.val.params) :
    ∃ tl, computereadylist (ts.map fun t => t.val.params) = some tl := by
  rw [computereadylist_isSome]
  intro e he
  obtain ⟨j, u, hu, -, hp, hs⟩ := mem_events_iff.mp he
  rw [List.getElem?_map, Option.map_eq_some_iff] at hu
  obtain ⟨t, ht, rfl⟩ := hu
  obtain ⟨ps, hps, -, hcode⟩ := h t (List.mem_of_getElem? ht)
  rw [hps] at hp
  exact hcode e.2 hp (by simpa [Param.shared] using hs)

theorem schedulable_of_popped {tl tl' : FrameTasklist}
    (htl : computereadylist (ts.map fun t => t.val.params) = some tl) {ids : List TdId}
    (hrun : run execTd ids tl.tasklistreadyPushInit = some tl') {k : Nat}
    (hk : .task k ∈ ids) : ∃ t, ts[k]? = some t ∧ Schedulable t.val.params := by
  obtain ⟨ps, hps, hv⟩ := (popped_spec htl hrun).2.2.2.2 k hk
  have hcode := computereadylist_isSome.mp ⟨tl, htl⟩
  rw [List.getElem?_map, Option.map_eq_some_iff] at hps
  obtain ⟨t, ht, hparams⟩ := hps
  refine ⟨t, ht, ps, hparams, hv, fun p hp hpv => ?_⟩
  refine hcode (k, p) (mem_events_iff.mpr ⟨k, t.val.params, ?_,
    (Nat.zero_add k).symm, ?_, by simpa [Param.shared] using hpv⟩)
  · rw [List.getElem?_map, ht]
    rfl
  · rw [hparams]
    exact hp

/-- A list that ends has popped all its descriptors. -/
theorem popped_all {tl tl' : FrameTasklist}
    (htl : computereadylist (ts.map fun t => t.val.params) = some tl) {ids : List TdId}
    (hrun : run execTd ids tl.tasklistreadyPushInit = some tl')
    (hcnt : tl'.cntExec = tl'.totalTasks) (hparams : ∀ t ∈ ts, Schedulable t.val.params) :
    ∀ k < ts.length, .task k ∈ ids := by
  intro k hk
  obtain ⟨hnodup, hmem, hlen, htotal, -⟩ := popped_spec htl hrun
  obtain ⟨opened, h⟩ := computereadylist_spec htl
  have hperm : ids.Perm tl.tds :=
    (List.subperm_of_subset hnodup hmem).perm_of_length_le (by omega)
  obtain ⟨ps, hps, -⟩ := hparams _ (List.getElem_mem hk)
  rw [hperm.mem_iff, h.task_mem, mem_formatted_iff]
  refine ⟨k, ps, ?_, (Nat.zero_add k).symm⟩
  rw [List.getElem?_map, List.getElem?_eq_getElem hk, Option.map_some, hps]

/-- The state in which the loop over the task list starts. -/
def listed (t : Spawn) (th : Thread) (tl : FrameTasklist) : Thread :=
  (((spawned t th).malloc tl.tasklistreadyPushInit).setUnstealable
    th.unstealable).setTasklist (some th.brk)

theorem listed_frame (t : Spawn) (th : Thread) (tl : FrameTasklist) :
    (listed t th tl).frame.tasks = t.kids
      ∧ (listed t th tl).frame.tasklist = some th.brk
      ∧ (listed t th tl).lists th.brk = tl.tasklistreadyPushInit := by
  obtain ⟨-, htasks⟩ := spawned_frame t th
  refine ⟨?_, ?_, update_self ..⟩
  · rw [← htasks]
    simp [listed, Thread.setTasklist, Thread.frame, Thread.setFrame,
      Thread.setUnstealable, Thread.malloc]
  · simp [listed, Thread.setTasklist, Thread.frame, Thread.setFrame]

theorem listed_below (t : Spawn) (th : Thread) (tl : FrameTasklist) :
    Below (th.sfp + 1) th (listed t th tl) where
  frames i hi := by
    have hne : i ≠ (spawned t th).sfp := Nat.ne_of_lt hi
    refine Eq.trans ?_ ((spawned_below t th).frames i hi)
    exact update_of_ne hne ..
  lists b hb := update_of_ne (Nat.ne_of_lt hb) ..
  brk := Nat.le_succ _

/-- What the synchronisation of a frame with a list runs. -/
theorem schedSync_spec (hbody : Bodies (Fits proc) body) {a : Nat} (ha : a < th.brk)
    (hlist : th.frame.tasklist = some a)
    (h : schedSync proc choose stackExecframe body fuel th = some th') :
    proc.rtl = [] ∧ ∃ (th₁ : Thread) (f : Frame) (ids : List TdId) (log : List Nat)
      (rs : List (Snapshot × Snapshot)),
      run execTd ids (th.lists a) = some (th₁.lists a)
        ∧ (th₁.lists a).cntExec = (th₁.lists a).totalTasks
        ∧ (∀ id ∈ ids, Called proc th.sfp th.frame.tasks id)
        ∧ Turns (Fits proc (th.sfp + 1)) th.frame.tasks a ids th th₁ log rs
        ∧ th' = { th₁.setFrame th₁.sfp f with esfp := th.esfp } := by
  unfold schedSync at h
  rw [if_neg (fun hc => by rw [hlist] at hc; cases hc.1)] at h
  obtain ⟨th₁, hredo, rfl⟩ := Option.map_eq_some_iff.mp h
  have hbrk : a < Thread.brk { th with esfp := th.sfp } := ha
  have hexec := schedSyncRedo_spec hbody hbrk hlist hredo
  obtain ⟨hrtl, ids, log, rs, hrun, -, hcnt, hcalled, hturns⟩ :=
    execframeTasklist_spec hbody hbrk hexec
  exact ⟨hrtl, th₁, _, ids, log, rs, hrun, hcnt.mp rfl, hcalled,
    ⟨hturns.sfp, hturns.frames, hturns.lists, hturns.brk, hturns.executed,
      hturns.returns, hturns.length_le, hturns.of_full, hturns.of_meets⟩, rfl⟩

/-- The state in which the frame has been popped: `f` is what the flush has
left of it. -/
def left (th : Thread) (f : Frame) (esfp : Nat) : Thread :=
  (Thread.setTasklist { th.setFrame th.sfp f with esfp := esfp } none).popFrame

theorem left_below (th : Thread) (f : Frame) (esfp : Nat) :
    Below th.sfp th (left th f esfp) where
  frames i hi := by
    have hne : i ≠ th.sfp := Nat.ne_of_lt hi
    simp [left, Thread.popFrame, Thread.setTasklist, Thread.setFrame,
      update_of_ne hne]
  lists _ _ := rfl
  brk := Nat.le_refl _

/-- A static task that pushes tasks. -/
theorem ran_of_spawned (hbody : Bodies (Fits proc) body) (hstatic : t.val.isStatic = true)
    (hkids : t.kids ≠ [])
    (h : execSpawned proc choose stackExecframe body th.snapshot
      th.unstealable fuel (spawned t th) = some th') :
    ∃ log rs, Ran (pushed t) (Fits proc th.sfp t) th th' log rs := by
  unfold execSpawned at h
  simp only [Option.bind_eq_some_iff, Option.map_eq_some_iff,
    (spawned_frame t th).2] at h
  obtain ⟨tl, htl, th₃, hsync, rfl⟩ := h
  obtain ⟨htasks, hlist, hinit⟩ := listed_frame t th tl
  have hbelow := listed_below t th tl
  obtain ⟨hrtl, th₁, f, ids, log, rs, hrun, hcnt, hcalled, hturns, rfl⟩ :=
    schedSync_spec hbody
      (show th.brk < (listed t th tl).brk from Nat.lt_succ_self _) hlist hsync
  rw [hinit] at hrun
  rw [htasks] at hcalled hturns
  have hsfp : th₁.sfp = th.sfp + 1 := hturns.sfp
  have hlen := hturns.length_le
  have hlt : ∀ k, .task k ∈ ids → k < t.kids.length := by
    intro k hk
    obtain ⟨u, hu, -⟩ := schedulable_of_popped htl hrun hk
    exact (List.getElem?_eq_some_iff.mp hu).1
  obtain ⟨hle, heq, hperm⟩ := cover (popped_spec htl hrun).1 hlt
  -- the thread afterwards
  have hframes : ∀ i ≤ th.sfp,
      (left th₁ f (listed t th tl).esfp).stackframe i = th.stackframe i := by
    intro i hi
    have hlt : i < th.sfp + 1 := Nat.lt_succ_of_le hi
    exact ((left_below th₁ f _).frames i (hsfp ▸ hlt)).trans
      ((hturns.frames i (Nat.le_of_lt hlt)).trans (hbelow.frames i hlt))
  have hback : (left th₁ f (listed t th tl).esfp).sfp = th.sfp := by
    show th₁.sfp - 1 = th.sfp
    omega
  have hframe : (left th₁ f (listed t th tl).esfp).frame = th.frame :=
    (congrArg _ hback).trans (hframes _ (Nat.le_refl _))
  refine ⟨log, rs ++ [(th.snapshot, (left th₁ f (listed t th tl).esfp).snapshot)],
    ⟨⟨fun i hi => hframes i (Nat.le_of_lt hi),
    fun b hb => ?_, ?_⟩, ?_, ?_, ?_, ?_, fun hfull hrs =>
    (fits_iff hkids).mpr ⟨hstatic, hrtl, fun u hu => ?_⟩, fun hm => ?_⟩⟩
  · have hne : b ≠ th.brk := Nat.ne_of_lt hb
    exact (hturns.lists b (Nat.lt_succ_of_lt hb) hne).trans (hbelow.lists b hb)
  · exact hbelow.brk.trans hturns.brk
  · refine Int.le_of_eq (congrArg Frame.sp ?_)
    exact (hframes _ (Nat.le_refl _)).trans hframe.symm
  · exact hturns.executed
  · show th₁.returns ++ _ = _
    rw [hturns.returns, List.append_assoc]
    rfl
  · exact hlen.trans hle
  · -- as many tasks have run as there are: each descriptor was popped
    have hids := heq (by
      have hfull : log.length = (t.kids.flatMap names).length := hfull
      omega)
    have hturnfull : log.length = (ids.flatMap (namesOf t.kids)).length := by
      have hfull : log.length = (t.kids.flatMap names).length := hfull
      omega
    obtain ⟨k, hk⟩ := List.mem_iff_getElem?.mp hu
    have hmem := hids k (List.getElem?_eq_some_iff.mp hk).1
    obtain ⟨u', hu', hparams⟩ := schedulable_of_popped htl hrun hmem
    have huu : u' = u := Option.some.inj (hu'.symm.trans hk)
    obtain ⟨htakes, hroom, hwh⟩ := hcalled _ hmem
    rw [Proc.takes, hk] at htakes
    refine ⟨⟨huu ▸ hparams, htakes, hwh k u rfl hk⟩, hroom, ?_⟩
    exact hturns.of_full hturnfull
      (fun r hr => hrs r (List.mem_append_left _ hr)) _ hmem k u rfl hk
  · obtain ⟨-, -, hkid⟩ := (fits_iff hkids).mp hm
    obtain ⟨hp, hr, hu⟩ := hturns.of_meets fun id _ k u hk hu =>
      (hkid u (List.mem_of_getElem? hu)).2.2
    have hsnap : (left th₁ f (listed t th tl).esfp).snapshot = th.snapshot := by
      rw [Thread.snapshot, hback, hframe]
      exact congrArg (Snapshot.mk _ _) hu
    refine ⟨hp.trans (hperm (popped_all htl hrun hcnt
        fun u hu => (hkid u hu).1.params)),
      fun r hmem => ?_, hsnap⟩
    rcases List.mem_append.mp hmem with hmem | hmem
    · exact hr r hmem
    · rw [List.mem_singleton.mp hmem]
      exact hsnap.symm

/-- The body of a static task runs what it pushed. -/
theorem staticschedtaskBodyGen_ran (hbody : Bodies (Fits proc) body)
    (hstatic : t.val.isStatic = true)
    (h : staticschedtaskBodyGen proc choose stackExecframe body fuel t th = some th') :
    ∃ log rs, Ran (pushed t) (Fits proc th.sfp t) th th' log rs := by
  unfold staticschedtaskBodyGen at h
  split at h
  case isFalse => cases h
  change (if (spawned t th).frame.isEmpty = true then _ else _) = _ at h
  split at h
  · next hempty =>
      cases h
      exact ⟨_, _, ran_of_empty hstatic ((spawned_isEmpty t th).mp hempty)⟩
  · next hempty =>
      exact ran_of_spawned hbody hstatic (mt (spawned_isEmpty t th).mpr hempty) h

/-- A user's body runs nothing itself. -/
theorem userBody_ran : Bodies (fun _ t => t.kids = []) userBody := by
  rintro t th th' h
  cases h
  refine ⟨[], [], ⟨fun i hi => update_of_ne (Nat.ne_of_lt hi) ..,
    fun _ _ => rfl, Nat.le_refl _⟩, Int.le_refl _, (List.append_nil _).symm,
    (List.append_nil _).symm, Nat.zero_le _, fun hfull _ => ?_, fun hkids => ?_⟩
  · show t.kids = []
    cases hk : t.kids with
    | nil => rfl
    | cons k ks =>
      rw [pushed, hk, List.flatMap_cons, names_eq] at hfull
      cases hfull
  · have hkids : t.kids = [] := hkids
    refine ⟨?_, nofun, ?_⟩
    · rw [pushed, hkids]
      exact List.Perm.nil
    · rw [hkids]
      simp [Thread.snapshot, Thread.pushTasks, Thread.setFrame, Thread.frame]

theorem fits_of_user {n : Nat} (hstatic : ¬ t.val.isStatic = true) :
    Fits proc n t ↔ t.kids = [] := by
  rw [Fits, Meets, Bool.eq_false_iff.mpr hstatic]
  constructor
  · intro ⟨⟨hleaf, _⟩, _⟩
    exact List.isEmpty_iff.mp (by simpa using hleaf.symm)
  · intro hkids
    rw [hkids]
    exact ⟨⟨rfl, fun k hk => nomatch hk⟩, .inl rfl⟩

end Body

section Nest

variable {proc : Proc} {choose : Thread → Nat}
  {stackExecframe : Thread → Option (Thread × Answer)} {n : Nat}

/-- So every body runs what its task pushed. -/
theorem taskBody_ran (fuel : Nat) :
    Bodies (Fits proc) (taskBody proc choose stackExecframe fuel) := by
  induction fuel with
  | zero =>
    intro t th th' h
    cases h
  | succ fuel ih =>
    intro t th th' h
    unfold taskBody at h
    split at h
    · next hstatic => exact staticschedtaskBodyGen_ran ih hstatic h
    · next hstatic =>
        rw [fits_of_user hstatic]
        exact userBody_ran t th th' h

-- ======== termination

theorem exists_fuel {P : Spawn → Nat → Prop} {l : List Spawn}
    (h : ∀ t ∈ l, ∃ N, ∀ n ≥ N, P t n) : ∃ N, ∀ n ≥ N, ∀ t ∈ l, P t n := by
  induction l with
  | nil => exact ⟨0, fun _ _ t ht => nomatch ht⟩
  | cons t l ih =>
    obtain ⟨N, hN⟩ := h t List.mem_cons_self
    obtain ⟨M, hM⟩ := ih fun u hu => h u (List.mem_cons_of_mem _ hu)
    refine ⟨max N M, fun n hn u hu => ?_⟩
    rcases List.mem_cons.mp hu with rfl | hu
    · exact hN n ((Nat.le_max_left ..).trans hn)
    · exact hM n ((Nat.le_max_right ..).trans hn) u hu

/-- The loop ends when the bodies do and no descriptor is lost. -/
theorem execframeTasklist_returns {body : Spawn → Thread → Option Thread}
    (hbody : Bodies (Fits proc) body) {ts : List Spawn} {tl : FrameTasklist}
    (htl : computereadylist (ts.map fun t => t.val.params) = some tl)
    (hall : ExecutesAll tl) (hrtl : proc.rtl = [])
    (hready : ∀ t ∈ ts, Runnable proc.kid t.val) (hroom : n + 1 < maxReccall)
    (hreturns : ∀ t ∈ ts, ∀ th, th.sfp = n + 1 → ∃ th', body t th = some th')
    {a fuel : Nat} {th : Thread} {ids : List TdId} (ha : a < th.brk) (hsfp : th.sfp = n)
    (hts : th.frame.tasks = ts)
    (hrun : run execTd ids tl.tasklistreadyPushInit = some (th.lists a))
    (hfuel : tl.tds.length < fuel + ids.length) :
    ∃ th', execframeTasklist proc choose stackExecframe body a fuel th
      = some (th', .done) := by
  obtain ⟨opened, h⟩ := computereadylist_spec htl
  induction fuel generalizing th ids with
  | zero =>
    obtain ⟨hnodup, hmem, -⟩ := popped_spec htl hrun
    have hle := (List.subperm_of_subset hnodup hmem).length_le
    omega
  | succ fuel ih =>
    obtain ⟨-, hnext, -, hend⟩ := hall ids _ hrun
    -- every ready descriptor is this processor's
    have hmine : (th.lists a).rtl.filter (proc.takes th.frame.tasks)
        = (th.lists a).rtl := by
      refine List.filter_eq_self.mpr fun id _ => ?_
      cases id with
      | init b => rfl
      | task k =>
        rw [Proc.takes, hts]
        cases hk : ts[k]? with
        | none => rfl
        | some t => exact (hready t (List.mem_of_getElem? hk)).takes
    unfold execframeTasklist
    cases hpop : readylistPop proc choose th (th.lists a).rtl with
    | none =>
      obtain ⟨-, hcnt⟩ :=
        hend (hmine.symm.trans (readylistPop_eq_none hpop))
      have htotal : (th.lists a).totalTasks = tl.totalTasks :=
        (h.inv_execTd hrun).2.1.2.1
      simp only [hrtl, ne_eq, not_true_eq_false, if_false,
        if_pos (hcnt.trans htotal.symm)]
      exact ⟨th, rfl⟩
    | some id =>
      have hid : id ∈ (th.lists a).rtl := (mem_of_readylistPop hpop).1
      obtain ⟨tl', htl'⟩ := hnext id hid
      have hrun' : run execTd (ids ++ [id]) tl.tasklistreadyPushInit
          = some tl' :=
        (run_append_eq_some).mpr ⟨_, hrun,
          (run_cons_eq_some).mpr ⟨tl', htl', rfl⟩⟩
      have hbodyid : ∀ th', th'.sfp = n + 1 →
          ∃ th'', runBody body ts id th' = some th'' := by
        intro th' hsfp'
        cases id with
        | init b => exact ⟨th', rfl⟩
        | task k =>
          obtain ⟨t, ht, -⟩ := schedulable_of_popped htl hrun'
            (List.mem_append_right _ List.mem_cons_self)
          have hmem := List.mem_of_getElem? ht
          simp only [runBody, ht, if_pos (hready t hmem).body]
          exact hreturns t hmem _ hsfp'
      have hturn : ∃ r, turn stackExecframe body a id th = some r := by
        let th₀ := th.setList a ((th.lists a).popTd id)
        have hframe : th₀.frame.tasks = ts := hts
        obtain ⟨th₁, hth₁⟩ := hbodyid
          { th₀.setFrame (th₀.sfp + 1) th₀.frame with sfp := th₀.sfp + 1 }
          (congrArg (· + 1) hsfp)
        unfold turn
        have hroom₀ : th₀.sfp + 1 < maxReccall := by
          show th.sfp + 1 < maxReccall
          rw [hsfp]
          exact hroom
        rw [if_pos hid, runTd_eq hbody, if_pos hroom₀, hframe, hth₁]
        obtain ⟨-, log, rs, hran⟩ := runBody_ran hbody hth₁
        have hlist : th₁.lists a = (th.lists a).popTd id := by
          rw [hran.below.lists a ha]
          exact update_self ..
        rw [execTd_eq, if_pos hid, ← hlist] at htl'
        exact ⟨_, by simp [htl']; rfl⟩
      obtain ⟨r, hr⟩ := hturn
      obtain ⟨hdone, hexec, -, -, log, rs, hturns⟩ := turn_spec hbody ha hr
      have htl'' : r.1.lists a = tl' :=
        Option.some.inj (hexec.symm.trans htl')
      have hts' : r.1.frame.tasks = ts := by
        rw [Thread.frame, hturns.sfp, hturns.frames _ (Nat.le_refl _)]
        exact hts
      simp only [hr, Option.bind_some, hdone]
      refine ih (ha.trans_le hturns.brk) (hturns.sfp.trans hsfp) hts'
        (htl''.symm ▸ hrun') ?_
      rw [List.length_append, List.length_singleton]
      omega

/-- A static task returns when its tasks do. -/
theorem returns_of_kids {t : Spawn} (hm : Fits proc n t)
    (hkids : ∀ k ∈ t.kids, Fits proc (n + 2) k → ∃ N, ∀ fuel ≥ N, ∀ th,
      th.sfp = n + 2 →
        ∃ th', taskBody proc choose stackExecframe fuel k th = some th') :
    ∃ N, ∀ fuel ≥ N, ∀ th, th.sfp = n →
      ∃ th', taskBody proc choose stackExecframe fuel t th = some th' := by
  by_cases hstatic : t.val.isStatic = true
  · have hpushes : t.kids ≠ [] := by
      intro hnil
      have hm := hm.1.1
      rw [hstatic, hnil] at hm
      cases hm
    obtain ⟨-, hrtl, hkid⟩ := (fits_iff hpushes).mp hm
    obtain ⟨k₀, hk₀⟩ := List.exists_mem_of_ne_nil _ hpushes
    have hroom : n + 2 < maxReccall := (hkid k₀ hk₀).2.1
    obtain ⟨tl, htl⟩ := isSome_of_schedulable fun k hk => (hkid k hk).1.params
    have hall : ExecutesAll tl := by
      refine (executesAll_iff htl).mpr fun u hu params hup => ?_
      obtain ⟨k, hk, rfl⟩ := List.mem_map.mp hu
      obtain ⟨ps, hps, hv, -⟩ := (hkid k hk).1.params
      rw [hps] at hup
      injection hup with hup
      exact hup ▸ hv
    obtain ⟨N, hN⟩ := exists_fuel fun k hk => hkids k hk (hkid k hk).2.2
    refine ⟨N + tl.tds.length + 2, fun fuel hfuel th hsfp => ?_⟩
    obtain ⟨f, rfl⟩ : ∃ f, fuel = f + 2 := ⟨fuel - 2, by omega⟩
    obtain ⟨htasks, hlist, hinit⟩ := listed_frame t th tl
    let th₅ : Thread := { listed t th tl with esfp := (listed t th tl).sfp }
    have hsfp₅ : th₅.sfp = n + 1 := congrArg (· + 1) hsfp
    have hrun : run execTd [] tl.tasklistreadyPushInit
        = some (th₅.lists th.brk) := congrArg some hinit.symm
    obtain ⟨th₁, hexec⟩ : ∃ th₁, execframeTasklist proc choose stackExecframe
        (taskBody proc choose stackExecframe (f + 1)) th.brk (f + 1) th₅
          = some (th₁, .done) :=
      execframeTasklist_returns (taskBody_ran (f + 1)) htl hall hrtl
        (fun k hk => (hkid k hk).1) hroom
        (fun k hk => hN (f + 1) (by omega) k hk)
        (show th.brk < th₅.brk from Nat.lt_succ_self _) hsfp₅ htasks hrun
        (show tl.tds.length < (f + 1) + 0 by omega)
    have hredo : schedSyncRedo proc choose stackExecframe
        (taskBody proc choose stackExecframe (f + 1)) (f + 1) (f + 1) th₅
          = some th₁ := by
      have hlist₅ : th₅.frame.tasklist = some th.brk := hlist
      unfold schedSyncRedo
      simp only [hlist₅, hexec, Option.bind_some]
    have hsync : ∃ th₃, schedSync proc choose stackExecframe
        (taskBody proc choose stackExecframe (f + 1)) (f + 1) (listed t th tl)
          = some th₃ := by
      unfold schedSync
      rw [if_neg (fun hc => by rw [hlist] at hc; cases hc.1), hredo]
      exact ⟨_, rfl⟩
    obtain ⟨th₃, hth₃⟩ := hsync
    have hempty : ¬ (spawned t th).frame.isEmpty = true :=
      mt (spawned_isEmpty t th).mp hpushes
    have hroom₁ : th.sfp + 1 < maxReccall := by omega
    refine ⟨(Thread.popFrame (th₃.setTasklist none)).ret th.snapshot, ?_⟩
    unfold taskBody
    rw [if_pos hstatic]
    unfold staticschedtaskBodyGen
    simp only [if_pos hroom₁]
    show (if (spawned t th).frame.isEmpty = true then _ else
      execSpawned proc choose stackExecframe
        (taskBody proc choose stackExecframe (f + 1))
        th.snapshot th.unstealable (f + 1) (spawned t th)) = _
    rw [if_neg hempty]
    unfold execSpawned
    rw [(spawned_frame t th).2, htl]
    show Option.map _ (schedSync proc choose stackExecframe
        (taskBody proc choose stackExecframe (f + 1)) (f + 1)
          (listed t th tl)) = _
    rw [hth₃]
    rfl
  · exact ⟨1, fun fuel hfuel th _ => by
      obtain ⟨f, rfl⟩ : ∃ f, fuel = f + 1 := ⟨fuel - 1, by omega⟩
      exact ⟨_, if_neg hstatic⟩⟩

/-- Every task that fits returns. -/
theorem taskBody_returns {t : Spawn} (hm : Fits proc n t) :
    ∃ N, ∀ fuel ≥ N, ∀ th, th.sfp = n →
      ∃ th', taskBody proc choose stackExecframe fuel t th = some th' := by
  have hnested : ∀ {u : Spawn}, RoseTree.All (Nested proc.kid) u →
      ∀ {m : Nat}, Fits proc m u → ∃ N, ∀ fuel ≥ N, ∀ th, th.sfp = m →
        ∃ th', taskBody proc choose stackExecframe fuel u th = some th' := by
    intro u hu
    induction hu with
    | node hnode hkids ih =>
      exact fun hfits => returns_of_kids hfits fun k hk hk' => ih k hk hk'
  exact returns_of_kids hm fun k hk hk' => hnested (hm.1.2 k hk) hk'

-- ======== results

/-- A task executes what its nest pushes, once each, and the thread is as
it was, at its own return and at those of the static tasks below it, iff
the nest meets the condition: the order in which ready tasks are popped
does not matter, nor does what `kaapi_stack_execframe` does. -/
theorem restores_iff (proc : Proc) (choose : Thread → Nat)
    (stackExecframe : Thread → Option (Thread × Answer)) (t : Spawn)
    (th : Thread) :
    (∃ fuel th', taskBody proc choose stackExecframe fuel t th = some th'
        ∧ th'.snapshot = th.snapshot
        ∧ (∃ log, th'.executed = th.executed ++ log ∧ log.Perm (pushed t))
        ∧ ∃ rs, th'.returns = th.returns ++ rs ∧ ∀ r ∈ rs, r.1 = r.2)
      ↔ Fits proc th.sfp t := by
  constructor
  · intro ⟨fuel, th', h, _, ⟨log, hlog, hperm⟩, rs, hrs, hsame⟩
    obtain ⟨log', rs', hran⟩ := taskBody_ran fuel t th th' h
    have hlog' : log = log' :=
      List.append_cancel_left (hlog.symm.trans hran.executed)
    have hrs' : rs = rs' :=
      List.append_cancel_left (hrs.symm.trans hran.returns)
    exact hran.of_full (hlog' ▸ hperm.length_eq) (hrs' ▸ hsame)
  · intro hm
    obtain ⟨N, hN⟩ : ∃ N, ∀ fuel ≥ N, ∀ th₀, th₀.sfp = th.sfp →
        ∃ th', taskBody proc choose stackExecframe fuel t th₀ = some th' :=
      taskBody_returns hm
    obtain ⟨th', h⟩ := hN N (Nat.le_refl N) th rfl
    obtain ⟨log, rs, hran⟩ := taskBody_ran N t th th' h
    obtain ⟨hperm, hsame, hsnap⟩ := hran.of_meets hm
    exact ⟨N, th', h, hsnap, ⟨log, hran.executed, hperm⟩, rs, hran.returns,
      hsame⟩

/-- A static task that pushes nothing. -/
def emptyStatic : Spawn :=
  .node ⟨true, 0, some [], 0, true, true, true⟩ []

/-- A thread with nothing to do. -/
def idle : Thread where
  stackframe := fun _ => { pc := 0, tasks := [], tasklist := none }
  sfp := 0
  esfp := 0
  unstealable := 0
  lists := fun _ => frameTasklistInit
  brk := 0
  executed := []
  returns := []

/-- It returns, and leaves its frame and the thread unstealable behind. -/
theorem emptyStatic_leaks :
    ∃ th', taskBody ⟨0, []⟩ (fun _ => 0) (fun _ => none) 1 emptyStatic idle
        = some th'
      ∧ th'.snapshot.sfp = idle.snapshot.sfp + 1
      ∧ th'.snapshot.unstealable = 1 ∧ idle.snapshot.unstealable = 0 :=
  ⟨_, rfl, rfl, rfl, rfl⟩

end Nest

end XKaapi.TaskList.Static
