/-
The critical path of a task list (`kaapi_tasklist_criticalpath.c`): a
depth-first exploration of the activation links from the ready list,
that dates each descriptor with one more than the latest of its
successors, and 0 when it has none. The date is the distance to the end
of the execution, not from its beginning.

`exploreSuccessor_spec` is the invariant of the exploration: what is
marked is closed under links and dated right. A descriptor may be
reached on many paths, and is explored once; without cycles the depth of
the recursion is bounded by the longest path (`criticalPath_spec`). The
lists that `kaapi_thread_computereadylist` builds have no cycle
(`criticalPath_computereadylist`).
-/
import XKaapi.Lib.LongestPath
import XKaapi.TaskList.Exec

namespace XKaapi.TaskList

open LongestPath

-- ======== exploration

/-- What the exploration writes: `td->mark` and `td->u.acl.date`. -/
structure Dates where
  mark : TdId → Bool
  date : TdId → Nat

/-- `td->mark = 1; td->u.acl.date = d`. -/
def Dates.set (s : Dates) (td : TdId) (d : Nat) : Dates where
  mark := Function.update s.mark td true
  date := Function.update s.date td d

/-- _kaapi_max -/
def kaapiMax (d1 d2 : Nat) : Nat := if d1 < d2 then d2 else d1

/-- The loop over the successors, with the latest date so far. -/
def exploreSuccessors (explore : TdId → Dates → Option Dates) :
    List TdId → Nat → Dates → Option (Nat × Dates)
  | [], maxdatesucc, s => some (maxdatesucc, s)
  | td :: l, maxdatesucc, s =>
    match if s.mark td = false then explore td s else some s with
    | some s' =>
      exploreSuccessors explore l (kaapiMax maxdatesucc (s'.date td)) s'
    | none => none

namespace FrameTasklist

/-- kaapi_explore_successor; none when the fuel is not enough for the
depth of the recursion. -/
def exploreSuccessor (tl : FrameTasklist) : Nat → TdId → Dates → Option Dates
  | 0, _, _ => none
  | fuel + 1, td, s =>
    if s.mark td then some s
    else
      match (tl.td td).acl with
      | [] => some (s.set td 0)
      | l =>
        match exploreSuccessors (tl.exploreSuccessor fuel) l 0 s with
        | some (maxdatesucc, s') => some (s'.set td (maxdatesucc + 1))
        | none => none

/-- The loop over the ready list. -/
def exploreReadylist (tl : FrameTasklist) (fuel : Nat) :
    List TdId → Nat → Dates → Option (Nat × Dates)
  | [], tInfinity, s => some (tInfinity, s)
  | td :: l, tInfinity, s =>
    match tl.exploreSuccessor fuel td s with
    | some s' =>
      tl.exploreReadylist fuel l (kaapiMax tInfinity (s'.date td)) s'
    | none => none

/-- The successors of a descriptor. -/
def succ (tl : FrameTasklist) (td : TdId) : List TdId := (tl.td td).acl

end FrameTasklist

/-- EINVAL -/
def einval : Nat := 22

/-- kaapi_tasklist_critical_path on a list whose `t_infinity` is
`tInfinity`, or on no list: the code returned, `t_infinity` and the
dates. -/
def criticalPath (tl : Option FrameTasklist) (fuel tInfinity : Nat)
    (s : Dates) : Option (Nat × Nat × Dates) :=
  match tl with
  | none => some (einval, tInfinity, s)
  | some tl =>
    match tl.exploreReadylist fuel tl.readylist tInfinity s with
    | some (tInfinity', s') => some (0, tInfinity', s')
    | none => none

-- ======== what is explored

section Explore

variable {tl : FrameTasklist} {s s' s'' : Dates} {td : TdId}

theorem kaapiMax_eq (d1 d2 : Nat) : kaapiMax d1 d2 = max d1 d2 := by
  unfold kaapiMax
  split
  next hlt => exact (Nat.max_eq_right (Nat.le_of_lt hlt)).symm
  next hge => exact (Nat.max_eq_left (Nat.le_of_not_lt hge)).symm

/-- What is marked is closed under links, and its dates are right. -/
structure Dates.Right (tl : FrameTasklist) (s : Dates) : Prop where
  closed : ∀ u, s.mark u = true → ∀ v ∈ tl.succ u, s.mark v = true
  longest : ∀ u, s.mark u = true → IsLongest tl.succ u (s.date u)

/-- Exploring `l` took `s` to `s'`: it marked what can be reached from
`l`, and changed no date of another descriptor. -/
structure Explored (tl : FrameTasklist) (l : List TdId) (s s' : Dates) :
    Prop where
  right : s'.Right tl
  marked : ∀ u ∈ l, s'.mark u = true
  kept : ∀ u, s.mark u = true → s'.mark u = true
  only : ∀ u, s'.mark u = true → s.mark u = true ∨ ∃ v ∈ l, Reach tl.succ v u
  frame : ∀ u, s'.mark u = false → s'.date u = s.date u

theorem Explored.nil (h : s.Right tl) : Explored tl [] s s where
  right := h
  marked := by
    intro u hu
    cases hu
  kept := fun _ hu => hu
  only := fun _ hu => .inl hu
  frame := fun _ _ => rfl

theorem Explored.of_mark (h : s.Right tl) (htd : s.mark td = true) :
    Explored tl [td] s s where
  right := h
  marked := by
    intro u hu
    rw [List.mem_singleton.mp hu]
    exact htd
  kept := fun _ hu => hu
  only := fun _ hu => .inl hu
  frame := fun _ _ => rfl

theorem Explored.append {l l' : List TdId} (h : Explored tl l s s')
    (h' : Explored tl l' s' s'') : Explored tl (l ++ l') s s'' where
  right := h'.right
  marked := by
    intro u hu
    rcases List.mem_append.mp hu with hu | hu
    · exact h'.kept u (h.marked u hu)
    · exact h'.marked u hu
  kept := fun u hu => h'.kept u (h.kept u hu)
  only := by
    intro u hu
    rcases h'.only u hu with hu | ⟨v, hv, hr⟩
    · rcases h.only u hu with hu | ⟨v, hv, hr⟩
      · exact .inl hu
      · exact .inr ⟨v, List.mem_append_left _ hv, hr⟩
    · exact .inr ⟨v, List.mem_append_right _ hv, hr⟩
  frame := by
    intro u hu
    have hu' : s'.mark u = false := by
      rw [← Bool.not_eq_true]
      intro hm
      rw [h'.kept u hm] at hu
      cases hu
    rw [h'.frame u hu, h.frame u hu']

theorem Explored.date_eq {l : List TdId} (h : Explored tl l s s')
    (hs : s.Right tl) (htd : s.mark td = true) : s'.date td = s.date td :=
  (h.right.longest td (h.kept td htd)).unique (hs.longest td htd)

/-- The descriptor itself is dated when all its successors are. -/
theorem Explored.set {l : List TdId} {d : Nat} (h : Explored tl l s s')
    (hl : tl.succ td = l) (hd : IsLongest tl.succ td d) :
    Explored tl [td] s (s'.set td d) := by
  have hmark : ∀ u, (s'.set td d).mark u = true ↔
      u = td ∨ s'.mark u = true := by
    intro u
    show Function.update s'.mark td true u = true ↔ _
    rw [Function.update_apply]
    split
    next heq => simp [heq]
    next hne => simp [hne]
  have hdate : ∀ u, u ≠ td → (s'.set td d).date u = s'.date u := by
    intro u hu
    exact Function.update_of_ne hu ..
  refine ⟨⟨?closed, ?longest⟩, ?marked, ?kept, ?only, ?frame⟩
  case closed =>
    intro u hu v hv
    rcases (hmark u).mp hu with rfl | hu
    · rw [hl] at hv
      exact (hmark v).mpr (.inr (h.marked v hv))
    · exact (hmark v).mpr (.inr (h.right.closed u hu v hv))
  case longest =>
    intro u hu
    by_cases heq : u = td
    · rw [heq]
      show IsLongest _ _ (Function.update s'.date td d td)
      rw [Function.update_self]
      exact hd
    · rw [hdate u heq]
      rcases (hmark u).mp hu with hu | hu
      · exact absurd hu heq
      · exact h.right.longest u hu
  case marked =>
    intro u hu
    exact (hmark u).mpr (.inl (List.mem_singleton.mp hu))
  case kept =>
    intro u hu
    exact (hmark u).mpr (.inr (h.kept u hu))
  case only =>
    intro u hu
    rcases (hmark u).mp hu with rfl | hu
    · exact .inr ⟨u, List.mem_singleton_self u, Reach.refl _ u⟩
    · rcases h.only u hu with hu | ⟨v, hv, hr⟩
      · exact .inl hu
      · rw [← hl] at hv
        exact .inr ⟨td, List.mem_singleton_self td, hr.head hv⟩
  case frame =>
    intro u hu
    have hu' : ¬ (u = td ∨ s'.mark u = true) := by
      intro hm
      rw [(hmark u).mpr hm] at hu
      cases hu
    rw [not_or, Bool.not_eq_true] at hu'
    rw [hdate u hu'.1, h.frame u hu'.2]

/-- The loop over the successors, if each of them can be explored: all
are explored, and the maximum is that of their dates. -/
theorem exploreSuccessors_spec
    (explore : TdId → Dates → Option Dates) (l : List TdId)
    (hexp : ∀ v ∈ l, ∀ s, s.Right tl → s.mark v = false →
      ∃ s', explore v s = some s' ∧ Explored tl [v] s s')
    (m : Nat) (s : Dates) (hs : s.Right tl) :
    ∃ s', exploreSuccessors explore l m s
        = some (l.foldl (fun m v => max m (s'.date v)) m, s')
      ∧ Explored tl l s s' := by
  induction l generalizing m s with
  | nil => exact ⟨s, rfl, Explored.nil hs⟩
  | cons v l ih =>
    have hfirst : ∃ s₁, (if s.mark v = false then explore v s else some s)
        = some s₁ ∧ Explored tl [v] s s₁ := by
      by_cases hv : s.mark v = false
      · rw [if_pos hv]
        exact hexp v List.mem_cons_self s hs hv
      · rw [if_neg hv]
        rw [Bool.not_eq_false] at hv
        exact ⟨s, rfl, Explored.of_mark hs hv⟩
    obtain ⟨s₁, hrun₁, h₁⟩ := hfirst
    obtain ⟨s₂, hrun₂, h₂⟩ := ih
      (fun w hw => hexp w (List.mem_cons_of_mem v hw))
      (kaapiMax m (s₁.date v)) s₁ h₁.right
    refine ⟨s₂, ?_, h₁.append h₂⟩
    have hdate : s₂.date v = s₁.date v :=
      h₂.date_eq h₁.right (h₁.marked v (List.mem_singleton_self v))
    unfold exploreSuccessors
    rw [hrun₁]
    show exploreSuccessors explore l (kaapiMax m (s₁.date v)) s₁ = _
    rw [hrun₂, List.foldl_cons, hdate, kaapiMax_eq]

/-- The exploration from a descriptor whose longest path is shorter than
the fuel: by induction on the fuel, which drops along each link as the
longest path does. -/
theorem exploreSuccessor_spec
    (fuel : Nat) (td : TdId) (s : Dates) (hs : s.Right tl) {n : Nat}
    (hn : IsLongest tl.succ td n) (hfuel : n < fuel)
    (hex : ∀ u, ∃ n, IsLongest tl.succ u n) :
    ∃ s', tl.exploreSuccessor fuel td s = some s'
      ∧ Explored tl [td] s s' := by
  induction fuel generalizing td s n with
  | zero => exact absurd hfuel (Nat.not_lt_zero n)
  | succ fuel ih =>
    unfold FrameTasklist.exploreSuccessor
    by_cases htd : s.mark td = true
    · rw [if_pos htd]
      exact ⟨s, rfl, Explored.of_mark hs htd⟩
    · rw [if_neg htd]
      split
      next hacl =>
        exact ⟨_, rfl, (Explored.nil hs).set hacl (isLongest_of_nil hacl)⟩
      next hne =>
        obtain ⟨s', hrun, h⟩ := exploreSuccessors_spec
          (tl.exploreSuccessor fuel) (tl.td td).acl
          (by
            intro v hv s hs _
            obtain ⟨m, hm⟩ := hex v
            have hlt := hn.succ_lt hv hm
            exact ih v s hs hm (by omega)) 0 s hs
        rw [hrun]
        refine ⟨_, rfl, h.set rfl (isLongest_of_succ hne ?_)⟩
        intro v hv
        exact h.right.longest v (h.marked v hv)

theorem exploreReadylist_spec
    (fuel : Nat) (l : List TdId) (s : Dates) (hs : s.Right tl)
    (hex : ∀ u, ∃ n, IsLongest tl.succ u n)
    (hfuel : ∀ u ∈ l, ∀ n, IsLongest tl.succ u n → n < fuel) (t : Nat) :
    ∃ s', tl.exploreReadylist fuel l t s
        = some (l.foldl (fun m v => max m (s'.date v)) t, s')
      ∧ Explored tl l s s' := by
  induction l generalizing s t with
  | nil => exact ⟨s, rfl, Explored.nil hs⟩
  | cons v l ih =>
    obtain ⟨n, hn⟩ := hex v
    obtain ⟨s₁, hrun₁, h₁⟩ := exploreSuccessor_spec fuel v s hs hn
      (hfuel v List.mem_cons_self n hn) hex
    obtain ⟨s₂, hrun₂, h₂⟩ := ih s₁ h₁.right
      (fun u hu => hfuel u (List.mem_cons_of_mem v hu))
      (kaapiMax t (s₁.date v))
    refine ⟨s₂, ?_, h₁.append h₂⟩
    have hdate : s₂.date v = s₁.date v :=
      h₂.date_eq h₁.right (h₁.marked v (List.mem_singleton_self v))
    unfold FrameTasklist.exploreReadylist
    rw [hrun₁]
    show tl.exploreReadylist fuel l (kaapiMax t (s₁.date v)) s₁ = _
    rw [hrun₂, List.foldl_cons, hdate, kaapiMax_eq]

end Explore

-- ======== graphs of links

/-- A list of tasks whose links were all made by
`kaapi_tasklist_push_successor`. -/
inductive Linked : FrameTasklist → Prop
  | start {tl : FrameTasklist} (h : ∀ u, tl.succ u = []) : Linked tl
  | push {tl : FrameTasklist} (h : Linked tl) (td tdSuccessor : TdId) :
      Linked (tl.pushSuccessor td tdSuccessor)
  /-- whatever else is done to the list -/
  | other {tl tl' : FrameTasklist} (h : Linked tl)
      (heq : ∀ u, tl'.succ u = tl.succ u) : Linked tl'

theorem Linked.finite {tl : FrameTasklist} (h : Linked tl) :
    {u | tl.succ u ≠ []}.Finite := by
  induction h with
  | start h0 =>
    refine Set.finite_empty.subset ?_
    intro u hu
    exact absurd (h0 u) hu
  | @push tl _ td tdSuccessor ih =>
    refine (ih.insert td).subset ?_
    intro u hu
    by_cases heq : u = td
    · exact .inl heq
    · refine .inr ?_
      have hsucc := congrFun
        (congrArg Activation.Graph.succ (tl.graph_pushSuccessor td tdSuccessor))
        u
      have hsame : (tl.pushSuccessor td tdSuccessor).succ u = tl.succ u :=
        hsucc.trans (Function.update_of_ne heq ..)
      have hne : (tl.pushSuccessor td tdSuccessor).succ u ≠ [] := hu
      rw [hsame] at hne
      exact hne
  | @other tl tl' _ heq ih =>
    refine ih.subset ?_
    intro u hu
    have hne : tl'.succ u ≠ [] := hu
    rw [heq] at hne
    exact hne

/-- `d` is the greatest date of the descriptors that meet `P`, or `b` if
that is greater. -/
structure IsLatest (P : TdId → Prop) (date : TdId → Nat) (b d : Nat) : Prop
    where
  le : b ≤ d ∧ ∀ u, P u → date u ≤ d
  eq : d = b ∨ ∃ u, P u ∧ d = date u

/-- The descriptors that can be reached from the ready list. -/
def FrameTasklist.Reached (tl : FrameTasklist) (u : TdId) : Prop :=
  ∃ td ∈ tl.readylist, Reach tl.succ td u

/-- With enough fuel, every descriptor reached is dated with the length
of the longest path from it to a descriptor without successors, no other
date changes, and `t_infinity` is the latest of the dates. -/
def CriticalPathRight (tl : FrameTasklist) (tInfinity : Nat) (s : Dates) :
    Prop :=
  ∃ n, ∀ fuel, n ≤ fuel → ∃ t s',
    criticalPath (some tl) fuel tInfinity s = some (0, t, s')
      ∧ (∀ u, tl.Reached u → IsLongest tl.succ u (s'.date u))
      ∧ (∀ u, ¬ tl.Reached u → s'.date u = s.date u)
      ∧ IsLatest tl.Reached s'.date tInfinity t

theorem criticalPath_right
    {tl : FrameTasklist} (hfin : {u | tl.succ u ≠ []}.Finite)
    (hac : Acyclic tl.succ) (tInfinity : Nat) {s : Dates}
    (hs : ∀ u, s.mark u = false) : CriticalPathRight tl tInfinity s := by
  have hex := exists_isLongest hfin hac
  have hright : s.Right tl := by
    refine ⟨?_, ?_⟩
    · intro u hu
      rw [hs u] at hu
      cases hu
    · intro u hu
      rw [hs u] at hu
      cases hu
  obtain ⟨d, hd⟩ := Classical.axiomOfChoice hex
  refine ⟨tl.readylist.foldl (fun m v => max m (d v)) 0 + 1, ?_⟩
  intro fuel hfuel
  obtain ⟨s', hrun, h⟩ := exploreReadylist_spec fuel tl.readylist s hright hex
    (by
      intro u hu n hn
      have hle := (foldl_max_le_iff.mp (Nat.le_refl
        (tl.readylist.foldl (fun m v => max m (d v)) 0))).2 u hu
      rw [hn.unique (hd u)]
      omega) tInfinity
  have hmark : ∀ u, s'.mark u = true ↔ tl.Reached u := by
    intro u
    constructor
    · intro hu
      rcases h.only u hu with hu | hu
      · rw [hs u] at hu
        cases hu
      · exact hu
    · intro hu
      obtain ⟨v, hv, hr⟩ := hu
      exact hr.closed h.right.closed (h.marked v hv)
  refine ⟨tl.readylist.foldl (fun m v => max m (s'.date v)) tInfinity, s',
    ?_, ?_, ?_, ?_⟩
  · unfold criticalPath
    dsimp only
    rw [hrun]
  · intro u hu
    exact h.right.longest u ((hmark u).mpr hu)
  · intro u hu
    refine h.frame u ?_
    rw [← Bool.not_eq_true, hmark u]
    exact hu
  · have hmax := foldl_max_le_iff.mp (Nat.le_refl
      (tl.readylist.foldl (fun m v => max m (s'.date v)) tInfinity))
    refine ⟨⟨hmax.1, ?_⟩, ?_⟩
    · intro u hu
      obtain ⟨v, hv, m, hpath⟩ := hu
      -- the date of the entry is at least that of what it leads to
      have hlu := h.right.longest u ((hmark u).mpr ⟨v, hv, m, hpath⟩)
      have hlv := h.right.longest v (h.marked v hv)
      obtain ⟨w, -, hw⟩ := hlu.exit
      have hle := hlv.le w _ (hpath.trans hw)
      have hvmax := hmax.2 v hv
      omega
    · rcases foldl_max_eq tl.readylist s'.date tInfinity with heq | hv
      · exact .inl heq
      · obtain ⟨v, hv, heq⟩ := hv
        exact .inr ⟨v, ⟨v, hv, Reach.refl _ v⟩, heq⟩

/-- The critical path of every list of tasks whose links have no cycle. -/
theorem criticalPath_spec
    (tl : FrameTasklist) (hlinks : Linked tl) (hac : Acyclic tl.succ)
    (tInfinity : Nat) (s : Dates) (hs : ∀ u, s.mark u = false) :
    CriticalPathRight tl tInfinity s :=
  criticalPath_right hlinks.finite hac tInfinity hs

theorem criticalPath_computereadylist {tasks : List Task} {tl : FrameTasklist}
    (htl : computereadylist tasks = some tl) (tInfinity : Nat) {s : Dates}
    (hs : ∀ u, s.mark u = false) : CriticalPathRight tl tInfinity s := by
  obtain ⟨opened, hb⟩ := computereadylist_spec htl
  refine criticalPath_right ?_ ?_ tInfinity hs
  · refine (List.finite_toSet tl.tds).subset ?_
    intro u hu
    by_contra hmem
    have hacl : tl.succ u = [] := by
      unfold FrameTasklist.succ
      rw [hb.unallocated u hmem]
      rfl
    exact hu hacl
  · exact acyclic_of_rank rank fun u v hv =>
      hb.rank_lt (events_sorted 0 tasks) hv

-- ======== a diamond

/-- An initial task that two tasks wait for, one of which waits for the
other. -/
def diamond : FrameTasklist :=
  ((({ frameTasklistInit with readylist := [.init 0] }).pushSuccessor
    (.init 0) (.task 1)).pushSuccessor (.init 0) (.task 0)).pushSuccessor
    (.task 0) (.task 1)

/-- No descriptor is marked. -/
def unmarked : Dates where
  mark := fun _ => false
  date := fun _ => 0

theorem criticalPath_readWrite :
    ∃ tl, computereadylist readWrite = some tl ∧ CriticalPathRight tl 0 unmarked :=
  ⟨_, rfl, criticalPath_computereadylist (rfl : computereadylist readWrite = some _) 0
    fun _ => rfl⟩

theorem linked_diamond : Linked diamond :=
  .push (.push (.push (.start fun _ => rfl) _ _) _ _) _ _

theorem acyclic_diamond : Acyclic diamond.succ := by
  refine acyclic_of_rank rank ?_
  intro u v hv
  cases u with
  | init a =>
    by_cases ha : a = 0
    · subst ha
      have hmem : v ∈ [TdId.task 1, .task 0] := hv
      simp only [List.mem_cons, List.not_mem_nil, or_false] at hmem
      rcases hmem with rfl | rfl <;> decide
    · simp [diamond, FrameTasklist.succ, FrameTasklist.pushSuccessor,
        FrameTasklist.setTd, frameTasklistInit, allocatorInitTd, ha] at hv
  | task k =>
    by_cases hk : k = 0
    · subst hk
      have hmem : v ∈ [TdId.task 1] := hv
      rw [List.mem_singleton.mp hmem]
      decide
    · by_cases hk1 : k = 1
      · subst hk1
        have hmem : v ∈ ([] : List TdId) := hv
        cases hmem
      · simp [diamond, FrameTasklist.succ, FrameTasklist.pushSuccessor,
          FrameTasklist.setTd, frameTasklistInit, allocatorInitTd, hk,
          hk1] at hv

theorem criticalPath_diamond : CriticalPathRight diamond 0 unmarked :=
  criticalPath_spec diamond linked_diamond acyclic_diamond 0 unmarked
    fun _ => rfl

/-- `n` is the length of the longest path from the ready list to `u`. -/
structure IsLongestFromEntry (tl : FrameTasklist) (u : TdId) (n : Nat) :
    Prop where
  path : ∃ td ∈ tl.readylist, Path tl.succ td u n
  le : ∀ td ∈ tl.readylist, ∀ m, Path tl.succ td u m → m ≤ n

/-- The dates are counted from the end: the last task of the diamond is
dated 0. -/
theorem date_not_from_entry :
    ¬ ∀ (tl : FrameTasklist) (fuel t : Nat) (s s' : Dates), Linked tl →
      Acyclic tl.succ → (∀ u, s.mark u = false) →
      criticalPath (some tl) fuel 0 s = some (0, t, s') →
      ∀ u, tl.Reached u → IsLongestFromEntry tl u (s'.date u) := by
  intro h
  have hpath : Path diamond.succ (.init 0) (.task 1) 2 := by
    refine .cons (v := .task 0) ?_ (.cons (v := .task 1) ?_ (.refl _))
    · decide
    · decide
  have hdate := (h diamond 4 2 unmarked _ linked_diamond acyclic_diamond
    (fun _ => rfl) rfl (.task 1)
    ⟨.init 0, List.mem_singleton_self _, 2, hpath⟩).le (.init 0)
    (List.mem_singleton_self _) 2 hpath
  revert hdate
  decide

end XKaapi.TaskList
