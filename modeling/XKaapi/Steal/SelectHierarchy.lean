/-
The levels that the hierarchical selection goes through
(kaapi_sched_select_hierarchy.c) while all steals fail.

Between two initialisations the pair of `depth` and `index` is a walk of
Lib/RoundRobin over the levels from `depth_min` up, so each level has its
turn. But 0 is both the value of `depth_min` before its initialisation and
the minimal level of a hierarchy whose first level has two kids: there
every selection starts again at the first level.
-/
import XKaapi.Lib.RoundRobin
import XKaapi.Steal.SelectVictim

namespace XKaapi.Steal

open StepMachine RoundRobin

-- ======== the statement

/-- The `nkids` of a level. -/
def Hierarchy.nkids (h : Hierarchy) (d : Nat) : Nat :=
  match h.levels[d]? with
  | some level => level.kids.length
  | none => 0

/-- The first level with two kids. -/
structure Hierarchy.Minimal (h : Hierarchy) (m : Nat) : Prop where
  below : ∀ d < m, h.nkids d = 1
  here : h.nkids m ≠ 1
  lt : m < h.depth

/-- A call that returns. -/
def hierStep (h : Hierarchy) (c : SelectCall) (arg : HierArg) :
    Option HierArg :=
  match selectVictimHierarchy h c arg with
  | .returns arg' _ => some arg'
  | _ => none

/-- A state that some calls lead to. -/
def HierReachable (h : Hierarchy) (arg : HierArg) : Prop :=
  Reachable (hierStep h) HierArg.zero arg

def selectCall (x : Nat × List Draw) : SelectCall :=
  ⟨.selectVictim, x.1, x.2⟩

def failedCall : SelectCall := ⟨.stealFailed, 0, []⟩

def successCall : SelectCall := ⟨.stealSuccess, 0, []⟩

/-- Rounds of a selection and the failure of its steal: the levels that are
selected from, and the state in the end. -/
def failedRounds (h : Hierarchy) :
    List (Nat × List Draw) → HierArg → Option (List Nat × HierArg)
  | [], arg => some ([], arg)
  | x :: rest, arg =>
    (hierStep h (selectCall x) arg).bind fun selected =>
      (hierStep h failedCall selected).bind fun failed =>
        (failedRounds h rest failed).map fun r => (selected.depth :: r.1, r.2)

/-- While every steal fails, each level from `m` up is selected from within
a bounded number of rounds, and any number of rounds can be made. -/
def ReachesEveryLevel (h : Hierarchy) (m : Nat) : Prop :=
  ∀ arg, HierReachable h arg →
    (∀ n, ∃ rs r, rs.length = n ∧ failedRounds h rs arg = some r)
    ∧ ∃ bound, ∀ rs r, failedRounds h rs arg = some r → bound ≤ rs.length →
      ∀ d, m ≤ d → d < h.depth → d ∈ r.1

/-- After some failures, a kprocessor of a level from `m` up can be the next
victim. -/
def NoneExcluded (h : Hierarchy) (m : Nat) : Prop :=
  ∀ arg, HierReachable h arg → ∀ d level, m ≤ d → h.levels[d]? = some level →
    ∀ v ∈ level.kids, h.allKprocessors[v]? = some true →
      ∃ rs r draws arg', failedRounds h rs arg = some r
        ∧ selectVictimHierarchy h (selectCall (0, draws)) r.2
          = .returns arg' (some v)

/-- The first selection after a success is from the level `m`. -/
def RestartsAt (h : Hierarchy) (m : Nat) : Prop :=
  ∀ arg arg' selected x, HierReachable h arg →
    hierStep h successCall arg = some arg' →
    hierStep h (selectCall x) arg' = some selected → selected.depth = m

-- ======== the minimal level

variable {h : Hierarchy} {m : Nat} {arg arg' : HierArg} {r : List Nat × HierArg}

/-- The least depth with a choice. -/
theorem computeDepthMin_eq {levels : List OneLevel} {k : Nat}
    (hk : k < levels.length)
    (hbelow : ∀ i (hi : i < levels.length), i < k → levels[i].kids.length = 1)
    (hhere : levels[k].kids.length ≠ 1) (d : Nat) :
    computeDepthMin levels d = .ok (d + k) := by
  induction levels generalizing k d with
  | nil => exact absurd hk (Nat.not_lt_zero k)
  | cons level rest ih =>
    unfold computeDepthMin
    cases k with
    | zero => exact if_neg hhere
    | succ k =>
      have hone : level.kids.length = 1 :=
        hbelow 0 (Nat.succ_pos _) (Nat.succ_pos k)
      rw [if_pos hone, ih (Nat.lt_of_succ_lt_succ hk)
        (fun i hi hik => hbelow (i + 1) (Nat.succ_lt_succ hi)
          (Nat.succ_lt_succ hik)) hhere, Nat.add_assoc, Nat.add_comm 1 k]

theorem nkids_eq {d : Nat} (hd : d < h.levels.length) :
    h.nkids d = h.levels[d].kids.length := by
  unfold Hierarchy.nkids
  rw [List.getElem?_eq_getElem hd]

/-- What the code computes of it. -/
theorem Hierarchy.Minimal.compute (hm : h.Minimal m) :
    computeDepthMin h.levels 0 = .ok m := by
  have hlt : m < h.levels.length := hm.lt
  rw [computeDepthMin_eq hlt (fun i hi hik => nkids_eq hi ▸ hm.below i hik)
    (nkids_eq hlt ▸ hm.here) 0, Nat.zero_add]

theorem Hierarchy.Minimal.ne_nil (hm : h.Minimal m) : h.levels ≠ [] := by
  intro hnil
  have hlt : m < h.levels.length := hm.lt
  rw [hnil] at hlt
  exact Nat.not_lt_zero m hlt

-- ======== the calls

/-- In every reachable state `depth_min` is 0 or the minimal level, and the
current level is one of the hierarchy. -/
structure HierInv (h : Hierarchy) (m : Nat) (arg : HierArg) : Prop where
  depthMin : arg.depthMin = 0 ∨ arg.depthMin = m
  low : arg.depthMin ≤ arg.depth
  high : arg.depth < h.depth

/-- The level of the next selection. -/
def nextDepth (m : Nat) (arg : HierArg) : Nat :=
  if arg.depthMin = 0 then m else arg.depth

/-- Where the walk is at the next selection. -/
def place (m : Nat) (arg : HierArg) : Place := ⟨nextDepth m arg, arg.index⟩

/-- The next depth is in the hierarchy. -/
theorem HierInv.nextDepth_lt (hi : HierInv h m arg) (hm : h.Minimal m) :
    nextDepth m arg < h.depth := by
  unfold nextDepth
  split
  next => exact hm.lt
  next => exact hi.high

/-- It is not below the least one. -/
theorem HierInv.le_nextDepth (hi : HierInv h m arg) : m ≤ nextDepth m arg := by
  unfold nextDepth
  split
  next => exact Nat.le_refl m
  next hne => exact hi.depthMin.resolve_left hne ▸ hi.low

section

variable (hi : HierInv h m arg) (hm : h.Minimal m)
include hi hm

theorem hierInit_eq (rand : Nat) :
    ∃ seed, hierInit h rand arg
      = .ok ⟨nextDepth m arg, m, arg.index, seed⟩ := by
  unfold hierInit nextDepth
  by_cases h₀ : arg.depthMin = 0
  · rw [if_pos h₀, if_pos h₀, hm.compute]
    exact ⟨rand, rfl⟩
  · rw [if_neg h₀, if_neg h₀, ← hi.depthMin.resolve_left h₀]
    exact ⟨arg.seed, rfl⟩

/-- A call draws in its level. -/
theorem select_eq (x : Nat × List Draw) :
    ∃ level ∈ h.levels, ∃ seed₀, selectVictimHierarchy h (selectCall x) arg
      = (redoSelect h (pickIn level.kids) x.2).map fun seed =>
        { (⟨nextDepth m arg, m, arg.index, seed₀⟩ : HierArg) with
          seed := seed } := by
  obtain ⟨seed₀, hinit⟩ := hierInit_eq hi hm x.1
  have hlt : nextDepth m arg < h.levels.length := hi.nextDepth_lt hm
  refine ⟨h.levels[nextDepth m arg], List.getElem_mem hlt, seed₀, ?_⟩
  unfold selectVictimHierarchy selectCall
  rw [if_neg hm.ne_nil]
  dsimp only
  rw [hinit]
  dsimp only
  rw [List.getElem?_eq_getElem hlt]

/-- What the policy keeps of a selection. -/
theorem selected_eq {x : Nat × List Draw} (hs : hierStep h (selectCall x) arg = some arg') :
    ∃ seed, arg' = ⟨nextDepth m arg, m, arg.index, seed⟩ := by
  obtain ⟨level, -, seed₀, heq⟩ := select_eq hi hm x
  unfold hierStep at hs
  rw [heq] at hs
  cases hr : redoSelect h (pickIn level.kids) x.2 with
  | mismatch =>
    rw [hr] at hs
    cases hs
  | fault f =>
    rw [hr] at hs
    cases hs
  | returns seed victim =>
    rw [hr] at hs
    cases hs
    exact ⟨seed, rfl⟩

/-- Each kprocessor of the level may be returned. -/
theorem select_returns (rand : Nat) {level : OneLevel}
    (hlevel : h.levels[nextDepth m arg]? = some level) {v : Nat} (hv : v ∈ level.kids)
    (hex : h.allKprocessors[v]? = some true) :
    ∃ draws, selectVictimHierarchy h (selectCall (rand, draws)) arg
      = .returns ⟨nextDepth m arg, m, arg.index, 0⟩ (some v) := by
  obtain ⟨seed₀, hinit⟩ := hierInit_eq hi hm rand
  obtain ⟨k, hk, hkv⟩ := List.mem_iff_getElem.mp hv
  have hpick : pickIn level.kids k = .ok v := by
    unfold pickIn
    rw [Nat.mod_eq_of_lt hk, List.getElem?_eq_getElem hk, hkv]
  have hredo : redoSelect h (pickIn level.kids) [⟨k, 0⟩]
      = .returns 0 (some v) := by
    unfold redoSelect
    rw [hpick]
    dsimp only
    rw [hex]
    rfl
  refine ⟨[⟨k, 0⟩], ?_⟩
  unfold selectVictimHierarchy selectCall
  rw [if_neg hm.ne_nil]
  dsimp only
  rw [hinit]
  dsimp only
  rw [hlevel]
  dsimp only
  rw [hredo]
  rfl

/-- A selection ends for some draws. -/
theorem exists_select (rand : Nat) :
    ∃ draws, hierStep h (selectCall (rand, draws)) arg
      = some ⟨nextDepth m arg, m, arg.index, 0⟩ := by
  have hlt : nextDepth m arg < h.levels.length := hi.nextDepth_lt hm
  obtain ⟨draws, hsel⟩ := select_returns hi hm rand
    (List.getElem?_eq_getElem hlt) (h.kid_mem _ (List.getElem_mem hlt))
    h.kid_exists
  refine ⟨draws, ?_⟩
  unfold hierStep
  rw [hsel]

theorem failed_eq (r : Nat) (draws : List Draw) :
    hierStep h ⟨.stealFailed, r, draws⟩ arg = some (hierFailed h arg) := by
  unfold hierStep selectVictimHierarchy
  rw [if_neg hm.ne_nil]
  dsimp only
  rw [if_pos hi.high]

end

theorem success_eq (hm : h.Minimal m) (r : Nat) (draws : List Draw)
    (arg : HierArg) :
    hierStep h ⟨.stealSuccess, r, draws⟩ arg = some { arg with
      depth := arg.depthMin
      index := 0 } := by
  unfold hierStep selectVictimHierarchy
  rw [if_neg hm.ne_nil]

/-- A failure is one tick of the round. -/
theorem place_failed (hm : 0 < m) (hmin : arg.depthMin = m) :
    place m (hierFailed h arg)
      = tick (hierQuota h m) m h.depth ⟨arg.depth, arg.index⟩ := by
  have hne : ¬ m = 0 := Nat.pos_iff_ne_zero.mp hm
  unfold hierFailed tick place nextDepth
  rw [hmin]
  by_cases hq : hierQuota h m arg.depth ≤ arg.index + 1
  · rw [if_pos hq, if_pos hq]
    dsimp only
    rw [if_neg hne]
    rfl
  · rw [if_neg hq, if_neg hq]
    dsimp only
    rw [if_neg hne]

/-- A failure keeps the invariant. -/
theorem HierInv.failed (hi : HierInv h m arg) :
    HierInv h m (hierFailed h arg) := by
  unfold hierFailed
  have hlow := hi.low
  have hhigh := hi.high
  split
  next =>
    refine ⟨hi.depthMin, ?_, ?_⟩
    · dsimp only
      split
      next => exact Nat.le_refl _
      next => omega
    · dsimp only
      split
      next => omega
      next => omega
  next => exact ⟨hi.depthMin, hlow, hhigh⟩

theorem hierInv_selected (hi : HierInv h m arg) (hm : h.Minimal m) (seed : Nat) :
    HierInv h m ⟨nextDepth m arg, m, arg.index, seed⟩ :=
  ⟨.inr rfl, hi.le_nextDepth, hi.nextDepth_lt hm⟩

/-- Every call keeps it. -/
theorem HierInv.step (hi : HierInv h m arg) (hm : h.Minimal m) {c : SelectCall}
    (hs : hierStep h c arg = some arg') : HierInv h m arg' := by
  obtain ⟨flag, r, draws⟩ := c
  cases flag with
  | selectVictim =>
    obtain ⟨seed, rfl⟩ := selected_eq (x := (r, draws)) hi hm hs
    exact hierInv_selected hi hm seed
  | stealSuccess =>
    rw [success_eq hm] at hs
    cases hs
    exact ⟨hi.depthMin, Nat.le_refl _, Nat.lt_of_le_of_lt hi.low hi.high⟩
  | stealFailed =>
    rw [failed_eq hi hm] at hs
    cases hs
    exact hi.failed

/-- It holds in every reachable state. -/
theorem HierReachable.inv (hr : HierReachable h arg) (hm : h.Minimal m) :
    HierInv h m arg := by
  have h₀ : HierInv h m HierArg.zero :=
    ⟨.inl rfl, Nat.le_refl 0, Nat.zero_lt_of_lt hm.lt⟩
  obtain ⟨calls, hrun⟩ := hr
  exact run_preserves (fun hi hs => HierInv.step hi hm hs) h₀ hrun

-- ======== the rounds

theorem failedRounds_cons (hi : HierInv h m arg) (hm : h.Minimal m) {x : Nat × List Draw}
    {rest : List (Nat × List Draw)} (hr : failedRounds h (x :: rest) arg = some r) :
    ∃ seed r', failedRounds h rest
        (hierFailed h ⟨nextDepth m arg, m, arg.index, seed⟩) = some r'
      ∧ r = (nextDepth m arg :: r'.1, r'.2) := by
  unfold failedRounds at hr
  obtain ⟨selected, hsel, hr⟩ := Option.bind_eq_some_iff.mp hr
  obtain ⟨failed, hfail, hr⟩ := Option.bind_eq_some_iff.mp hr
  obtain ⟨r', hrest, rfl⟩ := Option.map_eq_some_iff.mp hr
  obtain ⟨seed, rfl⟩ := selected_eq hi hm hsel
  unfold failedCall at hfail
  rw [failed_eq (hierInv_selected hi hm seed) hm] at hfail
  cases hfail
  exact ⟨seed, r', hrest, rfl⟩

/-- Failed rounds tick along the levels. -/
theorem failedRounds_eq (hm : h.Minimal m) (hpos : 0 < m) {rs : List (Nat × List Draw)}
    (hi : HierInv h m arg) (hr : failedRounds h rs arg = some r) :
    HierInv h m r.2
      ∧ place m r.2 = (tick (hierQuota h m) m h.depth)^[rs.length] (place m arg)
      ∧ r.1 = (List.range rs.length).map fun i =>
        ((tick (hierQuota h m) m h.depth)^[i] (place m arg)).stop := by
  induction rs generalizing arg r with
  | nil =>
    cases hr
    exact ⟨hi, rfl, rfl⟩
  | cons x rest ih =>
    obtain ⟨seed, r', hrest, rfl⟩ := failedRounds_cons hi hm hr
    have hsel := hierInv_selected hi hm seed
    obtain ⟨hinv, hplace, hls⟩ := ih hsel.failed hrest
    rw [place_failed hpos rfl] at hplace hls
    refine ⟨hinv, hplace, ?_⟩
    dsimp only
    rw [hls, List.length_cons, List.range_succ_eq_map, List.map_cons,
      List.map_map]
    rfl

/-- With the least depth 0 they stay there. -/
theorem failedRounds_zero (hm : h.Minimal 0) {rs : List (Nat × List Draw)}
    (hi : HierInv h 0 arg) (hr : failedRounds h rs arg = some r) : ∀ d ∈ r.1, d = 0 := by
  induction rs generalizing arg r with
  | nil =>
    cases hr
    exact fun d hd => nomatch hd
  | cons x rest ih =>
    obtain ⟨seed, r', hrest, rfl⟩ := failedRounds_cons hi hm hr
    have hnext : nextDepth 0 arg = 0 := if_pos (hi.depthMin.elim id id)
    intro d hd
    rcases List.mem_cons.mp hd with rfl | hd
    · exact hnext
    · exact ih (hierInv_selected hi hm seed).failed hrest d hd

/-- There are rounds of any number. -/
theorem exists_rounds (hm : h.Minimal m) (n : Nat) (hi : HierInv h m arg) :
    ∃ rs r, rs.length = n ∧ failedRounds h rs arg = some r := by
  induction n generalizing arg with
  | zero => exact ⟨[], _, rfl, rfl⟩
  | succ n ih =>
    obtain ⟨draws, hsel⟩ := exists_select hi hm 0
    have hinv := hierInv_selected hi hm 0
    obtain ⟨rs, r, hlen, hr⟩ := ih hinv.failed
    refine ⟨(0, draws) :: rs, (nextDepth m arg :: r.1, r.2),
      congrArg Nat.succ hlen, ?_⟩
    unfold failedRounds
    rw [hsel, Option.bind_some]
    unfold failedCall
    rw [failed_eq hinv hm, Option.bind_some, hr, Option.map_some]

-- ======== the three results

/-- With a least depth above 0 every level is reached. -/
theorem reachesEveryLevel_of_pos (hm : h.Minimal m) (hpos : 0 < m) :
    ReachesEveryLevel h m := by
  intro arg hreach
  have hi := hreach.inv hm
  refine ⟨fun n => exists_rounds hm n hi, total (hierQuota h m) m h.depth,
    fun rs r hr hlen d hd hd' => ?_⟩
  obtain ⟨i, hlt, hstop⟩ := exists_tick (hierQuota h m) m h.depth
    (p := place m arg) hi.le_nextDepth (hi.nextDepth_lt hm) hd hd'
  rw [(failedRounds_eq hm hpos hi hr).2.2]
  exact List.mem_map.mpr
    ⟨i, List.mem_range.mpr (Nat.lt_of_lt_of_le hlt hlen), hstop⟩

/-- With the least depth 0 not. -/
theorem not_reachesEveryLevel (hm : h.Minimal 0) (hdepth : 1 < h.depth) :
    ¬ ReachesEveryLevel h 0 := by
  intro hall
  have hreach : HierReachable h HierArg.zero := Reachable.refl _
  have hi := hreach.inv hm
  obtain ⟨hrounds, bound, hbound⟩ := hall HierArg.zero hreach
  obtain ⟨rs, r, hlen, hr⟩ := hrounds bound
  have hmem := hbound rs r hr (Nat.le_of_eq hlen.symm) 1 (Nat.zero_le 1) hdepth
  exact Nat.one_ne_zero (failedRounds_zero hm hi hr 1 hmem)

/-- No level is left out for ever. -/
theorem noneExcluded_of_pos (hm : h.Minimal m) (hpos : 0 < m) :
    NoneExcluded h m := by
  intro arg hreach d level hd hlevel v hv hex
  have hi := hreach.inv hm
  obtain ⟨hd', -⟩ := List.getElem?_eq_some_iff.mp hlevel
  obtain ⟨i, -, hstop⟩ := exists_tick (hierQuota h m) m h.depth
    (p := place m arg) hi.le_nextDepth (hi.nextDepth_lt hm) hd hd'
  obtain ⟨rs, r, rfl, hr⟩ := exists_rounds hm i hi
  obtain ⟨hinv, hplace, -⟩ := failedRounds_eq hm hpos hi hr
  have hnext : nextDepth m r.2 = d := by
    rw [← hplace] at hstop
    exact hstop
  obtain ⟨draws, hsel⟩ := select_returns hinv hm 0 (hnext ▸ hlevel) hv hex
  exact ⟨rs, r, draws, _, hr, hsel⟩

/-- A success restarts at the least depth. -/
theorem restartsAt (hm : h.Minimal m) : RestartsAt h m := by
  intro arg arg' selected x hreach hs hsel
  have hi := hreach.inv hm
  unfold successCall at hs
  rw [success_eq hm] at hs
  have hi' : HierInv h m arg' := hi.step hm (c := successCall) <| by
    unfold successCall
    rw [success_eq hm]
    exact hs
  cases hs
  obtain ⟨seed, rfl⟩ := selected_eq hi' hm hsel
  show (if arg.depthMin = 0 then m else arg.depthMin) = m
  split
  next => rfl
  next hne => exact hi.depthMin.resolve_left hne

/-- For every hierarchy with at least two levels from the minimal one:
every level is reached from every reachable state, no kprocessor is
excluded, and a success restarts the search at the minimal level, iff the
first level has a single kid. -/
theorem hierarchy_reaches_iff (h : Hierarchy) (m : Nat) (hm : h.Minimal m)
    (hdepth : m + 2 ≤ h.depth) :
    (ReachesEveryLevel h m ∧ NoneExcluded h m ∧ RestartsAt h m)
      ↔ h.nkids 0 = 1 := by
  constructor
  · intro hall
    by_contra hone
    obtain rfl : m = 0 := by
      by_contra hne
      exact hone (hm.below 0 (Nat.pos_of_ne_zero hne))
    exact not_reachesEveryLevel hm hdepth hall.1
  · intro hone
    have hpos : 0 < m := by
      refine Nat.pos_of_ne_zero fun h₀ => hm.here ?_
      rw [h₀]
      exact hone
    exact ⟨reachesEveryLevel_of_pos hm hpos, noneExcluded_of_pos hm hpos,
      restartsAt hm⟩

/-- Four cores, two for each cache and a level for each core. -/
def privateCaches : Hierarchy where
  kid := 0
  levels := [⟨[0], [1]⟩, ⟨[0, 1], [2, 3]⟩, ⟨[0, 1, 2, 3], []⟩]
  allKprocessors := [true, true, true, true]
  countKprocessors := 4
  kid_exists := rfl
  kid_mem := by decide
  kids_lt := by decide
  notself_lt := by decide
  count_pos := Nat.zero_lt_succ 3
  count_le := by decide

theorem privateCaches_minimal : privateCaches.Minimal 1 where
  below := by decide
  here := by decide
  lt := by decide

theorem hierarchy_reaches_privateCaches :
    ReachesEveryLevel privateCaches 1 ∧ NoneExcluded privateCaches 1
      ∧ RestartsAt privateCaches 1 :=
  (hierarchy_reaches_iff privateCaches 1 privateCaches_minimal
    (by decide)).mpr rfl

/-- Four cores, two for each cache, without a level for each core. -/
def sharedCaches : Hierarchy where
  kid := 0
  levels := [⟨[0, 1], [2, 3]⟩, ⟨[0, 1, 2, 3], []⟩]
  allKprocessors := [true, true, true, true]
  countKprocessors := 4
  kid_exists := rfl
  kid_mem := by decide
  kids_lt := by decide
  notself_lt := by decide
  count_pos := Nat.zero_lt_succ 3
  count_le := by decide

theorem sharedCaches_minimal : sharedCaches.Minimal 0 where
  below := by decide
  here := by decide
  lt := by decide

theorem sharedCaches_unreached : sharedCaches.Minimal 0
    ∧ 0 + 2 ≤ sharedCaches.depth ∧ ¬ ReachesEveryLevel sharedCaches 0 :=
  ⟨sharedCaches_minimal, by decide,
    not_reachesEveryLevel sharedCaches_minimal (by decide)⟩

end XKaapi.Steal
