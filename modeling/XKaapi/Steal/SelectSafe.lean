/-
What a selection of a victim accesses, over any sequence of calls.

The policies differ in where they can leave the hierarchy: pws starts at
the level 2 and draws in sets that may be empty, hwsn draws in the others of
the first level after a success, and the hierarchical selection reads the
levels until it finds one with two kids. `Meets` is the condition on a call
for each of them; `select_safe_iff` says that nothing else goes wrong.
-/
import XKaapi.Steal.SelectHierarchy

namespace XKaapi.Steal

open StepMachine

-- ======== the runs

/-- `KAAPI_WSSELECT`: the function that `fnc_select` points to, with its
arguments. -/
inductive Selector
  | hierarchy (arg : HierArg)
  | pws (arg : PwsArg)
  | hwsn (arg : HwsnArg)
  | aff (arg : AffArg)
deriving DecidableEq, Repr

/-- The arguments are 0 at first. -/
inductive Selector.Initial : Selector → Prop
  | hierarchy : Initial (.hierarchy HierArg.zero)
  | pws : Initial (.pws PwsArg.zero)
  | hwsn : Initial (.hwsn HwsnArg.zero)
  | aff : Initial (.aff AffArg.zero)

def Selector.call (h : Hierarchy) (c : SelectCall) :
    Selector → Outcome Selector
  | .hierarchy arg => (selectVictimHierarchy h c arg).map .hierarchy
  | .pws arg => (selectVictimPws h c arg).map .pws
  | .hwsn arg => (selectVictimHwsn h c arg).map .hwsn
  | .aff arg => (selectVictimAff h c arg).map .aff

/-- A kprocessor between two calls, the first fault, and the victims so
far. -/
structure Thief where
  selector : Selector
  fault : Option Fault
  victims : List Nat
deriving DecidableEq, Repr

def Thief.start (selector : Selector) : Thief := ⟨selector, none, []⟩

/-- A call; there is none after a fault. -/
def selectStep (h : Hierarchy) (c : SelectCall) (s : Thief) : Option Thief :=
  if s.fault = none then
    match s.selector.call h c with
    | .mismatch => none
    | .fault e => some { s with fault := some e }
    | .returns selector victim =>
      some ⟨selector, none, victim.toList ++ s.victims⟩
  else none

/-- No call has left the hierarchy or taken a remainder by zero, and the
victims exist. -/
def Thief.Good (h : Hierarchy) (s : Thief) : Prop :=
  s.fault = none ∧ ∀ v ∈ s.victims, h.allKprocessors[v]? = some true

-- ======== the condition

/-- The sets of a level that a draw of pws may go to are not empty. -/
def PwsDraws (level : OneLevel) (draws : List Draw) : Prop :=
  ∀ x ∈ draws, level.notself ≠ []
    ∨ 5 * (x.value % level.kids.length) < 4 * level.kids.length

/-- What a selection needs. -/
def SelectMeets (h : Hierarchy) (rand : Nat) (draws : List Draw) :
    Selector → Prop
  | .hierarchy arg => arg.depthMin = 0 → ∃ l ∈ h.levels, l.kids.length ≠ 1
  | .pws arg => ∃ l, h.levels[(pwsInit rand arg).level]? = some l
      ∧ PwsDraws l draws
  | .hwsn arg => 1 < h.countKprocessors → arg.init ≠ 0 → arg.policy = 1 →
      ∃ l, h.levels[0]? = some l ∧ l.notself ≠ []
  | .aff _ => True

/-- A selection in a hierarchy meets the condition of its policy. -/
def CallMeets (h : Hierarchy) (c : SelectCall) (s : Thief) : Prop :=
  c.flag = .selectVictim → h.levels ≠ [] →
    SelectMeets h c.rand c.draws s.selector

-- ======== draws

variable {h : Hierarchy} {pick : Nat → Except Fault Nat} {draws : List Draw} {v : Nat}
  {level : OneLevel}

/-- The loop is safe iff each draw picks. -/
theorem redoSelect_safe_iff
    (hlt : ∀ x v, pick x = .ok v → v < h.allKprocessors.length)
    (hmis : redoSelect h pick draws ≠ .mismatch) :
    (∀ f, redoSelect h pick draws ≠ .fault f)
      ↔ ∀ x ∈ draws, ∃ v, pick x.value = .ok v := by
  constructor
  · intro hsafe
    induction draws with
    | nil => exact fun x hx => nomatch hx
    | cons x rest ih =>
      unfold redoSelect at hmis hsafe
      cases hp : pick x.value with
      | error e =>
        rw [hp] at hsafe
        exact absurd rfl (hsafe e)
      | ok v =>
        rw [hp] at hmis hsafe
        dsimp only at hmis hsafe
        have hv := hlt _ _ hp
        rw [List.getElem?_eq_getElem hv] at hmis hsafe
        have hrest : ∀ y ∈ rest, ∃ w, pick y.value = .ok w := by
          cases hb : h.allKprocessors[v] with
          | false =>
            rw [hb] at hmis hsafe
            exact ih hmis hsafe
          | true =>
            rw [hb] at hmis
            by_cases hnil : rest = []
            · rw [hnil]
              exact fun y hy => nomatch hy
            · exact absurd (if_neg hnil) hmis
        intro y hy
        rcases List.mem_cons.mp hy with rfl | hy
        · exact ⟨v, hp⟩
        · exact hrest y hy
  · intro hpick f
    refine redoSelect_ne_fault fun x hx => ?_
    obtain ⟨v, hv⟩ := hpick x hx
    exact ⟨v, hv, hlt _ _ hv⟩

theorem draws_ne_nil (hmis : redoSelect h pick draws ≠ .mismatch) :
    draws ≠ [] := by
  rintro rfl
  exact hmis rfl

/-- A draw picks in a set that is not empty. -/
theorem pickIn_eq_ok_iff {kids : List Nat} {r : Nat} :
    (∃ v, pickIn kids r = .ok v) ↔ kids ≠ [] := by
  constructor
  · rintro ⟨v, hv⟩ rfl
    cases hv
  · intro hk
    obtain ⟨v, -, hv⟩ := pickIn_ok hk r
    exact ⟨v, hv⟩

theorem mem_of_pickIn {kids : List Nat} {r : Nat} (hv : pickIn kids r = .ok v) :
    v ∈ kids := by
  have hk : kids ≠ [] := pickIn_eq_ok_iff.mp ⟨v, hv⟩
  obtain ⟨w, hw, hpick⟩ := pickIn_ok hk r
  rw [hpick] at hv
  cases hv
  exact hw

-- ======== outcomes

/-- What is to be shown of a call: it is without fault iff the condition is
met, a victim exists, and the arguments keep their invariant. -/
structure Sound {α : Type} (h : Hierarchy) (meets : Prop) (inv : α → Prop)
    (out : Outcome α) : Prop where
  safe : out ≠ .mismatch → ((∀ f, out ≠ .fault f) ↔ meets)
  victim : ∀ arg v, out = .returns arg (some v) →
    h.allKprocessors[v]? = some true
  inv : ∀ arg v, out = .returns arg v → inv arg

variable {α β : Type} {meets : Prop} {inv : α → Prop} {inv' : β → Prop}
  {out : Outcome α}

theorem Sound.returns {arg : α} (hm : meets) (hi : inv arg) :
    Sound h meets inv (.returns arg none) where
  safe _ := iff_of_true (fun f hf => nomatch hf) hm
  victim _ _ hr := nomatch hr
  inv _ _ hr := by
    cases hr
    exact hi

theorem Sound.fault {f : Fault} (hm : ¬ meets) :
    Sound h meets inv (.fault f : Outcome α) where
  safe _ := iff_of_false (fun hs => hs f rfl) hm
  victim _ _ hr := nomatch hr
  inv _ _ hr := nomatch hr

theorem Sound.mismatch : Sound h meets inv (.mismatch : Outcome α) where
  safe hne := absurd rfl hne
  victim _ _ hr := nomatch hr
  inv _ _ hr := nomatch hr

/-- A result of a sound call. -/
theorem Sound.map {g : α → β} (hs : Sound h meets inv out)
    (hi : ∀ a, inv a → inv' (g a)) : Sound h meets inv' (out.map g) := by
  cases out with
  | mismatch => exact .mismatch
  | fault f =>
    have hf := hs.safe nofun
    exact .fault fun hm => hf.mpr hm f rfl
  | returns arg victim =>
    have hm : meets := (hs.safe nofun).mp fun f hf => nomatch hf
    refine ⟨fun _ => iff_of_true (fun f hf => nomatch hf) hm, ?_, ?_⟩
    · intro a v hr
      cases hr
      exact hs.victim arg v rfl
    · intro a v hr
      cases hr
      exact hi arg (hs.inv arg _ rfl)

theorem Sound.congr {meets' : Prop} (hs : Sound h meets inv out)
    (hm : meets ↔ meets') : Sound h meets' inv out :=
  ⟨fun hne => (hs.safe hne).trans hm, hs.victim, hs.inv⟩

/-- The loop is sound when each draw is. -/
theorem Sound.loop (hlt : ∀ x v, pick x = .ok v → v < h.allKprocessors.length)
    (hm : draws ≠ [] → ((∀ x ∈ draws, ∃ v, pick x.value = .ok v) ↔ meets)) :
    Sound h meets (fun _ => True) (redoSelect h pick draws) := by
  refine ⟨fun hne => ?_, fun seed v hr => ?_, fun _ _ _ => trivial⟩
  · exact (redoSelect_safe_iff hlt hne).trans (hm (draws_ne_nil hne))
  · obtain ⟨w, hw, hex⟩ := redoSelect_exists hr
    cases hw
    exact hex

-- ======== policies

/-- The random policy is always safe. -/
theorem rand_sound (h : Hierarchy) (c : SelectCall) :
    Sound h True (fun _ => True) (selectVictimRand h c) := by
  obtain ⟨flag, r, draws⟩ := c
  unfold selectVictimRand
  cases flag with
  | stealSuccess => exact .returns trivial trivial
  | stealFailed => exact .returns trivial trivial
  | selectVictim =>
    dsimp only
    split
    next => exact .returns trivial trivial
    next =>
      refine .loop (fun x v hv => ?_)
        fun _ => iff_of_true (fun x _ => ⟨_, rfl⟩) trivial
      cases hv
      exact Nat.lt_of_lt_of_le (Nat.mod_lt x h.count_pos) h.count_le

/-- So is one that draws among all. -/
theorem flat_sound {arg : α} (h : Hierarchy) (c : SelectCall) (hm : meets)
    (hi : inv arg) :
    Sound h meets inv ((selectVictimRand h c).map fun _ => arg) :=
  ((rand_sound h c).congr (iff_of_true trivial hm)).map fun _ _ => hi

/-- The least depth with a choice, or none. -/
theorem computeDepthMin_cases (levels : List OneLevel) (d : Nat) :
    (∃ k, k < levels.length ∧ computeDepthMin levels d = .ok (d + k)
        ∧ ∃ l ∈ levels, l.kids.length ≠ 1)
      ∨ (∃ e, computeDepthMin levels d = .error e)
        ∧ ¬ ∃ l ∈ levels, l.kids.length ≠ 1 := by
  induction levels generalizing d with
  | nil => exact .inr ⟨⟨_, rfl⟩, fun ⟨l, hl, _⟩ => nomatch hl⟩
  | cons level rest ih =>
    unfold computeDepthMin
    by_cases hone : level.kids.length = 1
    · rw [if_pos hone]
      rcases ih (d + 1) with ⟨k, hk, hok, l, hl, hne⟩ | ⟨herr, hall⟩
      · refine .inl ⟨k + 1, Nat.succ_lt_succ hk, ?_, l,
          List.mem_cons_of_mem _ hl, hne⟩
        rw [hok, Nat.add_assoc, Nat.add_comm 1 k]
      · refine .inr ⟨herr, ?_⟩
        rintro ⟨l, hl, hne⟩
        rcases List.mem_cons.mp hl with rfl | hl
        · exact hne hone
        · exact hall ⟨l, hl, hne⟩
    · rw [if_neg hone]
      exact .inl ⟨0, Nat.succ_pos _, rfl, level, List.mem_cons_self, hone⟩

/-- The current level is one of the hierarchy. -/
def HierIn (h : Hierarchy) (arg : HierArg) : Prop :=
  h.levels ≠ [] → arg.depthMin ≤ arg.depth ∧ arg.depth < h.depth

theorem kids_ne_nil (hl : level ∈ h.levels) : level.kids ≠ [] :=
  List.ne_nil_of_mem (h.kid_mem level hl)

theorem hierFailed_in {arg : HierArg} (hi : HierIn h arg) :
    HierIn h (hierFailed h arg) := by
  intro hne
  obtain ⟨hlow, hhigh⟩ := hi hne
  unfold hierFailed
  split
  next =>
    dsimp only
    split
    next => omega
    next => omega
  next => exact ⟨hlow, hhigh⟩

/-- The hierarchy policy. -/
theorem hierarchy_sound (c : SelectCall) {arg : HierArg} (hi : HierIn h arg) :
    Sound h (c.flag = .selectVictim → h.levels ≠ [] →
        arg.depthMin = 0 → ∃ l ∈ h.levels, l.kids.length ≠ 1)
      (HierIn h) (selectVictimHierarchy h c arg) := by
  obtain ⟨flag, r, draws⟩ := c
  unfold selectVictimHierarchy
  by_cases hnil : h.levels = []
  · rw [if_pos hnil]
    exact flat_sound h _ (fun _ hne => absurd hnil hne) hi
  · rw [if_neg hnil]
    obtain ⟨hlow, hhigh⟩ := hi hnil
    cases flag with
    | stealFailed =>
      dsimp only
      rw [if_pos hhigh]
      exact .returns nofun (hierFailed_in hi)
    | stealSuccess =>
      exact .returns nofun
        fun _ => ⟨Nat.le_refl _, Nat.lt_of_le_of_lt hlow hhigh⟩
    | selectVictim =>
      -- a selection from a level of the hierarchy is without fault
      have hredo : ∀ (arg' : HierArg) (level : OneLevel), level ∈ h.levels →
          arg'.depthMin ≤ arg'.depth → arg'.depth < h.depth →
          ∀ meets : Prop, meets → Sound h meets (HierIn h)
            ((redoSelect h (pickIn level.kids) draws).map
              fun seed => { arg' with seed := seed }) := by
        intro arg' level hmem hlow' hhigh' meets hm
        refine Sound.map (.loop (fun x v hv => ?_) fun _ => ?_)
          fun seed _ _ => ⟨hlow', hhigh'⟩
        · exact h.kids_lt _ hmem v (mem_of_pickIn hv)
        · exact iff_of_true
            (fun x _ => pickIn_eq_ok_iff.mpr (kids_ne_nil hmem)) hm
      dsimp only
      unfold hierInit
      by_cases h₀ : arg.depthMin = 0
      · rw [if_pos h₀]
        rcases computeDepthMin_cases h.levels 0 with
          ⟨k, hk, hok, hex⟩ | ⟨⟨e, herr⟩, hall⟩
        · rw [hok, Nat.zero_add]
          simp only [List.getElem?_eq_getElem hk]
          exact hredo ⟨k, k, arg.index, r⟩ _ (List.getElem_mem hk)
            (Nat.le_refl k) hk _ fun _ _ _ => hex
        · rw [herr]
          exact .fault fun hm => hall (hm rfl hnil h₀)
      · rw [if_neg h₀]
        simp only [List.getElem?_eq_getElem hhigh]
        exact hredo arg _ (List.getElem_mem hhigh) hlow hhigh _
          fun _ _ hz => absurd hz h₀

/-- A draw of pws picks iff its level has others or it falls on the kids. -/
theorem pickPws_eq_ok_iff (hk : level.kids ≠ []) (x : Nat) :
    (∃ v, pickPws level x = .ok v) ↔ level.notself ≠ []
      ∨ 5 * (x % level.kids.length) < 4 * level.kids.length := by
  have hpos := List.length_pos_iff.mpr hk
  unfold pickPws
  rw [if_neg (by omega)]
  by_cases hn : level.notself = []
  · rw [hn, List.length_nil, Nat.add_zero]
    split
    next hlt => exact iff_of_true (pickIn_eq_ok_iff.mpr hk) (.inr hlt)
    next hge =>
      refine iff_of_false (fun hok => pickIn_eq_ok_iff.mp hok rfl) ?_
      rintro (hne | hlt)
      · exact hne rfl
      · exact hge hlt
  · refine iff_of_true ?_ (.inl hn)
    split
    next => exact pickIn_eq_ok_iff.mpr hk
    next => exact pickIn_eq_ok_iff.mpr hn

theorem mem_of_pickPws {x : Nat} (hv : pickPws level x = .ok v) :
    v ∈ level.kids ∨ v ∈ level.notself := by
  unfold pickPws at hv
  split at hv
  next => cases hv
  next =>
    split at hv
    next => exact .inl (mem_of_pickIn hv)
    next => exact .inr (mem_of_pickIn hv)

/-- The levels of pws are 0, 1 and 2. -/
def PwsIn (arg : PwsArg) : Prop := arg.level ≤ 2

theorem pwsInit_in {arg : PwsArg} (r : Nat) (hi : PwsIn arg) :
    PwsIn (pwsInit r arg) := by
  unfold pwsInit
  split
  next => exact Nat.le_refl 2
  next => exact hi

/-- The pws policy. -/
theorem pws_sound (h : Hierarchy) (c : SelectCall) {arg : PwsArg}
    (hi : PwsIn arg) :
    Sound h (c.flag = .selectVictim → h.levels ≠ [] →
        ∃ l, h.levels[(pwsInit c.rand arg).level]? = some l
          ∧ PwsDraws l c.draws)
      PwsIn (selectVictimPws h c arg) := by
  obtain ⟨flag, r, draws⟩ := c
  unfold selectVictimPws
  by_cases hnil : h.levels = []
  · rw [if_pos hnil]
    exact flat_sound h _ (fun _ hne => absurd hnil hne) hi
  · rw [if_neg hnil]
    cases flag with
    | stealFailed =>
      refine .returns nofun ?_
      show (if arg.level < 2 then arg.level + 1 else arg.level) ≤ 2
      split
      next hlt => exact hlt
      next => exact hi
    | stealSuccess => exact .returns nofun (Nat.zero_le 2)
    | selectVictim =>
      dsimp only
      cases hl : h.levels[(pwsInit r arg).level]? with
      | none =>
        refine .fault fun hm => ?_
        obtain ⟨l, hl', -⟩ := hm rfl hnil
        cases hl'
      | some level =>
        have hmem : level ∈ h.levels := List.mem_of_getElem? hl
        refine Sound.map (.loop (fun x v hv => ?_) fun _ => ?_)
          fun _ _ => pwsInit_in r hi
        · rcases mem_of_pickPws hv with hv | hv
          · exact h.kids_lt level hmem v hv
          · exact h.notself_lt level hmem v hv
        · have hpick := pickPws_eq_ok_iff (kids_ne_nil hmem)
          constructor
          · intro hall _ _
            exact ⟨level, rfl, fun x hx => (hpick x.value).mp (hall x hx)⟩
          · intro hm x hx
            obtain ⟨l, hl', hdraws⟩ := hm rfl hnil
            cases hl'
            exact (hpick x.value).mpr (hdraws x hx)

/-- A draw of hwsn picks iff its policy is not 1 or the first level has
others. -/
theorem pickHwsn_eq_ok_iff (h : Hierarchy) (policy r : Nat) :
    (∃ v, pickHwsn h policy r = .ok v) ↔ (policy = 1 →
      ∃ l, h.levels[0]? = some l ∧ l.notself ≠ []) := by
  unfold pickHwsn
  by_cases hp : policy = 1
  · rw [if_pos hp, forall_prop_of_true hp]
    cases hl : h.levels[0]? with
    | none =>
      refine iff_of_false ?_ ?_
      · rintro ⟨v, hv⟩
        cases hv
      · rintro ⟨l, hl', -⟩
        cases hl'
    | some level =>
      refine pickIn_eq_ok_iff.trans ⟨fun hn => ⟨level, rfl, hn⟩, ?_⟩
      rintro ⟨l, hl', hn⟩
      cases hl'
      exact hn
  · rw [if_neg hp]
    exact iff_of_true ⟨_, rfl⟩ fun hp' => absurd hp' hp

theorem lt_of_pickHwsn {policy x : Nat} (hv : pickHwsn h policy x = .ok v) :
    v < h.allKprocessors.length := by
  unfold pickHwsn at hv
  split at hv
  next =>
    split at hv
    next => cases hv
    next level hl =>
      exact h.notself_lt level (List.mem_of_getElem? hl) v (mem_of_pickIn hv)
  next =>
    cases hv
    exact Nat.lt_of_lt_of_le (Nat.mod_lt x h.count_pos) h.count_le

/-- `init` is 0 or 1. -/
def HwsnIn (arg : HwsnArg) : Prop := arg.init ≠ -1

theorem hwsnInit_in {arg : HwsnArg} (r : Nat) (hi : HwsnIn arg) :
    HwsnIn (hwsnInit r arg) := by
  unfold hwsnInit
  split
  next => exact show (1 : Int) ≠ -1 by decide
  next => exact hi

theorem hwsnInit_policy (r : Nat) (arg : HwsnArg) :
    (hwsnInit r arg).policy = 1 ↔ arg.init ≠ 0 ∧ arg.policy = 1 := by
  unfold hwsnInit
  by_cases h₀ : arg.init = 0
  · rw [if_pos h₀]
    exact iff_of_false (show ¬ 2 = 1 by decide) fun hp => hp.1 h₀
  · rw [if_neg h₀]
    exact (and_iff_right h₀).symm

/-- The hwsn policy. -/
theorem hwsn_sound (h : Hierarchy) (c : SelectCall) {arg : HwsnArg}
    (hi : HwsnIn arg) :
    Sound h (c.flag = .selectVictim → h.levels ≠ [] →
        1 < h.countKprocessors → arg.init ≠ 0 → arg.policy = 1 →
          ∃ l, h.levels[0]? = some l ∧ l.notself ≠ [])
      HwsnIn (selectVictimHwsn h c arg) := by
  obtain ⟨flag, r, draws⟩ := c
  unfold selectVictimHwsn
  by_cases hnil : h.levels = []
  · rw [if_pos (.inl hnil)]
    exact flat_sound h _ (fun _ hne => absurd hnil hne) hi
  · rw [if_neg (not_or.mpr ⟨hnil, hi⟩)]
    cases flag with
    | stealFailed => exact .returns nofun hi
    | stealSuccess => exact .returns nofun hi
    | selectVictim =>
      dsimp only
      by_cases hone : h.countKprocessors ≤ 1
      · rw [if_pos hone]
        exact .returns (fun _ _ hlt => absurd hlt (Nat.not_lt.mpr hone))
          (hwsnInit_in r hi)
      · rw [if_neg hone]
        refine Sound.map (.loop (fun x v hv => lt_of_pickHwsn hv)
          fun hdraws => ?_) fun _ _ => hwsnInit_in r hi
        constructor
        · intro hall _ _ _ h₀ hp
          obtain ⟨x, rest, rfl⟩ := List.exists_cons_of_ne_nil hdraws
          exact (pickHwsn_eq_ok_iff h _ x.value).mp
            (hall x List.mem_cons_self) ((hwsnInit_policy r arg).mpr ⟨h₀, hp⟩)
        · intro hm x _
          refine (pickHwsn_eq_ok_iff h _ x.value).mpr fun hp => ?_
          obtain ⟨h₀, hp⟩ := (hwsnInit_policy r arg).mp hp
          exact hm rfl hnil (Nat.lt_of_not_le hone) h₀ hp

theorem affSelect_sound (h : Hierarchy) (arg : AffArg) :
    Sound h True (fun _ => True) (affSelect h arg) := by
  have hlt : arg.nextvictim % h.countKprocessors < h.allKprocessors.length :=
    Nat.lt_of_lt_of_le (Nat.mod_lt _ h.count_pos) h.count_le
  unfold affSelect
  rw [List.getElem?_eq_getElem hlt]
  cases hb : h.allKprocessors[arg.nextvictim % h.countKprocessors] with
  | false => exact .mismatch
  | true =>
    refine ⟨fun _ => iff_of_true (fun f hf => nomatch hf) trivial, ?_,
      fun _ _ _ => trivial⟩
    intro a v hr
    cases hr
    rw [List.getElem?_eq_getElem hlt, hb]

theorem affDraw_sound (h : Hierarchy) (draws : List Draw) :
    Sound h True (fun _ => True) (affDraw draws) := by
  unfold affDraw
  split
  next => exact .returns trivial trivial
  next => exact .mismatch

/-- The affinity policy is always safe. -/
theorem aff_sound (h : Hierarchy) (c : SelectCall) (arg : AffArg) :
    Sound h True (fun _ => True) (selectVictimAff h c arg) := by
  obtain ⟨flag, r, draws⟩ := c
  unfold selectVictimAff
  cases flag with
  | stealFailed => exact affDraw_sound h draws
  | stealSuccess => exact .returns trivial trivial
  | selectVictim =>
    dsimp only
    split
    next =>
      have hdraw := affDraw_sound h draws
      cases hd : affDraw draws with
      | mismatch => exact .mismatch
      | fault f =>
        rw [hd] at hdraw
        exact absurd rfl ((hdraw.safe nofun).mpr trivial f)
      | returns arg' _ => exact affSelect_sound h arg'
    next => exact affSelect_sound h arg

-- ======== the calls

/-- The arguments in every reachable state. -/
def SelectorIn (h : Hierarchy) : Selector → Prop
  | .hierarchy arg => HierIn h arg
  | .pws arg => PwsIn arg
  | .hwsn arg => HwsnIn arg
  | .aff _ => True

/-- Every call is safe iff it meets the condition. -/
theorem call_sound (c : SelectCall) {s : Thief} (hi : SelectorIn h s.selector) :
    Sound h (CallMeets h c s) (SelectorIn h) (s.selector.call h c) := by
  obtain ⟨selector, fault, victims⟩ := s
  cases selector with
  | hierarchy arg => exact (hierarchy_sound c hi).map fun _ ha => ha
  | pws arg => exact (pws_sound h c hi).map fun _ ha => ha
  | hwsn arg => exact (hwsn_sound h c hi).map fun _ ha => ha
  | aff arg =>
    refine ((aff_sound h c arg).congr ?_).map fun _ ha => ha
    exact iff_of_true trivial fun _ _ => trivial

/-- A policy at its start. -/
theorem initial_in {selector : Selector} (hp : selector.Initial) :
    SelectorIn h selector := by
  cases hp with
  | hierarchy =>
    intro hne
    exact ⟨Nat.le_refl 0, List.length_pos_iff.mpr hne⟩
  | pws => exact Nat.zero_le 2
  | hwsn => exact show (0 : Int) ≠ -1 by decide
  | aff => exact trivial

/-- A step stays good iff its call meets the condition. -/
theorem selectStep_good {c : SelectCall} {s s' : Thief}
    (hi : SelectorIn h s.selector) (hg : s.Good h)
    (hs : selectStep h c s = some s') :
    SelectorIn h s'.selector ∧ (s'.Good h ↔ CallMeets h c s) := by
  obtain ⟨-, hs⟩ := Option.ite_none_right_eq_some.mp hs
  have hcall := call_sound c hi
  cases hout : s.selector.call h c with
  | mismatch =>
    rw [hout] at hs
    cases hs
  | fault f =>
    rw [hout] at hs hcall
    cases hs
    have hno := hcall.safe nofun
    exact ⟨hi, iff_of_false (fun hg' => nomatch hg'.1)
      fun hm => hno.mpr hm f rfl⟩
  | returns selector victim =>
    rw [hout] at hs hcall
    cases hs
    have hyes := hcall.safe nofun
    refine ⟨hcall.inv _ _ rfl, iff_of_true ⟨rfl, ?_⟩
      (hyes.mp fun f hf => nomatch hf)⟩
    intro v hv
    rcases List.mem_append.mp hv with hv | hv
    · obtain rfl := Option.mem_toList.mp hv
      exact hcall.victim _ v rfl
    · exact hg.2 v hv

-- ======== the calls of a policy

/-- For every hierarchy and each of the four policies, in every sequence of
calls: no call has left the hierarchy or taken a remainder by zero and all
victims exist, in every state, iff every selection meets the condition of
its policy. -/
theorem select_safe_iff (h : Hierarchy) (selector : Selector)
    (hp : selector.Initial) (calls : List SelectCall) (s : Thief)
    (hrun : run (selectStep h) calls (Thief.start selector) = some s) :
    (∀ bs, bs <+: calls → ∀ t,
        run (selectStep h) bs (Thief.start selector) = some t → t.Good h)
      ↔ Along (selectStep h) (CallMeets h) calls (Thief.start selector) := by
  have hstart : (Thief.start selector).Good h :=
    ⟨rfl, fun v hv => absurd hv List.not_mem_nil⟩
  refine Along.iff_good
    (P := fun s : Thief => SelectorIn h s.selector ∧ s.Good h)
    (fun hP => hP.2) (fun hQ hP hs => ?_) (fun hQ hP hs hG => ?_)
    ⟨initial_in hp, hstart⟩ hrun
  · obtain ⟨hi, hiff⟩ := selectStep_good hP.1 hP.2 hs
    exact ⟨hi, hiff.mpr hQ⟩
  · exact hQ ((selectStep_good hP.1 hP.2 hs).2.mp hG)

/-- The first selection of pws, from the machine level. -/
theorem select_safe_privateCaches : ∃ s,
    run (selectStep privateCaches) [⟨.selectVictim, 5, [⟨1, 7⟩]⟩]
      (Thief.start (.pws PwsArg.zero)) = some s
    ∧ s.victims = [1] ∧ s.Good privateCaches := by
  refine ⟨_, rfl, rfl, ?_⟩
  refine (select_safe_iff privateCaches (.pws PwsArg.zero) .pws
    [⟨.selectVictim, 5, [⟨1, 7⟩]⟩] _ rfl).mpr ⟨?_, fun _ _ => trivial⟩
    _ (List.prefix_refl _) _ rfl
  exact fun _ _ => ⟨⟨[0, 1, 2, 3], []⟩, rfl, fun x hx => by
    obtain rfl := List.mem_singleton.mp hx
    exact .inr (by decide)⟩

/-- Two kprocessors under a single level. -/
def flatMachine : Hierarchy where
  kid := 0
  levels := [⟨[0, 1], []⟩]
  allKprocessors := [true, true]
  countKprocessors := 2
  kid_exists := rfl
  kid_mem := by decide
  kids_lt := by decide
  notself_lt := by decide
  count_pos := by decide
  count_le := by decide

/-- There pws reads the level 2 in its first selection, and hwsn takes a
remainder by zero in the selection after a success. -/
theorem flatMachine_faults :
    (∃ s, run (selectStep flatMachine) [⟨.selectVictim, 5, [⟨0, 7⟩]⟩]
        (Thief.start (.pws PwsArg.zero)) = some s
      ∧ s.fault = some (.level 2) ∧ ¬ s.Good flatMachine)
    ∧ ∃ s, run (selectStep flatMachine)
        [⟨.selectVictim, 5, [⟨1, 7⟩]⟩, ⟨.stealSuccess, 0, []⟩,
          ⟨.selectVictim, 0, [⟨1, 8⟩]⟩]
        (Thief.start (.hwsn HwsnArg.zero)) = some s
      ∧ s.fault = some .remainder ∧ ¬ s.Good flatMachine :=
  ⟨⟨_, rfl, rfl, fun hg => nomatch hg.1⟩, ⟨_, rfl, rfl, fun hg => nomatch hg.1⟩⟩

end XKaapi.Steal
