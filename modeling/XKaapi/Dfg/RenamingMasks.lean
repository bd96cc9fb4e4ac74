/-
The renaming masks between the analysis and the two bodies
(src/task/kaapi_task_computeready.c, src/task/kaapi_task_steal_body.c).

Three loops over the parameters exchange two words. For any mode words,
flags and stack accesses included, `analysis_masks` says which bits
`taskComputeready` sets, `copy_renames` what the loop of
`kaapi_tasksteal_body` makes of them, and `write_masks` what the loop of
`kaapi_taskwrite_body` leaves of them.

A bit says more than the thief does with it: a cumulative write in place
has its bit and keeps its datum (`InPlace`), and the bit of a stack
parameter is dropped before the merge. `renaming_masks` says what the
thief renames. `ShiftsFit` leaves out the shifts of a 32-bit word by 32
and more, which C leaves undefined, and the callbacks of the format that
abort.
-/
import XKaapi.Dfg.StealEffect

namespace XKaapi.Dfg

open ForLoop
open Function (update update_of_ne update_self)

-- ======== what is renamed

/-- The map after the accesses of one more parameter. -/
def visit (map : HashMap) (p : Param) : HashMap :=
  if p.m = modeV ∨ map p.data ≠ modeVoid then map
  else fun a => if a = p.data then p.m else map a

/-- The mode that the analysis compares parameter `i` with. -/
def lastMode (map : HashMap) (params : List Param) (i : Nat) (p : Param) :
    AccessMode := ((params.take i).foldl visit map) p.data

/-- A write that does not read, after any access: a write after a read or
after a write. -/
def Hazard (last m : AccessMode) : Prop :=
  accessIsOnlywrite m = true ∧ last ≠ modeVoid

/-- What makes the analysis mark a parameter: a hazard, a cumulative write
or a stack access. -/
def Marked (last m : AccessMode) : Prop :=
  Hazard last m ∨ accessIsCumulwrite m = true ∨ accessIsStack m = true

/-- A cumulative write that works on the datum itself. -/
def Param.InPlace (p : Param) : Prop :=
  accessIsCumulwrite p.m = true ∧ p.mode &&& modeIP ≠ 0
    ∧ accessIsOnlywrite p.m = false ∧ accessIsStack p.m = false

/-- What the thief works on a storage of its own for. -/
def Renames (last : AccessMode) (p : Param) : Prop :=
  Marked last p.m ∧ ¬ p.InPlace

instance (last m : AccessMode) : Decidable (Marked last m) :=
  inferInstanceAs (Decidable ((_ ∧ _) ∨ _ ∨ _))

instance (p : Param) : Decidable p.InPlace :=
  inferInstanceAs (Decidable (_ ∧ _ ∧ _ ∧ _))

instance (last : AccessMode) (p : Param) : Decidable (Renames last p) :=
  inferInstanceAs (Decidable (_ ∧ ¬ _))

/-- Every shift of the three loops is by less than the width of the
masks, and the format says where the values are and takes the views of
what is renamed. -/
structure ShiftsFit {V : Type*} (fmt : TaskFormat V) (map : HashMap)
    (params : List Param) : Prop where
  marked : ∀ i p, params[i]? = some p → Marked (lastMode map params i p) p.m →
    i < 32
  tested : (∃ i p, params[i]? = some p ∧ Marked (lastMode map params i p) p.m) →
    ∀ i p, params[i]? = some p → mayRename p = true → i < 32
  address : (∃ i p, params[i]? = some p ∧ Marked (lastMode map params i p) p.m) →
    ∀ i p, params[i]? = some p → p.m = modeV → formatGetDataParam fmt i = some ()
  view : ∀ i p, params[i]? = some p → Renames (lastMode map params i p) p →
    formatSetViewParam fmt i = some ()

/-- What the owner has to merge: what is marked and written, not only on
the stack. -/
def Merges (last : AccessMode) (p : Param) : Prop :=
  Marked last p.m
    ∧ (accessIsOnlywrite p.m = true ∨ accessIsCumulwrite p.m = true)

section Renaming

variable {V : Type*} (fmt : TaskFormat V) (body : Body V)
  (params : List Param) (map : HashMap) (version : Nat → Option Loc)

/-- The copy that the thief leaves to `kaapi_taskwrite_body`. -/
def copyRecord (r : Scan) (copy : Args) : Option Args :=
  if r.warParam = 0 ∧ r.cwParam = 0 then none else some copy

/-- The thief runs the body on fresh storage for what is renamed, and on
the data of the program for the rest. -/
def ThiefRenames (r : Scan) (m : Mem V) (copy : Args) : Prop :=
  (∃ m', taskstealBody fmt body params r.warParam r.cwParam
      (origArgs params version) m
    = (callBody fmt body params copy m').map fun m => (m, copyRecord r copy))
  ∧ ∀ i p, params[i]? = some p →
    ((copy i).data = .fresh i ↔ Renames (lastMode map params i p) p)
      ∧ (p.m ≠ modeV → ¬ Renames (lastMode map params i p) p →
        (copy i).data = .datum p.data)

/-- What the thief renamed comes back at its own index, and a merge is
published iff there is something to merge. -/
def WriteReturns (r : Scan) (copy : Args) : Prop :=
  ∀ m : Mem V, (∀ i p, params[i]? = some p → p.m = modeV →
      (m.copyField i).isSome) →
    ∃ w pub, taskwriteBody fmt params r.warParam r.cwParam (origArgs params version)
        (copyRecord r copy) m = some (w, pub)
      ∧ (∀ i p, params[i]? = some p → Renames (lastMode map params i p) p →
        mayRename p = true → (w.orig i).version = some (.fresh i))
      ∧ (pub = .merge
        ↔ ∃ i p, params[i]? = some p ∧ Merges (lastMode map params i p) p)

end Renaming

-- ======== the analysis

section Analysis

variable {map : HashMap} {params : List Param} {i j : Nat} {p : Param} {s s' : Scan}
  {ps : List Param}

/-- The two tests of the scan. -/
theorem marked_iff (last m : AccessMode) :
    (accessWar m last = true ∨ accessIsCumulwrite m = true)
      ↔ Marked last m := by
  unfold accessWar Marked Hazard
  simp only [Bool.or_eq_true, Bool.and_eq_true, bne_iff_ne]
  tauto

theorem not_marked_modeV {last : AccessMode} (h : p.m = modeV) :
    ¬ Marked last p.m := by
  unfold Marked Hazard
  rw [h]
  rintro (⟨hw, -⟩ | hc | hs)
  · exact absurd hw (by decide)
  · exact absurd hc (by decide)
  · exact absurd hs (by decide)

/-- A bit of the analysis: of a ready parameter that passes its test. -/
def Sets (test : AccessMode → AccessMode → Bool) (last m : AccessMode) : Prop :=
  m ≠ modeV ∧ accessReady m last = true ∧ test m last = true

/-- The tests of the two masks. -/
def cwTest (m _ : AccessMode) : Bool := accessIsCumulwrite m

/-- One turn: the map, the count and the bits. -/
structure Turned (i : Nat) (p : Param) (s s' : Scan) : Prop where
  map : s'.map = visit s.map p
  wc : s'.wc = if p.m = modeV ∨ accessReady p.m (s.map p.data) = true
    then s.wc - 1 else s.wc
  war : ∀ j, s'.warParam.getLsbD j = true ↔ s.warParam.getLsbD j = true
    ∨ j = i ∧ Sets accessWar (s.map p.data) p.m
  cw : ∀ j, s'.cwParam.getLsbD j = true ↔ s.cwParam.getLsbD j = true
    ∨ j = i ∧ Sets cwTest (s.map p.data) p.m

/-- The map after a parameter. -/
theorem updateLastMode_eq (s : Scan) (hv : p.m ≠ modeV) :
    updateLastMode p s = { s with map := visit s.map p } := by
  unfold updateLastMode visit
  by_cases hvoid : s.map p.data = modeVoid
  · rw [if_pos hvoid, if_neg (by tauto)]
  · rw [if_neg hvoid, if_pos (by tauto)]

/-- What one turn changes. -/
theorem computereadyParam_turned (h : computereadyParam i p s = some s') :
    Turned i p s s' := by
  unfold computereadyParam at h
  split at h
  next hv =>
    cases h
    refine ⟨?_, (if_pos (.inl hv)).symm, fun j => ?_, fun j => ?_⟩
    · exact (if_pos (.inl hv)).symm
    · rw [or_iff_left fun hj => hj.2.1 hv]
    · rw [or_iff_left fun hj => hj.2.1 hv]
  next hv =>
    simp only [Option.map_eq_some_iff] at h
    obtain ⟨s₁, hmark, rfl⟩ := h
    rw [updateLastMode_eq s₁ hv]
    split at hmark
    next hready =>
      simp only [markReady, Option.bind_eq_bind, Option.bind_eq_some_iff,
        Option.some.injEq] at hmark
      obtain ⟨war, hwar, cw, hcw, rfl⟩ := hmark
      refine ⟨rfl, (if_pos (.inr hready)).symm, fun j => ?_, fun j => ?_⟩
      · refine (getLsbD_orBitIf hwar j).trans ?_
        simp [Sets, hv, hready]
      · refine (getLsbD_orBitIf hcw j).trans ?_
        simp [Sets, hv, hready, cwTest]
    next hready =>
      cases hmark
      refine ⟨rfl, (if_neg (by tauto)).symm, fun j => ?_, fun j => ?_⟩
      · rw [or_iff_left fun hj => hready hj.2.2.1]
      · rw [or_iff_left fun hj => hready hj.2.2.1]

/-- A turn ends when its bit fits. -/
theorem computereadyParam_defined (hfits : Marked (s.map p.data) p.m → i < 32) :
    ∃ s', computereadyParam i p s = some s' := by
  unfold computereadyParam
  split
  next hv => exact ⟨_, rfl⟩
  next hv =>
    simp only
    split
    next hready =>
      obtain ⟨s₁, hs₁⟩ := markReady_isSome (s := s) (m := p.m)
        (f := s.map p.data) fun h => hfits ((marked_iff _ _).mp h)
      exact ⟨_, by rw [hs₁]; rfl⟩
    next hwait => exact ⟨_, rfl⟩

@[simp] theorem lastMode_zero (map : HashMap) (ps : List Param) (p : Param) :
    lastMode map ps 0 p = map p.data := by
  simp [lastMode]

@[simp] theorem lastMode_succ (map : HashMap) (ps : List Param)
    (p₀ p : Param) (n : Nat) :
    lastMode map (p₀ :: ps) (n + 1) p = lastMode (visit map p₀) ps n p := by
  simp [lastMode]

/-- Every parameter is a value or ready. -/
def AllReady (map : HashMap) (ps : List Param) : Prop :=
  ∀ n p, ps[n]? = some p →
    p.m = modeV ∨ accessReady p.m (lastMode map ps n p) = true

/-- All are ready, one by one. -/
theorem allReady_cons :
    AllReady map (p :: ps)
      ↔ (p.m = modeV ∨ accessReady p.m (map p.data) = true)
        ∧ AllReady (visit map p) ps := by
  unfold AllReady
  rw [forall_getElem?_cons]
  simp

/-- Bit `j` is the bit of one of the parameters from `i` on. -/
def SetsAt (test : AccessMode → AccessMode → Bool) (map : HashMap)
    (ps : List Param) (i j : Nat) : Prop :=
  ∃ n p, ps[n]? = some p ∧ j = i + n ∧ Sets test (lastMode map ps n p) p.m

/-- The bit of a later parameter. -/
theorem setsAt_cons {test : AccessMode → AccessMode → Bool} :
    SetsAt test map (p :: ps) i j
      ↔ (j = i ∧ Sets test (map p.data) p.m)
        ∨ SetsAt test (visit map p) ps (i + 1) j := by
  constructor
  · intro ⟨n, q, hq, hj, hset⟩
    cases n with
    | zero =>
      cases hq
      rw [lastMode_zero] at hset
      exact .inl ⟨hj, hset⟩
    | succ n =>
      rw [lastMode_succ] at hset
      exact .inr ⟨n, q, by simpa using hq, by omega, hset⟩
  · rintro (⟨hj, hset⟩ | ⟨n, q, hq, hj, hset⟩)
    · exact ⟨0, p, rfl, hj, by rwa [lastMode_zero]⟩
    · exact ⟨n + 1, q, by simpa using hq, by omega, by rwa [lastMode_succ]⟩

/-- What the loop does on `ps`, from parameter `i` on. -/
structure Analysed (i : Nat) (ps : List Param) (s s' : Scan) : Prop where
  wc_le : ps.length ≤ s.wc → s.wc ≤ s'.wc + ps.length
  wc_eq : ps.length ≤ s.wc → (s'.wc + ps.length = s.wc ↔ AllReady s.map ps)
  war : ∀ j, s'.warParam.getLsbD j = true
    ↔ s.warParam.getLsbD j = true ∨ SetsAt accessWar s.map ps i j
  cw : ∀ j, s'.cwParam.getLsbD j = true
    ↔ s.cwParam.getLsbD j = true ∨ SetsAt cwTest s.map ps i j

/-- What all the turns change. -/
theorem computereadyLoop_analysed (h : computereadyLoop i ps s = some s') :
    Analysed i ps s s' := by
  induction ps generalizing i s with
  | nil =>
    cases h
    refine ⟨fun _ => Nat.le_refl _, fun _ => ?_, fun j => ?_, fun j => ?_⟩
    · exact iff_of_true rfl fun n p hp => by simp at hp
    · refine (or_iff_left ?_).symm
      intro ⟨n, p, hp, _⟩
      simp at hp
    · refine (or_iff_left ?_).symm
      intro ⟨n, p, hp, _⟩
      simp at hp
  | cons p ps ih =>
    simp only [computereadyLoop, Option.bind_eq_bind,
      Option.bind_eq_some_iff] at h
    obtain ⟨s₁, hturn, hrest⟩ := h
    have ht := computereadyParam_turned hturn
    obtain ⟨hle, heq, hwar, hcw⟩ := ih hrest
    simp only [ht.map] at heq hwar hcw
    have hwc := ht.wc
    refine ⟨fun hlen => ?_, fun hlen => ?_, fun j => ?_, fun j => ?_⟩
    · rw [List.length_cons] at hlen ⊢
      split at hwc
      next => omega
      next => omega
    · rw [allReady_cons, List.length_cons]
      rw [List.length_cons] at hlen
      split at hwc
      next hready =>
        rw [and_iff_right hready, ← heq (by omega)]
        omega
      next hready =>
        refine iff_of_false ?_ fun hc => hready hc.1
        omega
    · rw [hwar, ht.war, setsAt_cons, or_assoc]
    · rw [hcw, ht.cw, setsAt_cons, or_assoc]

/-- They end when the bits fit. -/
theorem computereadyLoop_defined
    (hfits : ∀ n p, ps[n]? = some p → Marked (lastMode s.map ps n p) p.m → i + n < 32) :
    ∃ s', computereadyLoop i ps s = some s' := by
  induction ps generalizing i s with
  | nil => exact ⟨s, rfl⟩
  | cons p ps ih =>
    rw [forall_getElem?_cons] at hfits
    simp only [lastMode_zero, lastMode_succ, Nat.add_zero] at hfits
    obtain ⟨s₁, hturn⟩ := computereadyParam_defined (s := s) hfits.1
    have ht := computereadyParam_turned hturn
    obtain ⟨s', hrest⟩ := ih (i := i + 1) (s := s₁) fun n q hq hmark => by
      rw [ht.map] at hmark
      have := hfits.2 n q hq hmark
      omega
    exact ⟨s', by rw [computereadyLoop, hturn]; exact hrest⟩

theorem accessWar_modeV (last : AccessMode) : accessWar modeV last = false := by
  unfold accessWar
  rw [show accessIsOnlywrite modeV = false by decide,
    show accessIsCumulwrite modeV = false by decide,
    show accessIsStack modeV = false by decide]
  rfl

/-- What the masks of a task found ready are. -/
structure Masks (map : HashMap) (params : List Param) (r : Scan) : Prop where
  marked : ∀ i, r.renamed i
    ↔ ∃ p, params[i]? = some p ∧ Marked (lastMode map params i p) p.m
  cw : ∀ i, r.cwParam.getLsbD i = true
    ↔ ∃ p, params[i]? = some p ∧ accessIsCumulwrite p.m = true

theorem setsAt_zero {test : AccessMode → AccessMode → Bool}
    (hready : AllReady map params) (hv : ∀ last, test modeV last = false)
    (j : Nat) :
    SetsAt test map params 0 j
      ↔ ∃ p, params[j]? = some p ∧ test p.m (lastMode map params j p) = true := by
  constructor
  · intro ⟨n, p, hp, hj, hset⟩
    rw [Nat.zero_add] at hj
    subst hj
    exact ⟨p, hp, hset.2.2⟩
  · intro ⟨p, hp, htest⟩
    have hne : p.m ≠ modeV := by
      intro hm
      rw [hm, hv] at htest
      cases htest
    exact ⟨j, p, hp, (Nat.zero_add j).symm, hne,
      (hready j p hp).resolve_left hne, htest⟩

/-- The masks of a ready task. -/
theorem analysis_masks {r : Scan} (h : taskComputeready params map = some r) :
    (r.wc = 0 ↔ AllReady map params) ∧ (r.wc = 0 → Masks map params r) := by
  have hloop : Analysed 0 params (scanInit params map) r :=
    computereadyLoop_analysed h
  have hwc : r.wc = 0 ↔ AllReady map params := by
    rw [← show AllReady (scanInit params map).map params
      ↔ AllReady map params from Iff.rfl, ← hloop.wc_eq (Nat.le_refl _)]
    show r.wc = 0 ↔ r.wc + params.length = params.length
    omega
  refine ⟨hwc, fun hzero => ?_⟩
  have hready := hwc.mp hzero
  have hmask : ∀ j, (0 : BitVec 32).getLsbD j = true ↔ False := by
    intro j
    rw [show (0 : BitVec 32).getLsbD j = false from BitVec.getLsbD_zero]
    exact iff_of_false Bool.false_ne_true id
  have hwar : ∀ j, r.warParam.getLsbD j = true ↔ ∃ p, params[j]? = some p
      ∧ accessWar p.m (lastMode map params j p) = true := by
    intro j
    rw [hloop.war, ← setsAt_zero hready accessWar_modeV j]
    exact or_iff_right (hmask j).mp
  have hcw : ∀ j, r.cwParam.getLsbD j = true ↔ ∃ p, params[j]? = some p
      ∧ accessIsCumulwrite p.m = true := by
    intro j
    have hset : SetsAt cwTest map params 0 j ↔ _ :=
      setsAt_zero hready (fun _ =>
        show accessIsCumulwrite modeV = false by decide) j
    rw [hloop.cw]
    exact (or_iff_right (hmask j).mp).trans hset
  refine ⟨fun i => ?_, hcw⟩
  unfold Scan.renamed
  rw [hwar, hcw]
  constructor
  · rintro (⟨p, hp, ht⟩ | ⟨p, hp, ht⟩)
    · exact ⟨p, hp, (marked_iff _ _).mp (.inl ht)⟩
    · exact ⟨p, hp, (marked_iff (lastMode map params i p) _).mp (.inr ht)⟩
  · intro ⟨p, hp, hm⟩
    rcases (marked_iff _ _).mpr hm with ht | ht
    · exact .inl ⟨p, hp, ht⟩
    · exact .inr ⟨p, hp, ht⟩

end Analysis

-- ======== the copy

section Copy

variable {V : Type*} {fmt : TaskFormat V} {map : HashMap}
  {params : List Param} {r : Scan} {version : Nat → Option Loc}
  {i k : Nat} {p : Param} {st : Mem V × Args} {last : AccessMode}

/-- A parameter is renamed when it is marked and may be. -/
theorem renames_iff :
    Renames last p
      ↔ Marked last p.m ∧ (accessIsStack p.m = true ∨ mayRename p = true) := by
  unfold Renames Param.InPlace Marked Hazard mayRename
  simp only [Bool.or_eq_true, Bool.and_eq_true, beq_iff_eq, ne_eq,
    ← Bool.not_eq_true]
  tauto

/-- Parameter `i` is renamed. -/
def renamesAt (map : HashMap) (params : List Param) (i : Nat) : Bool :=
  match params[i]? with
  | some p => decide (Renames (lastMode map params i p) p)
  | none => false

theorem renamesAt_iff (hp : params[i]? = some p) :
    renamesAt map params i = true ↔ Renames (lastMode map params i p) p := by
  unfold renamesAt
  rw [hp]
  exact decide_eq_true_iff

/-- The record of the thief: fresh storage for what is renamed. -/
def copyArgs (map : HashMap) (params : List Param)
    (version : Nat → Option Loc) (k i : Nat) : Access :=
  if i < k ∧ renamesAt map params i = true then ⟨.fresh i, none⟩
  else formatTaskCopy params (origArgs params version) i

theorem copyArgs_succ :
    copyArgs map params version (k + 1)
      = if renamesAt map params k = true
        then update (copyArgs map params version k) k ⟨.fresh k, none⟩
        else copyArgs map params version k := by
  funext i
  unfold copyArgs
  by_cases hren : renamesAt map params k = true
  · rw [if_pos hren]
    by_cases hik : i = k
    · subst hik
      rw [update_self, if_pos ⟨Nat.lt_succ_self i, hren⟩]
    · rw [update_of_ne hik]
      exact if_congr (lt_succ_and_iff fun heq => absurd heq hik) rfl rfl
  · rw [if_neg hren]
    exact if_congr (lt_succ_and_iff fun heq => heq ▸ hren) rfl rfl

/-- One turn of the copy. -/
theorem stealParam_renames (hm : Masks map params r)
    (hf : ShiftsFit fmt map params) (hsome : ∃ i, r.renamed i)
    (hp : params[k]? = some p) (hst : st.2 = copyArgs map params version k) :
    ∃ st', stealParam fmt r.warParam r.cwParam (origArgs params version) k p st
        = some st'
      ∧ st'.2 = copyArgs map params version (k + 1) := by
  have hmark : r.renamed k ↔ Marked (lastMode map params k p) p.m := by
    rw [hm.marked k]
    constructor
    · intro ⟨q, hq, hmark⟩
      rw [hp] at hq
      cases hq
      exact hmark
    · exact fun hmark => ⟨p, hp, hmark⟩
  have hview : renamesAt map params k = true →
      formatSetViewParam fmt k = some () :=
    fun hren => hf.view k p hp ((renamesAt_iff hp).mp hren)
  have hmarked : ∃ i p, params[i]? = some p
      ∧ Marked (lastMode map params i p) p.m := by
    obtain ⟨i, hi⟩ := hsome
    obtain ⟨q, hq, hqm⟩ := (hm.marked i).mp hi
    exact ⟨i, q, hq, hqm⟩
  have hno : ¬ Renames (lastMode map params k p) p →
      copyArgs map params version (k + 1) = copyArgs map params version k := by
    intro hno
    rw [copyArgs_succ, if_neg (mt (renamesAt_iff hp).mp hno)]
  have hyes : Renames (lastMode map params k p) p →
      copyArgs map params version (k + 1) = update st.2 k ⟨.fresh k, none⟩
        := by
    intro hyes
    rw [copyArgs_succ, if_pos ((renamesAt_iff hp).mpr hyes), hst]
  unfold stealParam
  split
  next hv =>
    -- V: copied into the field of the copy
    have hdata : (st.2 k).data = .copyField k := by
      rw [hst, copyArgs, if_neg (fun hc => Nat.lt_irrefl k hc.1)]
      unfold formatTaskCopy
      simp only [hp, if_pos hv]
    rw [hf.address hmarked k p hp hv, origArgs_value hp hv, hdata]
    refine ⟨_, rfl, hst.trans (hno fun hren => ?_).symm⟩
    exact not_marked_modeV hv hren.1
  next hv =>
    split
    next hstack =>
      have hren : Renames (lastMode map params k p) p :=
        renames_iff.mpr ⟨.inr (.inr hstack), .inl hstack⟩
      refine ⟨(st.1.malloc k (some (st.1.datum p.data)),
        update st.2 k ⟨.fresh k, none⟩), ?_, (hyes hren).symm⟩
      unfold stackParam
      rw [origArgs_shared hp hv, hview ((renamesAt_iff hp).mpr hren)]
      rfl
    next hstack =>
      split
      next hmay =>
        have hk := hf.tested hmarked k p hp hmay
        rw [takesFresh_eq hk, Option.bind_some]
        split
        next hbit =>
          have hren : Renames (lastMode map params k p) p :=
            renames_iff.mpr ⟨hmark.mp (Scan.ren_iff.mp hbit), .inr hmay⟩
          refine ⟨(st.1.malloc k (if r.cwParam.getLsbD k
            then some (fmt.reduction k).neutral else fmt.cstor k),
            update st.2 k ⟨.fresh k, none⟩), ?_, (hyes hren).symm⟩
          unfold freshParam maskHas
          rw [if_pos hk, hview ((renamesAt_iff hp).mpr hren)]
          rfl
        next hbit =>
          refine ⟨st, rfl, hst.trans (hno fun hren => hbit ?_).symm⟩
          exact Scan.ren_iff.mpr (hmark.mpr hren.1)
      next hmay =>
        refine ⟨st, rfl, hst.trans (hno fun hren => ?_).symm⟩
        rcases (renames_iff.mp hren).2 with hs | hr
        · exact hstack hs
        · exact hmay hr

/-- The copy renames the parameters of the masks. -/
theorem copy_renames (hm : Masks map params r) (hf : ShiftsFit fmt map params)
    (hsome : ∃ i, r.renamed i) (version : Nat → Option Loc) (m : Mem V) :
    ∃ m', forIdx (stealParam fmt r.warParam r.cwParam (origArgs params version))
        0 params (m, formatTaskCopy params (origArgs params version))
      = some (m', copyArgs map params version params.length) := by
  have hstart : formatTaskCopy params (origArgs params version)
      = copyArgs map params version 0 := by
    funext i
    exact (if_neg fun hc => Nat.not_lt_zero i hc.1).symm
  obtain ⟨st, hrun, hst⟩ := forIdx_spec
    (I := fun k st => st.2 = copyArgs map params version k)
    (f := stealParam fmt r.warParam r.cwParam (origArgs params version))
    (s := (m, formatTaskCopy params (origArgs params version))) hstart
    fun k p st hp hst => stealParam_renames hm hf hsome hp hst
  exact ⟨st.1, by rw [hrun, ← hst]⟩

end Copy

-- ======== the write

section Write

variable {V : Type*} {fmt : TaskFormat V} {params : List Param}
  {war : BitVec 32} {copy orig₀ : Args} {m₀ : Mem V} {k : Nat} {p : Param} {st : Writeback V}

/-- The bit of parameter `i` that is dropped. -/
def Drops (params : List Param) (i : Nat) : Prop :=
  ∃ p, params[i]? = some p ∧ mayRename p = false ∧ accessIsStack p.m = true

/-- The original record and the mask after `k` parameters. -/
structure WroteBack (params : List Param) (copy orig₀ : Args) (m₀ : Mem V)
    (war : BitVec 32) (k : Nat) (st : Writeback V) : Prop where
  copyField : ∀ i, k ≤ i → st.mem.copyField i = m₀.copyField i
  version : ∀ i p, params[i]? = some p → mayRename p = true → i < k →
    (st.orig i).version = some (copy i).data
  war : ∀ i, st.war.getLsbD i = true
    ↔ war.getLsbD i = true ∧ ¬ (i < k ∧ Drops params i)

theorem getLsbD_and_not_shiftLeft {w : BitVec 32} {i : Nat} (hi : i < 32)
    (j : Nat) :
    (w &&& ~~~(1#32 <<< i)).getLsbD j = true
      ↔ w.getLsbD j = true ∧ j ≠ i := by
  rw [BitVec.getLsbD_and, BitVec.getLsbD_not, Bool.and_eq_true,
    Bool.and_eq_true, Bool.not_eq_true', ← Bool.not_eq_true,
    getLsbD_one_shiftLeft hi, decide_eq_true_eq]
  constructor
  · exact fun h => ⟨h.1, h.2.2⟩
  · exact fun h => ⟨h.1, BitVec.lt_of_getLsbD h.1, h.2⟩

theorem mayRename_modeV (hv : p.m = modeV) : mayRename p = false := by
  unfold mayRename
  rw [hv, show accessIsOnlywrite modeV = false by decide,
    show accessIsCumulwrite modeV = false by decide]
  rfl

/-- A parameter that keeps its bit. -/
theorem not_drops (hp : params[k]? = some p)
    (hno : ¬ (mayRename p = false ∧ accessIsStack p.m = true)) (i : Nat) :
    (i < k + 1 ∧ Drops params i) ↔ (i < k ∧ Drops params i) := by
  refine lt_succ_and_iff ?_
  rintro rfl ⟨q, hq, hdrop⟩
  rw [hp] at hq
  cases hq
  exact hno hdrop

/-- One turn of the loop over the original. -/
theorem writebackParam_wroteBack (hp : params[k]? = some p)
    (hfit : mayRename p = false → accessIsStack p.m = true → k < 32)
    (hvalue : p.m = modeV → formatGetDataParam fmt k = some ()
      ∧ (copy k).data = .copyField k ∧ (m₀.copyField k).isSome)
    (h : WroteBack params copy orig₀ m₀ war k st) :
    ∃ st', writebackParam fmt copy k p st = some st'
      ∧ WroteBack params copy orig₀ m₀ war (k + 1) st' := by
  have hold : ∀ i q, params[i]? = some q → mayRename q = true → i < k + 1 →
      mayRename p = false → (st.orig i).version = some (copy i).data := by
    intro i q hq hmay hi hno
    refine h.version i q hq hmay (Nat.lt_of_le_of_ne (Nat.le_of_lt_succ hi) ?_)
    intro heq
    subst heq
    rw [hp] at hq
    cases hq
    rw [hno] at hmay
    cases hmay
  unfold writebackParam
  split
  next hv =>
    obtain ⟨hget, hdata, hsome⟩ := hvalue hv
    obtain ⟨v, hv₀⟩ := Option.isSome_iff_exists.mp hsome
    have hno := mayRename_modeV hv
    have hstack : accessIsStack p.m = false := by rw [hv]; decide
    have hcur : st.mem.copyField k = some v := by
      rw [h.copyField k (Nat.le_refl k), hv₀]
    rw [hget, hdata]
    show ∃ st', ((st.mem.copyField k).map _).map _ = some st' ∧ _
    rw [hcur]
    refine ⟨_, rfl, fun i hi => ?_, fun i q hq hmay hi => hold i q hq hmay hi hno,
      fun i => ?_⟩
    · show update st.mem.copyField k none i = _
      rw [update_of_ne (by omega)]
      exact h.copyField i (by omega)
    · rw [not_drops hp (fun hc => by rw [hstack] at hc; cases hc.2)]
      exact h.war i
  next hv =>
    split
    next hmay =>
      refine ⟨_, rfl, fun i hi => h.copyField i (by omega),
        fun i q hq hq' hi => ?_, fun i => ?_⟩
      · show (update st.orig k _ i).version = _
        by_cases hik : i = k
        · subst hik
          rw [update_self]
        · rw [update_of_ne hik]
          exact h.version i q hq hq' (by omega)
      · rw [not_drops hp (fun hc => by rw [hmay] at hc; cases hc.1)]
        exact h.war i
    next hmay =>
      have hno := Bool.eq_false_iff.mpr hmay
      split
      next hstack =>
        have hk := hfit hno hstack
        unfold maskHas
        rw [if_pos hk]
        refine ⟨_, rfl, fun i hi => h.copyField i (by omega),
          fun i q hq hq' hi => hold i q hq hq' hi hno, fun i => ?_⟩
        show (st.war &&& ~~~(1#32 <<< k)).getLsbD i = true ↔ _
        rw [getLsbD_and_not_shiftLeft hk, h.war, and_assoc]
        refine and_congr_right fun _ => ?_
        by_cases hik : i = k
        · subst hik
          refine iff_of_false (fun hc => hc.2 rfl) fun hc => hc ?_
          exact ⟨Nat.lt_succ_self i, p, hp, hno, hstack⟩
        · rw [and_iff_left hik, lt_succ_and_iff fun heq => absurd heq hik]
      next hstack =>
        refine ⟨st, rfl, fun i hi => h.copyField i (by omega),
          fun i q hq hq' hi => hold i q hq hq' hi hno, fun i => ?_⟩
        rw [not_drops hp fun hc => hstack hc.2]
        exact h.war i

/-- The masks that are left for the merge. -/
theorem write_masks (war : BitVec 32) (orig₀ : Args)
    (hfit : ∀ i, Drops params i → i < 32)
    (hvalue : ∀ i p, params[i]? = some p → p.m = modeV →
      formatGetDataParam fmt i = some () ∧ (copy i).data = .copyField i
        ∧ (m₀.copyField i).isSome) :
    ∃ st, forIdx (writebackParam fmt copy) 0 params ⟨m₀, orig₀, war⟩ = some st
      ∧ WroteBack params copy orig₀ m₀ war params.length st := by
  refine forIdx_spec ⟨fun _ _ => rfl, fun i p _ _ hi =>
    absurd hi (Nat.not_lt_zero i),
    fun i => ?_⟩ fun k p st hp hst => ?_
  · rw [and_iff_left fun hc => Nat.not_lt_zero i hc.1]
  · exact writebackParam_wroteBack hp
      (fun hno hstack => hfit k ⟨p, hp, hno, hstack⟩) (hvalue k p hp) hst

end Write

-- ======== all the loops

section Whole

variable {V : Type*} {fmt : TaskFormat V} {map : HashMap}
  {params : List Param} {r : Scan}

/-- The copy is made of what the masks mark. -/
theorem thiefRenames (body : Body V) (hm : Masks map params r)
    (hf : ShiftsFit fmt map params) (version : Nat → Option Loc) (m : Mem V) :
    ThiefRenames fmt body params map version r m
      (if r.warParam = 0 ∧ r.cwParam = 0 then origArgs params version
        else copyArgs map params version params.length) := by
  by_cases hzero : r.warParam = 0 ∧ r.cwParam = 0
  · have hnone := Scan.masks_zero_iff.mp hzero
    rw [if_pos hzero]
    refine ⟨⟨m, ?_⟩, fun i p hp => ?_⟩
    · unfold taskstealBody copyRecord
      rw [if_pos hzero, if_pos hzero]
    · have hno : ¬ Renames (lastMode map params i p) p :=
        fun hren => hnone i ((hm.marked i).mpr ⟨p, hp, hren.1⟩)
      refine ⟨iff_of_false ?_ hno, fun hv _ => by rw [origArgs_shared hp hv]⟩
      by_cases hv : p.m = modeV
      · rw [origArgs_value hp hv]
        exact nofun
      · rw [origArgs_shared hp hv]
        exact nofun
  · have hsome : ∃ i, r.renamed i := by
      rw [Scan.masks_zero_iff] at hzero
      exact not_forall_not.mp hzero
    rw [if_neg hzero]
    obtain ⟨m', hloop⟩ := copy_renames hm hf hsome version m
    refine ⟨⟨m', ?_⟩, fun i p hp => ?_⟩
    · unfold taskstealBody copyRecord
      rw [if_neg hzero, if_neg hzero, hloop]
      rfl
    · have hi : i < params.length := (List.getElem?_eq_some_iff.mp hp).1
      unfold copyArgs
      by_cases hren : Renames (lastMode map params i p) p
      · rw [if_pos ⟨hi, (renamesAt_iff hp).mpr hren⟩]
        exact ⟨iff_of_true rfl hren, fun _ hno => absurd hren hno⟩
      · rw [if_neg fun hc => hren ((renamesAt_iff hp).mp hc.2)]
        unfold formatTaskCopy
        simp only [hp]
        split
        next hv => exact ⟨iff_of_false nofun hren,
          fun hne => absurd hv hne⟩
        next hv =>
          rw [origArgs_shared hp hv]
          exact ⟨iff_of_false nofun hren, fun _ _ => rfl⟩

/-- When there is something to merge. -/
theorem merge_iff (hm : Masks map params r) {war : BitVec 32}
    (hwar : ∀ i, war.getLsbD i = true
      ↔ r.warParam.getLsbD i = true ∧ ¬ Drops params i) :
    ¬ (war = 0 ∧ r.cwParam = 0)
      ↔ ∃ i p, params[i]? = some p ∧ Merges (lastMode map params i p) p := by
  have hzero := Scan.masks_zero_iff (r := { r with warParam := war })
  simp only at hzero
  rw [hzero, not_forall]
  refine exists_congr fun i => ?_
  rw [not_not]
  show war.getLsbD i = true ∨ r.cwParam.getLsbD i = true ↔ _
  rw [hwar, hm.cw]
  constructor
  · rintro (⟨hbit, hkept⟩ | ⟨p, hp, hcw⟩)
    · obtain ⟨p, hp, hmark⟩ := (hm.marked i).mp (.inl hbit)
      refine ⟨p, hp, hmark, ?_⟩
      rcases hmark with hz | hc | hs
      · exact .inl hz.1
      · exact .inr hc
      · have hmay : mayRename p = true := by
          by_contra hno
          exact hkept ⟨p, hp, Bool.eq_false_iff.mpr hno, hs⟩
        unfold mayRename at hmay
        simp only [Bool.or_eq_true, Bool.and_eq_true] at hmay
        exact hmay.imp_right And.left
    · exact ⟨p, hp, .inr (.inl hcw), .inr hcw⟩
  · intro ⟨p, hp, hmark, hw⟩
    rcases hw with hw | hcw
    · rcases (hm.marked i).mpr ⟨p, hp, hmark⟩ with hbit | hbit
      · refine .inl ⟨hbit, ?_⟩
        intro ⟨q, hq, hno, _⟩
        rw [hp] at hq
        cases hq
        unfold mayRename at hno
        rw [hw] at hno
        cases hno
      · exact .inr ((hm.cw i).mp hbit)
    · exact .inr ⟨p, hp, hcw⟩

/-- The state that is published then. -/
theorem published_iff (war cw : BitVec 32) :
    (if war = 0 ∧ cw = 0 then Published.term else .merge) = .merge
      ↔ ¬ (war = 0 ∧ cw = 0) := by
  split
  next h => exact iff_of_false nofun fun hn => hn h
  next h => exact iff_of_true rfl h

/-- What the thief writes back. -/
theorem writeReturns (body : Body V) (hm : Masks map params r)
    (hf : ShiftsFit fmt map params) (version : Nat → Option Loc) (m : Mem V) :
    WriteReturns fmt params map version r
      (if r.warParam = 0 ∧ r.cwParam = 0 then origArgs params version
        else copyArgs map params version params.length) := by
  intro m₀ hvalue
  by_cases hzero : r.warParam = 0 ∧ r.cwParam = 0
  · have hnone := Scan.masks_zero_iff.mp hzero
    have hno : ∀ i p, params[i]? = some p → ¬ Marked
      (lastMode map params i p) p.m :=
      fun i p hp hmark => hnone i ((hm.marked i).mpr ⟨p, hp, hmark⟩)
    unfold taskwriteBody copyRecord
    rw [if_pos hzero]
    refine ⟨_, _, rfl, fun i p hp hren => absurd hren.1 (hno i p hp), ?_⟩
    rw [published_iff]
    refine iff_of_false (fun hc => hc hzero) ?_
    intro ⟨i, p, hp, hmark, _⟩
    exact hno i p hp hmark
  · rw [if_neg hzero]
    have hthief := thiefRenames body hm hf version m
    rw [if_neg hzero] at hthief
    have hmarked : ∃ i p, params[i]? = some p
        ∧ Marked (lastMode map params i p) p.m := by
      rw [Scan.masks_zero_iff] at hzero
      obtain ⟨i, hi⟩ := not_forall_not.mp hzero
      exact ⟨i, (hm.marked i).mp hi⟩
    have hfit : ∀ i, Drops params i → i < 32 := by
      rintro i ⟨p, hp, -, hs⟩
      exact hf.marked i p hp (.inr (.inr hs))
    have hcopy : ∀ i p, params[i]? = some p → p.m = modeV →
        formatGetDataParam fmt i = some ()
          ∧ (copyArgs map params version params.length i).data = .copyField i
          ∧ (m₀.copyField i).isSome := by
      intro i p hp hv
      refine ⟨hf.address hmarked i p hp hv, ?_, hvalue i p hp hv⟩
      unfold copyArgs
      rw [if_neg fun hc =>
        not_marked_modeV hv ((renamesAt_iff hp).mp hc.2).1]
      unfold formatTaskCopy
      simp only [hp, if_pos hv]
    obtain ⟨w, hrun, hw⟩ := write_masks r.warParam (origArgs params version)
      hfit hcopy
    unfold taskwriteBody copyRecord
    rw [if_neg hzero]
    simp only
    rw [hrun]
    refine ⟨w, _, rfl, fun i p hp hren hmay => ?_, ?_⟩
    · have hi : i < params.length := (List.getElem?_eq_some_iff.mp hp).1
      rw [hw.version i p hp hmay hi, ((hthief.2 i p hp).1).mpr hren]
    · rw [published_iff]
      refine merge_iff hm fun i => (hw.war i).trans (and_congr_right fun _ => ?_)
      refine not_congr (and_iff_right_of_imp ?_)
      intro ⟨p, hp, _⟩
      exact (List.getElem?_eq_some_iff.mp hp).1

/-- The analysis, the thief and the write mean the same parameters by the
masks, however many there are. -/
theorem renaming_masks (body : Body V) (hf : ShiftsFit fmt map params)
    (version : Nat → Option Loc) (m : Mem V) :
    ∃ r, taskComputeready params map = some r
      ∧ (r.wc = 0 ↔ AllReady map params)
      ∧ (r.wc = 0 →
        (∀ i, r.renamed i
          ↔ ∃ p, params[i]? = some p ∧ Marked (lastMode map params i p) p.m)
        ∧ ∃ copy, ThiefRenames fmt body params map version r m copy
          ∧ WriteReturns fmt params map version r copy) := by
  obtain ⟨r, hr⟩ := computereadyLoop_defined (i := 0)
    (s := scanInit params map) fun n p hp hmark => by
      rw [Nat.zero_add]
      exact hf.marked n p hp hmark
  obtain ⟨hwc, hmasks⟩ := analysis_masks hr
  refine ⟨r, hr, hwc, fun hzero => ?_⟩
  have hm := hmasks hzero
  exact ⟨hm.marked, _, thiefRenames body hm hf version m,
    writeReturns body hm hf version m⟩

end Whole

/-- A value, a W on a datum read before, a CW, a CW in place, and an
access to a stack datum. -/
def fiveParams : List Param :=
  [⟨modeV, 1⟩, ⟨modeW, 0⟩, ⟨modeCW, 2⟩, ⟨modeIP ||| modeCW, 3⟩,
    ⟨modeS ||| modeP ||| modeRW, 4⟩]

/-- Datum 0 has been read. -/
def readMap : HashMap := visit hashmapClear ⟨modeR, 0⟩

/-- A body that does nothing. -/
def idleBody : Body Nat := ⟨fun _ _ => 0, fun _ _ => []⟩

theorem renaming_masks_five :
    ∃ r, taskComputeready fiveParams readMap = some r
      ∧ (r.wc = 0 ↔ AllReady readMap fiveParams)
      ∧ (r.wc = 0 →
        (∀ i, r.renamed i ↔ ∃ p, fiveParams[i]? = some p
          ∧ Marked (lastMode readMap fiveParams i p) p.m)
        ∧ ∃ copy, ThiefRenames (natFormat .dynamicField) idleBody fiveParams
            readMap (fun _ => none) r (.init (fun _ => 0) fun _ => 0) copy
          ∧ WriteReturns (natFormat .dynamicField) fiveParams readMap
            (fun _ => none) r copy) := by
  have hlt : ∀ i p, fiveParams[i]? = some p → i < 32 := by
    intro i p hp
    have hi : i < 5 := (List.getElem?_eq_some_iff.mp hp).1
    omega
  exact renaming_masks idleBody ⟨fun i p hp _ => hlt i p hp,
    fun _ i p hp _ => hlt i p hp, fun _ _ _ _ _ => rfl, fun _ _ _ _ => rfl⟩
    (fun _ => none) _

/-- A cumulative write in place gets its bit of `cw_param`, the thief
copies the record and leaves the parameter on its datum. -/
theorem in_place_not_renamed :
    (taskComputeready [⟨modeIP ||| modeCW, 0⟩] hashmapClear).map
        (fun r => (r.wc, r.warParam, r.cwParam)) = some (0, 0, 1)
      ∧ (taskstealBody (natFormat .dynamicField) idleBody
          [⟨modeIP ||| modeCW, 0⟩] 0 1
          (origArgs [⟨modeIP ||| modeCW, 0⟩] fun _ => none)
          (.init (fun _ => 0) fun _ => 0)).map
        (fun st => st.2.map fun copy => (copy 0).data)
        = some (some (.datum 0)) := by
  constructor
  · rfl
  · rfl

end XKaapi.Dfg
