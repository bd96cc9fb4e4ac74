/-
A stolen task has the effect of the original one.

# What the masks say

On a task found ready, the masks name the parameters that were renamed:
a W whose datum had been accessed, and every CW (`StealMasks`). What
makes the split of the body into a thief's part and an owner's part
invisible is `StealMasks.first`: a parameter written in place is the
first of its task, and of the scan, to touch its datum, so no renamed
parameter that is merged later comes before it.

# When it fails

The copy of the record does not go through (`Copies`) if the format aborts
on the address of a V parameter or on the view of a renamed one, as
`kaapi_format_set_view_param` does for every static format, or if a W or CW
parameter has an index from 32 up, for which `1<<i` is undefined.

The thief reads the data as they are at the theft. An earlier task that has
not terminated may still write one of them: the scan remembers the first
access of a datum only, and a reader behind R and W is ready (`ReadsKept`).
-/
import XKaapi.Dfg.StealBody
import Mathlib.Data.Nat.Basic

namespace XKaapi.Dfg

open ForLoop
open Function (update update_comm update_eq_self update_idem update_of_ne update_self)

-- ======== faithful thefts

/-- The mode word of the parameter is V, R, W, RW or CW, without flags. -/
def Param.Plain (p : Param) : Prop :=
  p.mode = modeV ∨ p.mode = modeR ∨ p.mode = modeW ∨ p.mode = modeRW
    ∨ p.mode = modeCW

instance (p : Param) : Decidable p.Plain :=
  inferInstanceAs (Decidable
    (p.mode = modeV ∨ p.mode = modeR ∨ p.mode = modeW ∨ p.mode = modeRW
      ∨ p.mode = modeCW))

/-- The parameter is W or CW, a mode whose parameters may be renamed. -/
def Param.Postwrites (p : Param) : Prop := p.mode = modeW ∨ p.mode = modeCW

section Faithful

variable {V : Type*}

/-- What tasks with the accesses `left` can do to the data: they change
only what they write, and do not depend on what they do not access. -/
structure Effect (left : List Param) (earlier : (Addr → V) → Addr → V) :
    Prop where
  writes : ∀ h a, (∀ q ∈ left, q.writes = true → q.data ≠ a) →
    earlier h a = h a
  reads : ∀ h a v, (∀ q ∈ left, q.shared = true → q.data ≠ a) →
    earlier (update h a v) = update (earlier h) a v

/-- The merge of parameter `i`: a copy back, or a reduction. -/
def mergeOp (i : Nat) (p : Param) : MergeOp :=
  if p.mode = modeCW then .reduce (.datum p.data) (.fresh i)
  else .assign (.datum p.data) (.fresh i)

/-- The theft of the task is not seen in its effect. Whatever its body
does, the initial memory holds and the earlier tasks with the accesses
`left`, which have not terminated, do meanwhile: the three functions run
to the end, every datum has the value of the body run in place after the
earlier tasks, MERGE is published iff a parameter was renamed, each renamed
parameter is merged once and its storage freed once, and nothing else is
written or freed by the merge. -/
def StealFaithful (fmt : TaskFormat V) (params : List Param) (r : Scan)
    (left : List Param) : Prop :=
  ∀ (body : Body V) (version : Nat → Option Loc) (datum : Addr → V)
    (field : Nat → V) (earlier : (Addr → V) → Addr → V),
    Effect left earlier →
    ∃ out inPlace,
      stolenRun fmt body params r.warParam r.cwParam version earlier
        (.init datum field) = some out ∧
      callBody fmt body params (origArgs params version)
        (.init (earlier datum) field) = some inPlace ∧
      out.mem.datum = inPlace.datum ∧
      (out.published = .merge ↔
        ∃ i p, params[i]? = some p ∧ r.renamed i) ∧
      (∀ i p, params[i]? = some p → r.renamed i →
        out.log.count (mergeOp i p) = 1 ∧
        out.log.count (.free (.fresh i)) = 1) ∧
      (∀ op ∈ out.log, ∃ i p, params[i]? = some p ∧ r.renamed i ∧
        (op = mergeOp i p ∨ op = .free (.fresh i))) ∧
      ∀ i, out.mem.fresh i = none

/-- The thief gets through the copy of the record. -/
structure Copies (fmt : TaskFormat V) (params : List Param) (r : Scan) :
    Prop where
  small : ∀ i p, params[i]? = some p → p.Postwrites → i < 32
  address : ∀ i p, params[i]? = some p → p.mode = modeV →
    formatGetDataParam fmt i = some ()
  view : ∀ i, r.renamed i → formatSetViewParam fmt i = some ()

/-- What the task does through the parameter can be seen: it gives a value
of its own, or accumulates by a reduction that changes something. -/
def Shows (fmt : TaskFormat V) (i : Nat) (p : Param) : Prop :=
  p.mode = modeW ∨ p.mode = modeRW
    ∨ p.mode = modeCW ∧ ∃ v c, (fmt.reduction i).reduce v c ≠ v

/-- No earlier task that is left writes what the task reads, unless the
task shows nothing. -/
def ReadsKept (fmt : TaskFormat V) (params left : List Param) : Prop :=
  (∃ i p, params[i]? = some p ∧ Shows fmt i p) →
    ∀ p ∈ params, p.reads = true → ∀ q ∈ left, q.writes = true →
      q.data ≠ p.data

end Faithful

-- ======== the masks

variable {p : Param} {i : Nat} {acc : List Param}

/-- A plain parameter has no flags on its mode. -/
theorem Param.Plain.m_eq (h : p.Plain) : p.m = p.mode := by
  unfold Param.m
  rcases h with h | h | h | h | h <;> rw [h] <;> decide

/-- Its mode is one of the five. -/
theorem Param.Plain.isDfgMode (h : p.Plain) : p.IsDfgMode := by
  unfold Param.IsDfgMode
  rw [h.m_eq]
  exact h

/-- It reads when its mode does. -/
theorem Param.Plain.reads_iff (h : p.Plain) :
    p.reads = true ↔ accessIsRead p.m = true := by
  unfold Param.reads
  rw [h.m_eq]
  rcases h with h | h | h | h | h <;> rw [h] <;> decide

/-- The parameter gets its bit of `war_param`. -/
def TakesWar (first m : AccessMode) : Prop :=
  ¬ Waits first m ∧ m ≠ modeV ∧ accessWar m first = true

/-- The parameter gets its bit of `cw_param`. -/
def TakesCw (first m : AccessMode) : Prop :=
  ¬ Waits first m ∧ m = modeCW

/-- A bit of a mask. -/
theorem getLsbD_one_shiftLeft (hi : i < 32) (j : Nat) :
    (1#32 <<< i).getLsbD j = true ↔ j = i := by
  simp only [BitVec.getLsbD_shiftLeft, BitVec.getLsbD_one]
  simp only [Bool.and_eq_true, decide_eq_true_eq, Bool.not_eq_true',
    decide_eq_false_iff_not]
  omega

/-- A mask after a bit is added. -/
theorem getLsbD_orBitIf {c : Bool} {mask mask' : BitVec 32}
    (h : orBitIf c mask i = some mask') (j : Nat) :
    mask'.getLsbD j = true
      ↔ mask.getLsbD j = true ∨ j = i ∧ c = true := by
  unfold orBitIf at h
  split at h
  next hc =>
    obtain ⟨hi, rfl⟩ := orBit_eq_some.mp h
    rw [BitVec.getLsbD_or, Bool.or_eq_true, getLsbD_one_shiftLeft hi,
      and_iff_left hc]
  next hc =>
    cases h
    simp [hc]

/-- What one parameter adds to the two masks. -/
theorem computereadyParam_masks {s s' : Scan} (hacc : ∀ q ∈ acc, q.IsDfgMode)
    (hp : p.IsDfgMode) (hmap : s.map = firstMode acc)
    (hstep : computereadyParam i p s = some s') (j : Nat) :
    (s'.warParam.getLsbD j = true ↔ s.warParam.getLsbD j = true
      ∨ j = i ∧ TakesWar (firstMode acc p.data) p.m) ∧
    (s'.cwParam.getLsbD j = true ↔ s.cwParam.getLsbD j = true
      ∨ j = i ∧ TakesCw (firstMode acc p.data) p.m) := by
  have hf := firstMode_cases hacc p.data
  unfold computereadyParam at hstep
  split at hstep
  next hv =>
    cases hstep
    have hcw : modeV ≠ modeCW := by decide
    simp [TakesWar, TakesCw, hv, hcw]
  next hv =>
    have hm := hp.cases_shared (by simpa [Param.shared] using hv)
    simp only [hmap, Option.map_eq_some_iff] at hstep
    obtain ⟨s₁, hmark, rfl⟩ := hstep
    rw [updateLastMode_warParam, updateLastMode_cwParam]
    split at hmark
    next hready =>
      have hw := (accessReady_iff hm hf).mp hready
      simp only [markReady, Option.bind_eq_bind, Option.bind_eq_some_iff,
        Option.some.injEq] at hmark
      obtain ⟨war, hwar, cw, hcw, rfl⟩ := hmark
      have hiscw : accessIsCumulwrite p.m = true ↔ p.m = modeCW := by
        rcases hm with h | h | h | h <;> rw [h] <;> decide
      refine ⟨(getLsbD_orBitIf hwar j).trans ?_,
        (getLsbD_orBitIf hcw j).trans ?_⟩
      · simp [TakesWar, hw, hv]
      · simp [TakesCw, hw, hiscw]
    next hwait =>
      have hw : Waits (firstMode acc p.data) p.m :=
        not_not.mp fun hc => hwait ((accessReady_iff hm hf).mpr hc)
      cases hmark
      simp [TakesWar, TakesCw, hw]

/-- What the parameters add: the bits of those that are renamed. -/
theorem computereadyLoop_masks {ps : List Param} {s s' : Scan}
    (hacc : ∀ q ∈ acc, q.IsDfgMode) (hps : ∀ q ∈ ps, q.IsDfgMode)
    (hmap : s.map = firstMode acc) (hrun : computereadyLoop i ps s = some s') (j : Nat) :
    (s'.warParam.getLsbD j = true ↔ s.warParam.getLsbD j = true
      ∨ ∃ n p, ps[n]? = some p ∧ j = i + n
        ∧ TakesWar (firstSeen acc ps n p) p.m) ∧
    (s'.cwParam.getLsbD j = true ↔ s.cwParam.getLsbD j = true
      ∨ ∃ n p, ps[n]? = some p ∧ j = i + n
        ∧ TakesCw (firstSeen acc ps n p) p.m) := by
  induction ps generalizing acc i s with
  | nil =>
    cases hrun
    simp
  | cons p ps ih =>
    simp only [computereadyLoop, Option.bind_eq_bind,
      Option.bind_eq_some_iff] at hrun
    obtain ⟨s₁, hturn, hrest⟩ := hrun
    have hp := hps p List.mem_cons_self
    have hspec := computereadyParam_spec hacc hp hmap hturn
    have hbits := computereadyParam_masks hacc hp hmap hturn j
    have hacc' : ∀ q ∈ acc ++ [p], q.IsDfgMode := by
      simpa [or_imp, forall_and] using ⟨hacc, hp⟩
    have hih := ih hacc' (fun q hq => hps q (List.mem_cons_of_mem p hq))
      hspec.map hrest
    -- the turns on `p :: ps` are the one on `p` and those on `ps`
    have hsplit : ∀ P : AccessMode → AccessMode → Prop,
        (∃ n q, (p :: ps)[n]? = some q ∧ j = i + n
          ∧ P (firstSeen acc (p :: ps) n q) q.m) ↔
        (j = i ∧ P (firstMode acc p.data) p.m) ∨
        ∃ n q, ps[n]? = some q ∧ j = i + 1 + n
          ∧ P (firstSeen (acc ++ [p]) ps n q) q.m := by
      intro P
      constructor
      · intro h
        obtain ⟨n, q, hq, hj, hP⟩ := h
        cases n with
        | zero =>
          cases hq
          rw [firstSeen_zero] at hP
          exact .inl ⟨hj, hP⟩
        | succ n =>
          rw [firstSeen_succ] at hP
          exact .inr ⟨n, q, by simpa using hq, by omega, hP⟩
      · intro h
        rcases h with ⟨hj, hP⟩ | ⟨n, q, hq, hj, hP⟩
        · exact ⟨0, p, rfl, hj, by rwa [firstSeen_zero]⟩
        · exact ⟨n + 1, q, by simpa using hq, by omega,
            by rwa [firstSeen_succ]⟩
    rw [hih.1, hih.2, hbits.1, hbits.2, hsplit TakesWar, hsplit TakesCw,
      or_assoc, or_assoc]
    exact ⟨Iff.rfl, Iff.rfl⟩

/-- A ready parameter takes one of the two bits iff it is renamed. -/
theorem takesWar_or_takesCw {f : AccessMode}
    (hf : f = modeVoid ∨ f = modeR ∨ f = modeW ∨ f = modeRW ∨ f = modeCW)
    (hp : p.IsDfgMode) (hw : ¬ Waits f p.m) :
    TakesWar f p.m ∨ TakesCw f p.m ↔ TakesBit f p.m := by
  by_cases hv : p.m = modeV
  · have hcw : modeV ≠ modeCW := by decide
    rw [iff_false_right (not_waits_modeV (f := f) hv).2]
    simp [TakesWar, TakesCw, hv, hcw]
  · have hm := hp.cases_shared (by simpa [Param.shared] using hv)
    have hiscw : accessIsCumulwrite p.m = true ↔ p.m = modeCW := by
      rcases hm with h | h | h | h <;> rw [h] <;> decide
    rw [← takesBit_iff hm hf hw, hiscw]
    simp [TakesWar, TakesCw, hv, hw]

/-- What the masks of a task found ready after the accesses `acc` say about
its parameters. -/
structure StealMasks (acc params : List Param) (r : Scan) : Prop where
  plain : ∀ p ∈ params, p.Plain
  /-- Only W and CW parameters are renamed. -/
  only : ∀ i, r.renamed i → ∃ p, params[i]? = some p ∧ p.Postwrites
  /-- Every CW parameter is renamed, with its `cw_param` bit. -/
  cw : ∀ i p, params[i]? = some p →
    (r.cwParam.getLsbD i = true ↔ p.mode = modeCW)
  /-- A parameter written in place is the first to touch its datum. -/
  apart : ∀ j q, params[j]? = some q → q.writes = true →
    ¬ r.renamed j → ∀ p ∈ acc ++ params.take j, p.shared = true →
    p.data ≠ q.data

/-- The masks of a ready task. -/
theorem stealMasks_of_ready {params : List Param} {r : Scan}
    (hacc : ∀ q ∈ acc, q.IsDfgMode) (hplain : ∀ p ∈ params, p.Plain)
    (hrun : taskComputeready params (firstMode acc) = some r) (hwc : r.wc = 0) :
    StealMasks acc params r := by
  have hdfg : ∀ p ∈ params, p.IsDfgMode :=
    fun p hp => (hplain p hp).isDfgMode
  have hloop : LoopSpec acc 0 params (scanInit params (firstMode acc)) r :=
    computereadyLoop_spec hacc hdfg rfl hrun
  have hready := (wc_eq_zero_iff hloop).mp hwc
  have hseen : ∀ {n : Nat}, ∀ q ∈ acc ++ params.take n, q.IsDfgMode := by
    intro n q hq
    rcases List.mem_append.mp hq with hq | hq
    · exact hacc q hq
    · exact hdfg q (List.mem_of_mem_take hq)
  have hm : ∀ {i : Nat} {p : Param}, params[i]? = some p → p.m = p.mode :=
    fun hp => (hplain _ (List.mem_of_getElem? hp)).m_eq
  -- the masks start empty
  have hmask : ∀ j, (r.warParam.getLsbD j = true ↔
      ∃ n p, params[n]? = some p ∧ j = n
        ∧ TakesWar (firstSeen acc params n p) p.m) ∧
      (r.cwParam.getLsbD j = true ↔ ∃ n p, params[n]? = some p ∧ j = n
        ∧ TakesCw (firstSeen acc params n p) p.m) := by
    intro j
    have h := computereadyLoop_masks hacc hdfg rfl hrun j
    have hzero : (0 : BitVec 32).getLsbD j = false := BitVec.getLsbD_zero
    simpa [scanInit, hzero] using h
  have hbit : ∀ {P : AccessMode → AccessMode → Prop} {i : Nat} {p : Param},
      params[i]? = some p → ((∃ n q, params[n]? = some q ∧ i = n
        ∧ P (firstSeen acc params n q) q.m)
      ↔ P (firstSeen acc params i p) p.m) := by
    intro P i p hp
    constructor
    · intro h
      obtain ⟨n, q, hq, rfl, hP⟩ := h
      rw [hp] at hq
      cases hq
      exact hP
    · exact fun hP => ⟨i, p, hp, rfl, hP⟩
  have htakes : ∀ {i : Nat} {p : Param}, params[i]? = some p →
      (r.renamed i ↔ TakesBit (firstSeen acc params i p) p.m) := by
    intro i p hp
    unfold Scan.renamed
    rw [(hmask i).1, (hmask i).2, hbit hp, hbit hp]
    exact takesWar_or_takesCw (firstMode_cases hseen _)
      (hdfg p (List.mem_of_getElem? hp)) (hready i p hp)
  have hmem : ∀ {i : Nat}, r.renamed i → ∃ p, params[i]? = some p := by
    intro i hi
    rcases hi with hi | hi
    · obtain ⟨n, p, hp, rfl, -⟩ := (hmask i).1.mp hi
      exact ⟨p, hp⟩
    · obtain ⟨n, p, hp, rfl, -⟩ := (hmask i).2.mp hi
      exact ⟨p, hp⟩
  refine ⟨hplain, fun i hi => ?_, fun i p hp => ?_, ?_⟩
  · obtain ⟨p, hp⟩ := hmem hi
    refine ⟨p, hp, ?_⟩
    unfold Param.Postwrites
    rw [← hm hp]
    exact ((htakes hp).mp hi).imp And.left And.left
  · rw [(hmask i).2, hbit hp, ← hm hp]
    exact and_iff_right (hready i p hp)
  · intro j q hq hwrites hren p hbefore hshared hdata
    -- the datum was accessed, so the write would have been renamed
    obtain ⟨q', hq', hfirst, -⟩ := firstMode_of_mem hbefore hdata hshared
    have hne : firstSeen acc params j q ≠ modeVoid := by
      show firstMode (acc ++ params.take j) q.data ≠ modeVoid
      rw [hfirst]
      exact (hseen q' hq').ne_void
    exact hren ((htakes hq).mpr
      (takesBit_of_writes hne (hready j q hq) hwrites))

-- ======== what the body does

section Outputs

variable {V : Type*} (fmt : TaskFormat V) (body : Body V)
  (params : List Param) (ins : List (Option V))

/-- What the body does in place to the datum of parameter `i`. -/
def outputParam (i : Nat) (p : Param) (h : Addr → V) : Addr → V :=
  if accessIsWrite p.m then update h p.data (body.out ins i)
  else if accessIsCumulwrite p.m then
    update h p.data
      ((body.contrib ins i).foldl (fmt.reduction i).reduce (h p.data))
  else h

/-- The effect on the data of those of the first `k` parameters that `sel`
selects. -/
def outputs (sel : Nat → Bool) : Nat → (Addr → V) → Addr → V
  | 0, h => h
  | k + 1, h =>
    match params[k]? with
    | some p =>
      if sel k then outputParam fmt body ins k p (outputs sel k h)
      else outputs sel k h
    | none => outputs sel k h

variable {fmt body params ins}

/-- A parameter that does not write leaves the memory. -/
theorem outputParam_of_not_writes {i : Nat} {p : Param} (hp : p.Plain)
    (hw : p.writes = false) (h : Addr → V) :
    outputParam fmt body ins i p h = h := by
  unfold outputParam
  unfold Param.writes at hw
  rw [hp.m_eq] at hw ⊢
  rcases hp with hp | hp | hp | hp | hp <;> rw [hp] at hw ⊢
  · rfl
  · rfl
  · cases hw
  · cases hw
  · cases hw

/-- An output commutes with a write elsewhere. -/
theorem outputParam_update {i : Nat} {p : Param} {a : Addr}
    (hne : p.data ≠ a) (h : Addr → V) (v : V) :
    outputParam fmt body ins i p (update h a v)
      = update (outputParam fmt body ins i p h) a v := by
  unfold outputParam
  split
  · exact update_comm hne.symm _ _ _
  · split
    · rw [update_of_ne hne]
      exact update_comm hne.symm _ _ _
    · rfl

/-- So do all of them. -/
theorem outputs_update (hplain : ∀ p ∈ params, p.Plain) {sel : Nat → Bool}
    {k : Nat} {a : Addr}
    (hne : ∀ i p, i < k → params[i]? = some p → p.shared = true →
      p.data ≠ a) (h : Addr → V) (v : V) :
    outputs fmt body params ins sel k (update h a v)
      = update (outputs fmt body params ins sel k h) a v := by
  induction k with
  | zero => rfl
  | succ k ih =>
    have ih := ih fun i p hi => hne i p (Nat.lt_succ_of_lt hi)
    unfold outputs
    cases hp : params[k]? with
    | none => exact ih
    | some p =>
      simp only
      split
      · rw [ih]
        by_cases hs : p.shared = true
        · exact outputParam_update (hne k p (Nat.lt_succ_self k) hp hs)
            _ v
        · have hpl := hplain p (List.mem_of_getElem? hp)
          have hw : p.writes = false := by
            by_contra hc
            rw [Bool.not_eq_false] at hc
            exact hs (Param.shared_of_writes hc)
          rw [outputParam_of_not_writes hpl hw,
            outputParam_of_not_writes hpl hw]
      · exact ih

end Outputs

/-- The parameter has a mask bit. -/
def Scan.ren (r : Scan) (i : Nat) : Bool :=
  r.warParam.getLsbD i || r.cwParam.getLsbD i

/-- The test of the two masks. -/
theorem Scan.ren_iff {r : Scan} : r.ren i = true ↔ r.renamed i := by
  unfold Scan.ren Scan.renamed
  rw [Bool.or_eq_true]

namespace StealMasks

variable {V : Type*} {fmt : TaskFormat V} {body : Body V}
  {acc params : List Param} {r : Scan} {ins : List (Option V)}

section

variable (hm : StealMasks acc params r)
include hm

/-- A datum that is written in place has its first access there. -/
theorem first {j : Nat} {q : Param} (hq : params[j]? = some q) (hw : q.writes = true)
    (hren : ¬ r.renamed j) (i : Nat) (p : Param) (hij : i < j) (hp : params[i]? = some p)
    (hs : p.shared = true) : p.data ≠ q.data := by
  refine hm.apart j q hq hw hren p (List.mem_append_right acc ?_) hs
  refine List.mem_of_getElem? (i := i) ?_
  rw [List.getElem?_take, if_pos hij, hp]

/-- A parameter that writes in place has the mode W or RW. -/
theorem write_of_not_renamed {i : Nat} {p : Param} (hp : params[i]? = some p)
    (hw : p.writes = true) (hren : ¬ r.renamed i) : accessIsWrite p.m = true := by
  have hpl := hm.plain p (List.mem_of_getElem? hp)
  have hcw := hm.cw i p hp
  unfold Param.writes at hw
  rw [hpl.m_eq] at hw ⊢
  rcases hpl with h | h | h | h | h <;> rw [h] at hw ⊢
  · cases hw
  · cases hw
  · decide
  · decide
  · exact absurd (.inr (hcw.mpr h)) hren

/-- The body in place is its part that is not renamed, followed by the
renamed part: no renamed parameter before one written in place shares
its datum. -/
theorem outputs_split (k : Nat) (h : Addr → V) :
    outputs fmt body params ins (fun _ => true) k h
      = outputs fmt body params ins r.ren k
          (outputs fmt body params ins (fun i => !r.ren i) k h) := by
  induction k with
  | zero => rfl
  | succ k ih =>
    simp only [outputs]
    cases hp : params[k]? with
    | none => exact ih
    | some p =>
      simp only [if_true]
      rw [ih]
      by_cases hren : r.ren k = true
      · simp [hren]
      · simp only [hren, Bool.not_false, if_true, Bool.false_eq_true,
          if_false]
        have hpl := hm.plain p (List.mem_of_getElem? hp)
        by_cases hw : p.writes = true
        · have hnot : ¬ r.renamed k := fun hc =>
            hren (Scan.ren_iff.mpr hc)
          have hwrite := hm.write_of_not_renamed hp hw hnot
          unfold outputParam
          rw [if_pos hwrite, if_pos hwrite]
          exact (outputs_update hm.plain (hm.first hp hw hnot)
            _ _).symm
        · rw [Bool.not_eq_true] at hw
          rw [outputParam_of_not_writes hpl hw,
            outputParam_of_not_writes hpl hw]

/-- The tasks left behind commute with the outputs in place. -/
theorem earlier_outputs {left : List Param} (hleft : ∀ q ∈ left, q ∈ acc)
    {earlier : (Addr → V) → Addr → V} (heff : Effect left earlier) (k : Nat)
    (h : Addr → V) :
    earlier (outputs fmt body params ins (fun i => !r.ren i) k h)
      = outputs fmt body params ins (fun i => !r.ren i) k (earlier h) := by
  induction k with
  | zero => rfl
  | succ k ih =>
    simp only [outputs]
    cases hp : params[k]? with
    | none => exact ih
    | some p =>
      by_cases hren : r.ren k = true
      · simpa [hren] using ih
      · simp only [hren, Bool.not_false, if_true]
        rw [← ih]
        have hpl := hm.plain p (List.mem_of_getElem? hp)
        by_cases hw : p.writes = true
        · have hnot : ¬ r.renamed k := fun hc =>
            hren (Scan.ren_iff.mpr hc)
          have hwrite := hm.write_of_not_renamed hp hw hnot
          unfold outputParam
          rw [if_pos hwrite, if_pos hwrite]
          exact heff.reads _ _ _ fun q hq => hm.apart k p hp hw hnot q
            (List.mem_append_left _ (hleft q hq))
        · rw [Bool.not_eq_true] at hw
          rw [outputParam_of_not_writes hpl hw,
            outputParam_of_not_writes hpl hw]

end

end StealMasks

-- ======== the body, as a call

section Call

variable {V : Type*} (params : List Param)

/-- What the body reads of parameter `i`, given the data and the V fields. -/
def inputOf (datum : Addr → V) (field : Nat → V) (i : Nat) (p : Param) :
    Option V :=
  if p.m = modeV then some (field i)
  else if accessIsRead p.m then some (datum p.data)
  else none

/-- What the body reads of the first `k` parameters. -/
def inputs (datum : Addr → V) (field : Nat → V) : Nat → List (Option V)
  | 0 => []
  | k + 1 =>
    match params[k]? with
    | some p => inputs datum field k ++ [inputOf datum field k p]
    | none => inputs datum field k

variable {params} {fmt : TaskFormat V} {body : Body V} {ins : List (Option V)}
  {datum : Addr → V} {field : Nat → V} {m : Mem V} {p : Param} {i : Nat}
  {version : Nat → Option Loc}

/-- The body reads the inputs of its parameters. -/
theorem readInputs_spec {args : Args}
    (h : ∀ i p, params[i]? = some p →
      readInput m args i p = some (inputOf datum field i p)) :
    readInputs params m args
      = some (inputs params datum field params.length) := by
  unfold readInputs
  obtain ⟨res, hres, hI⟩ := forIdx_spec
    (f := fun i p ins => (readInput m args i p).map (ins ++ [·]))
    (I := fun k res => res = inputs params datum field k)
    (l := params) (s := []) rfl fun n p res hp hI => by
      refine ⟨_, by rw [h n p hp]; rfl, ?_⟩
      rw [hI, inputs, hp]
  rw [hres, hI]

/-- A parameter that writes in place writes its datum. -/
theorem writeOutput_datum {args : Args} (hp : p.Plain)
    (hdata : p.writes = true → (args i).data = .datum p.data) :
    writeOutput fmt body args ins i p m
      = some { m with datum := outputParam fmt body ins i p m.datum } := by
  by_cases hw : p.writes = true
  · unfold writeOutput outputParam
    rw [hdata hw]
    split
    · rfl
    · split <;> rfl
  · rw [Bool.not_eq_true] at hw
    rw [outputParam_of_not_writes hp hw]
    unfold writeOutput
    unfold Param.writes at hw
    rw [hp.m_eq] at hw ⊢
    rcases hp with h | h | h | h | h <;> rw [h] at hw ⊢
    · rfl
    · rfl
    · cases hw
    · cases hw
    · cases hw

/-- The argument of an access, as it was pushed. -/
theorem origArgs_shared (hp : params[i]? = some p) (hv : p.m ≠ modeV) :
    origArgs params version i = ⟨.datum p.data, version i⟩ := by
  unfold origArgs
  rw [hp]
  exact if_neg hv

/-- The argument by value. -/
theorem origArgs_value (hp : params[i]? = some p) (hv : p.m = modeV) :
    origArgs params version i = ⟨.field i, none⟩ := by
  unfold origArgs
  rw [hp]
  exact if_pos hv

/-- A parameter by value writes nothing. -/
theorem Param.ne_modeV_of_writes (hw : p.writes = true) : p.m ≠ modeV := by
  intro hv
  have hs := Param.shared_of_writes hw
  simp [Param.shared, hv] at hs

/-- What the body reads in place. -/
theorem readInput_orig (hp : params[i]? = some p) :
    readInput m (origArgs params version) i p
      = some (inputOf m.datum m.field i p) := by
  unfold readInput inputOf
  by_cases hv : p.m = modeV
  · rw [origArgs_value hp hv]
    simp [hv, Mem.load]
  · rw [origArgs_shared hp hv]
    cases hr : accessIsRead p.m <;> simp [hv, Mem.load]

/-- What the body does in place. -/
theorem callBody_orig (m : Mem V) (hplain : ∀ p ∈ params, p.Plain) :
    callBody fmt body params (origArgs params version) m = some { m with
      datum := outputs fmt body params
        (inputs params m.datum m.field params.length) (fun _ => true)
        params.length m.datum } := by
  unfold callBody
  rw [readInputs_spec fun i p hp => readInput_orig hp]
  obtain ⟨m', hm', hI⟩ := forIdx_spec
    (f := writeOutput fmt body (origArgs params version)
      (inputs params m.datum m.field params.length))
    (I := fun k m' => m' = { m with
      datum := outputs fmt body params
        (inputs params m.datum m.field params.length) (fun _ => true) k
        m.datum })
    (l := params) (s := m) rfl fun n p m' hp hI => by
      refine ⟨_, writeOutput_datum (hplain p (List.mem_of_getElem? hp))
        fun hw => ?_, ?_⟩
      · rw [origArgs_shared hp (Param.ne_modeV_of_writes hw)]
      · rw [hI, outputs, hp]
        rfl
  exact hm'.trans (congrArg some hI)

end Call

-- ======== kaapi_tasksteal_body

section Copy

variable {V : Type*} {fmt : TaskFormat V} {body : Body V} {acc params : List Param}
  {r : Scan} {version : Nat → Option Loc} {d : Addr → V} {f : Nat → V} {i k : Nat}
  {st : Mem V × Args} {p : Param}

/-- What fresh storage for parameter `i` starts with. -/
def freshStart (fmt : TaskFormat V) (r : Scan) (i : Nat) : Option V :=
  if r.cwParam.getLsbD i then some (fmt.reduction i).neutral
  else fmt.cstor i

/-- The copy of the record after `k` parameters, and the memory. -/
structure Copied (fmt : TaskFormat V) (params : List Param) (r : Scan)
    (version : Nat → Option Loc) (d : Addr → V) (f : Nat → V)
    (k : Nat) (st : Mem V × Args) : Prop where
  datum : st.1.datum = d
  field : st.1.field = f
  value : ∀ i p, i < k → params[i]? = some p → p.m = modeV →
    st.1.copyField i = some (f i)
  fresh : ∀ i, st.1.fresh i
    = if i < k ∧ r.ren i = true then some (freshStart fmt r i) else none
  copy : ∀ i, st.2 i = if i < k ∧ r.ren i = true then ⟨.fresh i, none⟩
    else formatTaskCopy params (origArgs params version) i

theorem lt_succ_and_iff {P : Prop} (hP : i = k → ¬ P) : i < k + 1 ∧ P ↔ i < k ∧ P := by
  constructor
  · intro h
    have hne : i ≠ k := fun heq => hP heq h.2
    exact ⟨by omega, h.2⟩
  · exact fun h => ⟨by omega, h.2⟩

/-- A parameter that is not renamed keeps its pointer. -/
theorem Copied.skip (h : Copied fmt params r version d f k st) (hp : params[k]? = some p)
    (hv : p.m ≠ modeV) (hren : r.ren k = false) :
    Copied fmt params r version d f (k + 1) st := by
  have hiff : ∀ i, (i < k + 1 ∧ r.ren i = true) ↔ (i < k ∧ r.ren i = true) :=
    fun i => lt_succ_and_iff fun heq => by simp [heq, hren]
  refine ⟨h.datum, h.field, fun i q hi hq hqv => ?_, fun i => ?_, fun i => ?_⟩
  · rcases Nat.lt_succ_iff_lt_or_eq.mp hi with hlt | rfl
    · exact h.value i q hlt hq hqv
    · rw [hp] at hq
      cases hq
      exact absurd hqv hv
  · rw [h.fresh i]
    exact if_congr (hiff i).symm rfl rfl
  · rw [h.copy i]
    exact if_congr (hiff i).symm rfl rfl

/-- The test of the bit below 32 parameters. -/
theorem takesFresh_eq {war cw : BitVec 32} (hi : i < 32) :
    takesFresh war cw i = some (war.getLsbD i || cw.getLsbD i) := by
  unfold takesFresh maskHas
  rw [if_pos hi, if_pos hi]
  cases war.getLsbD i <;> rfl

/-- A renamed parameter gets a fresh block. -/
theorem Copied.rename (h : Copied fmt params r version d f k st)
    (hview : formatSetViewParam fmt k = some ()) (hp : params[k]? = some p)
    (hv : p.m ≠ modeV) (hk : k < 32) (hren : r.ren k = true) :
    ∃ st', freshParam fmt r.cwParam k st = some st'
      ∧ Copied fmt params r version d f (k + 1) st' := by
  refine ⟨(st.1.malloc k (freshStart fmt r k),
    update st.2 k ⟨.fresh k, none⟩), ?_, ?_⟩
  · unfold freshParam maskHas
    rw [if_pos hk, hview]
    rfl
  refine ⟨h.datum, h.field, fun i q hi hq hqv => ?_, fun i => ?_, fun i => ?_⟩
  · rcases Nat.lt_succ_iff_lt_or_eq.mp hi with hlt | rfl
    · exact h.value i q hlt hq hqv
    · rw [hp] at hq
      cases hq
      exact absurd hqv hv
  · show update st.1.fresh k (some (freshStart fmt r k)) i = _
    by_cases hik : i = k
    · subst hik
      rw [update_self, if_pos ⟨Nat.lt_succ_self i, hren⟩]
    · rw [update_of_ne hik, h.fresh i]
      exact if_congr (lt_succ_and_iff fun heq => absurd heq hik).symm rfl rfl
  · show update st.2 k ⟨.fresh k, none⟩ i = _
    by_cases hik : i = k
    · subst hik
      rw [update_self, if_pos ⟨Nat.lt_succ_self i, hren⟩]
    · rw [update_of_ne hik, h.copy i]
      exact if_congr (lt_succ_and_iff fun heq => absurd heq hik).symm rfl rfl

/-- A parameter without later merge is not renamed. -/
theorem StealMasks.ren_eq_false (hm : StealMasks acc params r) (hp : params[i]? = some p)
    (hno : ¬ p.Postwrites) : r.ren i = false := by
  by_contra hc
  rw [Bool.not_eq_false, Scan.ren_iff] at hc
  obtain ⟨q, hq, hpost⟩ := hm.only i hc
  rw [hp] at hq
  cases hq
  exact hno hpost

/-- One turn of the loop of the thief. -/
theorem Copied.step (hm : StealMasks acc params r) (hcopy : Copies fmt params r)
    (hp : params[k]? = some p) (h : Copied fmt params r version d f k st) :
    ∃ st', stealParam fmt r.warParam r.cwParam (origArgs params version) k
        p st = some st'
      ∧ Copied fmt params r version d f (k + 1) st' := by
  have hpl := hm.plain p (List.mem_of_getElem? hp)
  have hm_eq := hpl.m_eq
  have hpost : p.Postwrites → ∃ st', stealParam fmt r.warParam r.cwParam
        (origArgs params version) k p st = some st'
      ∧ Copied fmt params r version d f (k + 1) st' := by
    intro hpw
    have hk := hcopy.small k p hp hpw
    have hcode : p.m ≠ modeV ∧ accessIsStack p.m = false
        ∧ mayRename p = true := by
      unfold mayRename
      rw [hm_eq]
      rcases hpw with hw | hw <;> rw [hw] <;> decide
    unfold stealParam
    rw [if_neg hcode.1, hcode.2.1, hcode.2.2, takesFresh_eq hk]
    by_cases hren : r.ren k = true
    · obtain ⟨st', hst', hC⟩ := h.rename (hcopy.view k (Scan.ren_iff.mp hren))
        hp hcode.1 hk hren
      refine ⟨st', ?_, hC⟩
      show (if r.ren k = true then _ else _) = some st'
      rw [if_pos hren]
      exact hst'
    · refine ⟨st, ?_, h.skip hp hcode.1 (by simpa using hren)⟩
      show (if r.ren k = true then _ else _) = some st
      rw [if_neg hren]
  have hread : ¬ p.Postwrites → p.m ≠ modeV → accessIsStack p.m = false →
      mayRename p = false → ∃ st', stealParam fmt r.warParam r.cwParam
        (origArgs params version) k p st = some st'
      ∧ Copied fmt params r version d f (k + 1) st' := by
    intro hno hv hstack hmay
    refine ⟨st, ?_, h.skip hp hv (hm.ren_eq_false hp hno)⟩
    unfold stealParam
    rw [if_neg hv, hstack, hmay]
    rfl
  have hno : ∀ {m : AccessMode}, p.mode = m → m ≠ modeW → m ≠ modeCW →
      ¬ p.Postwrites := by
    intro m hmode h₁ h₂ hc
    rcases hc with hc | hc
    · exact h₁ (hmode.symm.trans hc)
    · exact h₂ (hmode.symm.trans hc)
  rcases hpl with hV | hR | hW | hRW | hCW
  · -- V: copied into the field of the copy
    have hv : p.m = modeV := hm_eq.trans hV
    have hren := hm.ren_eq_false hp (hno hV (by decide) (by decide))
    have hiff : ∀ i, (i < k + 1 ∧ r.ren i = true)
        ↔ (i < k ∧ r.ren i = true) :=
      fun i => lt_succ_and_iff fun heq => by simp [heq, hren]
    have hfield : (st.2 k).data = .copyField k := by
      rw [h.copy k, if_neg (fun hc => by simp [hren] at hc)]
      unfold formatTaskCopy
      rw [hp]
      simp [hv]
    refine ⟨({ st.1 with
      copyField := update st.1.copyField k (some (f k)) }, st.2),
      ?_, ?_⟩
    · unfold stealParam
      rw [if_pos hv, hcopy.address k p hp hV, Option.bind_some,
        origArgs_value hp hv, hfield]
      show (some (st.1.field k)).bind _ = _
      rw [h.field]
      rfl
    · refine ⟨h.datum, h.field, fun i q hi hq hqv => ?_, fun i => ?_,
        fun i => ?_⟩
      · show update st.1.copyField k (some (f k)) i = _
        by_cases hik : i = k
        · subst hik
          rw [update_self]
        · rw [update_of_ne hik]
          exact h.value i q (by omega) hq hqv
      · exact (h.fresh i).trans (if_congr (hiff i).symm rfl rfl)
      · exact (h.copy i).trans (if_congr (hiff i).symm rfl rfl)
  · refine hread (hno hR (by decide) (by decide)) ?_ ?_ ?_
    · rw [hm_eq, hR]
      decide
    · rw [hm_eq, hR]
      decide
    · unfold mayRename
      rw [hm_eq, hR]
      decide
  · exact hpost (.inl hW)
  · refine hread (hno hRW (by decide) (by decide)) ?_ ?_ ?_
    · rw [hm_eq, hRW]
      decide
    · rw [hm_eq, hRW]
      decide
    · unfold mayRename
      rw [hm_eq, hRW]
      decide
  · exact hpost (.inr hCW)

-- -------------------------------------------------- the body on the copy

/-- What the body leaves in the storage of a renamed parameter. -/
def freshValue (fmt : TaskFormat V) (body : Body V) (r : Scan)
    (ins : List (Option V)) (i : Nat) : V :=
  if r.cwParam.getLsbD i then
    (body.contrib ins i).foldl (fmt.reduction i).reduce
      (fmt.reduction i).neutral
  else body.out ins i

/-- The memory after the body has dealt with `k` parameters. -/
structure Written (fmt : TaskFormat V) (body : Body V)
    (params : List Param) (r : Scan) (ins : List (Option V)) (m₀ : Mem V)
    (k : Nat) (m : Mem V) : Prop where
  datum : m.datum = outputs fmt body params ins (fun i => !r.ren i) k m₀.datum
  field : m.field = m₀.field
  copyField : m.copyField = m₀.copyField
  fresh : ∀ i, m.fresh i
    = if i < k ∧ r.ren i = true then some (some (freshValue fmt body r ins i))
      else m₀.fresh i

/-- A renamed parameter is written into its own storage. -/
theorem Written.rename {ins : List (Option V)} {m₀ m : Mem V} {copy : Args}
    (hm : StealMasks acc params r) (hp : params[k]? = some p) (hren : r.ren k = true)
    (hcopy : (copy k).data = .fresh k) (hstart : m₀.fresh k = some (freshStart fmt r k))
    (h : Written fmt body params r ins m₀ k m) :
    ∃ m', writeOutput fmt body copy ins k p m = some m'
      ∧ Written fmt body params r ins m₀ (k + 1) m' := by
  have hfresh : m.fresh k = some (freshStart fmt r k) := by
    rw [h.fresh k, if_neg (fun hc => absurd hc.1 (Nat.lt_irrefl k))]
    exact hstart
  obtain ⟨q, hq, hpost⟩ := hm.only k (Scan.ren_iff.mp hren)
  rw [hp] at hq
  cases hq
  have hm_eq := (hm.plain p (List.mem_of_getElem? hp)).m_eq
  have hcwbit := hm.cw k p hp
  have hstore : ∀ v, m.store (.fresh k) v = some { m with
      fresh := update m.fresh k (some (some v)) } := by
    intro v
    show (m.fresh k).map _ = _
    rw [hfresh]
    rfl
  refine ⟨{ m with
    fresh := update m.fresh k
      (some (some (freshValue fmt body r ins k))) }, ?_, ?_⟩
  · unfold writeOutput freshValue
    rw [hcopy, hm_eq]
    rcases hpost with hW | hCW
    · have hno : r.cwParam.getLsbD k = false := by
        rw [← Bool.not_eq_true, hcwbit, hW]
        decide
      rw [hW, if_pos (by decide), hno, hstore]
      rfl
    · have hyes := hcwbit.mpr hCW
      have hload : m.load (.fresh k) = some (fmt.reduction k).neutral := by
        show (m.fresh k).join = _
        rw [hfresh]
        unfold freshStart
        rw [hyes]
        rfl
      rw [hCW, if_neg (by decide), if_pos (by decide), hload, hyes]
      exact hstore _
  · refine ⟨?_, h.field, h.copyField, fun i => ?_⟩
    · rw [outputs, hp]
      simp only [hren, Bool.not_true, Bool.false_eq_true, if_false]
      exact h.datum
    · show update m.fresh k _ i = _
      by_cases hik : i = k
      · subst hik
        rw [update_self, if_pos ⟨Nat.lt_succ_self i, hren⟩]
      · rw [update_of_ne hik, h.fresh i]
        exact if_congr (lt_succ_and_iff fun heq => absurd heq hik).symm rfl rfl

/-- A parameter that is not renamed is accessed in place. -/
theorem Copied.data (h : Copied fmt params r version d f k st) (hp : params[i]? = some p)
    (hv : p.m ≠ modeV) (hren : r.ren i = false) :
    st.2 i = ⟨.datum p.data, version i⟩ := by
  rw [h.copy i, if_neg (fun hc => by simp [hren] at hc)]
  unfold formatTaskCopy
  rw [hp]
  simp only
  rw [if_neg hv, origArgs_shared hp hv]

/-- The body of the thief reads what it would read in place. -/
theorem Copied.readInput (hm : StealMasks acc params r)
    (h : Copied fmt params r version d f params.length st) (hp : params[i]? = some p) :
    readInput st.1 st.2 i p = some (inputOf d f i p) := by
  have hi : i < params.length := (List.getElem?_eq_some_iff.mp hp).1
  have hm_eq := (hm.plain p (List.mem_of_getElem? hp)).m_eq
  unfold Dfg.readInput inputOf
  by_cases hv : p.m = modeV
  · have hren := hm.ren_eq_false hp (fun hc => by
      rw [hm_eq] at hv
      rcases hc with hc | hc <;> rw [hc] at hv <;> revert hv <;> decide)
    have hcopy : (st.2 i).data = .copyField i := by
      rw [h.copy i, if_neg (fun hc => by simp [hren] at hc)]
      unfold formatTaskCopy
      rw [hp]
      simp [hv]
    rw [hcopy]
    simp [hv, Mem.load, h.value i p hi hp hv]
  · cases hr : accessIsRead p.m with
    | false => simp [hv]
    | true =>
      have hren := hm.ren_eq_false hp (fun hc => by
        rw [hm_eq] at hr
        rcases hc with hc | hc <;> rw [hc] at hr <;> revert hr <;> decide)
      rw [h.data hp hv hren]
      simp [hv, Mem.load, h.datum]

/-- It writes what it would write in place, to its own blocks. -/
theorem Copied.callBody (hm : StealMasks acc params r)
    (h : Copied fmt params r version d f params.length st) :
    ∃ m', Dfg.callBody fmt body params st.2 st.1 = some m'
      ∧ Written fmt body params r (inputs params d f params.length) st.1
        params.length m' := by
  unfold Dfg.callBody
  rw [readInputs_spec fun i p hp => h.readInput hm hp]
  refine forIdx_spec
    (I := Written fmt body params r (inputs params d f params.length) st.1)
    ⟨rfl, rfl, rfl, fun i => by simp⟩ fun n p m hp hI => ?_
  have hn : n < params.length := (List.getElem?_eq_some_iff.mp hp).1
  have hpl := hm.plain p (List.mem_of_getElem? hp)
  by_cases hren : r.ren n = true
  · refine hI.rename hm hp hren ?_ ?_
    · rw [h.copy n, if_pos ⟨hn, hren⟩]
    · rw [h.fresh n, if_pos ⟨hn, hren⟩]
  · rw [Bool.not_eq_true] at hren
    refine ⟨_, writeOutput_datum hpl fun hw => ?_, ?_⟩
    · rw [h.data hp (Param.ne_modeV_of_writes hw) hren]
    · refine ⟨?_, hI.field, hI.copyField, fun i => ?_⟩
      · rw [outputs, hp]
        simp only [hren, Bool.not_false, if_true]
        rw [hI.datum]
      · exact (hI.fresh i).trans (if_congr (lt_succ_and_iff
          fun heq => by simp [heq, hren]).symm rfl rfl)

end Copy

-- ======== kaapi_taskwrite_body

section Write

variable {V : Type*} {fmt : TaskFormat V} {params : List Param} {r : Scan}
  {copy orig₀ : Args} {m₀ : Mem V} {war : BitVec 32}

/-- The original record after `k` parameters of `kaapi_taskwrite_body`. -/
structure Versioned (params : List Param) (copy orig₀ : Args) (m₀ : Mem V)
    (war : BitVec 32) (k : Nat) (st : Writeback V) : Prop where
  datum : st.mem.datum = m₀.datum
  fresh : st.mem.fresh = m₀.fresh
  war : st.war = war
  copyField : ∀ i, k ≤ i → st.mem.copyField i = m₀.copyField i
  orig : ∀ i p, params[i]? = some p → p.Postwrites → st.orig i
    = if i < k then { orig₀ i with version := some (copy i).data }
      else orig₀ i

/-- One turn of the loop: V fields are destroyed, W and CW parameters get
their version. -/
theorem Versioned.step (hplain : ∀ p ∈ params, p.Plain) {k : Nat}
    {p : Param} {st : Writeback V} (hp : params[k]? = some p)
    (hvalue : p.m = modeV → formatGetDataParam fmt k = some ()
      ∧ (copy k).data = .copyField k ∧ ∃ v, m₀.copyField k = some v)
    (h : Versioned params copy orig₀ m₀ war k st) :
    ∃ st', writebackParam fmt copy k p st = some st'
      ∧ Versioned params copy orig₀ m₀ war (k + 1) st' := by
  have hpl := hplain p (List.mem_of_getElem? hp)
  have hm_eq := hpl.m_eq
  -- the other parameters keep their access
  have hkeep : ¬ p.Postwrites → ∀ i q, params[i]? = some q →
      q.Postwrites → st.orig i
        = if i < k + 1 then { orig₀ i with version := some (copy i).data }
          else orig₀ i := by
    intro hno i q hq hpost
    rw [h.orig i q hq hpost]
    refine if_congr ?_ rfl rfl
    have hne : i ≠ k := by
      intro heq
      rw [heq, hp] at hq
      cases hq
      exact hno hpost
    omega
  have hpost : p.Postwrites → ∃ st', writebackParam fmt copy k p st = some st'
      ∧ Versioned params copy orig₀ m₀ war (k + 1) st' := by
    intro hpw
    have hcode : p.m ≠ modeV ∧ mayRename p = true := by
      unfold mayRename
      rw [hm_eq]
      rcases hpw with hw | hw <;> rw [hw] <;> decide
    unfold writebackParam
    rw [if_neg hcode.1, hcode.2]
    refine ⟨_, rfl, h.datum, h.fresh, h.war,
      fun i hi => h.copyField i (by omega), fun i q hq hqw => ?_⟩
    show update st.orig k _ i = _
    by_cases hik : i = k
    · subst hik
      rw [update_self, if_pos (Nat.lt_succ_self i),
        h.orig i q hq hqw, if_neg (Nat.lt_irrefl i)]
    · rw [update_of_ne hik, h.orig i q hq hqw]
      exact if_congr (by omega) rfl rfl
  have hread : p.mode = modeR ∨ p.mode = modeRW → ∃ st',
      writebackParam fmt copy k p st = some st'
      ∧ Versioned params copy orig₀ m₀ war (k + 1) st' := by
    intro hmode
    have hcode : p.m ≠ modeV ∧ mayRename p = false
        ∧ accessIsStack p.m = false ∧ ¬ p.Postwrites := by
      unfold mayRename Param.Postwrites
      rw [hm_eq]
      rcases hmode with hw | hw <;> rw [hw] <;> decide
    refine ⟨st, ?_, h.datum, h.fresh, h.war,
      fun i hi => h.copyField i (by omega), hkeep hcode.2.2.2⟩
    unfold writebackParam
    rw [if_neg hcode.1, hcode.2.1, hcode.2.2.1]
    rfl
  rcases hpl with hV | hR | hW | hRW | hCW
  · have hv : p.m = modeV := hm_eq.trans hV
    obtain ⟨hget, hdata, v, hval⟩ := hvalue hv
    have hcur : st.mem.copyField k = some v := by
      rw [h.copyField k (Nat.le_refl k), hval]
    have hno : ¬ p.Postwrites := by
      unfold Param.Postwrites
      rw [hV]
      decide
    unfold writebackParam
    rw [if_pos hv, hget, hdata]
    show ∃ st', ((st.mem.copyField k).map _).map _ = some st' ∧ _
    rw [hcur]
    refine ⟨_, rfl, h.datum, h.fresh, h.war, fun i hi => ?_, hkeep hno⟩
    show update st.mem.copyField k none i = _
    rw [update_of_ne (by omega)]
    exact h.copyField i (by omega)
  · exact hread (.inl hR)
  · exact hpost (.inl hW)
  · exact hread (.inr hRW)
  · exact hpost (.inr hCW)

end Write

-- ======== kaapi_aftersteal_body

section Merge

variable {V : Type*} {fmt : TaskFormat V} {body : Body V} {acc params : List Param}
  {r : Scan} {ins : List (Option V)} {orig : Args} {m₀ : Mem V} {p : Param} {k i : Nat}

/-- Contributions folded on their own and then reduced. -/
theorem Reduction.Lawful.reduce_foldl {red : Reduction V} (hred : red.Lawful)
    (v : V) (cs : List V) :
    red.reduce v (cs.foldl red.reduce red.neutral)
      = cs.foldl red.reduce v := by
  have hassoc : ∀ (a : V) (cs : List V),
      red.reduce v (cs.foldl red.reduce a)
        = cs.foldl red.reduce (red.reduce v a) := by
    intro a cs
    induction cs generalizing a with
    | nil => rfl
    | cons c cs ih => rw [List.foldl_cons, List.foldl_cons, ih, hred.assoc]
  rw [hassoc, hred.reduce_neutral]

/-- The merge operations of the first `k` parameters. -/
def mergeLog (params : List Param) (r : Scan) : Nat → List MergeOp
  | 0 => []
  | k + 1 =>
    match params[k]? with
    | some p =>
      if r.ren k then
        mergeLog params r k ++ [mergeOp k p, .free (.fresh k)]
      else mergeLog params r k
    | none => mergeLog params r k

/-- The memory and the log after `k` parameters of the merge. -/
structure Merged (fmt : TaskFormat V) (body : Body V)
    (params : List Param) (r : Scan) (ins : List (Option V)) (m₀ : Mem V)
    (k : Nat) (st : Mem V × List MergeOp) : Prop where
  datum : st.1.datum = outputs fmt body params ins r.ren k m₀.datum
  fresh : ∀ i, st.1.fresh i
    = if i < k ∧ r.ren i = true then none else m₀.fresh i
  log : st.2 = mergeLog params r k

/-- The merge of a renamed parameter. -/
theorem Merged.merge (hm : StealMasks acc params r)
    (hlaw : p.mode = modeCW → (fmt.reduction k).Lawful) {st : Mem V × List MergeOp}
    (hp : params[k]? = some p) (hren : r.ren k = true)
    (horig : orig k = ⟨.datum p.data, some (.fresh k)⟩)
    (hval : m₀.fresh k = some (some (freshValue fmt body r ins k)))
    (h : Merged fmt body params r ins m₀ k st) :
    ∃ st', afterstealParam fmt orig k p st = some st'
      ∧ Merged fmt body params r ins m₀ (k + 1) st' := by
  obtain ⟨q, hq, hpost⟩ := hm.only k (Scan.ren_iff.mp hren)
  rw [hp] at hq
  cases hq
  have hm_eq := (hm.plain p (List.mem_of_getElem? hp)).m_eq
  have hcwbit := hm.cw k p hp
  have hfresh : st.1.fresh k = some (some (freshValue fmt body r ins k)) := by
    rw [h.fresh k, if_neg (fun hc => absurd hc.1 (Nat.lt_irrefl k))]
    exact hval
  have hload : st.1.load (.fresh k) = some (freshValue fmt body r ins k) := by
    show (st.1.fresh k).join = _
    rw [hfresh]
    rfl
  have hcode : p.m ≠ modeV
      ∧ (accessIsOnlywrite p.m || accessIsCumulwrite p.m) = true
      ∧ (p.mode &&& modeIP == 0) = true := by
    rw [hm_eq]
    rcases hpost with hw | hw <;> rw [hw] <;> decide
  -- the body of the merge is the body's own update of the datum
  have hmerge : mergeVersion fmt k p (.datum p.data) (.fresh k) st
      = some ({ st.1 with
          datum := outputParam fmt body ins k p st.1.datum },
        st.2 ++ [mergeOp k p]) := by
    unfold mergeVersion outputParam mergeOp
    rw [hload, hm_eq]
    rcases hpost with hW | hCW
    · have hno : r.cwParam.getLsbD k = false := by
        rw [← Bool.not_eq_true, hcwbit, hW]
        decide
      have hv : freshValue fmt body r ins k = body.out ins k := by
        unfold freshValue
        rw [hno]
        rfl
      rw [hv, hW]
      rfl
    · have hv : freshValue fmt body r ins k
          = (body.contrib ins k).foldl (fmt.reduction k).reduce
            (fmt.reduction k).neutral := by
        unfold freshValue
        rw [hcwbit.mpr hCW]
        rfl
      have hred := (hlaw hCW).reduce_foldl (st.1.datum p.data)
        (body.contrib ins k)
      rw [← hv] at hred
      rw [hCW, if_neg (by decide), if_pos (by decide), if_pos rfl, ← hred]
      rfl
  refine ⟨({ st.1 with
      datum := outputParam fmt body ins k p st.1.datum
      fresh := update st.1.fresh k none },
    st.2 ++ [mergeOp k p] ++ [.free (.fresh k)]), ?_, ?_, fun i => ?_, ?_⟩
  · unfold afterstealParam
    rw [if_neg hcode.1, hcode.2.1, horig]
    simp only [if_true]
    rw [if_neg (by simp)]
    show (mergeVersion fmt k p (.datum p.data) (.fresh k) st).bind _ = _
    rw [hmerge]
    show freeVersion p (.fresh k) _ = _
    unfold freeVersion
    rw [hcode.2.2]
    show ((st.1.fresh k).map _).map _ = _
    rw [hfresh]
    rfl
  · rw [outputs, hp]
    simp only [hren, if_true]
    rw [← h.datum]
  · show update st.1.fresh k none i = _
    by_cases hik : i = k
    · subst hik
      rw [update_self, if_pos ⟨Nat.lt_succ_self i, hren⟩]
    · rw [update_of_ne hik, h.fresh i]
      exact if_congr (lt_succ_and_iff fun heq => absurd heq hik).symm rfl rfl
  · rw [mergeLog, hp]
    simp only [hren, if_true]
    rw [h.log, List.append_assoc]
    rfl

/-- The merge passes the others. -/
theorem Merged.skip (hplain : ∀ p ∈ params, p.Plain) {st : Mem V × List MergeOp}
    (hp : params[k]? = some p) (hren : r.ren k = false)
    (horig : p.Postwrites → some (orig k).data = (orig k).version)
    (h : Merged fmt body params r ins m₀ k st) :
    afterstealParam fmt orig k p st = some st
      ∧ Merged fmt body params r ins m₀ (k + 1) st := by
  have hpl := hplain p (List.mem_of_getElem? hp)
  refine ⟨?_, ?_, fun i => ?_, ?_⟩
  · unfold afterstealParam
    by_cases hpost : p.Postwrites
    · rw [if_pos (horig hpost)]
      split
      · rfl
      · split <;> rfl
    · have hcode : p.m = modeV
          ∨ (accessIsOnlywrite p.m || accessIsCumulwrite p.m) = false := by
        unfold Param.Postwrites at hpost
        rw [hpl.m_eq]
        rcases hpl with hV | hR | hW | hRW | hCW
        · exact .inl hV
        · rw [hR]
          exact .inr (by decide)
        · exact absurd (.inl hW) hpost
        · rw [hRW]
          exact .inr (by decide)
        · exact absurd (.inr hCW) hpost
      rcases hcode with hv | hno
      · rw [if_pos hv]
      · rw [hno]
        split <;> rfl
  · rw [outputs, hp]
    simp only [hren, Bool.false_eq_true, if_false]
    exact h.datum
  · rw [h.fresh i]
    exact if_congr (lt_succ_and_iff fun heq => by simp [heq, hren]).symm
      rfl rfl
  · rw [mergeLog, hp]
    simp only [hren, Bool.false_eq_true, if_false]
    exact h.log

-- ------------------------------------------------------------- the log

theorem mergeOp_inj {j : Nat} {q : Param} (h : mergeOp i p = mergeOp j q) : i = j := by
  unfold mergeOp at h
  split at h <;> split at h <;> simp_all

theorem mergeOp_ne_free {l : Loc} : mergeOp i p ≠ .free l := by
  unfold mergeOp
  split <;> (intro h; cases h)

/-- What the merge does, parameter by parameter. -/
theorem mem_mergeLog {op : MergeOp} (h : op ∈ mergeLog params r k) :
    ∃ i p, params[i]? = some p ∧ r.renamed i
      ∧ (op = mergeOp i p ∨ op = .free (.fresh i)) := by
  induction k with
  | zero => cases h
  | succ k ih =>
    unfold mergeLog at h
    cases hp : params[k]? with
    | none =>
      rw [hp] at h
      exact ih h
    | some p =>
      simp only [hp] at h
      split at h
      next hren =>
        rcases List.mem_append.mp h with h | h
        · exact ih h
        · refine ⟨k, p, hp, Scan.ren_iff.mp hren, ?_⟩
          simpa using h
      next => exact ih h

/-- Each renamed parameter is merged once and freed once. -/
theorem count_mergeLog (hp : params[i]? = some p) (hren : r.ren i = true) :
    (mergeLog params r k).count (mergeOp i p) = (if i < k then 1 else 0) ∧
    (mergeLog params r k).count (.free (.fresh i))
      = if i < k then 1 else 0 := by
  induction k with
  | zero => exact ⟨rfl, rfl⟩
  | succ k ih =>
    unfold mergeLog
    by_cases hik : i = k
    · subst hik
      rw [if_neg (Nat.lt_irrefl i)] at ih
      simp only [hp, hren, if_true]
      rw [List.count_append, List.count_append, ih.1, ih.2,
        if_pos (Nat.lt_succ_self i)]
      have hne := mergeOp_ne_free (i := i) (p := p) (l := .fresh i)
      exact ⟨by simp [hne.symm],
        by simp [hne]⟩
    · have hlt : (if i < k + 1 then 1 else 0)
          = if i < k then 1 else (0 : Nat) := if_congr (by omega) rfl rfl
      rw [hlt]
      cases hq : params[k]? with
      | none => exact ih
      | some q =>
        simp only
        split
        next =>
          have h₁ : mergeOp k q ≠ mergeOp i p :=
            fun h => hik (mergeOp_inj h).symm
          have h₂ : (MergeOp.free (.fresh k)) ≠ .free (.fresh i) := by
            intro h
            injection h with h
            injection h with h
            exact hik h.symm
          have h₃ := mergeOp_ne_free (i := i) (p := p) (l := .fresh k)
          have h₄ := mergeOp_ne_free (i := k) (p := q) (l := .fresh i)
          rw [List.count_append, List.count_append, ih.1, ih.2]
          exact ⟨by simp [h₁, h₃.symm],
            by simp [h₂, h₄]⟩
        next => exact ih

end Merge

-- ======== the whole life

section Whole

variable {V : Type*} {fmt : TaskFormat V} {acc params left : List Param} {r : Scan}
  {earlier : (Addr → V) → Addr → V}

/-- The masks are 0 iff nothing is renamed. -/
theorem Scan.masks_zero_iff :
    (r.warParam = 0 ∧ r.cwParam = 0) ↔ ∀ i, ¬ r.renamed i := by
  constructor
  · intro h i hi
    unfold Scan.renamed at hi
    rw [h.1, h.2] at hi
    simp at hi
  · intro h
    constructor
    · refine BitVec.eq_of_getLsbD_eq fun i _ => ?_
      have := h i
      unfold Scan.renamed at this
      rw [not_or, Bool.not_eq_true] at this
      rw [this.1]
      exact BitVec.getLsbD_zero.symm
    · refine BitVec.eq_of_getLsbD_eq fun i _ => ?_
      have := h i
      unfold Scan.renamed at this
      rw [not_or, Bool.not_eq_true, Bool.not_eq_true] at this
      rw [this.2]
      exact BitVec.getLsbD_zero.symm

/-- What the body reads is not changed by what the tasks left do. -/
theorem inputs_earlier (hplain : ∀ p ∈ params, p.Plain) (heff : Effect left earlier)
    (hkept : ∀ p ∈ params, p.reads = true → ∀ q ∈ left, q.writes = true → q.data ≠ p.data)
    (d : Addr → V) (f : Nat → V) (k : Nat) :
    inputs params (earlier d) f k = inputs params d f k := by
  induction k with
  | zero => rfl
  | succ k ih =>
    unfold inputs
    cases hp : params[k]? with
    | none => exact ih
    | some p =>
      have hmem := List.mem_of_getElem? hp
      have hin : inputOf (earlier d) f k p = inputOf d f k p := by
        unfold inputOf
        split
        · rfl
        · split
          next hread =>
            have hr := (hplain p hmem).reads_iff.mpr hread
            rw [heff.writes d p.data (hkept p hmem hr)]
          next => rfl
      simp only
      rw [ih, hin]

/-- The life of a stolen task whose parameters can be renamed. -/
theorem StealMasks.stolenRun_merge (hm : StealMasks acc params r)
    (hcopy : Copies fmt params r)
    (hlaw : ∀ i p, params[i]? = some p → p.mode = modeCW → (fmt.reduction i).Lawful)
    (hleft : ∀ q ∈ left, q ∈ acc) (hne : ¬ (r.warParam = 0 ∧ r.cwParam = 0))
    (body : Body V) (version : Nat → Option Loc) (d : Addr → V) (f : Nat → V)
    (heff : Effect left earlier) :
    ∃ mem, stolenRun fmt body params r.warParam r.cwParam version earlier
        (.init d f)
        = some ⟨mem, .merge, mergeLog params r params.length⟩
      ∧ mem.datum = outputs fmt body params
          (inputs params d f params.length) (fun _ => true) params.length
          (earlier d)
      ∧ ∀ i, mem.fresh i = none := by
  have hlen : ∀ {i : Nat} {p : Param}, params[i]? = some p →
      i < params.length := fun hp => (List.getElem?_eq_some_iff.mp hp).1
  -- the copy
  obtain ⟨st, hst, hC⟩ := forIdx_spec
    (f := stealParam fmt r.warParam r.cwParam (origArgs params version))
    (I := Copied fmt params r version d f) (l := params)
    (s := (.init d f, formatTaskCopy params (origArgs params version)))
    ⟨rfl, rfl, fun i p hi => absurd hi (Nat.not_lt_zero i),
      fun i => by simp [Mem.init], fun i => by simp⟩
    fun n p st hp hI => hI.step hm hcopy hp
  -- the thief's body
  obtain ⟨m₁, hm₁, hW⟩ := hC.callBody hm
  have hsteal : taskstealBody fmt body params r.warParam r.cwParam
      (origArgs params version) (.init d f) = some (m₁, some st.2) := by
    unfold taskstealBody
    rw [if_neg hne, hst]
    show (callBody fmt body params st.2 st.1).map _ = _
    rw [hm₁]
    rfl
  -- the versions
  obtain ⟨w, hw, hV⟩ := forIdx_spec (f := writebackParam fmt st.2)
    (I := Versioned params st.2 (origArgs params version) m₁ r.warParam)
    (l := params) (s := ⟨m₁, origArgs params version, r.warParam⟩)
    ⟨rfl, rfl, rfl, fun _ _ => rfl, fun i p hp _ => by simp⟩
    fun n p w hp hI => by
      refine hI.step hm.plain hp fun hv => ⟨?_, ?_, f n, ?_⟩
      · have hpl := hm.plain p (List.mem_of_getElem? hp)
        exact hcopy.address n p hp (hpl.m_eq.symm.trans hv)
      · have hren := hm.ren_eq_false hp (fun hc => by
          rw [(hm.plain p (List.mem_of_getElem? hp)).m_eq] at hv
          rcases hc with hc | hc <;> rw [hc] at hv <;> revert hv <;> decide)
        rw [hC.copy n, if_neg (fun hc => by simp [hren] at hc)]
        unfold formatTaskCopy
        rw [hp]
        simp [hv]
      · rw [hW.copyField]
        exact hC.value n p (hlen hp) hp hv
  have hwrite : taskwriteBody fmt params r.warParam r.cwParam
      (origArgs params version) (some st.2) m₁ = some (w, .merge) := by
    unfold taskwriteBody
    simp only [hw, Option.map_some]
    rw [hV.war, if_neg hne]
  -- the merge
  let m₂ : Mem V := { w.mem with datum := earlier w.mem.datum }
  have hfresh : ∀ i, m₂.fresh i = if i < params.length ∧ r.ren i = true
      then some (some (freshValue fmt body r
        (inputs params d f params.length) i)) else none := by
    intro i
    show w.mem.fresh i = _
    rw [hV.fresh, hW.fresh i]
    refine if_ctx_congr Iff.rfl (fun _ => rfl) fun hc => ?_
    rw [hC.fresh i, if_neg hc]
  have horig : ∀ {i : Nat} {p : Param}, params[i]? = some p →
      p.Postwrites → w.orig i = ⟨.datum p.data, some (st.2 i).data⟩ := by
    intro i p hp hpost
    have hv : p.m ≠ modeV := by
      rw [(hm.plain p (List.mem_of_getElem? hp)).m_eq]
      rcases hpost with h | h <;> rw [h] <;> decide
    rw [hV.orig i p hp hpost, if_pos (hlen hp), origArgs_shared hp hv]
  obtain ⟨res, hres, hM⟩ := forIdx_spec (f := afterstealParam fmt w.orig)
    (I := Merged fmt body params r (inputs params d f params.length) m₂)
    (l := params) (s := (m₂, []))
    ⟨rfl, fun i => by simp, rfl⟩
    fun n p res hp hI => by
      by_cases hren : r.ren n = true
      · obtain ⟨q, hq, hpost⟩ := hm.only n (Scan.ren_iff.mp hren)
        rw [hp] at hq
        cases hq
        refine hI.merge hm (hlaw n p hp) hp hren ?_ ?_
        · rw [horig hp hpost, hC.copy n, if_pos ⟨hlen hp, hren⟩]
        · rw [hfresh n, if_pos ⟨hlen hp, hren⟩]
      · rw [Bool.not_eq_true] at hren
        refine ⟨res, hI.skip hm.plain hp hren fun hpost => ?_⟩
        have hv : p.m ≠ modeV := by
          rw [(hm.plain p (List.mem_of_getElem? hp)).m_eq]
          rcases hpost with h | h <;> rw [h] <;> decide
        rw [horig hp hpost, hC.data hp hv hren]
  refine ⟨res.1, ?_, ?_, fun i => ?_⟩
  · unfold stolenRun
    show (taskstealBody fmt body params r.warParam r.cwParam
      (origArgs params version) (.init d f)).bind _ = _
    rw [hsteal]
    show (taskwriteBody fmt params r.warParam r.cwParam
      (origArgs params version) (some st.2) m₁).bind _ = _
    rw [hwrite]
    show (afterstealBody fmt params w.orig m₂).map _ = _
    unfold afterstealBody
    rw [hres, ← hM.log]
    rfl
  · rw [hM.datum, hm.outputs_split]
    show outputs _ _ _ _ _ _ (earlier w.mem.datum) = _
    rw [hV.datum, hW.datum, hm.earlier_outputs hleft heff, hC.datum]
  · rw [hM.fresh i, hfresh i]
    split <;> rfl

/-- The life of a stolen task none of whose parameters is renamed. -/
theorem StealMasks.stolenRun_term (hm : StealMasks acc params r)
    (hleft : ∀ q ∈ left, q ∈ acc) (hzero : r.warParam = 0 ∧ r.cwParam = 0) (body : Body V)
    (version : Nat → Option Loc) (d : Addr → V) (f : Nat → V) (heff : Effect left earlier) :
    ∃ mem, stolenRun fmt body params r.warParam r.cwParam version earlier
        (.init d f) = some ⟨mem, .term, []⟩
      ∧ mem.datum = outputs fmt body params
          (inputs params d f params.length) (fun _ => true) params.length
          (earlier d)
      ∧ ∀ i, mem.fresh i = none := by
  have hren : (fun _ => true) = fun i => !r.ren i := by
    funext i
    have hno := Scan.masks_zero_iff.mp hzero i
    rw [← Scan.ren_iff, Bool.not_eq_true] at hno
    rw [hno]
    rfl
  have hsteal : taskstealBody fmt body params r.warParam r.cwParam
      (origArgs params version) (.init d f) = some ({ Mem.init d f with
        datum := outputs fmt body params (inputs params d f params.length)
          (fun _ => true) params.length d }, none) := by
    unfold taskstealBody
    rw [if_pos hzero, callBody_orig _ hm.plain]
    rfl
  refine ⟨{ Mem.init d f with
    datum := earlier (outputs fmt body params
      (inputs params d f params.length) (fun _ => true) params.length d) },
    ?_, ?_, fun _ => rfl⟩
  · unfold stolenRun
    show (taskstealBody fmt body params r.warParam r.cwParam
      (origArgs params version) (.init d f)).bind _ = _
    rw [hsteal]
    simp only [taskwriteBody, Option.bind_some, Option.map_some]
    rw [if_pos hzero]
    rfl
  · show earlier _ = _
    rw [hren]
    exact hm.earlier_outputs hleft heff _ _

/-- A parameter that the loop over the copy cannot get past ends the run of
the thief. -/
theorem taskstealBody_eq_none {body : Body V} {m : Mem V} {orig : Args}
    (hne : ¬ (r.warParam = 0 ∧ r.cwParam = 0)) {i : Nat} {p : Param}
    (hp : params[i]? = some p)
    (hstop : ∀ st, stealParam fmt r.warParam r.cwParam orig i p st = none) :
    taskstealBody fmt body params r.warParam r.cwParam orig m = none := by
  unfold taskstealBody
  rw [if_neg hne, forIdx_eq_none hp hstop]
  rfl

/-- A thief that gets to the end got through the copy. -/
theorem StealMasks.copies_of_run (hm : StealMasks acc params r)
    (hne : ¬ (r.warParam = 0 ∧ r.cwParam = 0)) {body : Body V} {m : Mem V}
    {orig : Args} {res : Mem V × Option Args}
    (hrun : taskstealBody fmt body params r.warParam r.cwParam orig m
      = some res) : Copies fmt params r := by
  have hgo : ∀ {i p}, params[i]? = some p →
      ¬ ∀ st, stealParam fmt r.warParam r.cwParam orig i p st = none := by
    intro i p hp hstop
    rw [taskstealBody_eq_none hne hp hstop] at hrun
    cases hrun
  have hcode : ∀ {p : Param}, p.Plain → p.Postwrites → p.m ≠ modeV
      ∧ accessIsStack p.m = false ∧ mayRename p = true := by
    intro p hpl hpost
    unfold mayRename
    rw [hpl.m_eq]
    rcases hpost with hw | hw <;> rw [hw] <;> decide
  have hsmall : ∀ i p, params[i]? = some p → p.Postwrites → i < 32 := by
    intro i p hp hpost
    obtain ⟨hv, hstack, hmay⟩ :=
      hcode (hm.plain p (List.mem_of_getElem? hp)) hpost
    by_contra hge
    refine hgo hp fun st => ?_
    -- the shift is undefined
    have hno : ∀ mask : BitVec 32, maskHas mask i = none :=
      fun mask => if_neg hge
    unfold stealParam
    rw [if_neg hv, hstack, hmay]
    unfold takesFresh
    rw [hno]
    rfl
  refine ⟨hsmall, fun i p hp hV => ?_, fun i hi => ?_⟩
  · have hv : p.m = modeV :=
      (hm.plain p (List.mem_of_getElem? hp)).m_eq.trans hV
    by_contra hget
    refine hgo hp fun st => ?_
    unfold stealParam
    rw [if_pos hv, Option.eq_none_iff_forall_ne_some.mpr fun _ => hget]
    rfl
  · obtain ⟨p, hp, hpost⟩ := hm.only i hi
    obtain ⟨hv, hstack, hmay⟩ :=
      hcode (hm.plain p (List.mem_of_getElem? hp)) hpost
    have hlt := hsmall i p hp hpost
    by_contra hview
    refine hgo hp fun st => ?_
    unfold stealParam
    rw [if_neg hv, hstack, hmay, takesFresh_eq hlt]
    show (if r.ren i = true then _ else _) = none
    rw [if_pos (Scan.ren_iff.mpr hi)]
    unfold freshParam maskHas
    rw [if_pos hlt, Option.eq_none_iff_forall_ne_some.mpr fun _ => hview]
    rfl

/-- The life of a stolen task that the copy does not stop: the data of the
body in place, but with the inputs of the theft. -/
theorem StealMasks.stolenRun_datum (hm : StealMasks acc params r)
    (hgo : (r.warParam = 0 ∧ r.cwParam = 0) ∨ Copies fmt params r)
    (hlaw : ∀ i p, params[i]? = some p → p.mode = modeCW → (fmt.reduction i).Lawful)
    (hleft : ∀ q ∈ left, q ∈ acc) (body : Body V) (version : Nat → Option Loc)
    (d : Addr → V) (f : Nat → V) (heff : Effect left earlier) :
    ∃ mem, stolenRun fmt body params r.warParam r.cwParam version earlier
        (.init d f) = some (if r.warParam = 0 ∧ r.cwParam = 0
          then ⟨mem, .term, []⟩
          else ⟨mem, .merge, mergeLog params r params.length⟩)
      ∧ mem.datum = outputs fmt body params
          (inputs params d f params.length) (fun _ => true) params.length
          (earlier d)
      ∧ ∀ i, mem.fresh i = none := by
  by_cases hzero : r.warParam = 0 ∧ r.cwParam = 0
  · simp only [if_pos hzero]
    exact hm.stolenRun_term hleft hzero body version d f heff
  · simp only [if_neg hzero]
    exact hm.stolenRun_merge (hgo.resolve_left hzero) hlaw hleft hzero body
      version d f heff

end Whole

-- ======== what a stale input shows

section Stale

variable {V : Type*} {fmt : TaskFormat V} {body : Body V}
  {params : List Param} {ins : List (Option V)}

/-- Inputs that are the same are so parameter by parameter. -/
theorem inputs_inj {d d' : Addr → V} {f : Nat → V} {k : Nat}
    (h : inputs params d f k = inputs params d' f k) {i : Nat} {p : Param}
    (hi : i < k) (hp : params[i]? = some p) :
    inputOf d f i p = inputOf d' f i p := by
  induction k with
  | zero => exact absurd hi (Nat.not_lt_zero i)
  | succ k ih =>
    simp only [inputs] at h
    cases hq : params[k]? with
    | none =>
      rw [hq] at h
      refine ih h (Nat.lt_of_le_of_ne (Nat.le_of_lt_succ hi) ?_)
      rintro rfl
      rw [hp] at hq
      cases hq
    | some q =>
      rw [hq] at h
      obtain ⟨hpre, hlast⟩ := List.append_inj' h rfl
      rcases Nat.lt_succ_iff_lt_or_eq.mp hi with hlt | rfl
      · exact ih hpre hlt
      · rw [hp] at hq
        cases hq
        exact List.head_eq_of_cons_eq hlast

/-- A parameter through which nothing is given or accumulated. -/
theorem outputParam_idle {i : Nat} {p : Param}
    (hw : accessIsWrite p.m = false) (hc : body.contrib ins i = [])
    (h : Addr → V) : outputParam fmt body ins i p h = h := by
  unfold outputParam
  rw [hw, hc]
  simp

/-- The body acts through parameter `j` alone. -/
theorem outputs_only {j : Nat} {w : Param} (hj : params[j]? = some w)
    (hidle : ∀ i p, params[i]? = some p → i ≠ j → ∀ h : Addr → V,
      outputParam fmt body ins i p h = h) (h : Addr → V) (k : Nat) :
    outputs fmt body params ins (fun _ => true) k h
      = if j < k then outputParam fmt body ins j w h else h := by
  induction k with
  | zero => rfl
  | succ k ih =>
    simp only [outputs, if_true]
    cases hp : params[k]? with
    | none =>
      have hne : j ≠ k := by
        rintro rfl
        rw [hj] at hp
        cases hp
      rw [ih]
      exact if_congr (by omega) rfl rfl
    | some p =>
      by_cases hjk : j = k
      · subst hjk
        rw [hj] at hp
        cases hp
        simp only [ih, if_neg (Nat.lt_irrefl j), if_pos (Nat.lt_succ_self j)]
      · simp only [hidle k p hp (Ne.symm hjk), ih]
        exact if_congr (by omega) rfl rfl

/-- A body that gives one value everywhere leaves it where it writes. -/
theorem outputs_const {x : V} (hout : ∀ i, body.out ins i = x)
    (hc : ∀ i, body.contrib ins i = []) {j : Nat} {w : Param}
    (hj : params[j]? = some w) (hw : accessIsWrite w.m = true) (h : Addr → V)
    {k : Nat} (hk : j < k) :
    outputs fmt body params ins (fun _ => true) k h w.data = x := by
  induction k with
  | zero => exact absurd hk (Nat.not_lt_zero j)
  | succ k ih =>
    simp only [outputs, if_true]
    have hlast : ∀ g : Addr → V, outputParam fmt body ins j w g w.data = x := by
      intro g
      unfold outputParam
      rw [if_pos hw, update_self, hout]
    cases hp : params[k]? with
    | none =>
      refine ih (Nat.lt_of_le_of_ne (Nat.le_of_lt_succ hk) ?_)
      rintro rfl
      rw [hj] at hp
      cases hp
    | some p =>
      rcases Nat.lt_succ_iff_lt_or_eq.mp hk with hlt | rfl
      · have hrest := ih hlt
        simp only
        unfold outputParam
        split
        · by_cases hd : w.data = p.data
          · rw [hd, update_self, hout]
          · rw [update_of_ne hd, hrest]
        · rw [hc]
          simpa using hrest
      · rw [hj] at hp
        cases hp
        exact hlast _

/-- If the task shows something, some body tells two inputs apart, from
data that hold everywhere one value given in advance. -/
theorem exists_body_telling [Nontrivial V]
    (hplain : ∀ p ∈ params, p.Plain)
    (hshows : ∃ i p, params[i]? = some p ∧ Shows fmt i p) :
    ∃ v : V, ∀ ins ins' : List (Option V), ins ≠ ins' → ∃ body : Body V,
      outputs fmt body params ins (fun _ => true) params.length (fun _ => v)
        ≠ outputs fmt body params ins' (fun _ => true) params.length
            fun _ => v := by
  classical
  by_cases hwrite : ∃ (j : Nat) (w : Param),
      params[j]? = some w ∧ accessIsWrite w.m = true
  · obtain ⟨j, w, hj, hw⟩ := hwrite
    obtain ⟨x, v, hne⟩ := exists_pair_ne V
    have hlt := (List.getElem?_eq_some_iff.mp hj).1
    refine ⟨v, fun ins ins' hins => ⟨⟨fun xs _ => if xs = ins then x else v,
      fun _ _ => []⟩, fun heq => hne ?_⟩⟩
    have hat := congrFun heq w.data
    rw [outputs_const (x := x) (fun i => if_pos rfl) (fun _ => rfl) hj hw _ hlt,
      outputs_const (x := v) (fun i => if_neg hins.symm) (fun _ => rfl) hj hw _
        hlt] at hat
    exact hat
  · obtain ⟨j, w, hj, hw⟩ := hshows
    have hnone : ∀ (i : Nat) (p : Param), params[i]? = some p →
        accessIsWrite p.m = false :=
      fun i p hp => Bool.eq_false_iff.mpr fun hc => hwrite ⟨i, p, hp, hc⟩
    have hm := (hplain w (List.mem_of_getElem? hj)).m_eq
    have hcw : w.mode = modeCW ∧ ∃ v c, (fmt.reduction j).reduce v c ≠ v := by
      have hno := hnone j w hj
      rw [hm] at hno
      rcases hw with hw | hw | hw
      · rw [hw] at hno
        cases hno
      · rw [hw] at hno
        cases hno
      · exact hw
    obtain ⟨hmode, v, c, hne⟩ := hcw
    have hlt := (List.getElem?_eq_some_iff.mp hj).1
    refine ⟨v, fun ins ins' hins => ?_⟩
    -- it accumulates c through parameter j when it reads ins
    let body : Body V := ⟨fun _ _ => v, fun xs i =>
      if xs = ins ∧ i = j then [c] else []⟩
    refine ⟨body, fun heq => hne ?_⟩
    have hidle : ∀ (xs : List (Option V)) i p, params[i]? = some p → i ≠ j →
        ∀ h : Addr → V, outputParam fmt body xs i p h = h :=
      fun xs i p hp hij =>
        outputParam_idle (hnone i p hp) (if_neg fun hc => hij hc.2)
    have hquiet : ∀ h : Addr → V, outputParam fmt body ins' j w h = h :=
      outputParam_idle (hnone j w hj) (if_neg fun hc => hins hc.1.symm)
    have hat := congrFun heq w.data
    rw [outputs_only hj (hidle ins), outputs_only hj (hidle ins'), if_pos hlt,
      if_pos hlt, hquiet] at hat
    have hacc : body.contrib ins j = [c] := if_pos ⟨rfl, rfl⟩
    unfold outputParam at hat
    rw [if_neg (by rw [hnone j w hj]; decide), if_pos (by rw [hm, hmode]; decide),
      update_self, hacc] at hat
    exact hat

/-- A task that shows nothing leaves the data as they are. -/
theorem outputs_of_not_shows (hplain : ∀ p ∈ params, p.Plain)
    (hno : ¬ ∃ i p, params[i]? = some p ∧ Shows fmt i p) (h : Addr → V)
    (k : Nat) : outputs fmt body params ins (fun _ => true) k h = h := by
  induction k with
  | zero => rfl
  | succ k ih =>
    simp only [outputs, if_true]
    cases hp : params[k]? with
    | none => exact ih
    | some p =>
      simp only [ih]
      have hpl := hplain p (List.mem_of_getElem? hp)
      have hnot : ¬ Shows fmt k p := fun hs => hno ⟨k, p, hp, hs⟩
      by_cases hw : p.writes = true
      · unfold Shows at hnot
        have hcw : p.mode = modeCW := by
          unfold Param.writes at hw
          rw [hpl.m_eq] at hw
          rcases hpl with h | h | h | h | h
          · rw [h] at hw
            cases hw
          · rw [h] at hw
            cases hw
          · exact absurd (.inl h) hnot
          · exact absurd (.inr (.inl h)) hnot
          · exact h
        have htriv : ∀ v c, (fmt.reduction k).reduce v c = v := by
          intro v c
          by_contra hc
          exact hnot (.inr (.inr ⟨hcw, v, c, hc⟩))
        have hfold : ∀ (cs : List V) v,
            cs.foldl (fmt.reduction k).reduce v = v := by
          intro cs v
          induction cs with
          | nil => rfl
          | cons c cs ihc => rw [List.foldl_cons, htriv, ihc]
        unfold outputParam
        rw [hpl.m_eq, hcw, if_neg (by decide), if_pos (by decide), hfold]
        exact update_eq_self _ _
      · exact outputParam_of_not_writes hpl (by simpa using hw) h

/-- Doing nothing is an effect of any tasks, and so is one write. -/
theorem effect_id (left : List Param) : Effect left (id : (Addr → V) → _) :=
  ⟨fun _ _ _ => rfl, fun _ _ _ _ => rfl⟩

/-- A write of a task left behind is one of its effects. -/
theorem effect_update {left : List Param} {q : Param} (hq : q ∈ left)
    (hw : q.writes = true) (v : V) :
    Effect left fun h : Addr → V => update h q.data v :=
  ⟨fun _ _ hno => update_of_ne (hno q hq hw).symm _ _,
    fun _ _ _ hno =>
      update_comm (hno q hq (Param.shared_of_writes hw)).symm _ _ _⟩

end Stale

-- ======== result

/-- Natural numbers, accumulated by addition, nothing constructed; the
callbacks return. -/
def natFormat (flag : FormatFlag) : TaskFormat Nat where
  flag := flag
  cstor := fun _ => none
  reduction := fun _ => ⟨fun a b => a + b, 0⟩
  getOffParam := fun _ => some ()
  setViewParam := fun _ => some ()

/-- Addition is a lawful reduction. -/
theorem natFormat_lawful (flag : FormatFlag) (i : Nat) :
    ((natFormat flag).reduction i).Lawful :=
  ⟨Nat.add_assoc, Nat.add_zero⟩

end XKaapi.Dfg
