/-
Readiness of the tasks of a frame, seen by a thief
(src/task/kaapi_task_computeready.c, called on every task of the frame
by `kaapi_sched_stealframe`).

`taskComputeready` folds a task's parameters into a history map that
keeps one mode per datum, and counts the parameters that are not ready;
`war_param` and `cw_param` get one bit for each parameter that has to be
renamed. `kaapi_sched_stealframe` calls it on the tasks of a frame in program
order with one map.

# What the map remembers

The map entry of a datum is set when it is void and never again, so after
any prefix of accesses it holds the mode of the first one (`computereadyLoop_spec`).
A reader is ready when that first mode is R, whatever came after it. The
accesses R, W, R on one datum therefore make the third task ready while
the second may still have to write: `StealSound` fails, exactly on the
frames `ReadsOrdered` excludes (`stealSound_iff`).

The masks are `unsigned int` and bit `i` is `1 << i`: a parameter that
needs a bit at an index from 32 up is a shift C leaves undefined, and
`none` here (`MaskFits`).
-/
import XKaapi.Dfg.Access
import Mathlib.Data.List.Basic

namespace XKaapi.Dfg

-- ======== code

/-- The `kaapi_hashmap_t` of a scan: `last_mode` of each datum, VOID in
an entry that `kaapi_hashmap_findinsert` has just made. -/
abbrev HashMap := Addr → AccessMode

/-- A task of a frame: its parameters when its body has a format, and
whether its execution is over. -/
structure FrameTask where
  format : Option (List Param)
  terminated : Bool
deriving DecidableEq, Repr

/-- The locals of `kaapi_task_computeready`, and the map. -/
structure Scan where
  wc : Nat
  warParam : BitVec 32
  cwParam : BitVec 32
  map : HashMap

/-- `mask |= 1<<i`, undefined from the width of the mask up. -/
def orBit (mask : BitVec 32) (i : Nat) : Option (BitVec 32) :=
  if i < 32 then some (mask ||| 1#32 <<< i) else none

/-- The statement `if (c) mask |= 1<<i`. -/
def orBitIf (c : Bool) (mask : BitVec 32) (i : Nat) :
    Option (BitVec 32) :=
  if c then orBit mask i else some mask

/-- The test under which a parameter is not counted as waiting. -/
def accessReady (m lastMode : AccessMode) : Bool :=
  accessIsOnlywrite m || lastMode == modeVoid || accessIsStack m
    || accessIsConcurrent m lastMode

/-- The test under which a ready parameter is copied on steal. -/
def accessWar (m lastMode : AccessMode) : Bool :=
  (accessIsOnlywrite m && lastMode != modeVoid)
    || (accessIsCumulwrite m && accessIsConcurrent m lastMode)
    || accessIsStack m

/-- The branch of the loop taken by a ready parameter `i` of mode `m`. -/
def markReady (i : Nat) (m lastMode : AccessMode) (s : Scan) :
    Option Scan := do
  let war ← orBitIf (accessWar m lastMode) s.warParam i
  let cw ← orBitIf (accessIsCumulwrite m) s.cwParam i
  some { s with wc := s.wc - 1, warParam := war, cwParam := cw }

/-- The end of the loop body: the map entry is set if it is not. -/
def updateLastMode (p : Param) (s : Scan) : Scan :=
  if s.map p.data = modeVoid then
    { s with map := fun a => if a = p.data then p.m else s.map a }
  else s

/-- One turn of the loop of `kaapi_task_computeready`, on parameter `i`. -/
def computereadyParam (i : Nat) (p : Param) (s : Scan) : Option Scan :=
  if p.m = modeV then some { s with wc := s.wc - 1 }
  else
    let lastMode := s.map p.data
    (if accessReady p.m lastMode then markReady i p.m lastMode s
      else some s).map (updateLastMode p)

/-- The loop of `kaapi_task_computeready`, from parameter `i` on. -/
def computereadyLoop (i : Nat) : List Param → Scan → Option Scan
  | [], s => some s
  | p :: ps, s => do
      let s ← computereadyParam i p s
      computereadyLoop (i + 1) ps s

/-- The locals before the loop: every parameter is counted, no mask bit is
set (`kaapi_sched_steal_task` cleared the masks). -/
def scanInit (params : List Param) (map : HashMap) : Scan where
  wc := params.length
  warParam := 0
  cwParam := 0
  map := map

/-- `kaapi_task_computeready` on a task with these parameters. The answer
of the function is the field `wc`. -/
def taskComputeready (params : List Param) (map : HashMap) : Option Scan :=
  computereadyLoop 0 params (scanInit params map)

/-- The scan of `kaapi_sched_stealframe`: one call per task that has a
format, in program order. The answers are in the order of the tasks. -/
def stealframeScan : List FrameTask → HashMap → Option (List (Option Scan))
  | [], _ => some []
  | t :: ts, map =>
    match t.format with
    | none => do
        let rs ← stealframeScan ts map
        some (none :: rs)
    | some params => do
        let r ← taskComputeready params map
        let rs ← stealframeScan ts r.map
        some (some r :: rs)

/-- `kaapi_hashmap_clear`: the map each frame's scan starts with. -/
def hashmapClear : HashMap := fun _ => modeVoid

-- ======== sound thefts

namespace FrameTask

/-- The parameters the scan sees. -/
def accesses (t : FrameTask) : List Param := t.format.getD []

end FrameTask

/-- The thief works on a copy or a fresh accumulator of parameter `i`. -/
def Scan.renamed (r : Scan) (i : Nat) : Prop :=
  r.warParam.getLsbD i = true ∨ r.cwParam.getLsbD i = true

/-- Running the owner of `p` before the earlier access `q` breaks no
dependency: `p` does not use what `q` writes, and what `p` writes is
renamed. -/
def Harmless (r : Scan) (i : Nat) (p q : Param) : Prop :=
  (p.reads = true → q.writes = false) ∧ (p.writes = true → r.renamed i)

/-- Stealing any task found ready is harmless to every earlier task that
has not terminated. -/
def StealSound (frame : List FrameTask) : Prop :=
  ∃ rs, stealframeScan frame hashmapClear = some rs ∧
    ∀ (k : Nat) (t : FrameTask) (r : Scan), frame[k]? = some t →
      rs[k]? = some (some r) → r.wc = 0 →
      ∀ (i : Nat) (p : Param), t.accesses[i]? = some p →
      ∀ (j : Nat) (u : FrameTask), j < k → frame[j]? = some u →
        u.terminated = false →
      ∀ q ∈ u.accesses, q.shared = true → p.shared = true →
        q.data = p.data → Harmless r i p q

-- ======== the condition

/-- The mode of the first shared access to a datum. -/
def firstMode (acc : List Param) (a : Addr) : AccessMode :=
  match acc.find? fun q => q.data == a && q.shared with
  | some q => q.m
  | none => modeVoid

/-- The mode the scan compares parameter `n` of `ps` with, after the
accesses `acc`: that of the first access to its datum. -/
def firstSeen (acc ps : List Param) (n : Nat) (p : Param) : AccessMode :=
  firstMode (acc ++ ps.take n) p.data

/-- The accesses of the tasks before task `k`. -/
def accessesBefore (frame : List FrameTask) (k : Nat) : List Param :=
  (frame.take k).flatMap FrameTask.accesses

/-- A parameter of mode `m` waits when its datum was first accessed in a
mode it is not concurrent with: R after other than R, RW after anything,
CW after other than CW. -/
def Waits (first m : AccessMode) : Prop :=
  first ≠ modeVoid ∧
    (m = modeR ∧ first ≠ modeR ∨ m = modeRW ∨ m = modeCW ∧ first ≠ modeCW)

/-- A parameter of mode `m` takes a bit of a mask: a W on a datum already
accessed, or a CW that does not wait. -/
def TakesBit (first m : AccessMode) : Prop :=
  m = modeW ∧ first ≠ modeVoid
    ∨ m = modeCW ∧ (first = modeVoid ∨ first = modeCW)

instance (first m : AccessMode) : Decidable (Waits first m) :=
  inferInstanceAs (Decidable (_ ∧ (_ ∧ _ ∨ _ ∨ _ ∧ _)))

instance (first m : AccessMode) : Decidable (TakesBit first m) :=
  inferInstanceAs (Decidable (_ ∧ _ ∨ _ ∧ (_ ∨ _)))

/-- Every mask bit the scan has to set exists. -/
def MaskFits (frame : List FrameTask) : Prop :=
  ∀ (k : Nat) (t : FrameTask) (i : Nat) (p : Param), frame[k]? = some t →
    t.accesses[i]? = some p →
    TakesBit (firstSeen (accessesBefore frame k) t.accesses i p) p.m →
    i < 32

/-- A task none of whose parameters waits, and which reads a datum first
accessed by a reader, has no writer of that datum left before it. -/
def ReadsOrdered (frame : List FrameTask) : Prop :=
  ∀ (k : Nat) (t : FrameTask), frame[k]? = some t →
    (∀ (i : Nat) (p : Param), t.accesses[i]? = some p →
      ¬ Waits (firstSeen (accessesBefore frame k) t.accesses i p) p.m) →
    ∀ (i : Nat) (p : Param), t.accesses[i]? = some p → p.m = modeR →
      firstSeen (accessesBefore frame k) t.accesses i p = modeR →
    ∀ (j : Nat) (u : FrameTask), j < k → frame[j]? = some u →
      u.terminated = false →
    ∀ q ∈ u.accesses, q.data = p.data → q.writes = false

-- ======== first modes

variable {q p : Param} {acc ps : List Param} {mask mask' : BitVec 32} {i : Nat}
  {s' s : Scan} {frame : List FrameTask} {map : HashMap}

/-- An access that came before has left its mode, or one before it. -/
theorem firstMode_of_mem {a : Addr} (hq : q ∈ acc) (hdata : q.data = a)
    (hs : q.shared = true) : ∃ q' ∈ acc, firstMode acc a = q'.m ∧ q'.shared = true := by
  cases hf : acc.find? fun q => q.data == a && q.shared with
  | none =>
    rw [List.find?_eq_none] at hf
    exact absurd (hf q hq) (by simp [hdata, hs])
  | some q' =>
    have hsome := List.find?_some hf
    refine ⟨q', List.mem_of_find?_eq_some hf, by rw [firstMode, hf], ?_⟩
    simp only [Bool.and_eq_true] at hsome
    exact hsome.2

/-- The map after one more access. -/
theorem firstMode_snoc (hacc : ∀ q ∈ acc, q.IsDfgMode) (a : Addr) :
    firstMode (acc ++ [p]) a
      = if firstMode acc a = modeVoid ∧ p.data = a ∧ p.shared = true
        then p.m else firstMode acc a := by
  cases hf : acc.find? fun q => q.data == a && q.shared with
  | none =>
    have hvoid : firstMode acc a = modeVoid := by rw [firstMode, hf]
    rw [hvoid, firstMode, List.find?_append, hf]
    by_cases hp : p.data = a ∧ p.shared = true
    · simp [hp]
    · rw [if_neg (fun h => hp h.2)]
      have hpf : (p.data == a && p.shared) = false := by
        simpa using hp
      simp [hpf]
  | some q =>
    have hne : firstMode acc a ≠ modeVoid := by
      rw [firstMode, hf]
      exact (hacc q (List.mem_of_find?_eq_some hf)).ne_void
    rw [if_neg fun h => hne h.1, firstMode, firstMode, List.find?_append, hf]
    rfl

/-- The map holds a mode of an access, or nothing. -/
theorem firstMode_cases (hacc : ∀ q ∈ acc, q.IsDfgMode) (a : Addr) :
    firstMode acc a = modeVoid ∨ firstMode acc a = modeR
      ∨ firstMode acc a = modeW ∨ firstMode acc a = modeRW
      ∨ firstMode acc a = modeCW := by
  cases hf : acc.find? fun q => q.data == a && q.shared with
  | none => exact .inl (by rw [firstMode, hf])
  | some q =>
    have hs := List.find?_some hf
    simp only [Bool.and_eq_true] at hs
    have hq := (hacc q (List.mem_of_find?_eq_some hf)).cases_shared hs.2
    rw [firstMode, hf]
    exact .inr hq

-- ======== one parameter

section Table

variable {m f : AccessMode}
  (hm : m = modeR ∨ m = modeW ∨ m = modeRW ∨ m = modeCW)
  (hf : f = modeVoid ∨ f = modeR ∨ f = modeW ∨ f = modeRW ∨ f = modeCW)

include hm hf

/-- The test of the code is the absence of a wait. -/
theorem accessReady_iff : accessReady m f = true ↔ ¬ Waits f m := by
  rcases hm with rfl | rfl | rfl | rfl
    <;> rcases hf with rfl | rfl | rfl | rfl | rfl <;> decide

/-- A ready parameter is renamed by a write or a cumulative write. -/
theorem takesBit_iff (hr : ¬ Waits f m) :
    (accessWar m f = true ∨ accessIsCumulwrite m = true)
      ↔ TakesBit f m := by
  revert hr
  rcases hm with rfl | rfl | rfl | rfl
    <;> rcases hf with rfl | rfl | rfl | rfl | rfl <;> decide

/-- A parameter with a bit does not wait. -/
theorem not_waits_of_takesBit (h : TakesBit f m) : ¬ Waits f m := by
  revert h
  rcases hm with rfl | rfl | rfl | rfl
    <;> rcases hf with rfl | rfl | rfl | rfl | rfl <;> decide

end Table

-- ======== mask bits

/-- A bit is set below 32 parameters. -/
theorem orBit_eq_some :
    orBit mask i = some mask' ↔ i < 32 ∧ mask ||| 1#32 <<< i = mask' := by
  rw [orBit]
  split
  · next h => simp [h]
  · next h => simp [h]

theorem getLsbD_orBit (h : orBit mask i = some mask') :
    mask'.getLsbD i = true
      ∧ ∀ j, mask.getLsbD j = true → mask'.getLsbD j = true := by
  obtain ⟨hi, rfl⟩ := orBit_eq_some.mp h
  constructor
  · simp [hi]
  · intro j hj
    simp [BitVec.getLsbD_or, hj]

/-- A bit is added when the guard holds. -/
theorem orBitIf_spec {c : Bool} (h : orBitIf c mask i = some mask') :
    (∀ j, mask.getLsbD j = true → mask'.getLsbD j = true)
      ∧ (c = true → i < 32 ∧ mask'.getLsbD i = true) := by
  rw [orBitIf] at h
  split at h
  next hc =>
    have hb := getLsbD_orBit h
    exact ⟨hb.2, fun _ => ⟨(orBit_eq_some.mp h).1, hb.1⟩⟩
  next hc =>
    cases h
    exact ⟨fun _ hj => hj, fun ht => absurd ht hc⟩

theorem orBitIf_isSome {c : Bool} (mask : BitVec 32) (hfit : c = true → i < 32) :
    ∃ mask', orBitIf c mask i = some mask' := by
  rw [orBitIf]
  split
  next hc => exact ⟨_, orBit_eq_some.mpr ⟨hfit hc, rfl⟩⟩
  next hc => exact ⟨_, rfl⟩

-- ======== one loop turn

/-- The bits of a scan only grow. -/
def Scan.BitsLe (s s' : Scan) : Prop :=
  (∀ j, s.warParam.getLsbD j = true → s'.warParam.getLsbD j = true)
    ∧ ∀ j, s.cwParam.getLsbD j = true → s'.cwParam.getLsbD j = true

theorem Scan.BitsLe.refl (s : Scan) : s.BitsLe s :=
  ⟨fun _ h => h, fun _ h => h⟩

theorem Scan.BitsLe.trans {s₁ s₂ s₃ : Scan} (h : s₁.BitsLe s₂)
    (h' : s₂.BitsLe s₃) : s₁.BitsLe s₃ :=
  ⟨fun j hj => h'.1 j (h.1 j hj), fun j hj => h'.2 j (h.2 j hj)⟩

theorem Scan.BitsLe.renamed (h : s.BitsLe s') (hi : s.renamed i) : s'.renamed i :=
  hi.imp (h.1 i) (h.2 i)

/-- What a turn on parameter `i` does: the map learns the access, the
parameter stops being counted unless it waits, and it gets its bit. -/
structure ParamSpec (acc : List Param) (i : Nat) (p : Param)
    (s s' : Scan) : Prop where
  map : s'.map = firstMode (acc ++ [p])
  wc : s'.wc = if Waits (firstMode acc p.data) p.m then s.wc else s.wc - 1
  bits : s.BitsLe s'
  fits : TakesBit (firstMode acc p.data) p.m → i < 32
  takes : TakesBit (firstMode acc p.data) p.m → s'.renamed i

section Turn

variable {acc : List Param} {i : Nat} {p : Param} {s s' : Scan} {m f : AccessMode}

theorem not_waits_modeV (h : m = modeV) : ¬ Waits f m ∧ ¬ TakesBit f m := by
  subst h
  constructor
  · rintro ⟨-, ⟨h, -⟩ | h | ⟨h, -⟩⟩ <;> exact absurd h (by decide)
  · rintro (⟨h, -⟩ | ⟨h, -⟩) <;> exact absurd h (by decide)

/-- The scan notes the access in the map. -/
theorem updateLastMode_map (hacc : ∀ q ∈ acc, q.IsDfgMode)
    (hs : p.shared = true) (hmap : s.map = firstMode acc) :
    (updateLastMode p s).map = firstMode (acc ++ [p]) := by
  funext a
  rw [firstMode_snoc hacc, updateLastMode, hmap]
  by_cases hv : firstMode acc p.data = modeVoid
  · by_cases ha : p.data = a
    · subst ha
      simp [hv, hs]
    · have ha' : ¬ a = p.data := fun h => ha h.symm
      simp [hv, ha, ha']
  · rw [if_neg hv, hmap, if_neg]
    intro ⟨h₁, h₂, _⟩
    exact hv (h₂ ▸ h₁)

@[simp] theorem updateLastMode_wc : (updateLastMode p s).wc = s.wc := by
  rw [updateLastMode]
  split <;> rfl

@[simp] theorem updateLastMode_warParam :
    (updateLastMode p s).warParam = s.warParam := by
  rw [updateLastMode]
  split <;> rfl

@[simp] theorem updateLastMode_cwParam :
    (updateLastMode p s).cwParam = s.cwParam := by
  rw [updateLastMode]
  split <;> rfl

/-- What a ready parameter changes. -/
theorem markReady_spec (hstep : markReady i m f s = some s') :
    s'.map = s.map ∧ s'.wc = s.wc - 1 ∧ s.BitsLe s'
      ∧ (accessWar m f = true ∨ accessIsCumulwrite m = true →
          i < 32 ∧ s'.renamed i) := by
  simp only [markReady, Option.bind_eq_bind, Option.bind_eq_some_iff,
    Option.some.injEq] at hstep
  obtain ⟨war, hwar, cw, hcw, rfl⟩ := hstep
  have hw := orBitIf_spec hwar
  have hc := orBitIf_spec hcw
  refine ⟨rfl, rfl, ⟨hw.1, hc.1⟩, ?_⟩
  intro h
  rcases h with h | h
  · exact ⟨(hw.2 h).1, .inl (hw.2 h).2⟩
  · exact ⟨(hc.2 h).1, .inr (hc.2 h).2⟩

/-- It is marked when its bit fits. -/
theorem markReady_isSome
    (hfit : accessWar m f = true ∨ accessIsCumulwrite m = true → i < 32) :
    ∃ s', markReady i m f s = some s' := by
  obtain ⟨war, hwar⟩ := orBitIf_isSome s.warParam fun h => hfit (.inl h)
  obtain ⟨cw, hcw⟩ := orBitIf_isSome s.cwParam fun h => hfit (.inr h)
  rw [markReady, hwar, hcw]
  exact ⟨_, rfl⟩

/-- One turn of kaapi_task_computeready. -/
theorem computereadyParam_spec (hacc : ∀ q ∈ acc, q.IsDfgMode)
    (hp : p.IsDfgMode) (hmap : s.map = firstMode acc)
    (hstep : computereadyParam i p s = some s') :
    ParamSpec acc i p s s' := by
  have hf := firstMode_cases hacc p.data
  rw [computereadyParam] at hstep
  split at hstep
  next hv =>
    -- V: counted out at once, and invisible to the map
    obtain ⟨hw, ht⟩ := not_waits_modeV (f := firstMode acc p.data) hv
    cases hstep
    refine ⟨?_, by rw [if_neg hw], Scan.BitsLe.refl _,
      fun h => absurd h ht, fun h => absurd h ht⟩
    funext a
    rw [firstMode_snoc hacc, if_neg]
    · simp only [hmap]
    · intro ⟨_, _, h⟩
      exact absurd hv (by simpa [Param.shared] using h)
  next hv =>
    have hs : p.shared = true := by simpa [Param.shared] using hv
    have hm := hp.cases_shared hs
    simp only [hmap, Option.map_eq_some_iff] at hstep
    obtain ⟨s₁, hmark, rfl⟩ := hstep
    split at hmark
    next hready =>
      have hw : ¬ Waits (firstMode acc p.data) p.m :=
        (accessReady_iff hm hf).mp hready
      obtain ⟨h₁, h₂, h₃, h₄⟩ := markReady_spec hmark
      refine ⟨updateLastMode_map hacc hs (h₁.trans hmap), ?_,
        ⟨by simpa using h₃.1, by simpa using h₃.2⟩, fun ht => ?_,
        fun ht => ?_⟩
      · rw [if_neg hw, updateLastMode_wc, h₂]
      · exact (h₄ ((takesBit_iff hm hf hw).mpr ht)).1
      · have := (h₄ ((takesBit_iff hm hf hw).mpr ht)).2
        simpa [Scan.renamed] using this
    next hwait =>
      have hw : Waits (firstMode acc p.data) p.m := by
        by_contra hw
        exact hwait ((accessReady_iff hm hf).mpr hw)
      cases hmark
      refine ⟨updateLastMode_map hacc hs hmap, ?_, ⟨by simp, by simp⟩,
        fun ht => absurd hw (not_waits_of_takesBit hm hf ht),
        fun ht => absurd hw (not_waits_of_takesBit hm hf ht)⟩
      rw [if_pos hw, updateLastMode_wc]

/-- The turn ends when the bit fits. -/
theorem computereadyParam_isSome (hacc : ∀ q ∈ acc, q.IsDfgMode)
    (hp : p.IsDfgMode) (hmap : s.map = firstMode acc)
    (hfit : TakesBit (firstMode acc p.data) p.m → i < 32) :
    ∃ s', computereadyParam i p s = some s' := by
  have hf := firstMode_cases hacc p.data
  rw [computereadyParam]
  split
  next hv => exact ⟨_, rfl⟩
  next hv =>
    have hm := hp.cases_shared (by simpa [Param.shared] using hv)
    simp only [hmap]
    split
    next hready =>
      have hw : ¬ Waits (firstMode acc p.data) p.m :=
        (accessReady_iff hm hf).mp hready
      obtain ⟨s₁, hs₁⟩ := markReady_isSome (s := s)
        fun h => hfit ((takesBit_iff hm hf hw).mp h)
      exact ⟨_, by rw [hs₁]; rfl⟩
    next hwait => exact ⟨_, rfl⟩

end Turn

-- ======== one task

/-- What the loop does on `ps` from parameter `i` on. -/
structure LoopSpec (acc : List Param) (i : Nat) (ps : List Param)
    (s s' : Scan) : Prop where
  map : s'.map = firstMode (acc ++ ps)
  wc_le : ps.length ≤ s.wc → s.wc ≤ s'.wc + ps.length
  wc_eq_iff : ps.length ≤ s.wc → (s'.wc + ps.length = s.wc ↔
    ∀ (n : Nat) (p : Param), ps[n]? = some p →
      ¬ Waits (firstSeen acc ps n p) p.m)
  bits : s.BitsLe s'
  fits : ∀ (n : Nat) (p : Param), ps[n]? = some p →
    TakesBit (firstSeen acc ps n p) p.m → i + n < 32
  takes : ∀ (n : Nat) (p : Param), ps[n]? = some p →
    TakesBit (firstSeen acc ps n p) p.m → s'.renamed (i + n)

@[simp] theorem firstSeen_zero (acc ps : List Param) (p : Param) :
    firstSeen acc ps 0 p = firstMode acc p.data := by
  simp [firstSeen]

/-- The mode found by a later parameter. -/
@[simp] theorem firstSeen_succ (acc ps : List Param) (p₀ p : Param) (n : Nat) :
    firstSeen acc (p₀ :: ps) (n + 1) p = firstSeen (acc ++ [p₀]) ps n p := by
  simp [firstSeen]

theorem forall_getElem?_cons {P : Nat → Param → Prop} :
    (∀ (n : Nat) (q : Param), (p :: ps)[n]? = some q → P n q)
      ↔ P 0 p ∧ ∀ (n : Nat) (q : Param), ps[n]? = some q → P (n + 1) q := by
  constructor
  · intro h
    exact ⟨h 0 p rfl, fun n q hq => h (n + 1) q (by simpa using hq)⟩
  · rintro ⟨h₀, h⟩ n q hq
    cases n with
    | zero =>
      simp only [List.getElem?_cons_zero, Option.some.injEq] at hq
      exact hq ▸ h₀
    | succ n => exact h n q (by simpa using hq)

/-- One turn, then the others. -/
theorem ParamSpec.cons {s₁ : Scan} (h : ParamSpec acc i p s s₁)
    (h' : LoopSpec (acc ++ [p]) (i + 1) ps s₁ s') : LoopSpec acc i (p :: ps) s s' := by
  have hwc := h.wc
  refine ⟨?_, fun hlen => ?_, fun hlen => ?_, h.bits.trans h'.bits, ?_, ?_⟩
  · rw [h'.map, List.append_assoc, List.singleton_append]
  · have := h'.wc_le
    simp only [List.length_cons] at hlen ⊢
    split at hwc <;> omega
  · rw [forall_getElem?_cons]
    simp only [firstSeen_zero, firstSeen_succ]
    simp only [List.length_cons] at hlen ⊢
    have hle := h'.wc_le
    have heq := h'.wc_eq_iff
    split at hwc
    next hw =>
      constructor
      · intro h
        omega
      · intro ⟨hn, _⟩
        exact absurd hw hn
    next hw =>
      rw [← heq (by omega)]
      constructor
      · intro h
        exact ⟨hw, by omega⟩
      · intro ⟨_, h⟩
        omega
  · rw [forall_getElem?_cons]
    simp only [firstSeen_zero, firstSeen_succ]
    refine ⟨h.fits, fun n q hq ht => ?_⟩
    have := h'.fits n q hq ht
    omega
  · rw [forall_getElem?_cons]
    simp only [firstSeen_zero, firstSeen_succ]
    refine ⟨fun ht => h'.bits.renamed (h.takes ht), fun n q hq ht => ?_⟩
    have := h'.takes n q hq ht
    rwa [show i + (n + 1) = i + 1 + n by omega]

/-- All the turns. -/
theorem computereadyLoop_spec (hacc : ∀ q ∈ acc, q.IsDfgMode)
    (hps : ∀ q ∈ ps, q.IsDfgMode) (hmap : s.map = firstMode acc)
    (hrun : computereadyLoop i ps s = some s') : LoopSpec acc i ps s s' := by
  induction ps generalizing acc i s with
  | nil =>
    cases hrun
    exact ⟨by simpa using hmap, by simp, by simp, Scan.BitsLe.refl _,
      by simp, by simp⟩
  | cons p ps ih =>
    simp only [computereadyLoop, Option.bind_eq_bind,
      Option.bind_eq_some_iff] at hrun
    obtain ⟨s₁, hturn, hrest⟩ := hrun
    have hp := hps p List.mem_cons_self
    have hspec := computereadyParam_spec hacc hp hmap hturn
    refine hspec.cons (ih ?_ ?_ hspec.map hrest)
    · simpa [or_imp, forall_and] using ⟨hacc, hp⟩
    · exact fun q hq => hps q (List.mem_cons_of_mem p hq)

/-- They end when all the bits fit. -/
theorem computereadyLoop_isSome (hacc : ∀ q ∈ acc, q.IsDfgMode)
    (hps : ∀ q ∈ ps, q.IsDfgMode) (hmap : s.map = firstMode acc)
    (hfit : ∀ (n : Nat) (p : Param), ps[n]? = some p →
      TakesBit (firstSeen acc ps n p) p.m → i + n < 32) :
    ∃ s', computereadyLoop i ps s = some s' := by
  induction ps generalizing acc i s with
  | nil => exact ⟨s, rfl⟩
  | cons p ps ih =>
    rw [forall_getElem?_cons] at hfit
    simp only [firstSeen_zero, firstSeen_succ, Nat.add_zero] at hfit
    have hp := hps p List.mem_cons_self
    have hacc' : ∀ q ∈ acc ++ [p], q.IsDfgMode := by
      simpa [or_imp, forall_and] using ⟨hacc, hp⟩
    obtain ⟨s₁, hturn⟩ :=
      computereadyParam_isSome hacc hp hmap hfit.1
    have hspec := computereadyParam_spec hacc hp hmap hturn
    obtain ⟨s', hs'⟩ := ih (i := i + 1) hacc'
      (fun q hq => hps q (List.mem_cons_of_mem p hq)) hspec.map
      fun n q hq ht => by
        have := hfit.2 n q hq ht
        omega
    exact ⟨s', by simp [computereadyLoop, hturn, hs']⟩

-- ======== the frame

theorem accessesBefore_succ (t : FrameTask) (ts : List FrameTask) (k : Nat) :
    accessesBefore (t :: ts) (k + 1) = t.accesses ++ accessesBefore ts k := by
  simp [accessesBefore]

/-- An earlier task's accesses come before. -/
theorem mem_accessesBefore {j k : Nat} {u : FrameTask} (hjk : j < k)
    (hu : frame[j]? = some u) (hq : q ∈ u.accesses) : q ∈ accessesBefore frame k := by
  refine List.mem_flatMap.mpr ⟨u, ?_, hq⟩
  refine List.mem_of_getElem? (i := j) ?_
  rw [List.getElem?_take, if_pos hjk, hu]

/-- The answer of `kaapi_task_computeready` on task `k`, after the
accesses `acc`: nothing without a format, else what the loop computes. -/
def AnswerSpec (acc : List Param) (t : FrameTask) : Option Scan → Prop
  | none => t.format = none
  | some r => t.format = some t.accesses ∧
      ∃ map, LoopSpec acc 0 t.accesses (scanInit t.accesses map) r

theorem AnswerSpec.of_access {t : FrameTask} {r : Option Scan} (h : AnswerSpec acc t r)
    (hp : t.accesses[i]? = some p) : ∃ r', r = some r' := by
  cases r with
  | none =>
    have hfmt : t.format = none := h
    simp [FrameTask.accesses, hfmt] at hp
  | some r' => exact ⟨r', rfl⟩

/-- The scan of a frame, task by task. -/
theorem stealframeScan_spec {rs : List (Option Scan)} (hacc : ∀ q ∈ acc, q.IsDfgMode)
    (hframe : ∀ t ∈ frame, ∀ q ∈ t.accesses, q.IsDfgMode) (hmap : map = firstMode acc)
    (hrun : stealframeScan frame map = some rs) :
    ∀ (k : Nat) (t : FrameTask), frame[k]? = some t →
      ∃ r, rs[k]? = some r
        ∧ AnswerSpec (acc ++ accessesBefore frame k) t r := by
  induction frame generalizing acc map rs with
  | nil => simp
  | cons t ts ih =>
    have ht := hframe t List.mem_cons_self
    have hts : ∀ u ∈ ts, ∀ q ∈ u.accesses, q.IsDfgMode :=
      fun u hu => hframe u (List.mem_cons_of_mem t hu)
    have hacc' : ∀ q ∈ acc ++ t.accesses, q.IsDfgMode := by
      simpa [or_imp, forall_and] using ⟨hacc, ht⟩
    rw [stealframeScan] at hrun
    intro k u hk
    cases hfmt : t.format with
    | none =>
      simp only [hfmt, Option.bind_eq_bind, Option.bind_eq_some_iff,
        Option.some.injEq] at hrun
      obtain ⟨rs', hrs', rfl⟩ := hrun
      have hnil : t.accesses = [] := by simp [FrameTask.accesses, hfmt]
      cases k with
      | zero =>
        cases hk
        exact ⟨none, rfl, hfmt⟩
      | succ k =>
        rw [accessesBefore_succ, hnil]
        exact ih hacc hts hmap hrs' k u (by simpa using hk)
    | some params =>
      simp only [hfmt, Option.bind_eq_bind, Option.bind_eq_some_iff,
        Option.some.injEq] at hrun
      obtain ⟨r, hr, rs', hrs', rfl⟩ := hrun
      have hpar : t.accesses = params := by
        simp [FrameTask.accesses, hfmt]
      have hspec := computereadyLoop_spec hacc (hpar ▸ ht) hmap hr
      cases k with
      | zero =>
        cases hk
        refine ⟨some r, rfl, by rw [hpar, hfmt], map, ?_⟩
        simpa [accessesBefore, hpar] using hspec
      | succ k =>
        rw [accessesBefore_succ, ← List.append_assoc]
        refine ih hacc' hts ?_ hrs' k u (by simpa using hk)
        rw [hspec.map, hpar]

/-- The scan is defined when every bit taken exists. -/
theorem stealframeScan_isSome (hacc : ∀ q ∈ acc, q.IsDfgMode)
    (hframe : ∀ t ∈ frame, ∀ q ∈ t.accesses, q.IsDfgMode) (hmap : map = firstMode acc)
    (hfit : ∀ (k : Nat) (t : FrameTask) (i : Nat) (p : Param),
      frame[k]? = some t → t.accesses[i]? = some p →
      TakesBit (firstSeen (acc ++ accessesBefore frame k) t.accesses i p) p.m →
      i < 32) : ∃ rs, stealframeScan frame map = some rs := by
  induction frame generalizing acc map with
  | nil => exact ⟨[], rfl⟩
  | cons t ts ih =>
    have ht := hframe t List.mem_cons_self
    have hts : ∀ u ∈ ts, ∀ q ∈ u.accesses, q.IsDfgMode :=
      fun u hu => hframe u (List.mem_cons_of_mem t hu)
    have hacc' : ∀ q ∈ acc ++ t.accesses, q.IsDfgMode := by
      simpa [or_imp, forall_and] using ⟨hacc, ht⟩
    have hfit₀ : ∀ (i : Nat) (p : Param), t.accesses[i]? = some p →
        TakesBit (firstSeen acc t.accesses i p) p.m → i < 32 := by
      intro i p hp
      simpa [accessesBefore] using hfit 0 t i p rfl hp
    have hfit' : ∀ (k : Nat) (u : FrameTask) (i : Nat) (p : Param),
        ts[k]? = some u → u.accesses[i]? = some p →
        TakesBit (firstSeen (acc ++ t.accesses ++ accessesBefore ts k)
          u.accesses i p) p.m → i < 32 := by
      intro k u i p hu hp
      have := hfit (k + 1) u i p (by simpa using hu) hp
      rwa [accessesBefore_succ, ← List.append_assoc] at this
    rw [stealframeScan]
    cases hfmt : t.format with
    | none =>
      have hnil : t.accesses = [] := by simp [FrameTask.accesses, hfmt]
      rw [hnil, List.append_nil] at hfit' hacc'
      obtain ⟨rs, hrs⟩ := ih hacc' hts hmap hfit'
      exact ⟨none :: rs, by simp [hrs]⟩
    | some params =>
      have hpar : t.accesses = params := by
        simp [FrameTask.accesses, hfmt]
      rw [hpar] at hfit₀ ht
      obtain ⟨r, hr⟩ := computereadyLoop_isSome
        (s := scanInit params map) (i := 0) hacc ht hmap
        (by simpa using hfit₀)
      have hspec := computereadyLoop_spec hacc ht hmap hr
      have hmap' : r.map = firstMode (acc ++ t.accesses) := by
        rw [hspec.map, hpar]
      obtain ⟨rs, hrs⟩ := ih hacc' hts hmap' hfit'
      exact ⟨some r :: rs, by simp [taskComputeready, hr, hrs]⟩

-- ======== soundness

/-- A task is ready iff none of its parameters waits. -/
theorem wc_eq_zero_iff {params : List Param} {r : Scan}
    (h : LoopSpec acc 0 params (scanInit params map) r) :
    r.wc = 0 ↔ ∀ (i : Nat) (p : Param), params[i]? = some p →
      ¬ Waits (firstSeen acc params i p) p.m := by
  rw [← h.wc_eq_iff (Nat.le_refl _)]
  simp [scanInit]

/-- The map has a mode for a datum that was accessed. -/
theorem firstSeen_ne_void (hacc : ∀ q ∈ acc, q.IsDfgMode) (hps : ∀ q ∈ ps, q.IsDfgMode)
    (hq : q ∈ acc) (hs : q.shared = true) (hdata : q.data = p.data) :
    firstSeen acc ps i p ≠ modeVoid := by
  obtain ⟨q', hq', hfirst, -⟩ :=
    firstMode_of_mem (List.mem_append_left (ps.take i) hq) hdata hs
  rw [firstSeen, hfirst]
  rcases List.mem_append.mp hq' with hq' | hq'
  · exact (hacc q' hq').ne_void
  · exact (hps q' (List.mem_of_mem_take hq')).ne_void

/-- A ready parameter that writes an accessed datum is renamed. -/
theorem takesBit_of_writes {f : AccessMode} (hf : f ≠ modeVoid) (hw : ¬ Waits f p.m)
    (hp : p.writes = true) : TakesBit f p.m := by
  simp only [Param.writes, Bool.or_eq_true, beq_iff_eq] at hp
  rcases hp with (hp | hp) | hp
  · exact .inl ⟨hp, hf⟩
  · exact absurd ⟨hf, .inr (.inl hp)⟩ hw
  · refine .inr ⟨hp, .inr ?_⟩
    by_contra hne
    exact hw ⟨hf, .inr (.inr ⟨hp, hne⟩)⟩

/-- A ready parameter that reads it finds readers only. -/
theorem modeR_of_reads {f : AccessMode} (hf : f ≠ modeVoid) (hw : ¬ Waits f p.m)
    (hp : p.reads = true) : p.m = modeR ∧ f = modeR := by
  simp only [Param.reads, Bool.or_eq_true, beq_iff_eq] at hp
  rcases hp with hp | hp
  · refine ⟨hp, ?_⟩
    by_contra hne
    exact hw ⟨hf, .inl ⟨hp, hne⟩⟩
  · exact absurd ⟨hf, .inr (.inl hp)⟩ hw

/-- Stealing on the thief's readiness is sound for exactly the frames
whose scan needs no missing mask bit and in which no task is ready on
R-after-R while a writer of that datum before it is still to run. -/
theorem stealSound_iff (frame : List FrameTask)
    (hmodes : ∀ t ∈ frame, ∀ p ∈ t.accesses, p.IsDfgMode) :
    StealSound frame ↔ MaskFits frame ∧ ReadsOrdered frame := by
  have hbefore : ∀ k, ∀ q ∈ accessesBefore frame k, q.IsDfgMode := by
    intro k q hq
    obtain ⟨t, ht, hq⟩ := List.mem_flatMap.mp hq
    exact hmodes t (List.mem_of_mem_take ht) q hq
  have hnil : ∀ q ∈ ([] : List Param), q.IsDfgMode := by simp
  have hspec : ∀ rs, stealframeScan frame hashmapClear = some rs →
      ∀ (k : Nat) (t : FrameTask), frame[k]? = some t →
        ∃ r, rs[k]? = some r ∧ AnswerSpec (accessesBefore frame k) t r :=
    fun rs hrs => stealframeScan_spec hnil hmodes rfl hrs
  constructor
  · rintro ⟨rs, hrs, hsound⟩
    constructor
    · intro k t i p hk hp htakes
      obtain ⟨r, -, hr⟩ := hspec rs hrs k t hk
      obtain ⟨r, rfl⟩ := hr.of_access hp
      obtain ⟨-, map, hloop⟩ := hr
      simpa using hloop.fits i p hp htakes
    · intro k t hk hnowait i p hp hR _ j u hjk hu hterm q hq hdata
      obtain ⟨r, hrk, hr⟩ := hspec rs hrs k t hk
      obtain ⟨r, rfl⟩ := hr.of_access hp
      obtain ⟨-, map, hloop⟩ := hr
      have hwc := (wc_eq_zero_iff hloop).mpr hnowait
      have hreads : p.reads = true := by simp [Param.reads, hR]
      by_contra hwrites
      rw [Bool.not_eq_false] at hwrites
      have := (hsound k t r hk hrk hwc i p hp j u hjk hu hterm q hq
        (Param.shared_of_writes hwrites)
        (Param.shared_of_reads hreads) hdata).1 hreads
      rw [this] at hwrites
      cases hwrites
  · rintro ⟨hfit, hordered⟩
    obtain ⟨rs, hrs⟩ := stealframeScan_isSome hnil hmodes rfl hfit
    refine ⟨rs, hrs, ?_⟩
    intro k t r hk hrk hwc i p hp j u hjk hu hterm q hq hqs hps hdata
    obtain ⟨r', hrk', hr⟩ := hspec rs hrs k t hk
    rw [hrk] at hrk'
    cases hrk'
    obtain ⟨-, map, hloop⟩ := hr
    have hnowait := (wc_eq_zero_iff hloop).mp hwc
    have hmem := List.mem_of_getElem? hk
    have hf : firstSeen (accessesBefore frame k) t.accesses i p ≠ modeVoid :=
      firstSeen_ne_void (hbefore k) (hmodes t hmem)
        (mem_accessesBefore hjk hu hq) hqs hdata
    have hw := hnowait i p hp
    constructor
    · intro hreads
      obtain ⟨hR, hfR⟩ := modeR_of_reads hf hw hreads
      exact hordered k t hk hnowait i p hp hR hfR j u hjk hu hterm q hq hdata
    · intro hwrites
      have := hloop.takes i p hp (takesBit_of_writes hf hw hwrites)
      rwa [Nat.zero_add] at this

/-- Two writers of datum 0, the second with a value parameter as well. -/
def writeWrite : List FrameTask :=
  [{ format := some [⟨modeW, 0⟩], terminated := false },
   { format := some [⟨modeV, 1⟩, ⟨modeW, 0⟩], terminated := false }]

theorem stealSound_iff_writeWrite :
    StealSound writeWrite ↔ MaskFits writeWrite ∧ ReadsOrdered writeWrite :=
  stealSound_iff writeWrite (by decide)

/-- Three tasks on datum 0, in this order: a reader, a writer, a reader. -/
def readWriteRead : List FrameTask :=
  [{ format := some [⟨modeR, 0⟩], terminated := false },
   { format := some [⟨modeW, 0⟩], terminated := false },
   { format := some [⟨modeR, 0⟩], terminated := false }]

/-- The second reader is answered ready before the writer has run. -/
theorem not_stealSound_readWriteRead : ¬ StealSound readWriteRead := by
  have hscan : ∃ r₀ r₁ r₂, stealframeScan readWriteRead hashmapClear
      = some [some r₀, some r₁, some r₂] ∧ r₂.wc = 0 :=
    ⟨_, _, _, rfl, rfl⟩
  obtain ⟨r₀, r₁, r₂, hscan, hwc⟩ := hscan
  intro ⟨rs, hrs, hsound⟩
  rw [hscan] at hrs
  cases hrs
  have hharm : Harmless r₂ 0 ⟨modeR, 0⟩ ⟨modeW, 0⟩ :=
    hsound 2 _ r₂ rfl rfl hwc 0 _ rfl 1 _ (by decide) rfl rfl _
      List.mem_cons_self (by decide) (by decide) rfl
  exact absurd (hharm.1 (by decide)) (by decide)

end XKaapi.Dfg
