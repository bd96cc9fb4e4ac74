/-
Coherence of a datum over the address spaces: which sequences of tasks,
evictions and synchronisations keep every valid copy equal to the last
write.

The copies are one machine, `step`; the meaning of the program is
another, `lastWrite`, a single value that the tasks update in program
order. `Coherent` relates the two. The entry points do not keep it in
every state: evicting a block leaves the valid bit of its space, a
synchronisation marks a space that may have no block, the copies through
the host take its block for granted, and a cumulative write neither
fetches nor invalidates. `Meets` is what each step needs, and
`Meets.step_inv` the simulation.
-/
import XKaapi.Memory.Taskdescr
import XKaapi.Lib.Run

namespace XKaapi.Memory

open Dfg MetadataInfo
open Function (update update_of_ne update_self)
open StepMachine (run Along)

variable {V : Type}

-- ======== machine

/-- An operation on the datum. -/
inductive Op (V : Type) where
  /-- A task runs in the space `k`: its prologue, with the handle it has
  on the datum, and its body. -/
  | task (k src : Lid) (m : AccessMode) (upd : Option V → V)
  /-- The task in the space `k` ends. -/
  | epilogue (k : Lid) (m : AccessMode)
  /-- The device `k` evicts its block, which its cache frees or recycles. -/
  | evict (k : Lid)
  | synchronize (dest src : Lid)

/-- The effect of an operation on the copies. -/
def step : Op V → MetadataInfo V → Option (MetadataInfo V)
  | .task k src m upd, d => do
      let d ← d.taskdescrPrologue k src m
      d.taskBody k m upd
  | .epilogue k m, d => some (d.taskdescrEpilogue k m)
  | .evict k, d => (d.evictPointer k).map (·.dropBlock k)
  | .synchronize dest src, d => d.synchronizePeer2peer dest src

/-- The effect of an operation on the value of the datum, in program
order. -/
def lastWrite : Op V → V → V
  | .task _ _ m upd, v =>
    if changes m then upd (if uses m then some v else none) else v
  | _, v => v

/-- The value of the datum after a sequence of operations. -/
def lastWrites (ops : List (Op V)) (v : V) : V :=
  ops.foldl (fun v op => lastWrite op v) v

/-- The datum bound to a block of the space `k`: kaapi_memory_bind. -/
def bound (k : Lid) (v : V) : MetadataInfo V :=
  alloc.bindData k (.block (some v))

-- ======== coherence

/-- The copies hold the value `v`. -/
structure Coherent (d : MetadataInfo V) (v : V) : Prop where
  present : ∀ k, d.isValid k = true → d.hasData k = true
  some_valid : ∃ k, d.isValid k = true
  current : ∀ k, d.isValid k = true → d.data k = .block (some v)

/-- A task that reads finds the value `v` in the block of its space. -/
def Finds (k src : Lid) (m : AccessMode) (d : MetadataInfo V) (v : V) :
    Prop :=
  accessIsRead (getMode m) = true →
    ∃ d', d.taskdescrPrologue k src m = some d' ∧ d'.data k = .block (some v)

/-- What an operation needs to keep the copies coherent. -/
def Meets : Op V → MetadataInfo V → Prop
  | .task k _ m _, d =>
    getMode m = modeV ∨
      ((k = hostLid ∨ (accessIsRead (getMode m) = true ∧ d.isValid k = false) →
          d.hasData hostLid = true)
        ∧ (accessIsCumulwrite (getMode m) = true →
          accessIsRead (getMode m) = true ∨ d.isValid k = true)
        ∧ (accessIsCumulwrite (getMode m) = true →
          accessIsWrite (getMode m) = false →
          ∀ j, d.isValid j = true → j = k))
  | .epilogue _ _, _ => True
  | .evict k, d => d.isValid k = false
  | .synchronize dest src, d =>
    d.hasData src = true → d.isValid src = true → d.isValid dest = false →
      d.hasData dest = true ∧ d.hasData hostLid = true

/-- Coherent copies, every address being that of a block. -/
structure Inv (d : MetadataInfo V) (v : V) : Prop
    extends Coherent d v where
  backed : ∀ k, d.hasData k = true → d.data k ≠ .null

section inv

variable {d : MetadataInfo V} {v : V} {k src dest : Lid} {m : AccessMode}
  {upd : Option V → V}

theorem inv_bound (k : Lid) (v : V) : Inv (bound k v) v where
  present := by
    intro j hj
    simpa [bound] using hj
  some_valid := ⟨k, by simp [bound]⟩
  current := by
    intro j hj
    have hjk : j = k := by simpa [bound] using hj
    simp [bound, hjk]
  backed := by
    intro j hj
    have hjk : j = k := by simpa [bound] using hj
    simp [bound, hjk]

theorem Inv.setContent (h : Inv d v) (k : Lid) :
    Inv (d.setContent k (some v)) v where
  present := h.present
  some_valid := h.some_valid
  current := by
    intro j hj
    rw [data_setContent]
    by_cases hjk : j = k
    · rw [hjk, update_self]
    · rw [update_of_ne hjk]
      exact h.current j hj
  backed := by
    intro j hj
    rw [data_setContent]
    by_cases hjk : j = k
    · rw [hjk, update_self]
      exact nofun
    · rw [update_of_ne hjk]
      exact h.backed j hj

theorem Inv.clearDirty (h : Inv d v) (hk : d.hasData k = true)
    (hv : d.data k = .block (some v)) : Inv (d.clearDirty k) v where
  present := by
    intro j hj
    rw [isValid_clearDirty, Bool.or_eq_true, decide_eq_true_eq] at hj
    rcases hj with hj | rfl
    · exact h.present j hj
    · exact hk
  some_valid := ⟨k, by simp⟩
  current := by
    intro j hj
    rw [isValid_clearDirty, Bool.or_eq_true, decide_eq_true_eq] at hj
    rcases hj with hj | rfl
    · exact h.current j hj
    · exact hv
  backed := h.backed

theorem Inv.setUsers (h : Inv d v) (k : Lid) (n : BitVec 64) :
    Inv (d.setUsers k n) v where
  present := h.present
  some_valid := h.some_valid
  current := h.current
  backed := h.backed

theorem Inv.clearData (h : Inv d v) (hk : d.isValid k = false) :
    Inv ((d.clearData k).dropBlock k) v := by
  have hne : ∀ {j}, d.isValid j = true → j ≠ k := by
    intro j hj hjk
    rw [hjk, hk] at hj
    cases hj
  constructor
  · constructor
    · intro j hj
      have hj' : d.isValid j = true := hj
      simpa [hne hj'] using h.present j hj'
    · exact h.some_valid
    · intro j hj
      rw [data_dropBlock, data_clearData, update_of_ne (hne hj)]
      exact h.current j hj
  · intro j hj
    rw [hasData_dropBlock, hasData_clearData, Bool.and_eq_true,
      decide_eq_true_eq] at hj
    rw [data_dropBlock, data_clearData, update_of_ne hj.2]
    exact h.backed j hj.1

-- ======== copies

theorem cudaMemcpy_of_blocks (hdest : d.data dest ≠ .null)
    (hsrc : d.data src = .block (some v)) :
    d.cudaMemcpy dest src = some (d.setContent dest (some v)) := by
  unfold MetadataInfo.cudaMemcpy
  cases hd : d.data dest with
  | null => exact absurd hd hdest
  | block c => rw [hsrc]

/-- `kaapi_memory_copy` from a valid space to one with a block, the host
having one too when both are devices. -/
theorem Inv.memoryCopy (h : Inv d v) (hdest : d.hasData dest = true)
    (hsrc : d.isValid src = true)
    (hhost : isCuda dest = true → d.hasData hostLid = true) :
    ∃ d', d.memoryCopy dest src = some d' ∧ Inv d' v
      ∧ d'.hasData = d.hasData ∧ d'.data dest = .block (some v)
      ∧ ∀ j, d.isValid j = true → d'.isValid j = true := by
  have hbd : d.data dest ≠ .null := h.backed dest hdest
  have hbs : d.data src = .block (some v) := h.current src hsrc
  have hone : d.cudaMemcpy dest src = some (d.setContent dest (some v)) :=
    cudaMemcpy_of_blocks hbd hbs
  have hdone : (d.setContent dest (some v)).data dest = .block (some v) := by
    simp
  unfold MetadataInfo.memoryCopy
  cases hcd : isCuda dest <;> cases hcs : isCuda src <;> simp only
  case false.false =>
    refine ⟨_, rfl, ?_⟩
    have hcopy : d.copyCpu2cpu dest src = d.setContent dest (some v) := by
      unfold copyCpu2cpu
      cases hd : d.data dest with
      | null => exact absurd hd hbd
      | block c => rw [hbs]
    rw [hcopy]
    exact ⟨h.setContent dest, rfl, hdone, fun _ hj => hj⟩
  case false.true =>
    exact ⟨_, hone, h.setContent dest, rfl, hdone, fun _ hj => hj⟩
  case true.false =>
    exact ⟨_, hone, h.setContent dest, rfl, hdone, fun _ hj => hj⟩
  case true.true =>
    unfold copyCuda2cuda
    by_cases hvh : d.isValid hostLid = true
    · rw [if_pos hvh, cudaMemcpy_of_blocks hbd (h.current hostLid hvh)]
      exact ⟨_, rfl, h.setContent dest, rfl, hdone, fun _ hj => hj⟩
    · -- by way of the host block, which becomes valid
      have hh : d.hasData hostLid = true := hhost hcd
      have hne : dest ≠ hostLid := isCuda_eq_true_iff.mp hcd
      rw [if_neg hvh, cudaMemcpy_of_blocks (h.backed hostLid hh) hbs]
      have h₁ : Inv (d.setContent hostLid (some v)) v := h.setContent hostLid
      have hb₁ : (d.setContent hostLid (some v)).data dest ≠ .null := by
        rw [data_setContent, update_of_ne hne]
        exact hbd
      have hh₁ : (d.setContent hostLid (some v)).data hostLid
          = .block (some v) := by simp
      have h₂ : Inv ((d.setContent hostLid (some v)).setContent dest
          (some v)) v := h₁.setContent dest
      have hh₂ : ((d.setContent hostLid (some v)).setContent dest
          (some v)).data hostLid = .block (some v) := by
        rw [data_setContent, update_of_ne hne.symm]
        exact hh₁
      refine ⟨_, by rw [Option.bind_eq_bind, Option.bind_some,
        cudaMemcpy_of_blocks hb₁ hh₁]; rfl, h₂.clearDirty hh hh₂, rfl, by simp,
        fun j hj => ?_⟩
      rw [isValid_clearDirty]
      exact Bool.or_eq_true_iff.mpr (.inl hj)

/-- Marking the destination first, as the synchronisation does, makes no
difference to a copy. -/
theorem memoryCopy_clearDirty (dest src : Lid) (d : MetadataInfo V) :
    (d.clearDirty dest).memoryCopy dest src
      = (d.memoryCopy dest src).map (·.clearDirty dest) := by
  have hone : ∀ (a b c : Lid) (d : MetadataInfo V),
      (d.clearDirty c).cudaMemcpy a b
        = (d.cudaMemcpy a b).map (·.clearDirty c) := by
    intro a b c d
    unfold MetadataInfo.cudaMemcpy
    rw [data_clearDirty]
    cases d.data a <;> cases d.data b <;> rfl
  unfold MetadataInfo.memoryCopy
  cases hcd : isCuda dest <;> cases hcs : isCuda src <;> simp only
  case false.false =>
    rw [Option.map_some]
    congr 1
    unfold copyCpu2cpu
    rw [data_clearDirty]
    cases d.data dest <;> cases d.data src <;> rfl
  case false.true => exact hone dest src dest d
  case true.false => exact hone dest src dest d
  case true.true =>
    have hne : hostLid ≠ dest := (isCuda_eq_true_iff.mp hcd).symm
    unfold copyCuda2cuda
    have hhost : (d.clearDirty dest).isValid hostLid = d.isValid hostLid := by
      simp [hne]
    rw [hhost]
    split
    · exact hone dest hostLid dest d
    · rw [hone]
      cases d.cudaMemcpy hostLid src with
      | none => rfl
      | some d₁ =>
        rw [Option.map_some, Option.bind_eq_bind, Option.bind_some, hone,
          Option.bind_some]
        cases d₁.cudaMemcpy dest hostLid with
        | none => rfl
        | some d₂ =>
          show some _ = some _
          unfold MetadataInfo.clearDirty Bitmap.valueSet
          simp only [BitVec.or_assoc, BitVec.or_comm (BitVec.twoPow 64 dest)]

-- ======== prologue

/-- The block a task is given: `kaapi_metadata_info_has_data` holds of it,
and no valid bit has changed. -/
theorem Inv.prologueBlock (h : Inv d v)
    (hk : k = hostLid → d.hasData hostLid = true) :
    Inv (d.prologueBlock k) v
      ∧ (∀ j, (d.prologueBlock k).isValid j = d.isValid j)
      ∧ ∀ j, (d.prologueBlock k).hasData j
          = (d.hasData j || decide (j = k)) := by
  unfold MetadataInfo.prologueBlock
  by_cases hd : d.hasData k = true
  · rw [if_pos hd]
    refine ⟨h.setUsers k _, fun _ => rfl, fun j => ?_⟩
    by_cases hjk : j = k
    · simp [increaseAccessView, hjk, hd]
    · simp [increaseAccessView, hjk]
  · rw [if_neg hd]
    have hcuda : isCuda k = true := by
      rw [isCuda_eq_true_iff]
      intro heq
      subst heq
      exact hd (hk rfl)
    have hinvalid : d.isValid k = false := by
      rw [Bool.eq_false_iff]
      exact fun hv => hd (h.present k hv)
    have hvalid : ∀ j, (d.prologueAlloc k).isValid j = d.isValid j := by
      intro j
      by_cases hjk : j = k
      · simp [prologueAlloc, hjk, hinvalid]
      · simp [prologueAlloc, hjk]
    have hhas : ∀ j, (d.prologueAlloc k).hasData j
        = (d.hasData j || decide (j = k)) := by
      intro j
      simp [prologueAlloc]
    have hdata : (d.prologueAlloc k).data
        = update d.data k (.block none) := by
      simp [prologueAlloc, allocateView, hcuda]
    have hne : ∀ {j}, d.isValid j = true → j ≠ k := by
      intro j hj hjk
      rw [hjk, hinvalid] at hj
      cases hj
    refine ⟨⟨⟨fun j hj => ?_, ?_, fun j hj => ?_⟩, fun j hj => ?_⟩,
      hvalid, hhas⟩
    · rw [hvalid] at hj
      rw [hhas, h.present j hj, Bool.true_or]
    · obtain ⟨j, hj⟩ := h.some_valid
      exact ⟨j, (hvalid j).trans hj⟩
    · rw [hvalid] at hj
      rw [hdata, update_of_ne (hne hj)]
      exact h.current j hj
    · rw [hdata]
      by_cases hjk : j = k
      · rw [hjk, update_self]
        exact nofun
      · rw [hhas, decide_eq_false hjk, Bool.or_false] at hj
        rw [update_of_ne hjk]
        exact h.backed j hj

theorem Inv.prologueTransfer (h : Inv d v) (hk : d.hasData k = true)
    (hhost : d.isValid k = false → d.hasData hostLid = true) (src : Lid) :
    ∃ d', d.prologueTransfer k src = some d' ∧ Inv d' v
      ∧ d'.isValid k = true ∧ d'.hasData = d.hasData
      ∧ (d.isValid k = true → d' = d) := by
  unfold MetadataInfo.prologueTransfer
  by_cases hv : d.isValid k = true
  · rw [if_pos hv]
    exact ⟨d, rfl, h, hv, rfl, fun _ => rfl⟩
  · rw [if_neg hv]
    have hv' : d.isValid k = false := Bool.eq_false_iff.mpr hv
    obtain ⟨l, hl, hlv⟩ : ∃ l, d.transferSource k src = some l
        ∧ d.isValid l = true := by
      unfold transferSource
      split
      next =>
        obtain ⟨j, hj⟩ := h.some_valid
        exact exists_getDataByLid_firstValid hj
      next hn =>
        refine ⟨src, rfl, ?_⟩
        rw [not_or] at hn
        exact Bool.of_not_eq_false hn.2
    obtain ⟨d₁, hd₁, hi₁, hhas, hdata, -⟩ :=
      h.memoryCopy hk hlv fun _ => hhost hv'
    rw [hl, Option.bind_eq_bind, Option.bind_some, hd₁]
    have hk₁ : d₁.hasData k = true := by rw [hhas]; exact hk
    exact ⟨_, rfl, hi₁.clearDirty hk₁ hdata, by simp, hhas,
      fun hvk => absurd hvk hv⟩

theorem inv_setContent_of_only {v' : V} (hk : d.hasData k = true)
    (hv : d.isValid k = true) (honly : ∀ j, d.isValid j = true → j = k)
    (hb : ∀ j, d.hasData j = true → d.data j ≠ .null) :
    Inv (d.setContent k (some v')) v' where
  present := by
    intro j hj
    rw [honly j hj]
    exact hk
  some_valid := ⟨k, hv⟩
  current := by
    intro j hj
    rw [honly j hj, data_setContent, update_self]
  backed := by
    intro j hj
    rw [data_setContent]
    by_cases hjk : j = k
    · rw [hjk, update_self]
      exact nofun
    · rw [update_of_ne hjk]
      exact hb j hj

-- ======== steps

theorem Meets.task_cases (hm : Meets (.task k src m upd) d) (hV : getMode m ≠ modeV) :
    (k = hostLid ∨ (accessIsRead (getMode m) = true ∧ d.isValid k = false) →
        d.hasData hostLid = true)
      ∧ (accessIsCumulwrite (getMode m) = true →
        accessIsRead (getMode m) = true ∨ d.isValid k = true)
      ∧ (accessIsCumulwrite (getMode m) = true →
        accessIsWrite (getMode m) = false →
        ∀ j, d.isValid j = true → j = k) := by
  rcases hm with hm | hm
  · exact absurd hm hV
  · exact hm

/-- The prologue before its invalidation: the task has a block, valid if
it reads, and valid before it if it was. -/
theorem Inv.prologueFetch (h : Inv d v) (hm : Meets (.task k src m upd) d)
    (hV : getMode m ≠ modeV) :
    ∃ d', d.taskdescrPrologue k src m
        = some (if accessIsWrite (getMode m) then d'.setAllDirtyExcept k else d')
      ∧ Inv d' v ∧ d'.hasData k = true
      ∧ (accessIsRead (getMode m) = true → d'.isValid k = true)
      ∧ (d.isValid k = true → ∀ j, d'.isValid j = d.isValid j) := by
  obtain ⟨hhost, -, -⟩ := hm.task_cases hV
  obtain ⟨hb, hbv, hbh⟩ := h.prologueBlock fun hk => hhost (.inl hk)
  have hbk : (d.prologueBlock k).hasData k = true := by
    rw [hbh, decide_eq_true rfl, Bool.or_true]
  unfold taskdescrPrologue prologueValidate
  rw [if_neg hV]
  by_cases hr : accessIsRead (getMode m) = true
  · have hfetch : (d.prologueBlock k).isValid k = false →
        (d.prologueBlock k).hasData hostLid = true := by
      intro hv
      rw [hbv] at hv
      rw [hbh, hhost (.inr ⟨hr, hv⟩), Bool.true_or]
    obtain ⟨d₁, hd₁, hi₁, hv₁, hh₁, heq⟩ := hb.prologueTransfer hbk hfetch src
    refine ⟨d₁, ?_, hi₁, by rw [hh₁]; exact hbk, fun _ => hv₁, fun hv j => ?_⟩
    · simp only [if_pos hr, hd₁, Option.bind_eq_bind, Option.bind_some]
      rfl
    · rw [heq ((hbv k).trans hv), hbv]
  · refine ⟨_, ?_, hb, hbk, fun hr' => absurd hr' hr, fun _ j => hbv j⟩
    simp only [if_neg hr, Option.bind_eq_bind, Option.bind_some]
    rfl

theorem Inv.task (h : Inv d v) (hm : Meets (.task k src m upd) d) :
    ∃ d', step (.task k src m upd) d = some d'
      ∧ Inv d' (lastWrite (.task k src m upd) v) := by
  by_cases hV : getMode m = modeV
  · have hc : changes m = false := by
      unfold changes
      rw [hV]
      decide
    refine ⟨d, ?_, ?_⟩
    · simp [step, taskdescrPrologue, hV, taskBody, hc]
    · simpa [lastWrite, hc] using h
  · obtain ⟨hhost, hcum, honly⟩ := hm.task_cases hV
    obtain ⟨d₁, hd₁, hi₁, hk₁, hread, hsame⟩ := h.prologueFetch hm hV
    simp only [step, hd₁, Option.bind_eq_bind, Option.bind_some, lastWrite]
    by_cases hc : changes m = true
    · -- the block it changes holds the last write, if the task looks at it
      have hcontent : ∃ c, d₁.data k = .block c
          ∧ (uses m = true → c = some v) := by
        by_cases hu : uses m = true
        · refine ⟨some v, hi₁.current k ?_, fun _ => rfl⟩
          have hu' : accessIsRead (getMode m) = true
              ∨ accessIsCumulwrite (getMode m) = true := by
            simpa [uses] using hu
          rcases hu' with hr | hcw
          · exact hread hr
          · rcases hcum hcw with hr | hv
            · exact hread hr
            · rw [hsame hv]
              exact hv
        · cases hd : d₁.data k with
          | null => exact absurd hd (hi₁.backed k hk₁)
          | block c => exact ⟨c, rfl, fun hu' => absurd hu' hu⟩
      obtain ⟨c, hc₁, hcv⟩ := hcontent
      have hwrite : (if uses m = true then c else none)
          = if uses m = true then some v else none := by
        split
        next hu => exact hcv hu
        next => rfl
      rw [if_pos hc]
      by_cases hw : accessIsWrite (getMode m) = true
      · refine ⟨(d₁.setAllDirtyExcept k).setContent k
          (some (upd (if uses m = true then some v else none))), ?_, ?_⟩
        · simp only [if_pos hw, taskBody, if_pos hc, data_setAllDirtyExcept,
            hc₁, hwrite]
        · refine inv_setContent_of_only hk₁ (by simp) (fun j hj => ?_)
            hi₁.backed
          simpa using hj
      · have hcw : accessIsCumulwrite (getMode m) = true := by
          simpa [changes, hw] using hc
        have hall := honly hcw (Bool.eq_false_iff.mpr hw)
        have hvk : d.isValid k = true := by
          obtain ⟨j, hj⟩ := h.some_valid
          exact hall j hj ▸ hj
        refine ⟨d₁.setContent k
          (some (upd (if uses m = true then some v else none))), ?_, ?_⟩
        · simp only [if_neg hw, taskBody, if_pos hc, hc₁, hwrite]
        · refine inv_setContent_of_only hk₁ ((hsame hvk k).trans hvk)
            (fun j hj => hall j ?_) hi₁.backed
          rw [← hsame hvk j]
          exact hj
    · have hw : ¬ accessIsWrite (getMode m) = true := by
        intro hw
        exact hc (by simp [changes, hw])
      rw [if_neg hc]
      refine ⟨d₁, ?_, hi₁⟩
      simp only [if_neg hw, taskBody, if_neg hc]

theorem Inv.synchronize (h : Inv d v) (hm : Meets (.synchronize dest src) d) :
    ∃ d', step (.synchronize dest src) d = some d' ∧ Inv d' v := by
  simp only [step]
  unfold synchronizePeer2peer
  by_cases hc : (d.hasData src && d.isValid src && !d.isValid dest) = true
  · rw [if_pos hc]
    rw [Bool.and_eq_true, Bool.and_eq_true, Bool.not_eq_true'] at hc
    obtain ⟨⟨hs, hvs⟩, hvd⟩ := hc
    obtain ⟨hd, hh⟩ := hm hs hvs hvd
    obtain ⟨d₁, hd₁, hi₁, hhas, hdata, -⟩ := h.memoryCopy hd hvs fun _ => hh
    have hdest : d₁.hasData dest = true := by rw [hhas]; exact hd
    refine ⟨d₁.clearDirty dest, ?_, hi₁.clearDirty hdest hdata⟩
    unfold clearDirtyAndCheck
    rw [hvd]
    show (d.clearDirty dest).memoryCopy dest src = _
    rw [memoryCopy_clearDirty, hd₁]
    rfl
  · rw [if_neg hc]
    exact ⟨d, rfl, h⟩

theorem Inv.evict (h : Inv d v) (hm : Meets (.evict k) d) :
    ∃ d', step (.evict k) d = some d' ∧ Inv d' v := by
  have hv : d.isValid k = false := hm
  refine ⟨(d.clearData k).dropBlock k, ?_, h.clearData hv⟩
  simp only [step]
  unfold evictPointer
  rw [if_pos (.inr hv)]
  rfl

theorem Meets.step_inv {op : Op V} (hm : Meets op d) (h : Inv d v) :
    ∃ d', step op d = some d' ∧ Inv d' (lastWrite op v) := by
  cases op with
  | task k src m upd => exact h.task hm
  | epilogue k m =>
    refine ⟨_, rfl, ?_⟩
    show Inv (d.taskdescrEpilogue k m) v
    unfold taskdescrEpilogue
    split
    · exact h
    · exact h.setUsers k _
  | evict k => exact h.evict hm
  | synchronize dest src => exact h.synchronize hm

theorem Inv.finds (h : Inv d v) (hm : Meets (.task k src m upd) d) :
    Finds k src m d v := by
  intro hr
  have hV : getMode m ≠ modeV := by
    intro hV
    rw [hV] at hr
    exact absurd hr (by decide)
  obtain ⟨d₁, hd₁, hi₁, -, hread, -⟩ := h.prologueFetch hm hV
  refine ⟨_, hd₁, ?_⟩
  split
  · exact hi₁.current k (hread hr)
  · exact hi₁.current k (hread hr)

-- ======== where the condition is exact

theorem Inv.evict_coherent_iff (h : Inv d v) :
    (∃ d', step (.evict k) d = some d' ∧ Coherent d' v)
      ↔ Meets (.evict k) d := by
  constructor
  · intro ⟨d', hd', hc⟩
    show d.isValid k = false
    by_contra hv
    rw [Bool.not_eq_false] at hv
    -- in every branch the last thing done is `clear_data`
    obtain ⟨d₁, hd₁, hv₁⟩ : ∃ d₁ : MetadataInfo V,
        d' = (d₁.clearData k).dropBlock k
        ∧ d₁.isValid k = true := by
      simp only [step, Option.map_eq_some_iff] at hd'
      obtain ⟨d₂, hd₂, rfl⟩ := hd'
      unfold evictPointer at hd₂
      split at hd₂
      · exact ⟨d, by rw [← Option.some.inj hd₂], hv⟩
      · split at hd₂
        · exact ⟨d, by rw [← Option.some.inj hd₂], hv⟩
        next hno =>
          rw [not_or] at hno
          have hhost : d.hasData hostLid = true := Bool.of_not_eq_false hno.1
          obtain ⟨d₃, hd₃, -, -, -, hmono⟩ :=
            h.memoryCopy hhost hv fun _ => hhost
          rw [hd₃] at hd₂
          refine ⟨d₃.clearDirty hostLid, by rw [← Option.some.inj hd₂], ?_⟩
          rw [isValid_clearDirty, hmono k hv, Bool.true_or]
    have hp := hc.present k (by rw [hd₁]; exact hv₁)
    rw [hd₁] at hp
    simp at hp
  · intro hm
    obtain ⟨d', hd', hi'⟩ := h.evict hm
    exact ⟨d', hd', hi'.toCoherent⟩

/-- A copy never gives a block to a space, nor takes a valid bit; between
devices it leaves the host valid. -/
theorem memoryCopy_frame {d' : MetadataInfo V}
    (hc : d.memoryCopy dest src = some d') :
    d'.hasData = d.hasData ∧ (∀ j, d.isValid j = true → d'.isValid j = true)
      ∧ (isCuda dest = true → isCuda src = true →
        d'.isValid hostLid = true) := by
  have hone : ∀ {a b : Lid} {d d' : MetadataInfo V},
      d.cudaMemcpy a b = some d' → d'.hasData = d.hasData
        ∧ ∀ j, d'.isValid j = d.isValid j := by
    intro a b d d' hc
    unfold MetadataInfo.cudaMemcpy at hc
    split at hc
    · cases hc
      exact ⟨rfl, fun _ => rfl⟩
    · cases hc
  unfold MetadataInfo.memoryCopy at hc
  cases hcd : isCuda dest <;> cases hcs : isCuda src <;>
    simp only [hcd, hcs] at hc
  case false.false =>
    cases hc
    unfold copyCpu2cpu
    split
    · exact ⟨rfl, fun _ hj => hj, nofun⟩
    · exact ⟨rfl, fun _ hj => hj, nofun⟩
  case false.true =>
    obtain ⟨hh, hv⟩ := hone hc
    exact ⟨hh, fun j hj => (hv j).trans hj, nofun⟩
  case true.false =>
    obtain ⟨hh, hv⟩ := hone hc
    exact ⟨hh, fun j hj => (hv j).trans hj, nofun⟩
  case true.true =>
    unfold copyCuda2cuda at hc
    by_cases hvh : d.isValid hostLid = true
    · rw [if_pos hvh] at hc
      obtain ⟨hh, hv⟩ := hone hc
      exact ⟨hh, fun j hj => (hv j).trans hj, fun _ _ => (hv _).trans hvh⟩
    · rw [if_neg hvh, Option.bind_eq_bind, Option.bind_eq_some_iff] at hc
      obtain ⟨d₁, hd₁, hc⟩ := hc
      rw [Option.bind_eq_some_iff] at hc
      obtain ⟨d₂, hd₂, hc⟩ := hc
      cases hc
      obtain ⟨hh₁, hv₁⟩ := hone hd₁
      obtain ⟨hh₂, hv₂⟩ := hone hd₂
      refine ⟨hh₂.trans hh₁, fun j hj => ?_, fun _ _ => by simp⟩
      rw [isValid_clearDirty, hv₂ j, hv₁ j, hj, Bool.true_or]

end inv

-- ======== runs

instance (op : Op V) (d : MetadataInfo V) : Decidable (Meets op d) :=
  match op with
  | .task _ _ _ _ => inferInstanceAs (Decidable (_ ∨ _))
  | .epilogue _ _ => inferInstanceAs (Decidable True)
  | .evict _ => inferInstanceAs (Decidable (_ = _))
  | .synchronize _ _ => inferInstanceAs (Decidable (_ → _ → _ → _))

/-- The first device. -/
def device₁ : Lid := ⟨1, by decide⟩

/-- The second device. -/
def device₂ : Lid := ⟨2, by decide⟩

/-- Two devices and the host share a datum; the device that the host has
invalidated evicts its block. -/
def sharing : List (Op Nat) :=
  [.task device₁ hostLid modeRW (fun c => c.getD 0 + 1),
   .epilogue device₁ modeRW,
   .task device₂ device₁ modeR (fun _ => 0),
   .epilogue device₂ modeR,
   .synchronize hostLid device₁,
   .task hostLid hostLid modeW (fun _ => 40),
   .evict device₁,
   .task device₁ hostLid modeRW (fun c => c.getD 0 + 2),
   .synchronize device₂ device₁,
   .task hostLid hostLid modeR (fun _ => 0)]

/-- A device has read the datum, and the host has written it since: the
device keeps a block that is not valid. -/
def stale : List (Op Nat) :=
  [.task device₁ hostLid modeR (fun _ => 0), .epilogue device₁ modeR,
   .task hostLid hostLid modeW (fun _ => 40)]

theorem stale_inv : ∃ d, run step stale (bound hostLid 7) = some d ∧ Inv d 40
    ∧ Meets (.evict device₁) d ∧ Meets (.synchronize device₁ hostLid) d := by
  have hmeets : Along step Meets stale (bound hostLid 7) := by decide +kernel
  obtain ⟨d, hd, hi⟩ := hmeets.run_simulates (f := lastWrite) (R := Inv)
    (fun hm hi => hm.step_inv hi) (inv_bound hostLid 7)
  have hnext : (run step stale (bound hostLid 7)).all (fun d =>
      decide (Meets (.evict device₁) d ∧ Meets (.synchronize device₁ hostLid) d))
      = true := by decide +kernel
  rw [hd] at hnext
  obtain ⟨he, hs⟩ := of_decide_eq_true hnext
  exact ⟨d, hd, hi, he, hs⟩

theorem evict_coherent_iff_device : ∃ d d',
    run step stale (bound hostLid 7) = some d
      ∧ step (.evict device₁) d = some d' ∧ Coherent d' 40 := by
  obtain ⟨d, hd, hi, he, -⟩ := stale_inv
  obtain ⟨d', hd'⟩ := (Inv.evict_coherent_iff hi).mpr he
  exact ⟨d, d', hd, hd'⟩

end XKaapi.Memory
