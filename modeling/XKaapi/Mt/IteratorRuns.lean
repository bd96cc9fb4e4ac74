/-
Every use of the request iterator (kaapi_mt_machine.h).

`Tracks` is the invariant behind `Shows`: the current index is not in
the bitmap as well, so that counting the bitmap and adding one is
counting what is held.
-/
import XKaapi.Mt.RequestIterator

namespace XKaapi.Mt

open WordArray (indices least)

variable {W : Width} {s : Listrequest W}

-- ======== invariant

/-- The iterator holds what the drain owes, the current one apart. -/
structure Tracks (lri : ListrequestIterator W) (d : Drain Nat) : Prop where
  held : lri.held = d.owed
  curr : lri.idcurr = d.curr
  fresh : ∀ i, lri.idcurr = some i → i ∉ indices lri.bitmap

theorem mem_held {lri : ListrequestIterator W} {i : Nat} :
    i ∈ lri.held ↔ lri.idcurr = some i ∨ i ∈ indices lri.bitmap := by
  unfold ListrequestIterator.held
  rw [Finset.mem_union, Option.mem_toFinset, Option.mem_def]

theorem Tracks.mem_owed {lri : ListrequestIterator W} {d : Drain Nat}
    (h : Tracks lri d) {i : Nat} :
    i ∈ d.owed ↔ lri.idcurr = some i ∨ i ∈ indices lri.bitmap := by
  rw [← h.held, mem_held]

theorem count_eq_card_iff (lri : ListrequestIterator W) :
    lri.count = lri.held.card
      ↔ ∀ i, lri.idcurr = some i → i ∉ indices lri.bitmap := by
  unfold ListrequestIterator.count ListrequestIterator.held
  rw [valueCount_eq_card]
  cases hcurr : lri.idcurr with
  | none => simp
  | some i =>
    rw [Option.toFinset_some, Finset.singleton_union, if_neg (by simp)]
    constructor
    · intro h j hj
      cases hj
      intro hmem
      rw [Finset.insert_eq_of_mem hmem] at h
      omega
    · intro h
      exact (Finset.card_insert_of_notMem (h i rfl)).symm

theorem empty_iff (lri : ListrequestIterator W) :
    lri.empty = true ↔ lri.count = 0 := by
  unfold ListrequestIterator.empty ListrequestIterator.count
  rw [valueEmpty_eq, valueCount_eq_card, Bool.and_eq_true,
    decide_eq_true_eq, beq_iff_eq, Nat.add_eq_zero_iff, Finset.card_eq_zero]
  refine and_congr_right fun _ => ?_
  split
  next h => exact iff_of_true h rfl
  next h => exact iff_of_false h (Nat.succ_ne_zero 0)

theorem shows_iff {d : Iteration} :
    Shows s d ↔ indices s.lrequests = d.posted ∧ Tracks s.lri d.drain := by
  constructor
  · intro h
    refine ⟨h.posted, h.held, h.get, (count_eq_card_iff s.lri).mp ?_⟩
    rw [h.count, h.held]
  · intro ⟨hposted, h⟩
    refine ⟨hposted, h.held, ?_, empty_iff s.lri, h.curr⟩
    rw [← h.held]
    exact (count_eq_card_iff s.lri).mpr h.fresh

-- ======== cursor

theorem tracks_first {b : Words W} {d : Drain Nat} (howed : d.owed = indices b)
    (hcurr : d.curr = (indices b).first) :
    Tracks (ListrequestIterator.first b) d := by
  have hidcurr : (ListrequestIterator.first b).idcurr = (indices b).first := by
    show idOfFirst1 (Words.valueFirst1AndZero b).1 = _
    rw [(valueFirst1AndZero_eq b).1, idOfFirst1_least]
  have hbitmap : indices (ListrequestIterator.first b).bitmap
      = (indices b).erase (least (indices b) - 1) :=
    (valueFirst1AndZero_eq b).2
  have hleast : ∀ i, (indices b).first = some i → least (indices b) - 1 = i := by
    intro i hi
    rw [← idOfFirst1_least] at hi
    cases hl : least (indices b) with
    | zero =>
      rw [hl] at hi
      cases hi
    | succ fb =>
      rw [hl] at hi
      exact Option.some.inj hi
  refine ⟨?_, hidcurr.trans hcurr.symm, ?_⟩
  · ext i
    rw [howed, mem_held, hidcurr, hbitmap]
    cases hfirst : (indices b).first with
    | none =>
      rw [Finset.first_eq_none.mp hfirst]
      simp
    | some j =>
      rw [hleast j hfirst, Option.some_inj, Finset.mem_erase]
      by_cases hij : j = i
      · subst hij
        exact iff_of_true (.inl rfl) (Finset.mem_of_first hfirst)
      · simp [hij, Ne.symm hij]
  · intro i hi
    rw [hidcurr] at hi
    rw [hbitmap, hleast i hi]
    exact Finset.notMem_erase i _

section calls

variable {lri : ListrequestIterator W} {d : Drain Nat}

theorem Tracks.owed_sdiff_curr (h : Tracks lri d) :
    d.owed \ d.curr.toFinset = indices lri.bitmap := by
  ext i
  rw [Finset.mem_sdiff, h.mem_owed, Option.mem_toFinset, Option.mem_def, ← h.curr]
  constructor
  · rintro ⟨hcurr | hmem, hno⟩
    · exact absurd hcurr hno
    · exact hmem
  · intro hmem
    exact ⟨.inr hmem, fun hcurr => h.fresh i hcurr hmem⟩

theorem Tracks.next (h : Tracks lri d) :
    Tracks lri.next (d.take true d.curr.toFinset) := by
  refine tracks_first h.owed_sdiff_curr ?_
  show (if ∃ i ∈ d.curr, i ∉ d.curr.toFinset then d.curr
    else (d.owed \ d.curr.toFinset).first) = _
  rw [if_neg, h.owed_sdiff_curr]
  intro ⟨i, hi, hno⟩
  exact hno (Option.mem_toFinset.mpr hi)

theorem Tracks.take_curr (h : Tracks lri d) {i : Nat}
    (hi : lri.idcurr = some i) (deliver : Bool) :
    Tracks (ListrequestIterator.first lri.bitmap) (d.take deliver {i}) := by
  have hcurr : d.curr = some i := h.curr.symm.trans hi
  have howed : d.owed \ {i} = indices lri.bitmap := by
    rw [← h.owed_sdiff_curr, hcurr, Option.toFinset_some]
  refine tracks_first howed ?_
  show (if ∃ j ∈ d.curr, j ∉ ({i} : Finset Nat) then d.curr
    else (d.owed \ {i}).first) = _
  rw [if_neg, howed]
  intro ⟨j, hj, hno⟩
  rw [hcurr, Option.mem_some_iff] at hj
  exact hno (Finset.mem_singleton.mpr hj.symm)

theorem Tracks.take_other (h : Tracks lri d) {i : Nat} {b : Words W}
    (hi : lri.idcurr ≠ some i) (hb : indices b = (indices lri.bitmap).erase i)
    (deliver : Bool) :
    Tracks { lri with bitmap := b } (d.take deliver {i}) := by
  have howed : (⟨b, lri.idcurr, lri.lt⟩ : ListrequestIterator W).held
      = d.owed \ {i} := by
    ext j
    rw [mem_held, Finset.mem_sdiff, h.mem_owed, Finset.mem_singleton]
    show lri.idcurr = some j ∨ j ∈ indices b ↔ _
    rw [hb, Finset.mem_erase]
    constructor
    · intro hj
      rcases hj with hj | hj
      · exact ⟨.inl hj, fun hji => hi (hji ▸ hj)⟩
      · exact ⟨.inr hj.2, hj.1⟩
    · rintro ⟨hj | hj, hji⟩
      · exact .inl hj
      · exact .inr ⟨hji, hj⟩
  refine ⟨howed, ?_, ?_⟩
  · show lri.idcurr = if ∃ j ∈ d.curr, j ∉ ({i} : Finset Nat) then d.curr
      else (d.owed \ {i}).first
    rw [h.curr] at hi ⊢
    cases hcurr : d.curr with
    | none =>
      rw [d.none_empty hcurr]
      simp [Finset.first]
    | some j =>
      rw [if_pos]
      refine ⟨j, rfl, fun hj => hi ?_⟩
      rw [hcurr, Finset.mem_singleton.mp hj]
  · intro j hj
    show j ∉ indices b
    rw [hb, Finset.mem_erase]
    exact fun hmem => h.fresh j hj hmem.2

theorem Tracks.clear (h : Tracks lri d) :
    Tracks lri.clear (d.take false (d.owed \ d.curr.toFinset)) := by
  have howed : d.owed \ (d.owed \ d.curr.toFinset) = d.curr.toFinset := by
    refine Finset.sdiff_sdiff_eq_self fun i hi => ?_
    exact d.curr_mem i (Option.mem_toFinset.mp hi)
  have hbitmap : indices lri.clear.bitmap = ∅ := indices_zero
  refine ⟨?_, ?_, ?_⟩
  · show lri.idcurr.toFinset ∪ indices lri.clear.bitmap
      = d.owed \ (d.owed \ d.curr.toFinset)
    rw [howed, hbitmap, Finset.union_empty, h.curr]
  · show lri.idcurr = if ∃ i ∈ d.curr, i ∉ d.owed \ d.curr.toFinset then d.curr
      else (d.owed \ (d.owed \ d.curr.toFinset)).first
    rw [howed, h.curr]
    cases hcurr : d.curr with
    | none => simp [Finset.first]
    | some i =>
      rw [if_pos]
      refine ⟨i, rfl, fun hmem => ?_⟩
      exact (Finset.mem_sdiff.mp hmem).2 (Finset.mem_singleton_self i)
  · intro i _
    rw [hbitmap]
    exact Finset.notMem_empty i

theorem indices_update (lri : ListrequestIterator W) (b mask : Words W) :
    indices (lri.update b mask).1 = indices b \ indices mask
      ∧ indices (Words.valueOr lri.bitmap
          (Words.valueAnd (Words.and b (Words.valueNeg mask)).2 mask))
        = indices lri.bitmap ∪ indices b ∩ indices mask := by
  constructor
  · refine (indices_and b (Words.valueNeg mask)).trans ?_
    ext i
    rw [indices_valueNeg, Finset.mem_inter, Finset.mem_sdiff, Finset.mem_sdiff,
      Finset.mem_range]
    constructor
    · exact fun h => ⟨h.1, h.2.2⟩
    · exact fun h => ⟨h.1, WordArray.lt_of_mem_indices h.1, h.2⟩
  · refine (indices_or lri.bitmap _).trans ?_
    congr 1
    exact indices_and b mask

/-- Posted indices come in; none of them may be the current one. -/
theorem Tracks.update (h : Tracks lri d) {b mask : Words W}
    (hcurr : ∀ i, lri.idcurr = some i → i ∉ indices b ∩ indices mask) :
    Tracks (lri.update b mask).2 (d.add (indices b ∩ indices mask)) := by
  have hbitmap := (indices_update lri b mask).2
  unfold ListrequestIterator.update
  simp only
  by_cases hnone : lri.idcurr = none
  · have howed : d.owed = ∅ := d.none_empty (h.curr.symm.trans hnone)
    have hempty : indices lri.bitmap = ∅ := by
      rw [← h.owed_sdiff_curr, howed, Finset.empty_sdiff]
    rw [hempty, Finset.empty_union] at hbitmap
    have hdcurr : (d.add (indices b ∩ indices mask)).curr
        = (indices b ∩ indices mask).first :=
      if_pos (h.curr.symm.trans hnone)
    have hdowed : (d.add (indices b ∩ indices mask)).owed
        = indices b ∩ indices mask := by
      show d.owed ∪ _ = _
      rw [howed, Finset.empty_union]
    split
    next =>
      exact tracks_first (hdowed.trans hbitmap.symm)
        (hdcurr.trans (congrArg _ hbitmap.symm))
    next hno =>
      have hz : indices b ∩ indices mask = ∅ := by
        by_contra hne
        refine hno ⟨hnone, ?_⟩
        rw [valueEmpty_eq, hbitmap, decide_eq_true_eq]
        exact hne
      refine ⟨?_, ?_, fun i hi => ?_⟩
      · show lri.idcurr.toFinset ∪ indices _ = _
        rw [hbitmap, hdowed, hnone, Option.toFinset_none, Finset.empty_union]
      · rw [hdcurr, hz]
        exact hnone
      · rw [show lri.idcurr = none from hnone] at hi
        cases hi
  · rw [if_neg fun hc => hnone hc.1]
    refine ⟨?_, ?_, fun i hi => ?_⟩
    · show lri.idcurr.toFinset ∪ indices _ = d.owed ∪ _
      rw [hbitmap, ← Finset.union_assoc, ← h.held]
      rfl
    · show lri.idcurr = if d.curr = none then _ else d.curr
      rw [if_neg (h.curr ▸ hnone)]
      exact h.curr
    · show i ∉ indices _
      rw [hbitmap, Finset.mem_union]
      exact fun hmem => hmem.elim (h.fresh i hi) (hcurr i hi)

end calls

-- ======== steps

section steps

variable {s s' : Listrequest W} {d : Iteration} {answer : Answer}
  {lri : ListrequestIterator W}

theorem held_first (b : Words W) :
    (ListrequestIterator.first b).held = indices b :=
  (tracks_first (d := .start (indices b)) rfl rfl).held

theorem Tracks.unsetAt_iff {d : Drain Nat} (h : Tracks lri d) (pos : Nat) :
    Tracks (lri.unsetAt pos) (d.take false {pos})
      ↔ indices (Words.valueUnset lri.bitmap pos)
        = (indices lri.bitmap).erase pos := by
  unfold ListrequestIterator.unsetAt
  simp only
  by_cases hcurr : lri.idcurr = some pos
  · rw [if_pos hcurr, Finset.erase_eq_of_notMem (h.fresh pos hcurr)]
    have hnext := h.take_curr hcurr false
    constructor
    · intro h'
      rw [← held_first, h'.held, ← hnext.held, held_first]
    · intro hb
      rw [WordArray.indices_injective hb]
      exact hnext
  · rw [if_neg hcurr]
    constructor
    · intro h'
      -- the bitmap is what is owed besides the current index
      have hsdiff := h'.owed_sdiff_curr
      rw [← h'.curr] at hsdiff
      refine hsdiff.symm.trans ?_
      show (d.owed \ {pos}) \ lri.idcurr.toFinset = _
      rw [h.curr, sdiff_sdiff_comm, h.owed_sdiff_curr, Finset.erase_eq]
    · exact fun hb => h.take_other hcurr hb false

theorem Tracks.getkidAndnext_iff {d : Drain Nat} (h : Tracks lri d) {kid : Nat}
    (hkid : kid < W.size) (howed : kid ∈ d.owed) :
    Tracks (lri.getkidAndnext kid) (d.take true {kid})
      ↔ (W = .w192 → 128 ≤ kid → lri.idcurr = some kid) := by
  unfold ListrequestIterator.getkidAndnext
  by_cases hcurr : lri.idcurr = some kid
  · rw [if_pos hcurr]
    exact iff_of_true (h.take_curr hcurr true) fun _ _ => hcurr
  · rw [if_neg hcurr]
    have hmem : kid ∈ indices lri.bitmap := (h.mem_owed.mp howed).resolve_left hcurr
    constructor
    · intro h' h192 hle
      have hsdiff := h'.owed_sdiff_curr
      rw [← h'.curr] at hsdiff
      have hb : indices (Words.valueUnset lri.bitmap kid)
          = (indices lri.bitmap).erase kid := by
        refine hsdiff.symm.trans ?_
        show (d.owed \ {kid}) \ lri.idcurr.toFinset = _
        rw [h.curr, sdiff_sdiff_comm, h.owed_sdiff_curr, Finset.erase_eq]
      exact absurd hmem ((indices_valueUnset_iff _ hkid).mp hb h192 hle).1
    · intro hmeets
      refine h.take_other hcurr ((indices_valueUnset_iff _ hkid).mpr ?_) true
      exact fun h192 hle => absurd (hmeets h192 hle) hcurr

theorem Tracks.update_iff {d : Drain Nat} (h : Tracks lri d) (b mask : Words W) :
    Tracks (lri.update b mask).2 (d.add (indices b ∩ indices mask))
      ↔ ∀ i, lri.idcurr = some i → i ∉ indices b ∩ indices mask := by
  refine ⟨fun h' i hi hmem => ?_, h.update⟩
  have hlri : (lri.update b mask).2 = ⟨Words.valueOr lri.bitmap
      (Words.valueAnd (Words.and b (Words.valueNeg mask)).2 mask),
      lri.idcurr, lri.lt⟩ := by
    unfold ListrequestIterator.update
    simp only
    rw [if_neg]
    intro ⟨hnone, _⟩
    rw [hi] at hnone
    cases hnone
  rw [hlri] at h'
  refine h'.fresh i hi ?_
  show i ∈ indices (Words.valueOr lri.bitmap
    (Words.valueAnd (Words.and b (Words.valueNeg mask)).2 mask))
  rw [(indices_update lri b mask).2]
  exact Finset.mem_union_right _ hmem

theorem indices_bitmapOf (lri : ListrequestIterator W) (retval : Words W) :
    indices (lri.bitmapOf retval)
      = insert (lri.idcurr.getD 0) (indices retval) ∪ indices lri.bitmap := by
  have hlt : lri.idcurr.getD 0 < W.size := by
    cases hcurr : lri.idcurr with
    | none => cases W <;> decide
    | some i => exact lri.lt i hcurr
  refine (indices_or _ lri.bitmap).trans ?_
  rw [indices_valueSet retval hlt]

/-- The accessor returns the indices held iff there is a current one and
the local variable held no other index. -/
theorem bitmapOf_iff (lri : ListrequestIterator W) (retval : Words W)
    (hempty : lri.idcurr = none → indices lri.bitmap = ∅) :
    indices (lri.bitmapOf retval) = lri.held
      ↔ lri.idcurr ≠ none ∧ indices retval ⊆ lri.held := by
  rw [indices_bitmapOf]
  unfold ListrequestIterator.held
  cases hcurr : lri.idcurr with
  | none =>
    rw [hempty hcurr]
    refine iff_of_false (fun h => ?_) fun h => h.1 rfl
    have hmem := Finset.mem_union_left (∅ : Finset Nat)
      (Finset.mem_insert_self ((none : Option Nat).getD 0) (indices retval))
    rw [h] at hmem
    simp at hmem
  | some i =>
    rw [Option.toFinset_some, Finset.singleton_union, Option.getD_some,
      Finset.insert_union]
    constructor
    · intro h
      refine ⟨by simp, fun j hj => ?_⟩
      rw [← h]
      exact Finset.mem_insert_of_mem (Finset.mem_union_left _ hj)
    · intro ⟨_, hsub⟩
      refine Finset.Subset.antisymm ?_ ?_
      · refine Finset.insert_subset (Finset.mem_insert_self i _) ?_
        exact Finset.union_subset hsub (Finset.subset_insert i _)
      · exact Finset.insert_subset_insert i Finset.subset_union_right

/-- One call: it answers as the iteration says, and leaves an iterator
that shows it, iff it meets the condition. -/
theorem step_iff (h : Shows s d) {call : IteratorCall W}
    (hstep : s.step call = some (answer, s')) :
    (answer = (d.step call).1 ∧ Shows s' (d.step call).2) ↔ call.Meets s := by
  obtain ⟨hposted, htracks⟩ := shows_iff.mp h
  cases call with
  | post i =>
    simp only [Listrequest.step] at hstep
    split at hstep
    next hi =>
      cases hstep
      refine iff_of_true ⟨rfl, shows_iff.mpr ⟨?_, htracks⟩⟩ trivial
      show indices (Words.valueSet s.lrequests i) = insert i d.posted
      rw [indices_valueSet s.lrequests hi, hposted]
    next => cases hstep
  | init =>
    cases hstep
    refine iff_of_true ⟨rfl, shows_iff.mpr ⟨?_, ?_⟩⟩ trivial
    · exact (indices_and s.lrequests fun _ => 0).trans
        ((congrArg _ indices_zero).trans (Finset.inter_empty _))
    · exact tracks_first hposted.symm (congrArg Finset.first hposted.symm)
  | prepare =>
    cases hstep
    refine iff_of_true ⟨rfl, shows_iff.mpr ⟨hposted, ?_, rfl, ?_⟩⟩ trivial
    · show (none : Option Nat).toFinset ∪ indices Words.valueClear = ∅
      rw [Option.toFinset_none, Finset.empty_union]
      exact indices_zero
    · intro i hi
      cases hi
  | next =>
    cases hstep
    have hnext := htracks.next
    exact iff_of_true ⟨congrArg Answer.request hnext.curr,
      shows_iff.mpr ⟨hposted, hnext⟩⟩ trivial
  | get =>
    cases hstep
    exact iff_of_true ⟨congrArg Answer.request htracks.curr, h⟩ trivial
  | unsetAt pos =>
    simp only [Listrequest.step] at hstep
    split at hstep
    next hpos =>
      cases hstep
      refine (and_iff_right rfl).trans (shows_iff.trans ?_)
      refine (and_iff_right hposted).trans ((htracks.unsetAt_iff pos).trans ?_)
      exact indices_valueUnset_iff _ hpos
    next => cases hstep
  | getkidAndnext kid =>
    simp only [Listrequest.step] at hstep
    split at hstep
    next hkid =>
      cases hstep
      show (Answer.request (some kid) = .request (if kid ∈ d.drain.owed then
        some kid else none) ∧ _) ↔ kid ∈ s.lri.held ∧ _
      rw [htracks.held]
      by_cases howed : kid ∈ d.drain.owed
      · rw [if_pos howed]
        refine and_congr (iff_of_true rfl howed) (shows_iff.trans ?_)
        exact (and_iff_right hposted).trans
          (htracks.getkidAndnext_iff hkid howed)
      · rw [if_neg howed]
        exact iff_of_false (fun hc => by cases hc.1) fun hc => howed hc.1
    next => cases hstep
  | update mask =>
    cases hstep
    have hb := (indices_update s.lri s.lrequests mask).1
    refine (and_iff_right rfl).trans (shows_iff.trans ?_)
    refine (and_iff_right
      (hb.trans (congrArg (· \ indices mask) hposted))).trans ?_
    show Tracks _ (d.drain.add (d.posted ∩ indices mask)) ↔ _
    rw [← hposted]
    exact htracks.update_iff s.lrequests mask
  | count =>
    cases hstep
    exact iff_of_true ⟨congrArg Answer.int h.count, h⟩ trivial
  | empty =>
    cases hstep
    refine iff_of_true ⟨?_, h⟩ trivial
    show Answer.int s.lri.empty.toNat = .int (decide (d.drain.owed = ∅)).toNat
    congr 2
    rw [Bool.eq_iff_iff, decide_eq_true_eq, h.empty, h.count,
      Finset.card_eq_zero]
  | bitmap retval =>
    cases hstep
    refine (and_iff_left h).trans ?_
    have hempty : s.lri.idcurr = none → indices s.lri.bitmap = ∅ := by
      intro hnone
      rw [← htracks.owed_sdiff_curr,
        d.drain.none_empty (htracks.curr.symm.trans hnone), Finset.empty_sdiff]
    refine Iff.trans ?_ (bitmapOf_iff s.lri retval hempty)
    rw [htracks.held]
    exact ⟨fun he => Answer.bitmap.inj he, fun he => congrArg _ he⟩
  | clear =>
    cases hstep
    exact iff_of_true ⟨rfl, shows_iff.mpr ⟨hposted, htracks.clear⟩⟩ trivial

end steps

-- ======== runs

theorem after_eq_some {s' : Listrequest W} {call : IteratorCall W} :
    s.after call = some s' ↔ ∃ answer, s.step call = some (answer, s') := by
  unfold Listrequest.after
  rw [Option.map_eq_some_iff]
  constructor
  · rintro ⟨⟨answer, s₁⟩, hstep, rfl⟩
    exact ⟨answer, hstep⟩
  · intro ⟨answer, hstep⟩
    exact ⟨_, hstep, rfl⟩

theorem follows_iff {calls : List (IteratorCall W)} {s' : Listrequest W} {d : Iteration}
    (h : Shows s d) (hrun : StepMachine.run Listrequest.after calls s = some s') :
    Follows calls s d
      ↔ StepMachine.Along Listrequest.after IteratorCall.Meets
          calls s := by
  induction calls generalizing s d with
  | nil => exact Iff.rfl
  | cons call calls ih =>
    obtain ⟨s₁, hafter, hrun⟩ := (StepMachine.run_cons_eq_some).mp hrun
    obtain ⟨answer, hstep⟩ := after_eq_some.mp hafter
    constructor
    · intro hfollows
      obtain ⟨hanswer, hshows, hrest⟩ := hfollows answer s₁ hstep
      refine ⟨(step_iff h hstep).mp ⟨hanswer, hshows⟩, fun s₂ h₂ => ?_⟩
      rw [hafter] at h₂
      cases h₂
      exact (ih hshows hrun).mp hrest
    · rintro ⟨hmeets, hrest⟩ answer' s₂ h₂
      rw [hstep] at h₂
      obtain ⟨rfl, rfl⟩ := Prod.mk.inj (Option.some.inj h₂)
      obtain ⟨hanswer, hshows⟩ := (step_iff h hstep).mpr hmeets
      exact ⟨hanswer, hshows, (ih hshows hrun).mpr (hrest s₁ hafter)⟩

/-- The iterator that `init` makes of a list of requests. -/
def Listrequest.ofInit (lrequests : Words W) : Listrequest W :=
  ⟨(ListrequestIterator.init lrequests).1, (ListrequestIterator.init lrequests).2⟩

/-- What it owes: all that was posted. -/
def Iteration.ofInit (lrequests : Words W) : Iteration :=
  ⟨∅, .start (indices lrequests)⟩

theorem shows_ofInit (lrequests : Words W) :
    Shows (.ofInit lrequests) (Iteration.ofInit lrequests) := by
  refine shows_iff.mpr ⟨?_, tracks_first rfl rfl⟩
  exact (indices_and lrequests fun _ => 0).trans
    ((congrArg _ indices_zero).trans (Finset.inter_empty _))

/-- Every run from `init`, whatever was posted. -/
theorem iterator_follows (lrequests : Words W) (calls : List (IteratorCall W))
    {s : Listrequest W}
    (hrun : StepMachine.run Listrequest.after calls
      (.ofInit lrequests) = some s) :
    Shows (.ofInit lrequests) (Iteration.ofInit lrequests)
    ∧ (Follows calls (.ofInit lrequests) (.ofInit lrequests)
      ↔ StepMachine.Along Listrequest.after IteratorCall.Meets
          calls (.ofInit lrequests)) :=
  ⟨shows_ofInit lrequests, follows_iff (shows_ofInit lrequests) hrun⟩

/-- Requests 3 and 40 are posted. -/
def twoPosted : Words .w64 :=
  Words.valueSet (Words.valueSet Words.valueClear 3) 40

/-- 3 is unset, 40 is taken by its kid. -/
def unsetAndGet : List (IteratorCall .w64) := [.unsetAt 3, .getkidAndnext 40]

theorem iterator_follows_unset :
    Shows (.ofInit twoPosted) (Iteration.ofInit twoPosted)
    ∧ Follows unsetAndGet (.ofInit twoPosted) (.ofInit twoPosted) := by
  obtain ⟨hshows, hiff⟩ :=
    iterator_follows twoPosted unsetAndGet (s := ⟨_, _⟩) rfl
  refine ⟨hshows, hiff.mpr ⟨nofun, fun s₁ h₁ => ?_⟩⟩
  cases h₁
  refine ⟨⟨by decide, nofun⟩, fun s₂ h₂ => trivial⟩

/-- No request is posted: the accessor answers that request 0 is there. -/
theorem empty_bitmap_zero :
    ¬ Follows [.bitmap Words.valueClear] (.ofInit (Words.valueClear : Words .w32))
      (.ofInit (Words.valueClear : Words .w32)) := by
  intro h
  have hanswer := (h _ _ rfl).1
  revert hanswer
  decide

end XKaapi.Mt
