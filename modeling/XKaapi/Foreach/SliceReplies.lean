/-
The slice replies of the splitter of a parallel loop.

`_kaapic_split_task` computes the positions of the slices to hand out
from the requesters, through `tid2pos`, and clears their bits in the
map. The loop that follows takes a cleared bit for the kernel id of a
requester: it sends the slice at the position of that thread to that
thread, and takes its request off the list.

`splitOk_iff` says when this is right: every cleared bit has to be the
kernel id of a thread that asked, and the positions of these threads
have to be the cleared bits again, in any order. With a calling thread
other than 0 the table `tid2pos` is a shift, and neither is the case.

From 129 to 192 processors there is one more condition: a request from
128 on only leaves the list when it is the current one.
-/
import XKaapi.Foreach.Split

namespace XKaapi.Foreach

open Bitmap

variable {w : Nat} {wa : WorkDistribution w} {fuel tid : Nat} {tids : List Nat}
  {s' s : SplitState w} {rem : Int} {mask : BitVec w} {lri : ListrequestIterator w}
  {gwork : GlobalWork w}

-- ======== properties

/-- What the splitter owes to the reserved slices when it comes to split
the local range, or returns. -/
structure SlicesHanded (gwork : GlobalWork w) (lri : ListrequestIterator w)
    (s : SplitState w) : Prop where
  handed : ∀ pos, gwork.wa.map.getLsbD pos = true →
    s.gwork.wa.map.getLsbD pos = false →
    ∃ r ∈ s.replies, r.slice = some pos
      ∧ gwork.wa.slice pos = some (r.first, r.last)
      ∧ s.gwork.lwork r.ident = (gwork.lwork r.ident).workinit r.first r.last
      ∧ lri.Mem r.ident ∧ ¬ s.lri.Mem r.ident
      ∧ ∀ r' ∈ s.replies, r'.slice = some pos → r' = r
  once : (s.replies.map Reply.ident).Nodup
  available : ∀ r ∈ s.replies, ∃ pos, r.slice = some pos
    ∧ gwork.wa.map.getLsbD pos = true ∧ s.gwork.wa.map.getLsbD pos = false
  kept : ∀ pos, s.gwork.wa.map.getLsbD pos = true →
    gwork.wa.map.getLsbD pos = true

/-- The splitter is defined, it owes nothing to the reserved slices when
it comes to the local range, and no slice is touched after this. -/
def SplitOk (vid : Nat) (gwork : GlobalWork w) (lri : ListrequestIterator w) :
    Prop :=
  ∃ go s s', sliceReplies gwork lri = some (go, s)
    ∧ SlicesHanded gwork lri s
    ∧ splitTask vid gwork lri = some s'
    ∧ s'.gwork.wa = s.gwork.wa
    ∧ s'.replies.filter (·.slice.isSome) = s.replies

/-- The slices the splitter clears: those still in the map at the position
of a requester. -/
def Claimed (wa : WorkDistribution w) (lri : ListrequestIterator w)
    (pos : Nat) : Prop :=
  wa.map.getLsbD pos = true ∧ pos ≠ noPos
    ∧ ∃ ident, lri.Mem ident ∧ wa.tid2pos ident = some pos

/-- Taken as kernel ids, the positions cleared are those of requesters,
and their slices are the ones cleared; what the splitter reads was
written. On three words, the requests before one of the third word are
served with it. -/
structure PositionsAgree (wa : WorkDistribution w)
    (lri : ListrequestIterator w) : Prop where
  written : ∀ ident, lri.Mem ident → wa.tid2pos ident ≠ none
  asked : ∀ pos, Claimed wa lri pos → lri.Mem pos
  onto : ∀ pos, Claimed wa lri pos →
    ∃ tid, Claimed wa lri tid ∧ wa.tid2pos tid = some pos
  slices : ∀ pos, Claimed wa lri pos → wa.slice pos ≠ none
  reached : ThreeWords w → ∀ tid, Claimed wa lri tid → 128 ≤ tid →
    ∀ i < tid, lri.Mem i → Claimed wa lri i

-- ======== the request mask

theorem requestMask_spec :
    ∀ {lri : ListrequestIterator w} {mask mask' : BitVec w},
      lri.count = fuel → requestMask wa fuel lri mask = some mask' →
      (∀ ident, lri.Mem ident → wa.tid2pos ident ≠ none)
        ∧ ∀ pos, mask'.getLsbD pos = true ↔ mask.getLsbD pos = true
            ∨ (pos < w ∧ pos ≠ noPos
              ∧ ∃ ident, lri.Mem ident ∧ wa.tid2pos ident = some pos) := by
  induction fuel with
  | zero =>
    intro lri mask mask' hcount h
    have hnone := ListrequestIterator.count_eq_zero_iff.mp hcount
    have hno : ∀ ident, ¬ lri.Mem ident := by
      intro ident hmem
      rcases hmem with hmem | hmem
      · rw [hnone] at hmem
        cases hmem
      · rw [lri.wf hnone, eq_zero_iff.mp rfl] at hmem
        cases hmem
    cases h
    refine ⟨fun ident hmem => absurd hmem (hno ident), fun pos => ?_⟩
    exact ⟨.inl, fun h => h.resolve_right fun hc =>
      hc.2.2.elim fun ident hi => hno ident hi.1⟩
  | succ fuel ih =>
    intro lri mask mask' hcount h
    obtain ⟨ident, hcurr⟩ : ∃ ident, lri.idcurr = some ident := by
      apply Option.ne_none_iff_exists'.mp
      intro hnone
      rw [ListrequestIterator.count_eq_zero_iff.mpr hnone] at hcount
      cases hcount
    have hnext : lri.next.count = fuel := by
      have := ListrequestIterator.count_next hcurr
      omega
    unfold requestMask at h
    rw [hcurr] at h
    obtain ⟨p, hp, h⟩ := Option.bind_eq_some_iff.mp h
    obtain ⟨hwritten, hbits⟩ := ih hnext h
    have hmem : ∀ t, lri.Mem t ↔ ident = t ∨ lri.next.Mem t := by
      intro t
      rw [ListrequestIterator.mem_iff_next, hcurr, Option.some_inj]
    constructor
    · intro t ht
      rcases (hmem t).mp ht with rfl | ht
      · rw [hp]
        exact Option.some_ne_none p
      · exact hwritten t ht
    · intro pos
      rw [hbits pos]
      have hset : (if p = noPos then mask else valueSet mask p).getLsbD pos
          = true ↔ mask.getLsbD pos = true
            ∨ (pos < w ∧ pos ≠ noPos ∧ wa.tid2pos ident = some pos) := by
        rw [hp, Option.some_inj]
        by_cases hno : p = noPos
        · rw [if_pos hno]
          exact ⟨.inl, fun h => h.resolve_right fun hc =>
            hc.2.1 (hc.2.2 ▸ hno)⟩
        · rw [if_neg hno, getLsbD_valueSet, Bool.or_eq_true,
            Bool.and_eq_true, decide_eq_true_eq, decide_eq_true_eq]
          refine or_congr_right ⟨fun h => ?_, fun h => ?_⟩
          · exact ⟨h.2 ▸ h.1, h.2 ▸ hno, h.2⟩
          · exact ⟨h.2.2 ▸ h.1, h.2.2⟩
      rw [hset]
      constructor
      · intro h
        rcases h with (h | ⟨hlt, hne, ht⟩) | ⟨hlt, hne, t, ht, htp⟩
        · exact .inl h
        · exact .inr ⟨hlt, hne, ident, (hmem ident).mpr (.inl rfl), ht⟩
        · exact .inr ⟨hlt, hne, t, (hmem t).mpr (.inr ht), htp⟩
      · intro h
        rcases h with h | ⟨hlt, hne, t, ht, htp⟩
        · exact .inl (.inl h)
        · rcases (hmem t).mp ht with rfl | ht
          · exact .inl (.inr ⟨hlt, hne, htp⟩)
          · exact .inr ⟨hlt, hne, t, ht, htp⟩

theorem exists_requestMask :
    ∀ {lri : ListrequestIterator w} {mask : BitVec w},
      (∀ ident, lri.Mem ident → wa.tid2pos ident ≠ none) →
      ∃ mask', requestMask wa fuel lri mask = some mask' := by
  induction fuel with
  | zero =>
    intro lri mask _
    exact ⟨mask, rfl⟩
  | succ fuel ih =>
    intro lri mask hwritten
    unfold requestMask
    cases hcurr : lri.idcurr with
    | none => exact ⟨mask, rfl⟩
    | some ident =>
      obtain ⟨p, hp⟩ := Option.ne_none_iff_exists'.mp
        (hwritten ident (.inl hcurr))
      show ∃ mask', (wa.tid2pos ident).bind _ = some mask'
      rw [hp, Option.bind_some]
      exact ih fun t ht => hwritten t
        (ListrequestIterator.mem_iff_next.mpr (.inr ht))

-- ======== requests taken off the list

/-- Every request taken off is the current one, or one whose bit
`unset_at` finds. -/
theorem mem_foldl_unsetAt :
    ∀ {lri : ListrequestIterator w}, tids.Pairwise (· < ·) →
      (∀ t ∈ tids, lri.Mem t) →
      (ThreeWords w → ∀ t ∈ tids, 128 ≤ t → ∀ i < t, lri.Mem i → i ∈ tids) →
      ∀ ident, (tids.foldl ListrequestIterator.unsetAt lri).Mem ident ↔
        lri.Mem ident ∧ ident ∉ tids := by
  induction tids with
  | nil =>
    intro lri _ _ _ ident
    simp
  | cons t tids ih =>
    intro lri hsort hmem hreach ident
    obtain ⟨hlt, hsort⟩ := List.pairwise_cons.mp hsort
    have hcurr : ThreeWords w ∧ 128 ≤ t → lri.idcurr = some t := by
      intro hc
      refine ListrequestIterator.idcurr_of_mem
        (hmem t List.mem_cons_self) fun i hi hm => ?_
      rcases List.mem_cons.mp (hreach hc.1 t List.mem_cons_self hc.2 i hi hm)
        with rfl | h
      · exact Nat.lt_irrefl i hi
      · exact Nat.lt_asymm hi (hlt i h)
    have hoff : ∀ i, (lri.unsetAt t).Mem i ↔ lri.Mem i ∧ i ≠ t := by
      intro i
      apply ListrequestIterator.mem_unsetAt
      by_cases hc : ThreeWords w ∧ 128 ≤ t
      · exact .inr (hcurr hc)
      · exact .inl (if_neg hc)
    rw [List.foldl_cons, ih hsort, hoff, List.mem_cons, not_or, and_assoc]
    · intro t' ht'
      exact (hoff t').mpr ⟨hmem t' (List.mem_cons_of_mem _ ht'),
        Nat.ne_of_gt (hlt t' ht')⟩
    · intro hw t' ht' hle i hi hm
      obtain ⟨hm, hne⟩ := (hoff i).mp hm
      exact (List.mem_cons.mp (hreach hw t' (List.mem_cons_of_mem _ ht') hle i
        hi hm)).resolve_left hne

/-- On three words, no request of the third word is taken off by the call
for another one. -/
theorem mem_foldl_unsetAt_of_lt (hw : ThreeWords w) {t : Nat} (ht : 128 ≤ t) :
    ∀ {lri : ListrequestIterator w}, (∀ t' ∈ tids, t < t' ∧ t' < w) →
      lri.Mem t → (tids.foldl ListrequestIterator.unsetAt lri).Mem t := by
  induction tids with
  | nil =>
    intro lri _ hmem
    exact hmem
  | cons t' tids ih =>
    intro lri hlt hmem
    obtain ⟨hlt', hw'⟩ := hlt t' List.mem_cons_self
    have hidx := unsetIndex_lt hw hw'
    refine ih (fun i hi => hlt i (List.mem_cons_of_mem _ hi))
      (ListrequestIterator.mem_unsetAt_iff.mpr ?_)
    exact hmem.imp (fun h => ⟨h, Nat.ne_of_lt hlt'⟩) fun h => ⟨h, by omega⟩

/-- Where all of them are off the list, the requests before one of the
third word were too. -/
theorem reached_of_foldl_unsetAt (hw : ThreeWords w) :
    ∀ {lri : ListrequestIterator w}, tids.Pairwise (· < ·) →
      (∀ t ∈ tids, t < w ∧ lri.Mem t) →
      (∀ t ∈ tids, ¬ (tids.foldl ListrequestIterator.unsetAt lri).Mem t) →
      ∀ t ∈ tids, 128 ≤ t → ∀ i < t, lri.Mem i → i ∈ tids := by
  induction tids with
  | nil =>
    intro lri _ _ _ t ht
    cases ht
  | cons t tids ih =>
    intro lri hsort hmem hoff
    obtain ⟨hlt, hsort⟩ := List.pairwise_cons.mp hsort
    obtain ⟨htw, ht⟩ := hmem t List.mem_cons_self
    have hexact : 128 ≤ t → lri.idcurr = some t := by
      intro hle
      by_contra hcurr
      have hidx := unsetIndex_lt hw htw
      have hstay : (lri.unsetAt t).Mem t :=
        ListrequestIterator.mem_unsetAt_iff.mpr
          (.inr ⟨ht.resolve_left hcurr, by omega⟩)
      have hkeep : (tids.foldl ListrequestIterator.unsetAt
          (lri.unsetAt t)).Mem t :=
        mem_foldl_unsetAt_of_lt hw hle (fun t' ht' =>
          ⟨hlt t' ht', (hmem t' (List.mem_cons_of_mem _ ht')).1⟩) hstay
      exact hoff t List.mem_cons_self hkeep
    have hone : ∀ i, (lri.unsetAt t).Mem i ↔ lri.Mem i ∧ i ≠ t := by
      intro i
      apply ListrequestIterator.mem_unsetAt
      by_cases hle : 128 ≤ t
      · exact .inr (hexact hle)
      · exact .inl (unsetIndex_of_lt fun _ => Nat.lt_of_not_le hle)
    intro t' ht' hle i hi hm
    rcases List.mem_cons.mp ht' with rfl | ht'
    · exact absurd (ListrequestIterator.le_of_mem (hexact hle) hm)
        (Nat.not_le_of_lt hi)
    by_cases hit : i = t
    · exact hit ▸ List.mem_cons_self
    refine List.mem_cons_of_mem _ (ih hsort (fun t'' ht'' => ?_)
      (fun t'' ht'' => hoff t'' (List.mem_cons_of_mem _ ht'')) t' ht' hle i hi
      ((hone i).mpr ⟨hm, hit⟩))
    have h := hmem t'' (List.mem_cons_of_mem _ ht'')
    exact ⟨h.1, (hone t'').mpr ⟨h.2, Nat.ne_of_gt (hlt t'' ht'')⟩⟩

-- ======== the reply loop

/-- The reply that the loop sends to a thread, if any. -/
def sliceReply (workremain : Int) (wa : WorkDistribution w) (tid : Nat) :
    Option Reply :=
  (globalGetwork workremain wa tid).join.map fun r =>
    ⟨tid, some r.1, r.2.1, r.2.2⟩

/-- What the reply loop did, on the bits `tids` of the mask, in order. -/
structure Replied (s s' : SplitState w) (tids : List Nat) : Prop where
  wa : s'.gwork.wa = s.gwork.wa
  workremain : s'.gwork.workremain = s.gwork.workremain
  sorted : tids.Pairwise (· < ·)
  read : ∀ tid ∈ tids, globalGetwork s.gwork.workremain s.gwork.wa tid ≠ none
  replies : s'.replies = s.replies
    ++ tids.filterMap (sliceReply s.gwork.workremain s.gwork.wa)
  lri : s'.lri = (tids.filter fun tid =>
    (sliceReply s.gwork.workremain s.gwork.wa tid).isSome).foldl
      ListrequestIterator.unsetAt s.lri
  lwork : ∀ tid r, tid ∈ tids →
    sliceReply s.gwork.workremain s.gwork.wa tid = some r →
    s'.gwork.lwork tid = (s.gwork.lwork tid).workinit r.first r.last
  frame : ∀ tid, tid ∉ tids → s'.gwork.lwork tid = s.gwork.lwork tid

theorem Replied.nil (s : SplitState w) : Replied s s [] where
  wa := rfl
  workremain := rfl
  sorted := .nil
  read _ h := by cases h
  replies := (List.append_nil _).symm
  lri := rfl
  lwork _ _ h := by cases h
  frame _ _ := rfl

theorem Replied.skip (hget : globalGetwork s.gwork.workremain s.gwork.wa tid = some none)
    (hlt : ∀ t ∈ tids, tid < t) (h : Replied s s' tids) : Replied s s' (tid :: tids) := by
  have hnone : sliceReply s.gwork.workremain s.gwork.wa tid = none := by
    unfold sliceReply
    rw [hget]
    rfl
  refine ⟨h.wa, h.workremain, List.pairwise_cons.mpr ⟨hlt, h.sorted⟩, ?_, ?_,
    ?_, ?_, ?_⟩
  · intro t ht
    rcases List.mem_cons.mp ht with rfl | ht
    · rw [hget]
      exact Option.some_ne_none _
    · exact h.read t ht
  · rw [List.filterMap_cons_none hnone]
    exact h.replies
  · rw [List.filter_cons_of_neg (by rw [hnone]; exact Bool.false_ne_true)]
    exact h.lri
  · intro t r ht hr
    rcases List.mem_cons.mp ht with rfl | ht
    · rw [hnone] at hr
      cases hr
    · exact h.lwork t r ht hr
  · intro t ht
    exact h.frame t fun hmem => ht (List.mem_cons_of_mem _ hmem)

/-- One bit with work before the rest of the loop. -/
theorem Replied.cons {pos : Nat} {first last : Int}
    (hget : globalGetwork s.gwork.workremain s.gwork.wa tid
      = some (some (pos, first, last))) (hlt : ∀ t ∈ tids, tid < t)
    (h : Replied (s.replySlice tid pos first last) s' tids) :
    Replied s s' (tid :: tids) := by
  have hreply : sliceReply s.gwork.workremain s.gwork.wa tid
      = some ⟨tid, some pos, first, last⟩ := by
    unfold sliceReply
    rw [hget]
    rfl
  have hnot : tid ∉ tids := fun hmem => Nat.lt_irrefl tid (hlt tid hmem)
  have hlwork : ∀ t, t ≠ tid →
      (s.replySlice tid pos first last).gwork.lwork t = s.gwork.lwork t :=
    fun t ht => Function.update_of_ne ht ..
  have hself : (s.replySlice tid pos first last).gwork.lwork tid
      = (s.gwork.lwork tid).workinit first last :=
    Function.update_self (β := fun _ => LocalWork) ..
  refine ⟨h.wa, h.workremain, List.pairwise_cons.mpr ⟨hlt, h.sorted⟩, ?_, ?_,
    ?_, ?_, ?_⟩
  · intro t ht
    rcases List.mem_cons.mp ht with rfl | ht
    · rw [hget]
      exact Option.some_ne_none _
    · exact h.read t ht
  · rw [List.filterMap_cons_some hreply, h.replies]
    show (s.replies ++ [_]) ++ _ = _
    rw [List.append_assoc]
    rfl
  · rw [List.filter_cons_of_pos (by rw [hreply]; rfl)]
    exact h.lri
  · intro t r ht hr
    rcases List.mem_cons.mp ht with rfl | ht
    · rw [hreply] at hr
      rw [h.frame t hnot, hself, ← Option.some.inj hr]
    · rw [h.lwork t r ht hr, hlwork t (fun heq => hnot (heq ▸ ht))]
  · intro t ht
    rw [h.frame t fun hmem => ht (List.mem_cons_of_mem _ hmem),
      hlwork t fun heq => ht (heq ▸ List.mem_cons_self)]

/-- The loop goes over the bits of the mask, each once. -/
theorem replyLoop_spec :
    ∀ {replymask : BitVec w} {s s' : SplitState w},
      valueCount replymask = fuel → replyLoop fuel replymask s = some s' →
      ∃ tids, (∀ tid, tid ∈ tids ↔ replymask.getLsbD tid = true)
        ∧ Replied s s' tids := by
  induction fuel with
  | zero =>
    intro replymask s s' hcount h
    cases h
    refine ⟨[], fun tid => ?_, .nil s⟩
    rw [valueCount_eq_zero_iff.mp hcount, eq_zero_iff.mp rfl]
    simp
  | succ fuel ih =>
    intro replymask s s' hcount h
    unfold replyLoop at h
    rcases valueFirst1AndZero_cases replymask with ⟨hz, -⟩ | ⟨tid, htid, he⟩
    · rw [valueCount_eq_zero_iff.mpr hz] at hcount
      cases hcount
    rw [he] at h
    obtain ⟨o, hget, h⟩ := Option.bind_eq_some_iff.mp h
    have hrest : valueCount (clearBit replymask tid) = fuel := by
      have := valueCount_clearBit htid
      omega
    have hbits : ∀ {tids : List Nat},
        (∀ t, t ∈ tids ↔ (clearBit replymask tid).getLsbD t = true) →
        (∀ t ∈ tids, tid < t)
          ∧ ∀ t, t ∈ tid :: tids ↔ replymask.getLsbD t = true := by
      intro tids htids
      constructor
      · intro t ht
        rw [htids t, getLsbD_clearBit, Bool.and_eq_true, decide_eq_true_eq]
          at ht
        exact Nat.lt_of_le_of_ne (le_of_valueFirst1AndZero he ht.1) ht.2
      · intro t
        rw [List.mem_cons, htids t, getLsbD_clearBit, Bool.and_eq_true,
          decide_eq_true_eq]
        by_cases ht : t = tid
        · exact iff_of_true (.inl ht) (ht ▸ htid)
        · simp [ht, Ne.symm ht]
    cases o with
    | none =>
      obtain ⟨tids, htids, hrep⟩ := ih hrest h
      exact ⟨tid :: tids, (hbits htids).2, hrep.skip hget (hbits htids).1⟩
    | some r =>
      obtain ⟨tids, htids, hrep⟩ := ih hrest h
      exact ⟨tid :: tids, (hbits htids).2, hrep.cons hget (hbits htids).1⟩

theorem exists_replyLoop :
    ∀ {replymask : BitVec w} {s : SplitState w},
      (∀ tid, replymask.getLsbD tid = true →
        globalGetwork s.gwork.workremain s.gwork.wa tid ≠ none) →
      ∃ s', replyLoop fuel replymask s = some s' := by
  induction fuel with
  | zero =>
    intro replymask s _
    exact ⟨s, rfl⟩
  | succ fuel ih =>
    intro replymask s hread
    unfold replyLoop
    rcases valueFirst1AndZero_cases replymask with ⟨-, he⟩ | ⟨tid, htid, he⟩
    · rw [he]
      exact ⟨s, rfl⟩
    rw [he]
    obtain ⟨o, ho⟩ := Option.ne_none_iff_exists'.mp (hread tid htid)
    have hrest : ∀ t, (clearBit replymask tid).getLsbD t = true →
        globalGetwork s.gwork.workremain s.gwork.wa t ≠ none := by
      intro t ht
      rw [getLsbD_clearBit, Bool.and_eq_true] at ht
      exact hread t ht.1
    show ∃ s', (globalGetwork s.gwork.workremain s.gwork.wa tid).bind _
      = some s'
    rw [ho, Option.bind_some]
    cases o with
    | none => exact ih hrest
    | some r => exact ih hrest

-- ======== the slice replies

theorem permutes_of_onto {S : Finset Nat} {f : Nat → Option Nat}
    (h : ∀ p ∈ S, ∃ q ∈ S, f q = some p) :
    (∀ q ∈ S, ∃ p ∈ S, f q = some p) ∧ Set.InjOn f S := by
  have hsub : S.image some ⊆ S.image f := by
    intro o ho
    obtain ⟨p, hp, rfl⟩ := Finset.mem_image.mp ho
    obtain ⟨q, hq, hqp⟩ := h p hp
    exact Finset.mem_image.mpr ⟨q, hq, hqp⟩
  have hcard : (S.image some).card = S.card :=
    Finset.card_image_of_injective S (Option.some_injective Nat)
  have heq : S.image some = S.image f :=
    Finset.eq_of_subset_of_card_le hsub (hcard ▸ Finset.card_image_le)
  constructor
  · intro q hq
    have hmem := Finset.mem_image_of_mem f hq
    rw [← heq] at hmem
    obtain ⟨p, hp, hpq⟩ := Finset.mem_image.mp hmem
    exact ⟨p, hp, hpq.symm⟩
  · rw [← Finset.card_image_iff, ← heq, hcard]

theorem globalGetwork_eq_some_iff (hrem : rem ≠ 0) {pos : Nat} {r : Int × Int} :
    globalGetwork rem wa tid = some (some (pos, r)) ↔
      wa.tid2pos tid = some pos ∧ pos ≠ noPos ∧ wa.slice pos = some r := by
  unfold globalGetwork
  rw [if_neg hrem]
  cases wa.tid2pos tid with
  | none => exact iff_of_false nofun fun h => by cases h.1
  | some p =>
    rw [Option.bind_some, Option.some_inj]
    by_cases hno : p = noPos
    · rw [if_pos hno]
      exact iff_of_false nofun fun h => h.2.1 (h.1 ▸ hno)
    · rw [if_neg hno, Option.map_eq_some_iff]
      constructor
      · intro ⟨r', hr', heq⟩
        obtain ⟨rfl, rfl⟩ := Prod.mk.inj (Option.some.inj heq)
        exact ⟨rfl, hno, hr'⟩
      · intro h
        exact ⟨r, h.1 ▸ h.2.2, h.1 ▸ rfl⟩

theorem sliceReply_eq_some_iff (hrem : rem ≠ 0) {r : Reply} :
    sliceReply rem wa tid = some r ↔
      r.ident = tid ∧ ∃ pos, wa.tid2pos tid = some pos ∧ pos ≠ noPos
        ∧ r.slice = some pos ∧ wa.slice pos = some (r.first, r.last) := by
  unfold sliceReply
  rw [Option.map_eq_some_iff]
  constructor
  · intro ⟨⟨pos, i, j⟩, hget, hr⟩
    obtain ⟨htid, hpos, hslice⟩ := (globalGetwork_eq_some_iff hrem).mp
      (Option.join_eq_some_iff.mp hget)
    rw [← hr]
    exact ⟨rfl, pos, htid, hpos, rfl, hslice⟩
  · intro ⟨hident, pos, htid, hpos, hslice, hr⟩
    refine ⟨(pos, r.first, r.last), Option.join_eq_some_iff.mpr
      ((globalGetwork_eq_some_iff hrem).mpr ⟨htid, hpos, hr⟩), ?_⟩
    rw [← hident, ← hslice]

theorem claimed_iff
    (hmask : ∀ pos, mask.getLsbD pos = true ↔
      (0 : BitVec w).getLsbD pos = true ∨ (pos < w ∧ pos ≠ noPos
        ∧ ∃ ident, lri.Mem ident ∧ wa.tid2pos ident = some pos)) (pos : Nat) :
    Claimed wa lri pos ↔ (wa.map &&& mask).getLsbD pos = true := by
  rw [BitVec.getLsbD_and, Bool.and_eq_true, hmask pos, eq_zero_iff.mp rfl]
  constructor
  · intro h
    exact ⟨h.1, .inr ⟨lt_of_getLsbD h.1, h.2⟩⟩
  · intro h
    exact ⟨h.1, (h.2.resolve_left Bool.false_ne_true).2⟩

theorem cleared_iff {map : BitVec w} (pos : Nat) :
    map.getLsbD pos = true ∧ (map &&& ~~~ mask).getLsbD pos = false ↔
      (map &&& mask).getLsbD pos = true := by
  rw [BitVec.getLsbD_and, BitVec.getLsbD_and, BitVec.getLsbD_not]
  by_cases hlt : pos < w
  · cases map.getLsbD pos <;> cases mask.getLsbD pos <;> simp [hlt]
  · rw [BitVec.getLsbD_of_ge map pos (Nat.le_of_not_lt hlt)]
    simp

/-- The three ways through the first half of the splitter. -/
theorem sliceReplies_eq_some_iff (hrem : gwork.workremain ≠ 0) (hbody : gwork.body = true)
    {go : Bool} :
    sliceReplies gwork lri = some (go, s) ↔
      ∃ mask, requestMask gwork.wa lri.count lri 0 = some mask
        ∧ ((mask &&& gwork.wa.map = 0 ∧ go = true ∧ s = ⟨gwork, lri, []⟩)
          ∨ (mask &&& gwork.wa.map ≠ 0 ∧ go = !s.lri.isEmpty
            ∧ replyLoop (valueCount (gwork.wa.map &&& mask))
              (gwork.wa.map &&& mask)
              ⟨{ gwork with
                wa := { gwork.wa with map := gwork.wa.map &&& ~~~ mask } },
                lri, []⟩ = some s)) := by
  unfold sliceReplies
  simp only
  rw [if_neg hrem, if_neg (by rw [hbody]; decide), Option.bind_eq_some_iff]
  refine exists_congr fun mask => and_congr_right fun _ => ?_
  by_cases hz : mask &&& gwork.wa.map = 0
  · rw [if_pos hz, Option.some_inj, Prod.mk.injEq]
    constructor
    · intro h
      exact .inl ⟨hz, h.1.symm, h.2.symm⟩
    · intro h
      rcases h with h | h
      · exact ⟨h.2.1.symm, h.2.2.symm⟩
      · exact absurd hz h.1
  · rw [if_neg hz]
    show (replyLoop _ _ _).map _ = _ ↔ _
    rw [Option.map_eq_some_iff]
    constructor
    · intro ⟨s', hs', heq⟩
      obtain ⟨hgo, rfl⟩ := Prod.mk.inj heq
      exact .inr ⟨hz, hgo.symm, hs'⟩
    · intro h
      rcases h with h | h
      · exact absurd h.1 hz
      · exact ⟨s, h.2.2, by rw [h.2.1]⟩

/-- The second half takes nothing from the map and sends no slice. -/
theorem splitLocal_frame (vid : Nat) (s : SplitState w) :
    (splitLocal vid s).gwork.wa = s.gwork.wa
      ∧ ∃ l : List Reply, (splitLocal vid s).replies = s.replies ++ l
        ∧ ∀ r ∈ l, r.slice = none := by
  have hloop : ∀ (unitSize : Int) (nreq : Nat) (last : Int) (s : SplitState w),
      (splitLoop unitSize nreq last s).gwork.wa = s.gwork.wa
        ∧ ∃ l : List Reply,
          (splitLoop unitSize nreq last s).replies = s.replies ++ l
            ∧ ∀ r ∈ l, r.slice = none := by
    intro unitSize nreq
    induction nreq with
    | zero =>
      intro last s
      exact ⟨rfl, [], (List.append_nil _).symm, fun r hr => by cases hr⟩
    | succ nreq ih =>
      intro last s
      unfold splitLoop
      split
      · exact ⟨rfl, [], (List.append_nil _).symm, fun r hr => by cases hr⟩
      next ident _ =>
        obtain ⟨hwa, l, hl, hnone⟩ := ih (last - unitSize)
          { s.reply ident none (last - unitSize) last with
            lri := (s.reply ident none (last - unitSize) last).lri.next }
        refine ⟨hwa, ⟨ident, none, last - unitSize, last⟩ :: l, ?_, ?_⟩
        · rw [hl]
          show (s.replies ++ [_]) ++ l = _
          rw [List.append_assoc]
          rfl
        · intro r hr
          rcases List.mem_cons.mp hr with rfl | hr
          · rfl
          · exact hnone r hr
  have hskip : s.gwork.wa = s.gwork.wa ∧ ∃ l : List Reply,
      s.replies = s.replies ++ l ∧ ∀ r ∈ l, r.slice = none :=
    ⟨rfl, [], (List.append_nil _).symm, fun r hr => by cases hr⟩
  unfold splitLocal
  simp only
  split
  · exact hskip
  split
  · exact hskip
  · exact hloop _ _ _ _

theorem SlicesHanded.refl (gwork : GlobalWork w) (lri : ListrequestIterator w) :
    SlicesHanded gwork lri ⟨gwork, lri, []⟩ where
  handed pos hset hclear := by
    rw [hset] at hclear
    cases hclear
  once := List.nodup_nil
  available r hr := by cases hr
  kept _ h := h

theorem SlicesHanded.splitOk {vid : Nat} {go : Bool} (h : SlicesHanded gwork lri s)
    (hs : sliceReplies gwork lri = some (go, s)) : SplitOk vid gwork lri := by
  have hall : ∀ r ∈ s.replies, r.slice.isSome = true := by
    intro r hr
    obtain ⟨pos, hpos, -⟩ := h.available r hr
    rw [hpos]
    rfl
  have hfilter : s.replies.filter (·.slice.isSome) = s.replies :=
    List.filter_eq_self.mpr hall
  refine ⟨go, s, if go then splitLocal vid s else s, hs, h, ?_, ?_⟩
  · unfold splitTask
    rw [hs]
    rfl
  cases go with
  | false => exact ⟨rfl, hfilter⟩
  | true =>
    obtain ⟨hwa, l, hl, hnone⟩ := splitLocal_frame vid s
    refine ⟨hwa, ?_⟩
    show (splitLocal vid s).replies.filter _ = _
    have hrest : l.filter (·.slice.isSome) = [] := by
      rw [List.filter_eq_nil_iff]
      intro r hr
      rw [hnone r hr]
      exact Bool.false_ne_true
    rw [hl, List.filter_append, hfilter, hrest, List.append_nil]

theorem claimed_permutes
    (honto : ∀ pos, Claimed wa lri pos →
      ∃ tid, Claimed wa lri tid ∧ wa.tid2pos tid = some pos) :
    (∀ tid, Claimed wa lri tid →
        ∃ pos, Claimed wa lri pos ∧ wa.tid2pos tid = some pos)
      ∧ ∀ tid tid', Claimed wa lri tid → Claimed wa lri tid' →
        wa.tid2pos tid = wa.tid2pos tid' → tid = tid' := by
  classical
  have hmem : ∀ tid, tid ∈ (bits wa.map).filter (Claimed wa lri) ↔
      Claimed wa lri tid := by
    intro tid
    rw [Finset.mem_filter, mem_bits]
    exact ⟨fun h => h.2, fun h => ⟨h.1, h⟩⟩
  obtain ⟨hmaps, hinj⟩ := permutes_of_onto
    (S := (bits wa.map).filter (Claimed wa lri)) (f := wa.tid2pos)
    fun p hp => by
      obtain ⟨q, hq, hqp⟩ := honto p ((hmem p).mp hp)
      exact ⟨q, (hmem q).mpr hq, hqp⟩
  constructor
  · intro tid htid
    obtain ⟨p, hp, hpt⟩ := hmaps tid ((hmem tid).mpr htid)
    exact ⟨p, (hmem p).mp hp, hpt⟩
  · intro tid tid' htid htid' heq
    exact hinj ((hmem tid).mpr htid) ((hmem tid').mpr htid') heq

/-- Every position claimed, taken as a kernel id, has a slice. -/
theorem forall_isSome_sliceReply (hrem : rem ≠ 0)
    (hmaps : ∀ tid, Claimed wa lri tid →
      ∃ pos, Claimed wa lri pos ∧ wa.tid2pos tid = some pos)
    (hslices : ∀ pos, Claimed wa lri pos → wa.slice pos ≠ none)
    (htids : ∀ t ∈ tids, Claimed wa lri t) :
    ∀ t ∈ tids, (sliceReply rem wa t).isSome = true := by
  intro t ht
  obtain ⟨pos, hpos, htp⟩ := hmaps t (htids t ht)
  obtain ⟨r, hr⟩ := Option.ne_none_iff_exists'.mp (hslices pos hpos)
  rw [(sliceReply_eq_some_iff (r := ⟨t, some pos, r.1, r.2⟩) hrem).mpr
    ⟨rfl, pos, htp, hpos.2.1, rfl, hr⟩]
  rfl

theorem Replied.lri_of_forall (h : Replied s s' tids)
    (hserved : ∀ t ∈ tids, (sliceReply s.gwork.workremain s.gwork.wa t).isSome = true) :
    s'.lri = tids.foldl ListrequestIterator.unsetAt s.lri := by
  rw [h.lri, List.filter_eq_self.mpr hserved]

/-- When the positions agree with the requesters, each of them receives
one of the slices cleared, and all of these are received. -/
theorem Replied.slicesHanded (hrem : gwork.workremain ≠ 0)
    (hagree : PositionsAgree gwork.wa lri)
    (hbits : ∀ tid, (gwork.wa.map &&& mask).getLsbD tid = true ↔ Claimed gwork.wa lri tid)
    (htids : ∀ tid, tid ∈ tids ↔ Claimed gwork.wa lri tid)
    (h : Replied
      ⟨{ gwork with
        wa := { gwork.wa with map := gwork.wa.map &&& ~~~ mask } }, lri, []⟩
      s tids) : SlicesHanded gwork lri s := by
  obtain ⟨hmaps, hinj⟩ := claimed_permutes hagree.onto
  have hmap : s.gwork.wa.map = gwork.wa.map &&& ~~~ mask := by
    rw [h.wa]
  have hclear : ∀ pos, gwork.wa.map.getLsbD pos = true
      ∧ s.gwork.wa.map.getLsbD pos = false ↔ Claimed gwork.wa lri pos := by
    intro pos
    rw [hmap, cleared_iff, hbits]
  have hreplies : ∀ r, r ∈ s.replies ↔ ∃ tid ∈ tids,
      sliceReply gwork.workremain gwork.wa tid = some r := by
    intro r
    rw [h.replies, List.nil_append, List.mem_filterMap]
    exact Iff.rfl
  have hserved := forall_isSome_sliceReply hrem
    hmaps hagree.slices fun t ht => (htids t).mp ht
  constructor
  · intro pos hset hunset
    have hclaimed := (hclear pos).mp ⟨hset, hunset⟩
    obtain ⟨tid, htid, htp⟩ := hagree.onto pos hclaimed
    obtain ⟨⟨i, j⟩, hslice⟩ :=
      Option.ne_none_iff_exists'.mp (hagree.slices pos hclaimed)
    have hreply : sliceReply gwork.workremain gwork.wa tid
        = some ⟨tid, some pos, i, j⟩ :=
      (sliceReply_eq_some_iff hrem).mpr
        ⟨rfl, pos, htp, hclaimed.2.1, rfl, hslice⟩
    refine ⟨⟨tid, some pos, i, j⟩,
      (hreplies _).mpr ⟨tid, (htids tid).mpr htid, hreply⟩, rfl, hslice,
      h.lwork tid _ ((htids tid).mpr htid) hreply, hagree.asked tid htid,
      ?_, ?_⟩
    · intro hleft
      rw [h.lri_of_forall hserved, mem_foldl_unsetAt h.sorted
        (fun t ht => hagree.asked t ((htids t).mp ht))] at hleft
      · exact hleft.2 ((htids tid).mpr htid)
      · intro hw t ht hle i hi hm
        exact (htids i).mpr
          (hagree.reached hw t ((htids t).mp ht) hle i hi hm)
    · intro r' hr' hslice'
      obtain ⟨tid', htid', hreply'⟩ := (hreplies r').mp hr'
      obtain ⟨hident, pos', htp', -, hpos', -⟩ :=
        (sliceReply_eq_some_iff hrem).mp hreply'
      have heq : tid' = tid := by
        apply hinj tid' tid ((htids tid').mp htid') htid
        rw [htp', htp, ← hpos', hslice']
      rw [heq, hreply] at hreply'
      exact (Option.some.inj hreply').symm
  · have hident : (s.replies.map Reply.ident) = tids.filterMap fun tid =>
        (sliceReply gwork.workremain gwork.wa tid).map Reply.ident := by
      rw [h.replies, List.nil_append, List.map_filterMap]
      rfl
    rw [hident]
    have hnodup : tids.Nodup := h.sorted.imp Nat.ne_of_lt
    refine hnodup.filterMap fun tid tid' b hb hb' => ?_
    obtain ⟨r, hr, hrb⟩ := Option.map_eq_some_iff.mp hb
    obtain ⟨r', hr', hrb'⟩ := Option.map_eq_some_iff.mp hb'
    rw [← ((sliceReply_eq_some_iff hrem).mp hr).1,
      ← ((sliceReply_eq_some_iff hrem).mp hr').1, hrb, hrb']
  · intro r hr
    obtain ⟨tid, htid, hreply⟩ := (hreplies r).mp hr
    obtain ⟨-, pos, htp, -, hpos, -⟩ := (sliceReply_eq_some_iff hrem).mp hreply
    obtain ⟨pos', hclaimed, htp'⟩ := hmaps tid ((htids tid).mp htid)
    rw [htp, Option.some_inj] at htp'
    rw [← htp'] at hclaimed
    exact ⟨pos, hpos, (hclear pos).mpr hclaimed⟩
  · intro pos hset
    rw [hmap, BitVec.getLsbD_and, Bool.and_eq_true] at hset
    exact hset.1

/-- The splitter hands out the reserved slices it clears, each to one
requester, iff the positions it clears agree with the kernel ids of the
requesters, or it does nothing at all. -/
theorem splitOk_iff (vid : Nat) (gwork : GlobalWork w)
    (lri : ListrequestIterator w) :
    SplitOk vid gwork lri ↔
      gwork.workremain = 0 ∨ gwork.body = false
        ∨ PositionsAgree gwork.wa lri := by
  by_cases hrem : gwork.workremain = 0
  · refine iff_of_true ?_ (.inl hrem)
    exact (SlicesHanded.refl gwork lri).splitOk (if_pos hrem)
  by_cases hbody : gwork.body = false
  · refine iff_of_true ?_ (.inr (.inl hbody))
    have hs : sliceReplies gwork lri = some (false, ⟨gwork, lri, []⟩) := by
      unfold sliceReplies
      simp only
      rw [if_neg hrem, if_pos hbody]
    exact (SlicesHanded.refl gwork lri).splitOk hs
  have hbody' : gwork.body = true := by
    rw [← Bool.not_eq_false]
    exact hbody
  rw [or_iff_right hrem, or_iff_right hbody]
  constructor
  · intro ⟨go, s, s', hs, hhanded, _⟩
    obtain ⟨mask, hmask, hcase⟩ :=
      (sliceReplies_eq_some_iff hrem hbody').mp hs
    obtain ⟨hwritten, hbits⟩ := requestMask_spec rfl hmask
    rcases hcase with ⟨hz, -⟩ | ⟨-, -, hloop⟩
    · have hno : ∀ pos, ¬ Claimed gwork.wa lri pos := by
        intro pos hclaimed
        have hset := (claimed_iff hbits pos).mp hclaimed
        rw [BitVec.and_comm, eq_zero_iff.mp hz pos] at hset
        cases hset
      exact ⟨hwritten, fun pos h => absurd h (hno pos),
        fun pos h => absurd h (hno pos), fun pos h => absurd h (hno pos),
        fun _ pos h => absurd h (hno pos)⟩
    obtain ⟨tids, htids, hrep⟩ := replyLoop_spec rfl hloop
    have hclaimed : ∀ tid, tid ∈ tids ↔ Claimed gwork.wa lri tid := by
      intro tid
      rw [htids tid, claimed_iff hbits]
    have hmap : s.gwork.wa.map = gwork.wa.map &&& ~~~ mask := by
      rw [hrep.wa]
    -- each position claimed is handed, by the loop, to a thread it goes over
    have hhand : ∀ pos, Claimed gwork.wa lri pos → ∃ tid,
        Claimed gwork.wa lri tid ∧ gwork.wa.tid2pos tid = some pos
          ∧ lri.Mem tid ∧ ¬ s.lri.Mem tid ∧ gwork.wa.slice pos ≠ none := by
      intro pos hpos
      have hcl := (cleared_iff pos).mpr ((claimed_iff hbits pos).mp hpos)
      rw [← hmap] at hcl
      obtain ⟨r, hr, hslice, hrange, -, hmem, hoff, -⟩ :=
        hhanded.handed pos hcl.1 hcl.2
      rw [hrep.replies, List.nil_append, List.mem_filterMap] at hr
      obtain ⟨tid, htid, hreply⟩ := hr
      obtain ⟨hident, pos', htp, -, hpos', -⟩ :=
        (sliceReply_eq_some_iff hrem).mp hreply
      refine ⟨tid, (hclaimed tid).mp htid, ?_, hident ▸ hmem, hident ▸ hoff,
        ?_⟩
      · rw [← hslice, hpos']
        exact htp
      · rw [hrange]
        exact Option.some_ne_none _
    have honto : ∀ pos, Claimed gwork.wa lri pos → ∃ tid,
        Claimed gwork.wa lri tid ∧ gwork.wa.tid2pos tid = some pos := by
      intro pos hpos
      obtain ⟨tid, htid, htp, -⟩ := hhand pos hpos
      exact ⟨tid, htid, htp⟩
    obtain ⟨hmaps, hinj⟩ := claimed_permutes honto
    have hslices : ∀ pos, Claimed gwork.wa lri pos →
        gwork.wa.slice pos ≠ none := by
      intro pos hpos
      obtain ⟨-, -, -, -, -, hslice⟩ := hhand pos hpos
      exact hslice
    have hasked : ∀ tid, Claimed gwork.wa lri tid →
        lri.Mem tid ∧ ¬ s.lri.Mem tid := by
      intro tid htid
      obtain ⟨pos, hpos, htp⟩ := hmaps tid htid
      obtain ⟨tid', htid', htp', hmem, hoff, -⟩ := hhand pos hpos
      rw [hinj tid tid' htid htid' (htp.trans htp'.symm)]
      exact ⟨hmem, hoff⟩
    refine ⟨hwritten, fun tid htid => (hasked tid htid).1, honto, hslices, ?_⟩
    intro hw tid htid hle i hi hm
    have hserved := forall_isSome_sliceReply hrem
      hmaps hslices fun t ht => (hclaimed t).mp ht
    have hlri := hrep.lri_of_forall hserved
    refine (hclaimed i).mp (reached_of_foldl_unsetAt hw hrep.sorted
      (fun t ht => ?_) (fun t ht => ?_) tid ((hclaimed tid).mpr htid) hle i hi
      hm)
    · have hc := (hclaimed t).mp ht
      exact ⟨lt_of_getLsbD hc.1, (hasked t hc).1⟩
    · have hoff := (hasked t ((hclaimed t).mp ht)).2
      rwa [hlri] at hoff
  · intro hagree
    obtain ⟨mask, hmask⟩ : ∃ mask,
        requestMask gwork.wa lri.count lri 0 = some mask :=
      exists_requestMask hagree.written
    obtain ⟨-, hbits⟩ := requestMask_spec rfl hmask
    by_cases hz : mask &&& gwork.wa.map = 0
    · exact (SlicesHanded.refl gwork lri).splitOk
        ((sliceReplies_eq_some_iff hrem hbody').mpr
          ⟨mask, hmask, .inl ⟨hz, rfl, rfl⟩⟩)
    obtain ⟨hmaps, -⟩ := claimed_permutes hagree.onto
    have hread : ∀ tid, (gwork.wa.map &&& mask).getLsbD tid = true →
        globalGetwork gwork.workremain gwork.wa tid ≠ none := by
      intro tid htid
      obtain ⟨pos, hpos, htp⟩ := hmaps tid ((claimed_iff hbits tid).mpr htid)
      obtain ⟨r, hr⟩ := Option.ne_none_iff_exists'.mp (hagree.slices pos hpos)
      rw [(globalGetwork_eq_some_iff hrem).mpr ⟨htp, hpos.2.1, hr⟩]
      exact Option.some_ne_none _
    obtain ⟨s, hloop⟩ : ∃ s, replyLoop (valueCount (gwork.wa.map &&& mask))
        (gwork.wa.map &&& mask)
        ⟨{ gwork with
          wa := { gwork.wa with map := gwork.wa.map &&& ~~~ mask } },
          lri, []⟩ = some s :=
      exists_replyLoop hread
    obtain ⟨tids, htids, hrep⟩ := replyLoop_spec rfl hloop
    refine (hrep.slicesHanded hrem hagree
      (fun tid => (claimed_iff hbits tid).symm) fun tid => ?_).splitOk
      ((sliceReplies_eq_some_iff hrem hbody').mpr
        ⟨mask, hmask, .inr ⟨hz, rfl, hloop⟩⟩)
    rw [htids tid, claimed_iff hbits]

/-- Thread 1 of 2 starts a loop and takes its slice; thread 0 asks. The
position 1 of thread 0 is taken for the kernel id 1: the slice 0 is sent
to thread 1 again, and the slice 1 to nobody. -/
theorem not_splitOk_secondThread :
    ∃ wa r, ((foreachInitwa 1 (0b11 : BitVec 64) 2 2 0 10).bind fun wa =>
        globalWorkPop wa 10 1) = some (wa, some r)
      ∧ ¬ SplitOk 1 ⟨10, 0, wa, fun _ => ⟨0, 0, false, 0⟩, true, 1, 1⟩
        (.ofBitmap 0b1) := by
  refine ⟨_, _, rfl, fun ⟨go, s, s', hs, hhanded, _⟩ => ?_⟩
  have heval : ∀ {g : GlobalWork 64} {l : ListrequestIterator 64},
      sliceReplies g l = some (go, s) →
      (sliceReplies g l).map (fun p => (p.2.gwork.wa.map.getLsbD 1,
        p.2.replies.map Reply.slice)) = some (false, [some 0]) →
      s.gwork.wa.map.getLsbD 1 = false
        ∧ s.replies.map Reply.slice = [some 0] := by
    intro g l h he
    rw [h, Option.map_some, Option.some_inj, Prod.mk.injEq] at he
    exact he
  obtain ⟨hclear, hreplies⟩ := heval hs (by decide +kernel)
  obtain ⟨r, hr, hslice, -⟩ := hhanded.handed 1 (by decide +kernel) hclear
  have hmem := List.mem_map_of_mem (f := Reply.slice) hr
  rw [hreplies, hslice] at hmem
  exact absurd hmem (by decide)

end XKaapi.Foreach
