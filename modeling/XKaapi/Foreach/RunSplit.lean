/-
The accesses of the splitters of a parallel loop keep its invariant.

A splitter moves bits of the map to its `replymask`, and slices from
there to the queues of the requesters; it cuts ranges from the queue of
its victim. The requesters wait meanwhile (`Inv.reply`), and the
capture and the release of a list of requests change where its threads
stand, and nothing else (`Inv.requests`).
-/
import XKaapi.Foreach.SliceReplies
import XKaapi.Foreach.RunThread

namespace XKaapi.Foreach

open Bitmap Tally

variable {w : Nat} {c : Config w} {k : Nat} {s : St w} {vid : Nat} {sp : SplitPc w}
  {s' : St w}

-- ======== primitives

theorem Inv.moveSplit (h : Inv c k s) (hvid : vid < w)
    (hheld : ∀ x, sp.held s.wa x = (s.split vid).held s.wa x)
    (hok : sp.Ok k fun t => (s.thread t).pc = .waiting vid) :
    Inv c k (s.setSplit vid sp) := by
  have hk : Keeps c k s vid vid (s.thread vid) sp s.wa.map s.workremain
      s.accounted s.executed :=
    { mapLow := fun _ hp => hp
      total := fun x => by rw [hheld x]
      exec := fun _ => rfl
      counted := rfl
      nonempty := h.nonempty
      zero := id
      thread := h.threads vid
      waiting := fun _ hu => hu
      other := fun _ _ hu => hu
      split := by
        rw [Function.update_eq_self]
        exact hok }
  have hs := h.update hvid hvid hk s.workerdone
  unfold St.become at hs
  rwa [Function.update_eq_self] at hs

/-- The positions of the threads whose requests are captured or
released. -/
structure Requests (c : Config w) (s : St w) (vid : Nat) (pc : Nat → Pc) :
    Prop where
  cases : ∀ t, pc t = (s.thread t).pc
    ∨ ((s.thread t).pc = .idle ∧ t < c.concurrency ∧ pc t = .waiting vid)
    ∨ ((s.thread t).pc = .waiting vid ∧ pc t = .idle)

theorem Inv.requests (h : Inv c k s) {pc : Nat → Pc} (hpc : Requests c s vid pc)
    (hvid : vid < w) (hheld : ∀ x, sp.held s.wa x = (s.split vid).held s.wa x)
    (hok : sp.Ok k fun t => pc t = .waiting vid) :
    Inv c k { s with
      split := Function.update s.split vid sp
      thread := fun t => { s.thread t with pc := pc t } } := by
  have hplain : ∀ t x, (pc t).held s.wa x = (s.thread t).pc.held s.wa x
      ∧ (pc t).hand x = (s.thread t).pc.hand x := by
    intro t x
    rcases hpc.cases t with heq | ⟨hidle, -, heq⟩ | ⟨hwait, heq⟩
    · rw [heq]
      exact ⟨rfl, rfl⟩
    · rw [heq, hidle]
      exact ⟨rfl, rfl⟩
    · rw [heq, hwait]
      exact ⟨rfl, rfl⟩
  refine
    { identity := h.identity
      mapLow := h.mapLow
      total := fun x => ?_
      exec := fun x => ?_
      counted := h.counted
      nonempty := h.nonempty
      threads := fun t => ?_
      small := fun t ht => ?_
      waiting := fun t v ht => ?_
      splits := fun v => ?_
      splitSmall := fun v hv => ?_ }
  · have hsum := sum_update hvid (fun sp => sp.held s.wa x) s.split sp
    have hsp := hheld x
    have htotal := h.total x
    have hplace : ∀ t, Thread.place s.wa { s.thread t with pc := pc t } x
        = (s.thread t).place s.wa x := by
      intro t
      unfold Thread.place
      rw [(hplain t x).1]
    unfold St.places St.popped at htotal ⊢
    simp only [hplace]
    omega
  · have hexec := h.exec x
    unfold St.hands at hexec ⊢
    simp only [(hplain _ x).2]
    exact hexec
  · have hth := h.threads t
    refine ⟨hth.ordered, hth.workdone, hth.nonempty, ?_⟩
    have hokt := hth.pcOk
    unfold Thread.PcOk at hokt ⊢
    rcases hpc.cases t with heq | ⟨hidle, -, heq⟩ | ⟨hwait, heq⟩
    · simp only [heq]
      exact hokt
    · rw [hidle] at hokt
      simp only [heq]
      exact hokt
    · rw [hwait] at hokt
      simp only [heq]
      exact hokt
  · rcases hpc.cases t with heq | ⟨-, hlt, -⟩ | ⟨hwait, -⟩
    · exact h.small t (heq ▸ ht)
    · exact hlt.trans_le h.identity.concurrency
    · exact h.small t (hwait ▸ nofun)
  · rcases hpc.cases t with heq | ⟨-, hlt, -⟩ | ⟨-, heq⟩
    · exact h.waiting t v (heq ▸ ht)
    · exact hlt
    · exact absurd (heq.symm.trans ht) nofun
  · show (Function.update s.split vid sp v).Ok k fun t => pc t = .waiting v
    by_cases hv : v = vid
    · rw [hv, Function.update_self]
      exact hok
    · rw [Function.update_of_ne hv]
      refine (h.splits v).mono fun t ht => ?_
      rcases hpc.cases t with heq | ⟨hidle, -, -⟩ | ⟨hwait, -⟩
      · exact heq.trans ht
      · exact absurd (hidle.symm.trans ht) nofun
      · exact absurd (Pc.waiting.inj (ht.symm.trans hwait)) hv
  · by_cases hvv : v = vid
    · exact hvv ▸ hvid
    · have hv' : Function.update s.split vid sp v ≠ .free := hv
      rw [Function.update_of_ne hvv] at hv'
      exact h.splitSmall v hv'

theorem Inv.finish (h : Inv c k s) (hvid : vid < w)
    (hheld : ∀ x, (s.split vid).held s.wa x = 0) : Inv c k (s.finish vid) := by
  have hfinish : s.finish vid = { s with
      split := Function.update s.split vid .free
      thread := fun t => { s.thread t with
        pc := if (s.thread t).pc = .waiting vid then .idle
          else (s.thread t).pc } } := by
    unfold St.finish
    congr
    funext t
    split
    · rfl
    · rfl
  rw [hfinish]
  refine h.requests ⟨fun t => ?_⟩ hvid (fun x => (hheld x).symm) trivial
  by_cases hwait : (s.thread t).pc = .waiting vid
  · exact .inr (.inr ⟨hwait, if_pos hwait⟩)
  · exact .inl (if_neg hwait)

/-- A requester is replied with a nonempty range. -/
theorem Inv.reply (h : Inv c k s) (hvid : vid < w) {ident : Nat} {first last : Int}
    (hlt : first < last) (hwait : (s.thread ident).pc = .waiting vid)
    (hheld : ∀ x, sp.held s.wa x + ind (first, last) x = (s.split vid).held s.wa x)
    (hok : sp.Ok k fun t => (s.thread t).pc = .waiting vid ∧ t ≠ ident) (done : Int) :
    Inv c k { (s.replyTo ident first last).setSplit vid sp with
      workerdone := done } := by
  have hident := h.small ident (hwait ▸ nofun)
  have hth := h.threads ident
  have hpcOk := hth.pcOk
  unfold Thread.PcOk at hpcOk
  rw [hwait] at hpcOk
  obtain ⟨hempty, hbatch⟩ := hpcOk
  have hreply : s.replyTo ident first last = s.setThread ident
      { s.thread ident with
        pc := .worknext
        lwork := (s.thread ident).lwork.workinit first last } := by
    unfold St.replyTo
    simp only
    rw [hwait]
  rw [hreply]
  have hk : Keeps c k s ident vid { s.thread ident with
      pc := .worknext
      lwork := (s.thread ident).lwork.workinit first last } sp s.wa.map
      s.workremain s.accounted s.executed :=
    { mapLow := fun _ hp => hp
      total := fun x => by
        have hx := hheld x
        show _ + (0 + ind (first, last) x) + _ + _
          + tally (s.thread ident).batch x = _
        unfold Thread.place
        rw [hwait, ind_of_le (r := ((s.thread ident).lwork.crBeg,
          (s.thread ident).lwork.crEnd)) hempty.le]
        show _ = _ + (0 + 0) + _ + _ + _
        omega
      exec := fun x => by
        show _ + 0 + _ + _ = _
        rw [hwait]
        rfl
      counted := rfl
      nonempty := h.nonempty
      zero := id
      thread := ⟨hlt.le, hth.workdone, hth.nonempty, trivial⟩
      waiting := nofun
      other := fun u hu hw => absurd (Pc.waiting.inj (hw.symm.trans hwait)) hu
      split := by
        refine hok.mono fun t ht => ?_
        rw [Function.update_of_ne ht.2]
        exact ht.1 }
  exact h.update hident hvid hk done

-- ======== accesses

theorem beginSplit_inv {requests : BitVec w} (h : Inv c k s)
    (hstep : beginSplit c vid requests s = some s') : Inv c k s' := by
  unfold beginSplit at hstep
  cases hsp : s.split vid <;> rw [hsp] at hstep <;> simp only at hstep
  case free =>
    split at hstep
    next hcond =>
      obtain ⟨hbusy, hidle⟩ := hcond
      cases hstep
      have hvid := h.small vid hbusy
      have hbegin : (fun t => if requests.getLsbD t then
            { s.thread t with pc := Pc.waiting vid } else s.thread t)
          = fun t => { s.thread t with
            pc := if requests.getLsbD t then .waiting vid
              else (s.thread t).pc } := by
        funext t
        split
        · rfl
        · rfl
      rw [hbegin]
      refine h.requests ⟨fun t => ?_⟩ hvid (fun x => ?_) fun t ht => ?_
      · by_cases hbit : requests.getLsbD t = true
        · obtain ⟨hlt, hpc⟩ := hidle t (lt_of_getLsbD hbit) hbit
          exact .inr (.inl ⟨hpc, hlt, if_pos hbit⟩)
        · exact .inl (if_neg hbit)
      · rw [hsp]
        rfl
      · exact if_pos (ListrequestIterator.mem_ofBitmap.mp ht)
    next hcond => cases hstep
  all_goals cases hstep

theorem Inv.workremain_ne_split (h : Inv c k s) (hvid : vid < w) {x : Int}
    (hx : 0 < (s.split vid).held s.wa x) : s.workremain ≠ 0 := by
  intro hzero
  have hz := (h.places_of_zero hzero x).1
  have hle : (s.split vid).held s.wa x
      ≤ ∑ u ∈ Finset.range w, (s.split u).held s.wa x :=
    le_sum hvid fun u => (s.split u).held s.wa x
  unfold St.places at hz
  omega

theorem splitSize_bounds {lwork : LocalWork} {parGrain nreq unitSize : Int}
    {count : Nat} (hpos : 0 < parGrain)
    (h : splitSize lwork parGrain count = some (nreq, unitSize)) :
    0 ≤ nreq ∧ nreq ≤ count ∧ 0 < unitSize := by
  unfold splitSize at h
  simp only at h
  split at h
  next => cases h
  split at h
  next => cases h
  next hsize =>
    have hdiv : 1 ≤ lwork.size / parGrain :=
      Int.le_ediv_of_mul_le hpos (by omega)
    split at h
    next hunit =>
      split at h
      next => cases h
      next =>
        obtain ⟨rfl, rfl⟩ := Prod.mk.inj (Option.some.inj h)
        have hlt : lwork.size < parGrain * (count + 1) :=
          Int.lt_mul_of_ediv_lt (by omega) hunit
        have hlt' : lwork.size / parGrain < count + 1 :=
          Int.ediv_lt_of_lt_mul hpos (by rwa [Int.mul_comm] at hlt)
        omega
    next hunit =>
      obtain ⟨rfl, rfl⟩ := Prod.mk.inj (Option.some.inj h)
      omega

theorem Inv.requestMask (h : Inv c k s) {lri : ListrequestIterator w}
    (hwait : ∀ t, lri.Mem t → (s.thread t).pc = .waiting vid) :
    ∃ mask, requestMask s.wa lri.count lri 0 = some mask
      ∧ ∀ p, mask.getLsbD p = true → lri.Mem p := by
  have hid := h.identity
  have hsome : ∃ mask, Foreach.requestMask s.wa lri.count lri 0 = some mask :=
    exists_requestMask fun ident hmem => by
      rw [hid.tid2pos ident (h.waiting ident vid (hwait ident hmem))]
      exact Option.some_ne_none _
  obtain ⟨mask, hmask⟩ := hsome
  refine ⟨mask, hmask, fun p hp => ?_⟩
  obtain ⟨-, hno, ident, hmem, hpos⟩ :=
    (((requestMask_spec rfl hmask).2 p).mp hp).resolve_left
      (by rw [eq_zero_iff.mp rfl]; exact Bool.false_ne_true)
  rw [hid.tid2pos ident (h.waiting ident vid (hwait ident hmem))] at hpos
  by_cases hlt : ident < k
  · rw [if_pos hlt] at hpos
    exact Option.some.inj hpos ▸ hmem
  · rw [if_neg hlt] at hpos
    exact absurd (Option.some.inj hpos).symm hno

theorem splitStep_inv (h : Inv c k s) (hstep : splitStep c vid s = some s') :
    Inv c k s' := by
  have hok := h.splits vid
  have hid := h.identity
  unfold splitStep at hstep
  cases hsp : s.split vid <;> rw [hsp] at hstep hok <;> simp only at hstep
  case free => cases hstep
  case undefined => cases hstep
  all_goals
    have hvid : vid < w := h.splitSmall vid fun hc => by
      rw [hsp] at hc
      cases hc
  case check lri =>
    by_cases hzero : s.workremain = 0
    · rw [if_pos hzero] at hstep
      cases hstep
      exact h.finish hvid fun x => by rw [hsp]; rfl
    · rw [if_neg hzero] at hstep
      cases hstep
      exact h.moveSplit hvid (fun x => by rw [hsp]; rfl) hok
  case scan lri =>
    obtain ⟨mask, hmask, hmem⟩ := h.requestMask hok
    rw [hmask] at hstep
    simp only at hstep
    split at hstep
    next =>
      cases hstep
      exact h.moveSplit hvid (fun x => by rw [hsp]; rfl) hok
    next =>
      cases hstep
      exact h.moveSplit hvid (fun x => by rw [hsp]; rfl) ⟨hok, hmem⟩
  case clear lri mask =>
    obtain ⟨hwait, hmem⟩ := hok
    cases hstep
    have hk : Keeps c k s vid vid (s.thread vid)
        (.reply lri (s.wa.map &&& mask)) (s.wa.map &&& ~~~ mask) s.workremain
        s.accounted s.executed :=
      { mapLow := fun p hp => by
          rw [BitVec.getLsbD_and, Bool.and_eq_true] at hp
          exact hp.1
        total := fun x => by
          have hcut := mapInd_and s.wa s.wa.map mask x
          rw [hsp]
          show _ + _ + mapInd s.wa (s.wa.map &&& mask) x + _ + _
            = _ + _ + 0 + _ + _
          omega
        exec := fun _ => rfl
        counted := rfl
        nonempty := h.nonempty
        zero := id
        thread := h.threads vid
        waiting := fun _ hu => hu
        other := fun _ _ hu => hu
        split := by
          rw [Function.update_eq_self]
          refine ⟨hwait, fun p hp => ?_⟩
          rw [BitVec.getLsbD_and, Bool.and_eq_true] at hp
          exact ⟨hmem p hp.2, h.mapLow p hp.1⟩ }
    have hs := h.update hvid hvid hk s.workerdone
    unfold St.become at hs
    rwa [Function.update_eq_self] at hs
  case reply lri replymask =>
    obtain ⟨hwait, hmem⟩ := hok
    rcases valueFirst1AndZero_cases replymask with ⟨hz, he⟩ | ⟨tid, htid, he⟩
    · rw [he] at hstep
      simp only at hstep
      have hheld : ∀ x, (s.split vid).held s.wa x = 0 := by
        intro x
        rw [hsp, hz]
        exact mapInd_zero s.wa x
      split at hstep
      next =>
        cases hstep
        exact h.finish hvid hheld
      next =>
        cases hstep
        exact h.moveSplit hvid (fun x => (hheld x).symm) hwait
    · obtain ⟨hlri, hlt⟩ := hmem tid htid
      obtain ⟨i, j, hs, hij, hind⟩ := hid.slice hlt
      have hcut := fun x => mapInd_clearBit s.wa replymask htid x
      have hne : s.workremain ≠ 0 := by
        apply h.workremain_ne_split hvid (x := i)
        have hx := hcut i
        rw [hind i, ind_eq_one_iff.mpr ⟨Int.le_refl i, hij⟩] at hx
        rw [hsp]
        show 0 < mapInd s.wa replymask i
        omega
      have hno : tid ≠ noPos := by
        have := hid.width
        have := hid.concurrency
        have := hid.le
        omega
      have hget : globalGetwork s.workremain s.wa tid
          = some (some (tid, i, j)) := by
        rw [globalGetwork_eq_some_iff hne, hid.tid2pos tid (hlt.trans_le hid.le),
          if_pos hlt]
        exact ⟨rfl, hno, hs⟩
      rw [he] at hstep
      simp only at hstep
      rw [hget] at hstep
      cases hstep
      refine h.moveSplit hvid (fun x => ?_) ⟨hwait, fun p hp => ?_, hlri,
        unsetIndex_of_lt fun hw => hlt.trans_le (hid.words hw), hij⟩
      · have hx := hcut x
        rw [hind x] at hx
        rw [hsp]
        exact hx
      · rw [getLsbD_clearBit, Bool.and_eq_true, decide_eq_true_eq] at hp
        exact ⟨(hmem p hp.1).1, (hmem p hp.1).2, Ne.symm hp.2⟩
  case send lri replymask tid first last =>
    obtain ⟨hwait, hmem, hlri, hunset, hlt⟩ := hok
    have hoff : ∀ p, (lri.unsetAt tid).Mem p ↔ lri.Mem p ∧ p ≠ tid :=
      fun p => ListrequestIterator.mem_unsetAt (.inl hunset)
    cases hstep
    refine h.reply hvid hlt (hwait tid hlri) (fun x => ?_) ?_ _
    · rw [hsp]
      rfl
    refine ⟨fun t ht => ?_, fun p hp => ?_⟩
    · obtain ⟨ht, hne⟩ := (hoff t).mp ht
      exact ⟨hwait t ht, hne⟩
    · obtain ⟨hp, hlt, hne⟩ := hmem p hp
      exact ⟨(hoff p).mpr ⟨hp, hne⟩, hlt⟩
  case skipGlobal lri =>
    split at hstep
    next =>
      cases hstep
      exact h.finish hvid fun x => by rw [hsp]; rfl
    next nreq unitSize hsize =>
      cases hstep
      exact h.moveSplit hvid (fun x => by rw [hsp]; rfl)
        ⟨hok, splitSize_bounds hid.parGrain hsize⟩
  case stealLocal lri nreq unitSize =>
    obtain ⟨hwait, hnonneg, hle, hunit⟩ := hok
    rcases (s.thread vid).lwork.steal_cases (nreq * unitSize) with
      ⟨hsteal, -⟩ | ⟨hsteal, hfit⟩
    · rw [hsteal] at hstep
      cases hstep
      exact h.finish hvid fun x => by rw [hsp]; rfl
    · rw [hsteal] at hstep
      cases hstep
      have hsize : 0 ≤ nreq * unitSize := Int.mul_nonneg hnonneg hunit.le
      have hnat : ((nreq.toNat : Nat) : Int) = nreq := Int.toNat_of_nonneg hnonneg
      have hth : Thread.Ok k s.workremain { s.thread vid with
          lwork := { (s.thread vid).lwork with
            crEnd := (s.thread vid).lwork.crEnd - nreq * unitSize } } := by
        by_cases hzero : nreq * unitSize = 0
        · rw [hzero, Int.sub_zero]
          exact h.threads vid
        · exact (h.threads vid).shrink hfit (by omega)
      have hk : Keeps c k s vid vid { s.thread vid with
          lwork := { (s.thread vid).lwork with
            crEnd := (s.thread vid).lwork.crEnd - nreq * unitSize } }
          (.cut lri nreq.toNat unitSize (s.thread vid).lwork.crEnd) s.wa.map
          s.workremain s.accounted s.executed :=
        { mapLow := fun _ hp => hp
          total := fun x => by
            have hcut := ind_add hfit
              (Int.sub_le_self (s.thread vid).lwork.crEnd hsize) x
            rw [hsp]
            show _ + ((s.thread vid).pc.held s.wa x
                + ind ((s.thread vid).lwork.crBeg,
                  (s.thread vid).lwork.crEnd - nreq * unitSize) x)
              + ind ((s.thread vid).lwork.crEnd - (nreq.toNat : Int) * unitSize,
                (s.thread vid).lwork.crEnd) x + _
                + tally (s.thread vid).batch x
              = _ + (s.thread vid).place s.wa x + 0 + _ + _
            unfold Thread.place
            rw [hnat]
            omega
          exec := fun _ => rfl
          counted := rfl
          nonempty := h.nonempty
          zero := id
          thread := hth
          waiting := fun _ hu => hu
          other := fun _ _ hu => hu
          split := by
            refine ⟨fun t ht => ?_, by omega, hunit⟩
            show (Function.update s.thread vid _ t).pc = _
            by_cases htv : t = vid
            · rw [htv, Function.update_self]
              exact htv ▸ hwait t ht
            · rw [Function.update_of_ne htv]
              exact hwait t ht }
      exact h.update hvid hvid hk s.workerdone
  case cut lri nreq unitSize last =>
    obtain ⟨hwait, hle, hunit⟩ := hok
    cases nreq with
    | zero =>
      cases hstep
      refine h.finish hvid fun x => ?_
      rw [hsp]
      exact ind_of_le (by simp) x
    | succ nreq =>
      cases hcurr : lri.idcurr with
      | none =>
        have := ListrequestIterator.count_eq_zero_iff.mpr hcurr
        omega
      | some ident =>
        rw [hcurr] at hstep
        cases hstep
        refine h.reply hvid (by omega) (hwait ident (.inl hcurr))
          (fun x => ?_) ?_ s.workerdone
        · have hnonneg : 0 ≤ (nreq : Int) * unitSize :=
            Int.mul_nonneg (Int.natCast_nonneg nreq) hunit.le
          have hbeg : last - ((nreq + 1 : Nat) : Int) * unitSize
              = last - unitSize - nreq * unitSize := by
            rw [Int.natCast_add, Int.add_mul, Int.natCast_one, Int.one_mul]
            omega
          rw [hsp]
          show ind (last - unitSize - nreq * unitSize, last - unitSize) x
              + ind (last - unitSize, last) x
            = ind (last - ((nreq + 1 : Nat) : Int) * unitSize, last) x
          rw [hbeg]
          exact ind_add (by omega) (by omega) x
        refine ⟨fun t ht => ?_, ?_, hunit⟩
        · have hbit := ListrequestIterator.mem_ofBitmap.mp ht
          refine ⟨hwait t (.inr hbit), fun heq => ?_⟩
          rw [heq, lri.fresh ident hcurr] at hbit
          cases hbit
        · have := ListrequestIterator.count_next hcurr
          omega

theorem selectStep_inv {t : Nat} (h : Inv c k s) (hstep : selectStep c t vid s = some s') :
    Inv c k s' := by
  have hok := (h.threads t).pcOk
  unfold selectStep at hstep
  unfold Thread.PcOk at hok
  cases hpc : (s.thread t).pc <;> rw [hpc] at hok hstep <;> simp only at hok hstep
  case select outer =>
    split at hstep
    next =>
      cases hstep
      exact h.move hpc rfl rfl hok
    split at hstep
    next =>
      cases hstep
      exact h.move hpc rfl rfl hok
    split at hstep
    next =>
      cases hstep
      exact h.move hpc rfl rfl hok
    next hsize =>
      cases hstep
      have := h.identity.parGrain
      exact h.move hpc rfl rfl ⟨hok, by omega⟩
  all_goals cases hstep

theorem step_inv {a : Act w} (h : Inv c k s) (hstep : step c a s = some s') :
    Inv c k s' := by
  cases a with
  | thread t => exact threadStep_inv h hstep
  | select t vid => exact selectStep_inv h hstep
  | beginSplit vid requests => exact beginSplit_inv h hstep
  | split vid => exact splitStep_inv h hstep

end XKaapi.Foreach
