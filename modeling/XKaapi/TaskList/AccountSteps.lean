/-
Every step keeps the books, if a loop pops from the ready lists of its
processor only descriptors of the list it counts for.

One lemma for each kind of step that changes what is held; the others move
a loop.
-/
import XKaapi.TaskList.Account

namespace XKaapi.TaskList

open Dfg Activation
open Function (update update_of_ne update_self)

variable {W : Frames} {s s' : Lists} {i m : Nat} {l : Loop} {v td : Td} {l₀ : Loop}

-- ======== steps

namespace Flow

theorem of_same (h : Flow W s) (hshape : s'.Shape W)
    (hcounter : s'.counter = s.counter)
    (hplaced : ∀ v, s'.placed W v + s'.executed.count v
      = s.placed W v + s.executed.count v)
    (hsent : ∀ v, s'.pending v + (s.executed.flatMap W.acl).count v
      ≤ s.pending v + (s'.executed.flatMap W.acl).count v) : Flow W s' where
  shape := hshape
  tokens v := by
    rw [hplaced]
    unfold Lists.Ready
    rw [hcounter]
    exact h.tokens v
  signals v := by
    rw [hcounter]
    have h₁ := h.signals v
    have h₂ := hsent v
    omega

theorem setLoop (h : Flow W s) (hi : i < s.n) (hp : l.proc = (s.loop i).proc)
    (hm : l.master = (s.loop i).master)
    (hholds : ∀ v, l.holds v = (s.loop i).holds v)
    (hpending : ∀ v, l.pending v = (s.loop i).pending v) :
    Flow W (s.setLoop i l) := by
  refine h.of_same (h.shape.setLoop hp hm) rfl (fun v => ?_) fun v => ?_
  · have hsum := Lists.placed_setLoop (W := W) hi l v
    rw [hholds] at hsum
    rw [Nat.add_right_cancel hsum]
    rfl
  · have hsum := Lists.pending_setLoop hi l v
    rw [hpending] at hsum
    rw [Nat.add_right_cancel hsum]
    exact Nat.le_refl _

end Flow

theorem executedOf_append (executed : List Td) (td : Td) (m : Nat) :
    (((executed ++ [td]).filter fun v => v.1 = m).map Prod.snd).length
      = ((executed.filter fun v => v.1 = m).map Prod.snd).length
        + if td.1 = m then 1 else 0 := by
  rw [List.filter_append, List.map_append, List.length_append]
  congr 1
  by_cases htd : td.1 = m
  · rw [if_pos htd, List.filter_cons_of_pos (by simpa using htd)]
    rfl
  · rw [if_neg htd, List.filter_cons_of_neg (by simpa using htd)]
    rfl

/-- A body is run: the descriptor leaves the loop, its signals come. -/
theorem body_inv (hf : Flow W s) (hb : Books W s) (hi : i < s.n) (hl : s.loop i = l₀)
    (hpc : l₀.pc = .body td) {pc : LoopPc}
    (hq : pc = .addBlocked ∨ pc = .pushactivated (W.acl td))
    (hs : s' = { s.setLoop i { l₀ with
        cnt := l₀.cnt + 1
        pc := pc } with executed := s.executed ++ [td] }) : Flow W s' ∧ Books W s' := by
  subst hl
  let l : Loop := { s.loop i with
    cnt := (s.loop i).cnt + 1
    pc := pc }
  have hholds : ∀ v, l.holds v = (s.loop i).rtl.count v := by
    intro v
    rcases hq with rfl | rfl <;> exact Nat.add_zero _
  have hholds₀ : ∀ v, (s.loop i).holds v
      = (s.loop i).rtl.count v + if td = v then 1 else 0 := by
    intro v
    unfold Loop.holds
    rw [hpc]
  have hpending : ∀ v, l.pending v ≤ (W.acl td).count v := by
    intro v
    rcases hq with rfl | rfl
    · exact Nat.zero_le _
    · exact Nat.le_refl _
  have htd : td.1 = s.owner i := by
    apply hb.own i hi td
    rw [hholds₀, if_pos rfl]
    omega
  have hcredit : l.credit = (s.loop i).credit + 1 := by
    unfold Loop.credit
    rw [hpc]
    rcases hq with rfl | rfl <;> (simp [l]; omega)
  subst hs
  constructor
  · refine hf.of_same (hf.shape.setLoop rfl rfl) rfl (fun v => ?_) fun v => ?_
    · have hsum := Lists.placed_setLoop (W := W) hi l v
      rw [hholds, hholds₀] at hsum
      show (s.setLoop i l).placed W v + (s.executed ++ [td]).count v = _
      rw [List.count_append, List.count_singleton]
      simp only [beq_iff_eq]
      omega
    · have hsum := Lists.pending_setLoop hi l v
      have hle := hpending v
      show (s.setLoop i l).pending v + _
        ≤ _ + ((s.executed ++ [td]).flatMap W.acl).count v
      rw [List.flatMap_append, List.count_append, List.flatMap_singleton]
      omega
  · constructor
    · intro j hj v hv
      have hj : j < s.n := hj
      show v.1 = (s.setLoop i l).owner j
      rw [Lists.owner_setLoop (l := l) rfl]
      have hv : 0 < ((s.setLoop i l).loop j).holds v
        + ((s.setLoop i l).loop j).pending v := hv
      by_cases hji : j = i
      · subst hji
        rw [Lists.setLoop_self, hholds] at hv
        rcases Nat.add_pos_iff_pos_or_pos.mp hv with hrtl | hpen
        · apply hb.own j hj v
          rw [hholds₀]
          omega
        · have hmem := List.count_pos_iff.mp (hpen.trans_le (hpending v))
          obtain ⟨id, -, rfl⟩ := List.mem_map.mp hmem
          exact htd
      · rw [Lists.setLoop_ne s hji] at hv
        exact hb.own j hj v hv
    · intro m
      have hsum := credit_setLoop hi (l := l) rfl m
      have hexec := hb.credit m
      rw [hcredit] at hsum
      unfold Lists.executedOf at hexec ⊢
      simp only
      rw [executedOf_append, ← hexec, htd]
      show (s.setLoop i l).credit m = _
      by_cases hm : s.owner i = m
      · simp only [if_pos hm] at hsum ⊢
        omega
      · simp only [if_neg hm] at hsum ⊢
        omega
    · intro j hj
      show ((s.setLoop i l).loop j).Added
      by_cases hji : j = i
      · subst hji
        rw [Lists.setLoop_self]
        rcases hq with rfl | rfl <;> exact True.intro
      · rw [Lists.setLoop_ne s hji]
        exact hb.added j hj
    · intro j hj
      show ((s.setLoop i l).loop j).master = none → _
      by_cases hji : j = i
      · subst hji
        rw [Lists.setLoop_self]
        intro _ hc
        rcases hq with rfl | rfl <;> cases hc
      · rw [Lists.setLoop_ne s hji]
        exact hb.complete j hj
    · intro v hv
      rcases List.mem_append.mp hv with hv | hv
      · exact hb.small v hv
      · rw [List.mem_singleton.mp hv, htd]
        exact (hf.shape.2 i hi).2.1

/-- A signal is sent: the descriptor it completes is pushed, and no
remainder by 0 is taken. -/
theorem signal_inv (hf : Flow W s) (hb : Books W s) (hi : i < s.n) (hl : s.loop i = l₀)
    {rest : List Td} (hpc : l₀.pc = .pushactivated (v :: rest)) :
    ∃ s', pushIfActivated W i v
        (s.setLoop i { l₀ with pc := .pushactivated rest }) = some s'
      ∧ Flow W s' ∧ Books W s' := by
  subst hl
  let l : Loop := { s.loop i with pc := .pushactivated rest }
  have hholds : ∀ u, l.holds u = (s.loop i).holds u := by
    intro u
    unfold Loop.holds
    rw [hpc]
  have hpending₀ : ∀ u, (s.loop i).pending u = (v :: rest).count u := by
    intro u
    unfold Loop.pending
    rw [hpc]
  have hplaced : ∀ u, (s.setLoop i l).placed W u = s.placed W u := by
    intro u
    have hsum := Lists.placed_setLoop (W := W) hi l u
    rw [hholds] at hsum
    exact Nat.add_right_cancel hsum
  have hpending : ∀ u, (s.setLoop i l).pending u + (if v = u then 1 else 0)
      = s.pending u := by
    intro u
    have hsum := Lists.pending_setLoop hi l u
    have hl : l.pending u = rest.count u := rfl
    rw [hpending₀, hl, List.count_cons] at hsum
    simp only [beq_iff_eq] at hsum
    omega
  have hbooks : Books W (s.setLoop i l) := by
    refine hb.setLoop hi rfl (fun u hu => ?_) ?_ True.intro
      nofun
    · apply hb.own i hi u
      rw [hholds] at hu
      have hl : l.pending u = rest.count u := rfl
      rw [hl] at hu
      rw [hpending₀, List.count_cons]
      omega
    · unfold Loop.credit
      rw [hpc]
      simp [l]
  have hvi : v.1 = (s.setLoop i l).owner i := by
    rw [Lists.owner_setLoop (l := l) rfl]
    apply hb.own i hi v
    rw [hpending₀, List.count_cons_self]
    omega
  -- the descriptor still waits for this signal
  have hbound : s.counter v + 1 ≤ (W.td v).wc := by
    have h₁ := hf.signals v
    have h₂ := hf.sent_le v
    have h₃ := hpending v
    rw [if_pos rfl] at h₃
    omega
  have hnot : ¬ s.Ready W v := by
    rintro (⟨-, hinit⟩ | ⟨-, heq⟩)
    · have hwait : (W.frame v.1).graph.wait v.2 = 0 :=
        (W.wellFormed v.1).pool_wait v.2 (List.mem_reverse.mpr hinit)
      have hwait : (W.td v).wc = 0 := hwait
      omega
    · omega
  let s₁ : Lists := { s.setLoop i l with
    counter := update s.counter v (s.counter v + 1) }
  have hshape₁ : s₁.Shape W := hf.shape.setLoop (l := l) rfl rfl
  have hready : ∀ u, u ≠ v → (s₁.Ready W u ↔ s.Ready W u) := by
    intro u hu
    unfold Lists.Ready
    show _ ∨ (_ ∧ update s.counter v (s.counter v + 1) u = _) ↔ _
    rw [update_of_ne hu]
  have hreadyv : s₁.Ready W v ↔ s.counter v + 1 = (W.td v).wc := by
    unfold Lists.Ready
    show _ ∨ (_ ∧ update s.counter v (s.counter v + 1) v = _) ↔ _
    rw [update_self]
    constructor
    · rintro (hinit | ⟨-, heq⟩)
      · exact absurd (.inl hinit) hnot
      · exact heq
    · intro heq
      exact .inr ⟨by omega, heq⟩
  have hsignals : ∀ u, s₁.counter u + s₁.pending u
      ≤ (s₁.executed.flatMap W.acl).count u := by
    intro u
    have h₁ := hf.signals u
    have h₂ := hpending u
    have hpen : s₁.pending u = (s.setLoop i l).pending u := rfl
    have hexe : s₁.executed = s.executed := rfl
    rw [hpen, hexe]
    by_cases hu : u = v
    · subst hu
      rw [if_pos rfl] at h₂
      have hc : s₁.counter u = s.counter u + 1 := update_self ..
      omega
    · have hc : s₁.counter u = s.counter u := update_of_ne hu ..
      rw [if_neg (Ne.symm hu)] at h₂
      omega
  have htokens : ∀ u, u ≠ v →
      (s₁.Ready W u → s.placed W u + s.executed.count u = 1)
        ∧ (¬ s₁.Ready W u → s.placed W u + s.executed.count u = 0) := by
    intro u hu
    rw [hready u hu]
    exact hf.tokens u
  have hzero := (hf.tokens v).2 hnot
  have hwc : (W.td v).wc ≠ 0 := by omega
  unfold pushIfActivated
  simp only
  rw [if_neg hwc]
  refine ⟨_, rfl, ?_⟩
  show Flow W (if (s.counter v + 1) % (W.td v).wc = 0 then pushreadyTd W i v s₁
      else s₁) ∧ Books W (if (s.counter v + 1) % (W.td v).wc = 0 then
      pushreadyTd W i v s₁ else s₁)
  by_cases hlast : s.counter v + 1 = (W.td v).wc
  · rw [if_pos (by rw [hlast, Nat.mod_self])]
    obtain ⟨hshape, hpl, hpe, hco, hex⟩ := pushreadyTd_spec hshape₁ hi v
    have hbooks₁ : Books W s₁ :=
      ⟨hbooks.own, hbooks.credit, hbooks.added, hbooks.complete, hbooks.small⟩
    refine ⟨⟨hshape, fun u => ?_, fun u => ?_⟩, hbooks₁.pushreadyTd hi hvi⟩
    · have hpu : s₁.placed W u = s.placed W u := hplaced u
      unfold Lists.Ready
      rw [hco, hex, hpl, hpu]
      by_cases hu : u = v
      · subst hu
        rw [if_pos rfl]
        refine ⟨fun _ => ?_, fun hno => absurd (hreadyv.mpr hlast) hno⟩
        show _ + s.executed.count u = 1
        omega
      · rw [if_neg (Ne.symm hu)]
        exact htokens u hu
    · rw [hco, hex, hpe]
      exact hsignals u
  · have hlt : s.counter v + 1 < (W.td v).wc := by omega
    rw [if_neg (by rw [Nat.mod_eq_of_lt hlt]; omega)]
    refine ⟨⟨hshape₁, fun u => ?_, hsignals⟩,
      hbooks.own, hbooks.credit, hbooks.added, hbooks.complete, hbooks.small⟩
    have hpu : s₁.placed W u = s.placed W u := hplaced u
    rw [hpu]
    show (_ → _ + s.executed.count u = 1) ∧ (_ → _ + s.executed.count u = 0)
    by_cases hu : u = v
    · subst hu
      exact ⟨fun hr => absurd (hreadyv.mp hr) hlast, fun _ => hzero⟩
    · exact htokens u hu

theorem count_erase_add {r : List Td} (h : td ∈ r) (v : Td) :
    (r.erase td).count v + (if td = v then 1 else 0) = r.count v := by
  have hperm := (List.perm_cons_erase h).count_eq v
  rw [List.count_cons] at hperm
  simp only [beq_iff_eq] at hperm
  exact hperm.symm

section

variable (hf : Flow W s) (hb : Books W s)
include hf hb

/-- A loop takes a descriptor from a ready list of its processor. -/
theorem popped_inv (hi : i < s.n) (hl : s.loop i = l₀)
    (hpc : l₀.pc = .popRtl ∨ l₀.pc = .popRemote) (htd : td.1 = s.owner i)
    {rtl rtlRemote : Nat → List Td}
    (hplaced : ∀ v, { s with
        rtl := rtl
        rtlRemote := rtlRemote }.placed W v + (if td = v then 1 else 0)
      = s.placed W v)
    (hs : s' = { s.setLoop i { l₀ with pc := .body td } with
      rtl := rtl
      rtlRemote := rtlRemote }) : Flow W s' ∧ Books W s' := by
  subst hl
  let l : Loop := { s.loop i with pc := .body td }
  have hholds₀ : ∀ v, (s.loop i).holds v = (s.loop i).rtl.count v := by
    intro v
    unfold Loop.holds
    rcases hpc with hpc | hpc <;> rw [hpc] <;> exact Nat.add_zero _
  have hholds : ∀ v, l.holds v
      = (s.loop i).holds v + if td = v then 1 else 0 := by
    intro v
    rw [hholds₀]
    rfl
  have hpending₀ : ∀ v, (s.loop i).pending v = 0 := by
    intro v
    unfold Loop.pending
    rcases hpc with hpc | hpc <;> rw [hpc]
  have hbooks : Books W (s.setLoop i l) := by
    refine hb.setLoop hi rfl (fun v hv => ?_) ?_ True.intro
      nofun
    · by_cases hv' : td = v
      · rw [← hv']
        exact htd
      · apply hb.own i hi v
        rw [hholds, if_neg hv'] at hv
        have hzero : l.pending v = 0 := rfl
        omega
    · unfold Loop.credit
      rcases hpc with hpc | hpc <;> (rw [hpc]; simp [l])
  subst hs
  refine ⟨hf.of_same (hf.shape.setLoop (l := l) rfl rfl) rfl (fun v => ?_)
    fun v => ?_, hbooks.own, hbooks.credit, hbooks.added, hbooks.complete,
      hbooks.small⟩
  · have hsum := Lists.placed_setLoop (W := W) (s := { s with
      rtl := rtl
      rtlRemote := rtlRemote }) hi l v
    have hsame := hplaced v
    have hloop := hholds v
    show ({ s with
      rtl := rtl
      rtlRemote := rtlRemote }.setLoop i l).placed W v + s.executed.count v = _
    have h₀ : ({ s with
      rtl := rtl
      rtlRemote := rtlRemote }.loop i).holds v = (s.loop i).holds v := rfl
    omega
  · have hsum := Lists.pending_setLoop hi l v
    have hzero : l.pending v = 0 := rfl
    have := hpending₀ v
    show (s.setLoop i l).pending v + _ ≤ _ + (s.executed.flatMap W.acl).count v
    omega

/-- The count of a stolen list goes to its master list. -/
theorem report_inv (hi : i < s.n) (hl : s.loop i = l₀) (hpc : l₀.pc = .report) {lm : Loop}
    (hmaster : s.owner i = m) (hlm : s.loop m = lm) :
    Flow W ((s.setLoop m { lm with cntExec := lm.cntExec + l₀.cntExec }).setLoop
        i { l₀ with pc := .finished })
      ∧ Books W ((s.setLoop m { lm with
          cntExec := lm.cntExec + l₀.cntExec }).setLoop
        i { l₀ with pc := .finished }) := by
  subst hl hlm
  have hadded : (s.loop i).cnt = 0 ∧ (s.loop i).master ≠ none := by
    have := hb.added i hi
    unfold Loop.Added at this
    rw [hpc] at this
    exact this
  obtain ⟨hadded, hm⟩ := hadded
  obtain ⟨-, hlt, hiff⟩ := hf.shape.2 i hi
  rw [hmaster] at hlt
  have hmn : m < s.n := hlt.trans_le hf.shape.1
  obtain ⟨-, -, hmiff⟩ := hf.shape.2 m hmn
  have hmnone := hmiff.mpr hlt
  have hne : i ≠ m := by
    intro heq
    rw [heq] at hm
    exact hm hmnone
  let l : Loop := { s.loop i with pc := .finished }
  let lm : Loop := { s.loop m with
    cntExec := (s.loop m).cntExec + (s.loop i).cntExec }
  have hsame : (s.setLoop m lm).loop i = s.loop i := Lists.setLoop_ne s hne lm
  have hholds : ∀ v, l.holds v = (s.loop i).holds v := by
    intro v
    unfold Loop.holds
    rw [hpc]
  have hpending : ∀ v, l.pending v = (s.loop i).pending v := by
    intro v
    unfold Loop.pending
    rw [hpc]
  have hfm : Flow W (s.setLoop m lm) :=
    hf.setLoop hmn rfl rfl (fun _ => rfl) fun _ => rfl
  refine ⟨hfm.setLoop (l := l) (i := i) hi (by rw [hsame]) (by rw [hsame])
    (fun v => by rw [hsame]; exact hholds v)
    (fun v => by rw [hsame]; exact hpending v), ?_⟩
  -- where each list stands afterwards
  have hcases : ∀ j, (((s.setLoop m lm).setLoop i l).loop j = l ∧ j = i)
      ∨ (((s.setLoop m lm).setLoop i l).loop j = lm ∧ j = m)
      ∨ (((s.setLoop m lm).setLoop i l).loop j = s.loop j ∧ j ≠ i) := by
    intro j
    by_cases hji : j = i
    · subst hji
      exact .inl ⟨Lists.setLoop_self _ _ _, rfl⟩
    · rw [Lists.setLoop_ne _ hji]
      by_cases hjm : j = m
      · subst hjm
        exact .inr (.inl ⟨Lists.setLoop_self _ _ _, rfl⟩)
      · rw [Lists.setLoop_ne _ hjm]
        exact .inr (.inr ⟨rfl, hji⟩)
  have howner : ∀ j, ((s.setLoop m lm).setLoop i l).owner j = s.owner j := by
    intro j
    rw [Lists.owner_setLoop (s := s.setLoop m lm) (i := i) (l := l)
      (by rw [hsame]), Lists.owner_setLoop (l := lm) rfl]
  constructor
  · intro j hj v hv
    rw [howner]
    apply hb.own j hj v
    rcases hcases j with ⟨hj, rfl⟩ | ⟨hj, rfl⟩ | ⟨hj, -⟩
    · rw [hj, hholds, hpending] at hv
      exact hv
    · rw [hj] at hv
      exact hv
    · rw [hj] at hv
      exact hv
  · intro m'
    have h₁ := credit_setLoop hmn (l := lm) rfl m'
    have h₂ := credit_setLoop (s := s.setLoop m lm) (i := i) hi (l := l)
      (by rw [hsame]) m'
    rw [hsame, Lists.owner_setLoop (l := lm) rfl, hmaster] at h₂
    have hownm : s.owner m = m := by
      unfold Lists.owner
      rw [hmnone]
      rfl
    rw [hownm] at h₁
    have hcl : l.credit = 0 := by
      unfold Loop.credit
      rw [if_pos ⟨hm, rfl⟩]
      exact hadded
    have hci : (s.loop i).credit = (s.loop i).cntExec := by
      unfold Loop.credit
      rw [hadded, hpc]
      simp
    have hcm : lm.credit = (s.loop m).credit + (s.loop i).cntExec := by
      unfold Loop.credit
      simp only [lm, hmnone]
      simp
      omega
    rw [hcl, hci] at h₂
    rw [hcm] at h₁
    have hsame : ((s.setLoop m lm).setLoop i l).credit m' = s.credit m' := by
      by_cases hmm : m = m'
      · simp only [if_pos hmm] at h₁ h₂
        omega
      · simp only [if_neg hmm] at h₁ h₂
        omega
    exact hsame.trans (hb.credit m')
  · intro j hj
    rcases hcases j with ⟨hj', rfl⟩ | ⟨hj', rfl⟩ | ⟨hj', -⟩
    · rw [hj']
      exact hadded
    · rw [hj']
      exact hb.added j hj
    · rw [hj']
      exact hb.added j hj
  · intro j hj
    rcases hcases j with ⟨hj', rfl⟩ | ⟨hj', rfl⟩ | ⟨hj', -⟩
    · rw [hj']
      exact fun hc => absurd hc hm
    · rw [hj']
      exact fun hnone hfin => (hb.complete j hj hnone hfin).trans
        (Nat.le_add_right _ _)
    · rw [hj']
      exact hb.complete j hj
  · exact hb.small

theorem loopStep_inv {c : PopChoice} (hi : i < s.n) (hown : OwnPop (.thread i c) s)
    (hstep : loopStep W i c s = some s') : Flow W s' ∧ Books W s' := by
  obtain ⟨l, hl⟩ : ∃ l, s.loop i = l := ⟨_, rfl⟩
  have hproc := (hf.shape.2 i hi).1
  have hadded := hb.added i hi
  have hhold := hb.own i hi
  have hcomplete := hb.complete i hi
  unfold loopStep at hstep
  simp only at hstep
  rw [hl] at hstep hproc hadded hhold hcomplete
  obtain ⟨mas, proc, rtl, cntExec, cnt, pc⟩ := l
  -- a move of the loop that keeps what it holds and what it counts
  have hmove : ∀ {l : Loop}, s.setLoop i l = s' → l.proc = proc → l.master = mas →
      (∀ v, l.holds v = (⟨mas, proc, rtl, cntExec, cnt, pc⟩ : Loop).holds v) →
      (∀ v, l.pending v
        = (⟨mas, proc, rtl, cntExec, cnt, pc⟩ : Loop).pending v) →
      l.credit = (⟨mas, proc, rtl, cntExec, cnt, pc⟩ : Loop).credit →
      l.Added →
      (l.master = none → l.pc = .finished → W.total i ≤ l.cntExec) →
      Flow W s' ∧ Books W s' := by
    intro l hs hp hm hh hpe hc ha hco
    rw [← hs]
    refine ⟨hf.setLoop hi (by rw [hl]; exact hp) (by rw [hl]; exact hm)
      (fun v => by rw [hl]; exact hh v) fun v => by rw [hl]; exact hpe v,
      hb.setLoop hi (by rw [hl]; exact hm) (fun v hv => ?_)
        (by rw [hl]; exact hc) ha hco⟩
    rw [hh, hpe] at hv
    exact hhold v hv
  cases pc with
  | start td =>
    have hs := Option.some.inj hstep
    subst hs
    have htd : td.1 = s.owner i := by
      have hpos : 0 < rtl.count td + (if td = td then 1 else 0) + 0 := by
        rw [if_pos rfl]
        omega
      exact hhold td hpos
    let l : Loop := ⟨mas, proc, rtl, cntExec, cnt, .loop⟩
    have hshape : (s.setLoop i l).Shape W :=
      hf.shape.setLoop (by rw [hl]) (by rw [hl])
    obtain ⟨hshape', hpl, hpe, hco, hex⟩ := pushreadyTd_spec hshape hi td
    have hbooks : Books W (s.setLoop i l) := by
      refine hb.setLoop hi (by rw [hl]) (fun v hv => ?_)
        (by simp [l, hl, Loop.credit]) True.intro nofun
      apply hhold v
      have hv : 0 < rtl.count v + 0 + 0 := hv
      show 0 < rtl.count v + (if td = v then 1 else 0) + 0
      omega
    refine ⟨hf.of_same hshape' hco (fun v => ?_) fun v => ?_,
      hbooks.pushreadyTd hi ?_⟩
    · have hsum := Lists.placed_setLoop (W := W) hi l v
      rw [hl] at hsum
      have hl₀ : (⟨mas, proc, rtl, cntExec, cnt, .start td⟩ : Loop).holds v
        = rtl.count v + if td = v then 1 else 0 := rfl
      have hl₁ : l.holds v = rtl.count v + 0 := rfl
      rw [hpl, hex]
      show (s.setLoop i l).placed W v + _ + s.executed.count v = _
      omega
    · have hsum := Lists.pending_setLoop hi l v
      rw [hl] at hsum
      rw [hpe, hex]
      exact Nat.add_le_add_right (Nat.add_right_cancel hsum).le _
    · rw [Lists.owner_setLoop (by rw [hl])]
      exact htd
  | loop =>
    simp only at hstep
    split at hstep
    · exact hmove (Option.some.inj hstep) rfl rfl (fun _ => rfl)
        (fun _ => rfl) (by simp [Loop.credit])
        True.intro nofun
    · split at hstep
      next td =>
        split at hstep
        next htd =>
          refine hmove (Option.some.inj hstep) rfl rfl (fun v => ?_)
            (fun _ => rfl)
            (by simp [Loop.credit]) True.intro nofun
          exact (count_erase_add htd v).trans (Nat.add_zero _).symm
        · cases hstep
      · cases hstep
        exact ⟨hf, hb⟩
  | body td =>
    refine body_inv hf hb hi hl rfl ?_ (Option.some.inj hstep).symm
    split
    · exact .inl rfl
    · exact .inr rfl
  | pushactivated rest =>
    cases rest with
    | nil =>
      simp only at hstep
      exact hmove (Option.some.inj hstep) rfl rfl (fun _ => rfl) (fun _ => rfl)
        (by simp [Loop.credit]) True.intro nofun
    | cons v rest =>
      obtain ⟨s₁, hs₁, hinv⟩ := signal_inv hf hb hi hl rfl
      have heq := Option.some.inj (hs₁.symm.trans hstep)
      rw [← heq]
      exact hinv
  | popRtl =>
    simp only at hstep
    split at hstep
    next td =>
      split at hstep
      next htd =>
        have hproc : proc < W.nproc := hproc
        have hpop : td.1 = s.owner i := hown (.inl (by rw [hl]))
        refine popped_inv hf hb hi hl (.inl rfl) hpop (fun v => ?_)
          (Option.some.inj hstep).symm
        have hsum := Lists.placed_rtl (s := s) hproc ((s.rtl proc).erase td) v
        have herase : ((s.rtl proc).erase td).count v + _
          = (s.rtl proc).count v := count_erase_add htd v
        show { s with
          rtl := update s.rtl proc ((s.rtl proc).erase td)
          }.placed W v + _ = _
        omega
      · cases hstep
    · exact hmove (Option.some.inj hstep) rfl rfl (fun _ => rfl)
        (fun _ => rfl) (by simp [Loop.credit])
        True.intro nofun
  | popRemote =>
    simp only at hstep
    split at hstep
    next td =>
      split at hstep
      next htd =>
        have hproc : proc < W.nproc := hproc
        have hpop : td.1 = s.owner i := hown (.inr (by rw [hl]))
        refine popped_inv hf hb hi hl (.inr rfl) hpop (fun v => ?_)
          (Option.some.inj hstep).symm
        have hsum := Lists.placed_rtlRemote (s := s) hproc
          ((s.rtlRemote proc).erase td) v
        have herase : ((s.rtlRemote proc).erase td).count v + _
          = (s.rtlRemote proc).count v := count_erase_add htd v
        show { s with
          rtlRemote := update s.rtlRemote proc
            ((s.rtlRemote proc).erase td) }.placed W v + _ = _
        omega
      · cases hstep
    · exact hmove (Option.some.inj hstep) rfl rfl (fun _ => rfl)
        (fun _ => rfl) (by simp [Loop.credit])
        True.intro nofun
  | add =>
    refine hmove (Option.some.inj hstep) rfl rfl (fun _ => rfl)
      (fun _ => rfl) ?_ rfl
      nofun
    simp [Loop.credit]
    omega
  | addBlocked =>
    refine hmove (Option.some.inj hstep) rfl rfl (fun _ => rfl)
      (fun _ => rfl) ?_ rfl
      nofun
    simp [Loop.credit]
    omega
  | test =>
    have hcnt : cnt = 0 := hadded
    simp only at hstep
    by_cases hm : mas = none
    · rw [if_pos hm] at hstep
      by_cases ht : cntExec ≠ W.total i
      · rw [if_pos ht] at hstep
        exact hmove (Option.some.inj hstep) rfl rfl (fun _ => rfl) (fun _ => rfl)
          (by simp [Loop.credit]) hcnt nofun
      · rw [if_neg ht] at hstep
        exact hmove (Option.some.inj hstep) rfl rfl (fun _ => rfl) (fun _ => rfl)
          (by simp [Loop.credit, hm]) hcnt
          (fun _ _ => (not_not.mp ht).ge)
    · rw [if_neg hm] at hstep
      exact hmove (Option.some.inj hstep) rfl rfl (fun _ => rfl) (fun _ => rfl)
        (by simp [Loop.credit]) ⟨hcnt, hm⟩ (fun hc => absurd hc hm)
  | suspended =>
    simp only at hstep
    split at hstep
    · cases hstep
    · exact hmove (Option.some.inj hstep) rfl rfl (fun _ => rfl) (fun _ => rfl)
        (by simp [Loop.credit]) True.intro nofun
  | report =>
    cases hstep
    exact report_inv hf hb hi hl rfl rfl rfl
  | finished => cases hstep

theorem placed_lt (hv : 0 < s.placed W v) : v.1 < W.nmaster := by
  rcases hf.ready_of_pos (v := v) (by omega) with ⟨hlt, -⟩ | ⟨hwc, heq⟩
  · exact hlt
  · have hsent := hf.signals v
    obtain ⟨u, hu, hvu⟩ := List.mem_flatMap.mp
      (List.count_pos_iff (a := v) (l := s.executed.flatMap W.acl) |>.mp
        (by omega))
    obtain ⟨id, -, heq⟩ := List.mem_map.mp hvu
    rw [← heq]
    exact hb.small u hu

end

theorem stealready_inv (hf : Flow W s) (hb : Books W s) {q : Nat}
    (hq : q < W.nproc) {a b : Nat → List Td}
    (hplaced : ∀ v, { s with
        rtl := a
        rtlRemote := b }.placed W v + (if td = v then 1 else 0)
      = s.placed W v) {s' : Lists}
    (hs : s' = { s with
      rtl := a
      rtlRemote := b }.addStolen td.1 q td) :
    Flow W s' ∧ Books W s' := by
  have htd : td.1 < W.nmaster := by
    apply placed_lt hf hb
    have := hplaced td
    rw [if_pos rfl] at this
    omega
  have hbooks : Books W { s with
      rtl := a
      rtlRemote := b } :=
    ⟨hb.own, hb.credit, hb.added, hb.complete, hb.small⟩
  subst hs
  refine ⟨hf.of_same (Lists.Shape.addStolen (s := { s with
    rtl := a
    rtlRemote := b }) hf.shape htd hq td) rfl (fun v => ?_) fun v => ?_,
    hbooks.addStolen rfl q⟩
  · rw [Lists.placed_addStolen, hplaced]
    rfl
  · rw [Lists.pending_addStolen]
    exact Nat.le_refl _

theorem listStep_inv {a : ListAct} (hf : Flow W s) (hb : Books W s)
    (hown : OwnPop a s) (hstep : listStep W a s = some s') :
    Flow W s' ∧ Books W s' := by
  cases a with
  | thread i c =>
    unfold listStep at hstep
    simp only at hstep
    split at hstep
    next hi => exact loopStep_inv hf hb hi hown hstep
    · cases hstep
  | stealtasklist i td q =>
    unfold listStep at hstep
    simp only at hstep
    split at hstep
    next hc =>
      obtain ⟨hi, hq, hmem⟩ := hc
      have hs := Option.some.inj hstep
      subst hs
      obtain ⟨l₀, hl⟩ : ∃ l, s.loop i = l := ⟨_, rfl⟩
      rw [hl] at hmem ⊢
      let l : Loop := { l₀ with rtl := l₀.rtl.erase td }
      have hholds : ∀ v, l.holds v + (if td = v then 1 else 0)
          = l₀.holds v := by
        intro v
        have herase := count_erase_add hmem v
        unfold Loop.holds
        simp only [l]
        omega
      have htd : td.1 = s.owner i := by
        apply hb.own i hi td
        rw [hl, ← hholds, if_pos rfl]
        omega
      have hadded : l₀.Added := hl ▸ hb.added i hi
      have hcomplete : l₀.master = none → l₀.pc = .finished →
          W.total i ≤ l₀.cntExec := hl ▸ hb.complete i hi
      have hbooks : Books W (s.setLoop i l) := by
        refine hb.setLoop hi (by rw [hl]) (fun v hv => ?_) (by rw [hl]; rfl)
          hadded hcomplete
        apply hb.own i hi v
        have := hholds v
        have hpen : l.pending v = l₀.pending v := rfl
        rw [hl]
        omega
      refine ⟨hf.of_same (Lists.Shape.addStolen (s := s.setLoop i l)
        (hf.shape.setLoop (by rw [hl]) (by rw [hl]))
        (hf.shape.2 i hi).2.1 hq td) rfl (fun v => ?_) fun v => ?_,
        hbooks.addStolen htd q⟩
      · have hsum := Lists.placed_setLoop (W := W) hi l v
        rw [hl, ← hholds v] at hsum
        rw [Lists.placed_addStolen]
        show (s.setLoop i l).placed W v + _ + s.executed.count v = _
        omega
      · have hsum := Lists.pending_setLoop hi l v
        rw [hl] at hsum
        rw [Lists.pending_addStolen]
        exact Nat.add_le_add_right (Nat.add_right_cancel hsum).le _
    · cases hstep
  | stealreadytasklist p remote td q =>
    cases remote with
    | false =>
      unfold listStep at hstep
      simp only at hstep
      split at hstep
      next hc =>
        obtain ⟨hp, hq, hmem⟩ := hc
        refine stealready_inv (a := update s.rtl p
          ((s.rtl p).erase td)) (b := s.rtlRemote) hf hb hq
          (fun v => ?_) (Option.some.inj hstep).symm
        have hsum := Lists.placed_rtl (s := s) hp ((s.rtl p).erase td) v
        have herase := count_erase_add hmem v
        show { s with
          rtl := update s.rtl p ((s.rtl p).erase td)
          }.placed W v + _ = _
        omega
      · cases hstep
    | true =>
      unfold listStep at hstep
      simp only at hstep
      split at hstep
      next hc =>
        obtain ⟨hp, hq, hmem⟩ := hc
        refine stealready_inv (a := s.rtl)
          (b := update s.rtlRemote p ((s.rtlRemote p).erase td)) hf hb hq
          (fun v => ?_) (Option.some.inj hstep).symm
        have hsum := Lists.placed_rtlRemote (s := s) hp
          ((s.rtlRemote p).erase td) v
        have herase := count_erase_add hmem v
        show { s with
          rtlRemote := update s.rtlRemote p
            ((s.rtlRemote p).erase td) }.placed W v + _ = _
        omega
      · cases hstep

end XKaapi.TaskList
