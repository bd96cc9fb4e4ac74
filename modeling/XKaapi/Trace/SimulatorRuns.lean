/-
The accounts of the trace simulator over whole traces.

Of a processor the code keeps how many intervals are open, as
`active = 1 - open`, and adds the time since its last event to one of two
counters. `Live` is what this amounts to: the times add up, the idle time is
the occupation of the intervals, and what was sampled last is not more than
what the counters will be when the time since then is added to the one that
it is going to be added to. That is where the order of the cases matters: a
stop inside an interval adds to the active time what was sampled as idle.
-/
import XKaapi.Lib.ForLoop
import XKaapi.Trace.Simulator

namespace XKaapi.Trace.Simulator

open StepMachine

-- ======== account

/-- A processor that has started: `evs` are its events, `act` its state,
and `sampled` the last sampling date. -/
structure Live (evs : List Event) (act : Int) (sampled : Nat)
    (p : ProcessorState) : Prop where
  active : p.active = act
  sum : ∀ s ∈ evs, s.evtno = .kprocStart → p.tactive + p.tidle + s.date = p.lastdate
  le : p.tactive + p.tidle ≤ p.lastdate
  tidle : p.tidle = Occupation.time Event.date delta evs p.lastdate
  mem : ∃ e ∈ evs, changes e = true ∧ e.date = p.lastdate
  last : ∀ e ∈ evs, changes e = true → e.date ≤ p.lastdate
  lasttidle : p.lasttidle ≤ p.tidle + if act = 1 then 0 else sampled - p.lastdate
  lasttactive : p.lasttactive ≤ p.tactive + if act = 1 then sampled - p.lastdate else 0
  zero : p.lastdate = 0 → p.lasttidle = 0 ∧ p.lasttactive = 0

variable {p : ProcessorState}

theorem addActive_eq {date : Nat} (hdate : p.lastdate ≤ date)
    (hcheck : p.tactive + (date - p.lastdate) ≤ date) :
    p.addActive date = some { p with
      tactive := p.tactive + (date - p.lastdate)
      lastdate := date } := by
  unfold ProcessorState.addActive
  dsimp only
  rw [if_pos hdate, if_pos hcheck]

theorem addIdle_eq {date : Nat} (hdate : p.lastdate ≤ date)
    (hcheck : p.tidle + (date - p.lastdate) ≤ date) :
    p.addIdle date = some { p with
      tidle := p.tidle + (date - p.lastdate)
      lastdate := date } := by
  unfold ProcessorState.addIdle
  dsimp only
  rw [if_pos hdate, if_pos hcheck]

theorem delta_of_not_changes {e : Event} (h : changes e = false) : delta e = 0 := by
  unfold changes at h
  unfold delta
  cases he : e.evtno <;> simp [he] at h ⊢

/-- The times of a live processor are those of its events. -/
theorem Live.accounts {evs : List Event} {act : Int} {sampled : Nat}
    (h : Live evs act sampled p) : Accounts evs p :=
  fun s hs hstart => ⟨h.mem, h.last, h.sum s hs hstart, h.tidle⟩

namespace Live

variable {evs : List Event} {act : Int} {sampled : Nat} {p : ProcessorState}
  {e : Event}

section

variable (h : Live evs act sampled p)
include h

theorem last_delta : ∀ x ∈ evs, delta x ≠ 0 → x.date ≤ p.lastdate := by
  intro x hx hne
  refine h.last x hx ?_
  by_contra hch
  exact hne (delta_of_not_changes (by simpa using hch))

/-- The time since the last event is active: no interval is open, or there is
none. -/
theorem addActive (hsampled : sampled ≤ e.date) (hdate : p.lastdate ≤ e.date)
    (hch : changes e = true) (hne : e.evtno ≠ .kprocStart)
    (hok : act = 1 ∨ e.date = p.lastdate) (hsum : act = 1 → (evs.map delta).sum = 0)
    (act' : Int) :
    ∃ p₁, p.addActive e.date = some p₁ ∧ p₁.active = p.active ∧ p₁.lastdate = e.date
      ∧ Live (evs ++ [e]) act' sampled { p₁ with active := act' } := by
  have hle := h.le
  have hcheck : p.tactive + (e.date - p.lastdate) ≤ e.date := by omega
  refine ⟨_, addActive_eq hdate hcheck, rfl, rfl, ?_⟩
  have htime := Occupation.time_append h.last_delta hdate
  have hzero : (if 0 < (evs.map delta).sum then e.date - p.lastdate else 0) = 0 := by
    rcases hok with h1 | h1
    · rw [hsum h1]
      rfl
    · rw [h1, Nat.sub_self, ite_self]
  rw [hzero, Nat.add_zero, ← h.tidle] at htime
  have hidle := h.lasttidle
  have hactive := h.lasttactive
  refine ⟨rfl, ?_, ?_, htime.symm, ⟨e, by simp, hch, rfl⟩, ?_, ?_, ?_,
    fun h0 => h.zero (Nat.le_zero.mp (h0 ▸ hdate))⟩
  · intro s hs hstart
    rcases List.mem_append.mp hs with hs | hs
    · have := h.sum s hs hstart
      dsimp only
      omega
    · rw [List.mem_singleton.mp hs] at hstart
      exact absurd hstart hne
  · dsimp only
    omega
  · intro x hx hxch
    rcases List.mem_append.mp hx with hx | hx
    · exact (h.last x hx hxch).trans hdate
    · rw [List.mem_singleton.mp hx]
  · dsimp only
    rcases hok with h1 | h1
    · rw [if_pos h1] at hidle
      omega
    · have hz : sampled - p.lastdate = 0 := by omega
      rw [hz, ite_self] at hidle
      omega
  · dsimp only
    have hbound : (if act = 1 then sampled - p.lastdate else 0) ≤ e.date - p.lastdate := by
      split <;> omega
    omega

/-- The time up to an event is added as idle. -/
theorem addIdle (hsampled : sampled ≤ e.date) (hdate : p.lastdate ≤ e.date)
    (hch : changes e = true) (hne : e.evtno ≠ .kprocStart) (hin : act ≠ 1)
    (hsum : 0 < (evs.map delta).sum) (act' : Int) :
    ∃ p₁, p.addIdle e.date = some p₁ ∧ p₁.active = p.active ∧ p₁.lastdate = e.date
      ∧ Live (evs ++ [e]) act' sampled { p₁ with active := act' } := by
  have hle := h.le
  have hcheck : p.tidle + (e.date - p.lastdate) ≤ e.date := by omega
  refine ⟨_, addIdle_eq hdate hcheck, rfl, rfl, ?_⟩
  have htime := Occupation.time_append h.last_delta hdate
  rw [if_pos hsum, ← h.tidle] at htime
  have hidle := h.lasttidle
  have hactive := h.lasttactive
  rw [if_neg hin] at hidle hactive
  refine ⟨rfl, ?_, ?_, htime.symm, ⟨e, by simp, hch, rfl⟩, ?_, ?_, ?_,
    fun h0 => h.zero (Nat.le_zero.mp (h0 ▸ hdate))⟩
  · intro s hs hstart
    rcases List.mem_append.mp hs with hs | hs
    · have := h.sum s hs hstart
      dsimp only
      omega
    · rw [List.mem_singleton.mp hs] at hstart
      exact absurd hstart hne
  · dsimp only
    omega
  · intro x hx hxch
    rcases List.mem_append.mp hx with hx | hx
    · exact (h.last x hx hxch).trans hdate
    · rw [List.mem_singleton.mp hx]
  · dsimp only
    omega
  · dsimp only
    omega

/-- An event that changes no state adds nothing. -/
theorem neutral (hch : changes e = false) (hne : e.evtno ≠ .kprocStart) :
    Live (evs ++ [e]) act sampled p where
  active := h.active
  sum s hs hstart := by
    rcases List.mem_append.mp hs with hs | hs
    · exact h.sum s hs hstart
    · rw [List.mem_singleton.mp hs] at hstart
      exact absurd hstart hne
  le := h.le
  tidle := by
    rw [Occupation.time_append_of_eq_zero (delta_of_not_changes hch)]
    exact h.tidle
  mem := by
    obtain ⟨x, hx, hxch, hxd⟩ := h.mem
    exact ⟨x, List.mem_append_left _ hx, hxch, hxd⟩
  last x hx hxch := by
    rcases List.mem_append.mp hx with hx | hx
    · exact h.last x hx hxch
    · rw [List.mem_singleton.mp hx, hch] at hxch
      cases hxch
  lasttidle := h.lasttidle
  lasttactive := h.lasttactive
  zero := h.zero

theorem reset (hz : p.lastdate = 0) : Live evs act 0 p := by
  obtain ⟨hz₁, hz₂⟩ := h.zero hz
  refine ⟨h.active, h.sum, h.le, h.tidle, h.mem, h.last, ?_, ?_, h.zero⟩
  · rw [hz₁]
    exact Nat.zero_le _
  · rw [hz₂]
    exact Nat.zero_le _

/-- A sample takes what was accumulated. -/
theorem sample {next : Nat} (hdate : p.lastdate ≤ next) (hsampled : sampled ≤ next) :
    ∃ p' eff, processorEfficiencyAt p next = some (p', eff) ∧ Live evs act next p'
      ∧ p'.lastdate = p.lastdate := by
  have hle := h.le
  have hidle := h.lasttidle
  have hactive := h.lasttactive
  unfold processorEfficiencyAt
  by_cases hz : p.lastdate = 0
  · rw [if_pos hz]
    obtain ⟨hz₁, hz₂⟩ := h.zero hz
    refine ⟨p, (0, 0), rfl, ⟨h.active, h.sum, h.le, h.tidle, h.mem, h.last, ?_, ?_, h.zero⟩,
      rfl⟩
    · rw [hz₁]
      exact Nat.zero_le _
    · rw [hz₂]
      exact Nat.zero_le _
  · rw [if_neg hz, if_pos hdate]
    dsimp only
    rw [h.active]
    by_cases hone : act = 1
    · simp only [if_pos hone] at hidle hactive ⊢
      rw [if_pos (by omega)]
      refine ⟨_, _, rfl, ⟨rfl, h.sum, h.le, h.tidle, h.mem, h.last, ?_, ?_, ?_⟩, rfl⟩
      · rw [if_pos hone]
        exact Nat.le_refl _
      · rw [if_pos hone]
      · exact fun h0 => absurd h0 hz
    · simp only [if_neg hone] at hidle hactive ⊢
      rw [if_pos (by omega)]
      refine ⟨_, _, rfl, ⟨rfl, h.sum, h.le, h.tidle, h.mem, h.last, ?_, ?_, ?_⟩, rfl⟩
      · rw [if_neg hone]
      · rw [if_neg hone]
        exact Nat.le_refl _
      · exact fun h0 => absurd h0 hz

end

end Live

-- ======== phases

/-- Nothing is open around an idle interval. -/
def IdleOutermost (opened : List Interval) : Prop :=
  ∀ inner outer, opened = inner ++ .idle :: outer → outer = []

theorem IdleOutermost.nil : IdleOutermost [] := by
  intro inner outer h
  simp at h

theorem IdleOutermost.idle : IdleOutermost [.idle] := by
  intro inner outer h
  cases inner with
  | nil => exact (List.cons.inj h).2.symm
  | cons i inner => simp at h

theorem IdleOutermost.tail {i : Interval} {opened : List Interval}
    (h : IdleOutermost (i :: opened)) : IdleOutermost opened :=
  fun inner outer heq => h (i :: inner) outer (by rw [heq, List.cons_append])

theorem IdleOutermost.cons {i : Interval} {opened : List Interval}
    (h : IdleOutermost opened) (hi : i ≠ .idle) : IdleOutermost (i :: opened) := by
  intro inner outer heq
  cases inner with
  | nil => exact absurd (List.cons.inj heq).1 hi
  | cons j inner => exact h inner outer (List.cons.inj heq).2

/-- The state of a processor in each phase. -/
def ProcInv (evs : List Event) (sampled : Nat) : Phase → ProcessorState → Prop
  | .before, p => evs = [] ∧ p = .init
  | .running opened, p =>
    Live evs (1 - opened.length) sampled p ∧ (evs.map delta).sum = opened.length
      ∧ IdleOutermost opened
  | .stopped, p => Live evs 0 sampled p

/-- The invariant gives the times. -/
theorem ProcInv.accounts {evs : List Event} {sampled : Nat} {ph : Phase}
    (h : ProcInv evs sampled ph p) : Accounts evs p := by
  cases ph with
  | before =>
    intro s hs
    rw [h.1] at hs
    cases hs
  | running opened => exact h.1.accounts
  | stopped => exact Live.accounts h

theorem sum_append (evs : List Event) (e : Event) :
    ((evs ++ [e]).map delta).sum = (evs.map delta).sum + delta e := by
  simp

theorem addActive_active (p : ProcessorState) (a : Int) (date : Nat) :
    ({ p with active := a } : ProcessorState).addActive date
      = (p.addActive date).map fun q => { q with active := a } := by
  unfold ProcessorState.addActive
  dsimp only
  split
  · split <;> rfl
  · rfl

theorem addIdle_active (p : ProcessorState) (a : Int) (date : Nat) :
    ({ p with active := a } : ProcessorState).addIdle date
      = (p.addIdle date).map fun q => { q with active := a } := by
  unfold ProcessorState.addIdle
  dsimp only
  split
  · split <;> rfl
  · rfl

section step

variable {evs : List Event} {sampled : Nat} {p : ProcessorState} {e : Event}
  {opened : List Interval} {i : Interval}

/-- An active interval begins. -/
theorem ProcInv.beginActive (h : ProcInv evs sampled (.running opened) p)
    (hsampled : sampled ≤ e.date) (hdate : p.lastdate ≤ e.date) (hch : changes e = true)
    (hne : e.evtno ≠ .kprocStart) (hdelta : delta e = 1)
    (hok : p.active = 1 ∨ e.date = p.lastdate) (hnew : IdleOutermost (i :: opened)) :
    ∃ p', (p.addActive e.date).map (fun p => { p with active := p.active - 1 }) = some p'
      ∧ ProcInv (evs ++ [e]) sampled (.running (i :: opened)) p' ∧ p'.lastdate ≤ e.date := by
  obtain ⟨hlive, hsum, -⟩ := h
  have hactive := hlive.active
  obtain ⟨p₁, hadd, hsame, hlast, hlive'⟩ := hlive.addActive hsampled hdate hch hne
    (hok.imp_left fun h1 => hactive ▸ h1) (by omega) (1 - ((i :: opened).length : Nat))
  refine ⟨{ p₁ with active := p₁.active - 1 }, by rw [hadd]; rfl, ⟨?_, ?_, hnew⟩, hlast.le⟩
  · have heq : p₁.active - 1 = 1 - (((i :: opened).length : Nat) : Int) := by
      rw [hsame, hactive, List.length_cons]
      omega
    rw [heq]
    exact hlive'
  · rw [sum_append, hsum, hdelta, List.length_cons]
    omega

/-- An idle interval ends. -/
theorem ProcInv.endIdle (h : ProcInv evs sampled (.running (i :: opened)) p)
    (hsampled : sampled ≤ e.date) (hdate : p.lastdate ≤ e.date) (hch : changes e = true)
    (hne : e.evtno ≠ .kprocStart) (hdelta : delta e = -1) :
    ∃ p', (p.addIdle e.date).map (fun p => { p with active := p.active + 1 }) = some p'
      ∧ ProcInv (evs ++ [e]) sampled (.running opened) p' ∧ p'.lastdate ≤ e.date := by
  obtain ⟨hlive, hsum, houter⟩ := h
  have hactive := hlive.active
  rw [List.length_cons] at hactive hsum
  obtain ⟨p₁, hadd, hsame, hlast, hnew⟩ := hlive.addIdle hsampled hdate hch hne
    (by rw [List.length_cons]; omega) (by omega) (1 - (opened.length : Nat))
  refine ⟨{ p₁ with active := p₁.active + 1 }, by rw [hadd]; rfl, ⟨?_, ?_, houter.tail⟩,
    hlast.le⟩
  · have heq : p₁.active + 1 = 1 - ((opened.length : Nat) : Int) := by
      rw [hsame, hactive]
      omega
    rw [heq]
    exact hnew
  · rw [sum_append, hsum, hdelta]
    omega

/-- A suspension begins. -/
theorem ProcInv.beginSuspend (h : ProcInv evs sampled (.running opened) p)
    (hsampled : sampled ≤ e.date) (hdate : p.lastdate ≤ e.date)
    (he : e.evtno = .suspendBeg) :
    ∃ p', processorSimulateEvent p e = some p'
      ∧ ProcInv (evs ++ [e]) sampled (.running (.suspend :: opened)) p'
      ∧ p'.lastdate ≤ e.date := by
  have hch : changes e = true := by rw [changes, he]
  have hne : e.evtno ≠ .kprocStart := by rw [he]; decide
  have hdelta : delta e = 1 := by rw [delta, he]
  obtain ⟨hlive, hsum, houter⟩ := h
  have hactive := hlive.active
  have heq : p.active - 1 = 1 - (((Interval.suspend :: opened).length : Nat) : Int) := by
    rw [hactive, List.length_cons]
    omega
  have hsum' : ((evs ++ [e]).map delta).sum = ((Interval.suspend :: opened).length : Nat) := by
    rw [sum_append, hsum, hdelta, List.length_cons]
    omega
  simp only [processorSimulateEvent, he]
  split
  · next hzero =>
    obtain ⟨p₁, hadd, -, hlast, hnew⟩ := hlive.addActive hsampled hdate hch hne
      (.inl (by omega)) (by omega) (1 - ((Interval.suspend :: opened).length : Nat))
    refine ⟨{ p₁ with active := p.active - 1 }, by rw [addActive_active, hadd]; rfl,
      ⟨?_, hsum', houter.cons (by decide)⟩, hlast.le⟩
    rw [heq]
    exact hnew
  · next hnot =>
    obtain ⟨p₁, hadd, -, hlast, hnew⟩ := hlive.addIdle hsampled hdate hch hne
      (by omega) (by omega) (1 - ((Interval.suspend :: opened).length : Nat))
    refine ⟨{ p₁ with active := p.active - 1 }, by rw [addIdle_active, hadd]; rfl,
      ⟨?_, hsum', houter.cons (by decide)⟩, hlast.le⟩
    rw [heq]
    exact hnew

/-- An event that changes no state. -/
theorem ProcInv.neutral {p' : ProcessorState} (h : ProcInv evs sampled (.running opened) p)
    (hch : changes e = false) (hne : e.evtno ≠ .kprocStart)
    (hp : ∃ tc sc, p' = { p with
      taskcount := tc
      stealcount := sc }) :
    ProcInv (evs ++ [e]) sampled (.running opened) p' := by
  obtain ⟨tc, sc, rfl⟩ := hp
  have hlive := h.1.neutral hch hne
  refine ⟨⟨hlive.active, hlive.sum, hlive.le, hlive.tidle, hlive.mem, hlive.last,
    hlive.lasttidle, hlive.lasttactive, hlive.zero⟩, ?_, h.2.2⟩
  rw [sum_append, delta_of_not_changes hch, h.2.1, add_zero]

/-- Every event in the order of the phases keeps the invariant. -/
theorem ProcInv.step {ph ph' : Phase} (h : ProcInv evs sampled ph p)
    (hnext : ph.next e = some ph') (hidle : e.evtno = .idleBeg → p.active = 1)
    (hok : e.evtno = .suspwaitBeg ∨ e.evtno = .kprocStop →
      p.active = 1 ∨ e.date = p.lastdate)
    (hsampled : sampled ≤ e.date) (hdate : p.lastdate ≤ e.date) :
    ∃ p', processorSimulateEvent p e = some p' ∧ ProcInv (evs ++ [e]) sampled ph' p'
      ∧ p'.lastdate ≤ e.date := by
  cases ph with
  | before =>
    obtain ⟨rfl, rfl⟩ := h
    simp only [Phase.next] at hnext
    split at hnext
    · next he =>
      cases hnext
      have hdelta : delta e = 0 := by rw [delta, he]
      simp only [processorSimulateEvent, he]
      refine ⟨_, rfl, ⟨⟨rfl, ?_, Nat.zero_le _, ?_, ⟨e, by simp, by rw [changes, he], rfl⟩,
        ?_, Nat.zero_le _, Nat.zero_le _, fun _ => ⟨rfl, rfl⟩⟩, ?_, .nil⟩, Nat.le_refl _⟩
      · intro s hs _
        rw [List.mem_singleton.mp hs]
        exact Nat.zero_add _
      · rw [Occupation.time_append_of_eq_zero hdelta, Occupation.time_nil]
      · intro x hx _
        rw [List.mem_singleton.mp hx]
      · rw [sum_append, hdelta]
        rfl
    · cases hnext
  | stopped => cases hnext
  | running opened =>
    cases he : e.evtno with
    | kprocStart =>
      simp only [Phase.next, he] at hnext
      cases hnext
    | kprocStop =>
      simp only [Phase.next, he] at hnext
      cases hnext
      obtain ⟨hlive, hsum, -⟩ := h
      have hactive := hlive.active
      obtain ⟨p₁, hadd, -, hlast, hnew⟩ := hlive.addActive hsampled hdate
        (by rw [changes, he]) (by rw [he]; decide)
        ((hok (.inr he)).imp_left fun h1 => hactive ▸ h1) (by omega) 0
      simp only [processorSimulateEvent, he]
      exact ⟨{ p₁ with active := 0 }, by rw [hadd]; rfl, hnew, hlast.le⟩
    | idleBeg =>
      simp only [Phase.next, he] at hnext
      cases hnext
      have h1 := hidle he
      simp only [processorSimulateEvent, he]
      rw [if_pos h1]
      have hnone : opened = [] := by
        have hactive := h.1.active
        exact List.length_eq_zero_iff.mp (by omega)
      subst hnone
      exact h.beginActive hsampled hdate (by rw [changes, he]) (by rw [he]; decide)
        (by rw [delta, he]) (.inl h1) .idle
    | suspendBeg =>
      simp only [Phase.next, he] at hnext
      cases hnext
      exact h.beginSuspend hsampled hdate he
    | suspwaitBeg =>
      simp only [Phase.next, he] at hnext
      cases hnext
      simp only [processorSimulateEvent, he]
      exact h.beginActive hsampled hdate (by rw [changes, he]) (by rw [he]; decide)
        (by rw [delta, he]) (hok (.inl he)) (h.2.2.cons (by decide))
    | idleEnd =>
      obtain ⟨rest, rfl, rfl⟩ : ∃ rest, opened = .idle :: rest ∧ ph' = .running rest := by
        cases opened with
        | nil => simp [Phase.next, he] at hnext
        | cons i rest =>
          cases i <;> simp [Phase.next, he] at hnext
          exact ⟨rest, rfl, hnext.symm⟩
      have hzero : p.active = 0 := by
        rw [h.1.active, h.2.2 [] rest rfl]
        rfl
      simp only [processorSimulateEvent, he]
      rw [if_pos hzero]
      exact h.endIdle hsampled hdate (by rw [changes, he]) (by rw [he]; decide)
        (by rw [delta, he])
    | suspendEnd =>
      obtain ⟨rest, rfl, rfl⟩ :
          ∃ rest, opened = .suspend :: rest ∧ ph' = .running rest := by
        cases opened with
        | nil => simp [Phase.next, he] at hnext
        | cons i rest =>
          cases i <;> simp [Phase.next, he] at hnext
          exact ⟨rest, rfl, hnext.symm⟩
      simp only [processorSimulateEvent, he]
      exact h.endIdle hsampled hdate (by rw [changes, he]) (by rw [he]; decide)
        (by rw [delta, he])
    | suspwaitEnd =>
      obtain ⟨rest, rfl, rfl⟩ :
          ∃ rest, opened = .suspwait :: rest ∧ ph' = .running rest := by
        cases opened with
        | nil => simp [Phase.next, he] at hnext
        | cons i rest =>
          cases i <;> simp [Phase.next, he] at hnext
          exact ⟨rest, rfl, hnext.symm⟩
      simp only [processorSimulateEvent, he]
      exact h.endIdle hsampled hdate (by rw [changes, he]) (by rw [he]; decide)
        (by rw [delta, he])
    | staticTaskBeg =>
      simp only [Phase.next, he] at hnext
      cases hnext
      simp only [processorSimulateEvent, he]
      exact ⟨_, rfl, h.neutral (by rw [changes, he]) (by rw [he]; decide) ⟨_, _, rfl⟩,
        hdate⟩
    | recvReply d2 =>
      simp only [Phase.next, he] at hnext
      cases hnext
      simp only [processorSimulateEvent, he]
      refine ⟨_, rfl, h.neutral (by rw [changes, he]) (by rw [he]; simp) ?_, ?_⟩
      · split
        · exact ⟨_, _, rfl⟩
        · exact ⟨p.taskcount, p.stealcount, rfl⟩
      · split <;> exact hdate
    | other =>
      simp only [Phase.next, he] at hnext
      cases hnext
      simp only [processorSimulateEvent, he]
      exact ⟨p, rfl, h.neutral (by rw [changes, he]) (by rw [he]; decide)
        ⟨p.taskcount, p.stealcount, rfl⟩, hdate⟩

/-- So does a sample. -/
theorem ProcInv.sample {ph : Phase} {next : Nat} (h : ProcInv evs sampled ph p)
    (hdate : p.lastdate ≤ next) (hsampled : sampled ≤ next) :
    ∃ p' eff, processorEfficiencyAt p next = some (p', eff) ∧ ProcInv evs next ph p'
      ∧ p'.lastdate = p.lastdate := by
  cases ph with
  | before =>
    obtain ⟨rfl, rfl⟩ := h
    exact ⟨.init, (0, 0), rfl, ⟨rfl, rfl⟩, rfl⟩
  | running opened =>
    obtain ⟨hlive, hsum⟩ := h
    obtain ⟨p', eff, heq, hlive', hlast⟩ := hlive.sample hdate hsampled
    exact ⟨p', eff, heq, ⟨hlive', hsum⟩, hlast⟩
  | stopped =>
    exact Live.sample h hdate hsampled

end step

-- ======== the processors

/-- Each processor has been through its events of `done`, and its last date
is not after `T`. -/
def Tracks (done : List Event) (sampled T : Nat) (procs : List ProcessorState) : Prop :=
  ∀ k p, procs[k]? = some p → ∃ ph, run Phase.next (eventsOf k done) .before = some ph
    ∧ ProcInv (eventsOf k done) sampled ph p ∧ p.lastdate ≤ T

theorem eventsOf_append (k : Nat) (done rest : List Event) :
    eventsOf k (done ++ rest) = eventsOf k done ++ eventsOf k rest := by
  simp [eventsOf]

theorem eventsOf_self (e : Event) : eventsOf e.kid [e] = [e] := by
  simp [eventsOf]

theorem eventsOf_other {k : Nat} {e : Event} (h : e.kid ≠ k) : eventsOf k [e] = [] := by
  simp [eventsOf, h]

/-- The processors before the first event. -/
theorem Tracks.init (count T : Nat) : Tracks [] T T (List.replicate count .init) := by
  intro k p hp
  obtain rfl := List.eq_of_mem_replicate (List.mem_of_getElem? hp)
  exact ⟨.before, rfl, ⟨rfl, rfl⟩, Nat.zero_le _⟩

section procs

variable {done events : List Event} {sampled T T' : Nat} {procs : List ProcessorState}
  {e : Event}

theorem Tracks.mono (h : Tracks done sampled T procs) (hle : T ≤ T') :
    Tracks done sampled T' procs := by
  intro k p hp
  obtain ⟨ph, hrun, hinv, hdate⟩ := h k p hp
  exact ⟨ph, hrun, hinv, hdate.trans hle⟩

/-- One event of one processor. -/
theorem Tracks.step (h : Tracks done sampled T procs) (hok : EventOk e procs)
    (hphase : (run Phase.next (eventsOf e.kid (done ++ [e])) .before).isSome = true)
    (hsampled : sampled ≤ e.date) (hT : T ≤ e.date) :
    ∃ procs', procStep e procs = some procs' ∧ Tracks (done ++ [e]) sampled e.date procs'
      ∧ procs'.length = procs.length := by
  obtain ⟨p, hp, hidle, hstop⟩ := hok
  obtain ⟨ph, hrun, hinv, hdate⟩ := h e.kid p hp
  obtain ⟨ph', hrun'⟩ := Option.isSome_iff_exists.mp hphase
  have hnext : ph.next e = some ph' := by
    rw [eventsOf_append, eventsOf_self, run_append_eq_some] at hrun'
    obtain ⟨ph₁, hrun₁, hone⟩ := hrun'
    cases hrun.symm.trans hrun₁
    obtain ⟨ph₂, hnext, heq⟩ := run_cons_eq_some.mp hone
    exact hnext.trans heq
  obtain ⟨p', hp', hinv', hdate'⟩ := hinv.step hnext hidle hstop hsampled (hdate.trans hT)
  refine ⟨procs.set e.kid p', by simp [procStep, hp, hp'], ?_, List.length_set⟩
  intro k q hq
  by_cases hk : e.kid = k
  · subst hk
    have hlt : e.kid < procs.length := (List.getElem?_eq_some_iff.mp hp).1
    rw [List.getElem?_set_self hlt] at hq
    cases hq
    refine ⟨ph', hrun', ?_, hdate'⟩
    rw [eventsOf_append, eventsOf_self]
    exact hinv'
  · rw [List.getElem?_set_ne hk] at hq
    rw [eventsOf_append, eventsOf_other hk, List.append_nil]
    obtain ⟨ph₁, hrun₁, hinv₁, hdate₁⟩ := h k q hq
    exact ⟨ph₁, hrun₁, hinv₁, hdate₁.trans hT⟩

/-- The events of one interval. -/
theorem Tracks.loop {next : Nat} (h : Tracks done sampled T procs)
    (hok : Along procStep EventOk (events.takeWhile fun e => e.date < next) procs)
    (hphase : ∀ k, (run Phase.next (eventsOf k (done ++ events)) .before).isSome = true)
    (hsorted : events.Pairwise fun e e' => e.date ≤ e'.date)
    (hT : ∀ e ∈ events, T ≤ e.date) (hsampled : sampled ≤ T) (hnext : T ≤ next) :
    ∃ retval seen rest procs', eventLoop next events procs = some (retval, rest, procs')
      ∧ events = seen ++ rest ∧ Tracks (done ++ seen) sampled next procs'
      ∧ procs'.length = procs.length ∧ ∀ e ∈ rest, next ≤ e.date := by
  induction events generalizing done T procs with
  | nil =>
    refine ⟨false, [], [], procs, rfl, rfl, ?_, rfl, by simp⟩
    rw [List.append_nil]
    exact h.mono hnext
  | cons e events ih =>
    rw [List.pairwise_cons] at hsorted
    unfold eventLoop
    by_cases hlt : next ≤ e.date
    · rw [if_pos hlt]
      refine ⟨true, [], e :: events, procs, rfl, rfl, ?_, rfl, ?_⟩
      · rw [List.append_nil]
        exact h.mono hnext
      · intro x hx
        rcases List.mem_cons.mp hx with rfl | hx
        · exact hlt
        · exact hlt.trans (hsorted.1 x hx)
    · rw [if_neg hlt]
      rw [List.takeWhile_cons_of_pos (by simpa using hlt)] at hok
      have hassoc : done ++ e :: events = done ++ [e] ++ events := by simp
      have hTe := hT e List.mem_cons_self
      have hprefix : (run Phase.next (eventsOf e.kid (done ++ [e])) .before).isSome := by
        obtain ⟨ph, hph⟩ := Option.isSome_iff_exists.mp (hphase e.kid)
        rw [hassoc, eventsOf_append, run_append_eq_some] at hph
        obtain ⟨ph₁, hph₁, -⟩ := hph
        rw [hph₁]
        rfl
      obtain ⟨procs₁, hstep, htracks, hlen⟩ :=
        h.step hok.1 hprefix (hsampled.trans hTe) hTe
      obtain ⟨retval, seen, rest, procs', hloop, heq, htracks', hlen', hrest⟩ :=
        ih htracks (hok.2 procs₁ hstep) (fun k => hassoc ▸ hphase k) hsorted.2 hsorted.1
          (hsampled.trans hTe) (Nat.le_of_not_le hlt)
      refine ⟨retval, e :: seen, rest, procs', ?_, by rw [heq]; rfl, ?_,
        hlen'.trans hlen, hrest⟩
      · rw [hstep]
        exact hloop
      · rw [List.append_assoc] at htracks'
        exact htracks'

/-- The sample at its end. -/
theorem Tracks.sample {next : Nat} (h : Tracks done sampled next procs)
    (hsampled : sampled ≤ next) :
    ∃ ys, (procs.mapM fun p => processorEfficiencyAt p next) = some ys
      ∧ Tracks done next next (ys.map Prod.fst) ∧ ys.length = procs.length := by
  have hmap : (procs.mapM fun p => processorEfficiencyAt p next)
      = some (procs.map fun p => (processorEfficiencyAt p next).getD (p, 0, 0)) := by
    refine ForLoop.mapM_some fun p hp => ?_
    obtain ⟨k, hk⟩ := List.mem_iff_getElem?.mp hp
    obtain ⟨ph, -, hinv, hdate⟩ := h k p hk
    obtain ⟨p', eff, heq, -⟩ := hinv.sample hdate hsampled
    rw [heq, Option.getD_some]
  refine ⟨_, hmap, ?_, List.length_map _⟩
  intro k q hq
  rw [List.map_map, List.getElem?_map, Option.map_eq_some_iff] at hq
  obtain ⟨p, hp, rfl⟩ := hq
  obtain ⟨ph, hrun, hinv, hdate⟩ := h k p hp
  obtain ⟨p', eff, heq, hinv', hlast⟩ := hinv.sample hdate hsampled
  refine ⟨ph, hrun, ?_⟩
  rw [Function.comp_apply, heq, Option.getD_some]
  exact ⟨hinv', hlast.trans_le hdate⟩

theorem Tracks.reset (h : Tracks done sampled T procs)
    (hzero : ∀ p ∈ procs, p.lastdate = 0) : Tracks done 0 0 procs := by
  intro k p hp
  obtain ⟨ph, hrun, hinv, -⟩ := h k p hp
  have hz := hzero p (List.mem_of_getElem? hp)
  refine ⟨ph, hrun, ?_, hz.le⟩
  cases ph with
  | before => exact hinv
  | running opened => exact ⟨hinv.1.reset hz, hinv.2⟩
  | stopped => exact Live.reset hinv hz

end procs

-- ======== the runs

/-- The simulator between two calls: the events that are left, and the
processors after the others. -/
def SimInv (trace : List Event) (count : Nat) (sim : Sim) : Prop :=
  ∃ done, trace = done ++ sim.events ∧ Tracks done sim.tsim sim.tsim sim.procs
    ∧ sim.procs.length = count ∧ ∀ e ∈ sim.events, sim.tsim ≤ e.date

/-- A step of the simulator: an interval and a sample. -/
theorem SimInv.step {trace : List Event} {count : Nat} {u : Unit} {sim : Sim}
    (hwf : WellFormed trace) (hok : StepOk u sim) (h : SimInv trace count sim) :
    ∃ sim', step u sim = some sim' ∧ SimInv trace count sim' := by
  by_cases hnil : sim.events = []
  · refine ⟨sim, ?_, h⟩
    rw [Simulator.step, oneStepSimulator, if_pos hnil]
    rfl
  obtain ⟨done, htrace, htracks, hlen, hle⟩ := h
  obtain ⟨hback, halong⟩ := hok hnil
  -- the last sampling date that the accounts are compared with
  obtain ⟨T, htracks, hT, hnext⟩ : ∃ T, Tracks done T T sim.procs
      ∧ (∀ e ∈ sim.events, T ≤ e.date) ∧ T ≤ sim.nextTsim := by
    rcases hback with hback | hzero
    · exact ⟨sim.tsim, htracks, hle, hback⟩
    · exact ⟨0, htracks.reset hzero, fun _ _ => Nat.zero_le _, Nat.zero_le _⟩
  have hsorted : sim.events.Pairwise fun e e' => e.date ≤ e'.date := by
    have hs := hwf.sorted
    rw [htrace] at hs
    exact (List.pairwise_append.mp hs).2.1
  obtain ⟨retval, seen, rest, procs, hloop, hevents, htracks', hlen', hrest⟩ :=
    htracks.loop halong (fun k => htrace ▸ hwf.phases k) hsorted hT (Nat.le_refl T) hnext
  obtain ⟨ys, hys, htracks'', hlen''⟩ := htracks'.sample hnext
  refine ⟨{ sim with
    events := rest
    tsim := sim.nextTsim
    procs := ys.map Prod.fst }, ?_, done ++ seen, ?_, htracks'', ?_, hrest⟩
  · rw [Simulator.step, oneStepSimulator, if_neg hnil, hloop]
    simp [hys]
  · rw [List.append_assoc, ← hevents]
    exact htrace
  · rw [List.length_map, hlen'', hlen', hlen]

/-- The calls go through, and the account of every processor is that of its
events so far. -/
theorem simulator_accounts {trace : List Event} {hres count : Nat} {us : List Unit}
    (hwf : WellFormed trace) (hok : Along step StepOk us (openSimulator trace hres count)) :
    ∃ sim done, run step us (openSimulator trace hres count) = some sim
      ∧ trace = done ++ sim.events ∧ sim.procs.length = count
      ∧ ∀ k p, sim.procs[k]? = some p → Accounts (eventsOf k done) p := by
  have hinit : SimInv trace count (openSimulator trace hres count) :=
    ⟨[], rfl, .init count 0, List.length_replicate, fun _ _ => Nat.zero_le _⟩
  obtain ⟨sim, hrun, done, htrace, htracks, hlen, -⟩ :=
    hok.run_simulates (f := fun _ (t : Unit) => t) (R := fun sim _ => SimInv trace count sim)
      (fun hq hinv => hinv.step hwf hq) (t := ()) hinit
  refine ⟨sim, done, hrun, htrace, hlen, fun k p hp => ?_⟩
  obtain ⟨ph, -, hinv, -⟩ := htracks k p hp
  exact hinv.accounts

/-- Two processors; the first is suspended while it is idle. -/
def nestedTrace : List Event :=
  [⟨5, 0, .kprocStart⟩, ⟨7, 0, .idleBeg⟩, ⟨8, 0, .suspendBeg⟩, ⟨9, 1, .kprocStart⟩,
    ⟨10, 0, .suspendEnd⟩, ⟨12, 0, .idleEnd⟩, ⟨13, 1, .suspwaitBeg⟩, ⟨15, 0, .kprocStop⟩]

theorem nestedTrace_wellFormed : WellFormed nestedTrace := by
  refine ⟨by decide, fun k => ?_⟩
  rcases k with _ | _ | k
  · rfl
  · rfl
  · simp [eventsOf, nestedTrace]

theorem simulator_accounts_nested :
    ∃ sim done, run step [(), (), ()] (openSimulator nestedTrace 6 2) = some sim
      ∧ nestedTrace = done ++ sim.events ∧ sim.procs.length = 2
      ∧ ∀ k p, sim.procs[k]? = some p → Accounts (eventsOf k done) p :=
  simulator_accounts nestedTrace_wellFormed (by decide)

/-- A processor that stops while it is idle: its last interval is counted as
active. -/
theorem simulator_not_accounts :
    ¬ ∀ (trace : List Event) (hres count : Nat) (us : List Unit), WellFormed trace →
      ∃ sim done, run step us (openSimulator trace hres count) = some sim
        ∧ trace = done ++ sim.events ∧ sim.procs.length = count
        ∧ ∀ k p, sim.procs[k]? = some p → Accounts (eventsOf k done) p := by
  intro h
  have hwf : WellFormed [⟨1, 0, .kprocStart⟩, ⟨2, 0, .idleBeg⟩, ⟨5, 0, .kprocStop⟩] := by
    refine ⟨by decide, fun k => ?_⟩
    rcases k with _ | k
    · rfl
    · simp [eventsOf]
  obtain ⟨sim, done, hrun, htrace, -, hall⟩ := h _ 10 1 [()] hwf
  have hsim : run step [()] (openSimulator [⟨1, 0, .kprocStart⟩, ⟨2, 0, .idleBeg⟩,
      ⟨5, 0, .kprocStop⟩] 10 1)
      = some ⟨[], 10, 10, [⟨0, 0, 0, 4, 0, 5, 4, 5⟩]⟩ := by decide
  obtain rfl := Option.some.inj (hsim.symm.trans hrun)
  rw [List.append_nil] at htrace
  subst htrace
  have hidle := (hall 0 _ rfl ⟨1, 0, .kprocStart⟩ (by decide) rfl).2.2.2
  revert hidle
  decide

-- An idle interval inside a suspension; a processor outside of the vector.
example : step () (openSimulator [⟨1, 0, .kprocStart⟩, ⟨2, 0, .suspendBeg⟩,
    ⟨3, 0, .idleBeg⟩] 10 1) = none := by decide

example : step () (openSimulator [⟨1, 3, .kprocStart⟩] 10 1) = none := by decide

end XKaapi.Trace.Simulator
