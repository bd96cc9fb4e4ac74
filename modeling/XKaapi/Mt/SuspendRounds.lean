/-
The rounds of suspension.

`WorkerOk` tells what is known of a worker by its place in the code: while
it may still count itself it has not entered the open round, and while it
sleeps on the current sequence number the round it has entered is not
closed. `Inv` adds who has the mutex, and that the counter is the number
of workers that have entered the round, up to its reset by the resume.

The two progress theorems are the other half of the bookkeeping: from any
state the workers alone can bring a wait to its end, and after a resume
every worker can leave.
-/
import XKaapi.Mt.SuspendResume

namespace XKaapi.Mt

open StepMachine (run Along)

-- ======== invariant

/-- What holds of a worker, told by the main thread's place, the round,
the sequence number and whether the condition is bound to the mutex. -/
def WorkerOk (m : MainPc) (round seq : Nat) (bound : Bool) (x : Worker) :
    Prop :=
  x.entered ≤ round ∧ (m = .posting → x.entered < round) ∧
  match x.pc with
  | .running => m.isOpen = true → x.entered < round
  | .locking => x.first = true
  | .testing => x.first = true ∧ (m.isOpen = true → x.entered < round)
  | .leaving => m.isOpen = true → x.entered < round
  | .reading => x.first = true ∧ m.isOpen = true ∧ x.entered < round
  | .counting newround =>
    x.first = true ∧ m.isOpen = true ∧ newround = round ∧ x.entered < round
  | .waiting => x.first = true ∧ m.isOpen = true ∧ x.entered = round
  | .unlocking sq =>
    x.first = true ∧ m.isOpen = true ∧ x.entered = round ∧ sq = seq
      ∧ bound = true
  | .asleep sq =>
    x.first = true ∧ bound = true ∧ sq ≤ seq ∧
      (sq = seq → x.entered = round
        ∧ (m.isOpen = true ∨ m = .zeroing ∨ m = .waking))
  | .awake => x.first = true

variable {seq round : Nat} {m : MainPc} {bound : Bool} {x : Worker}

theorem WorkerOk.congr {m' : MainPc} (h : WorkerOk m round seq bound x)
    (ho : m'.isOpen = m.isOpen) (hp : m' ≠ .posting)
    (hz : m = .zeroing ∨ m = .waking → m' = .zeroing ∨ m' = .waking) :
    WorkerOk m' round seq bound x := by
  unfold WorkerOk at h ⊢
  refine ⟨h.1, fun hm => absurd hm hp, ?_⟩
  rw [ho]
  have hrest := h.2.2
  cases hpc : x.pc with
  | asleep sq =>
    rw [hpc] at hrest
    refine ⟨hrest.1, hrest.2.1, hrest.2.2.1, fun hsq => ?_⟩
    obtain ⟨hent, hwhere⟩ := hrest.2.2.2 hsq
    exact ⟨hent, hwhere.imp_right hz⟩
  | _ =>
    rw [hpc] at hrest
    exact hrest

theorem WorkerOk.closed (h : WorkerOk m round seq bound x) (hm : m = .idle ∨ m = .posting) :
    (∀ sq, x.pc = .asleep sq → sq ≠ seq)
      ∧ (x.pc.holds = true → x.pc = .testing ∨ x.pc = .leaving) := by
  unfold WorkerOk at h
  have hrest := h.2.2
  have hno : m.isOpen = false := by
    rcases hm with rfl | rfl
    · rfl
    · rfl
  have hopen : ¬ m.isOpen = true := by
    rw [hno]
    exact Bool.false_ne_true
  cases hpc : x.pc with
  | asleep sq =>
    rw [hpc] at hrest
    refine ⟨fun sq' heq hsq => ?_, nofun⟩
    injection heq with heq
    rcases (hrest.2.2.2 (heq.trans hsq)).2 with ho | hz | hz
    · exact hopen ho
    · rcases hm with rfl | rfl
      · cases hz
      · cases hz
    · rcases hm with rfl | rfl
      · cases hz
      · cases hz
  | testing => exact ⟨nofun, fun _ => .inl rfl⟩
  | leaving => exact ⟨nofun, fun _ => .inr rfl⟩
  | running => exact ⟨nofun, nofun⟩
  | locking => exact ⟨nofun, nofun⟩
  | awake => exact ⟨nofun, nofun⟩
  | reading =>
    rw [hpc] at hrest
    exact absurd hrest.2.1 hopen
  | counting nr =>
    rw [hpc] at hrest
    exact absurd hrest.2.1 hopen
  | waiting =>
    rw [hpc] at hrest
    exact absurd hrest.2.1 hopen
  | unlocking sq =>
    rw [hpc] at hrest
    exact absurd hrest.2.1 hopen

/-- A round begins. -/
theorem WorkerOk.start {m' : MainPc} {round' : Nat} (h : WorkerOk m round seq bound x)
    (hm : m = .idle ∨ m = .posting) (hlt : x.entered < round') :
    WorkerOk m' round' seq bound x := by
  obtain ⟨hsleep, hholds⟩ := h.closed hm
  unfold WorkerOk at h ⊢
  refine ⟨hlt.le, fun _ => hlt, ?_⟩
  have hrest := h.2.2
  cases hpc : x.pc with
  | running => exact fun _ => hlt
  | leaving => exact fun _ => hlt
  | locking =>
    rw [hpc] at hrest
    exact hrest
  | awake =>
    rw [hpc] at hrest
    exact hrest
  | testing =>
    rw [hpc] at hrest
    exact ⟨hrest.1, fun _ => hlt⟩
  | asleep sq =>
    rw [hpc] at hrest
    exact ⟨hrest.1, hrest.2.1, hrest.2.2.1,
      fun hsq => absurd hsq (hsleep sq hpc)⟩
  | _ =>
    rw [hpc] at hholds
    rcases hholds rfl with heq | heq
    all_goals cases heq

/-- A round closes. -/
theorem WorkerOk.close (h : WorkerOk .clearing round seq bound x)
    (hx : x.pc.holds = false) : WorkerOk .zeroing round seq bound x := by
  unfold WorkerOk at h ⊢
  refine ⟨h.1, nofun, ?_⟩
  have hrest := h.2.2
  cases hpc : x.pc with
  | running => exact nofun
  | locking =>
    rw [hpc] at hrest
    exact hrest
  | awake =>
    rw [hpc] at hrest
    exact hrest
  | asleep sq =>
    rw [hpc] at hrest
    exact ⟨hrest.1, hrest.2.1, hrest.2.2.1,
      fun hsq => ⟨(hrest.2.2.2 hsq).1, .inr (.inl rfl)⟩⟩
  | _ =>
    rw [hpc] at hx
    cases hx

/-- The workers are woken. -/
theorem WorkerOk.wake (h : WorkerOk .waking round seq bound x) :
    WorkerOk .unlocking round (if bound then seq + 1 else seq) bound x := by
  unfold WorkerOk at h ⊢
  refine ⟨h.1, nofun, ?_⟩
  have hrest := h.2.2
  cases hpc : x.pc with
  | unlocking sq =>
    rw [hpc] at hrest
    exact absurd hrest.2.1 Bool.false_ne_true
  | asleep sq =>
    rw [hpc] at hrest
    obtain ⟨hfirst, hb, hle, -⟩ := hrest
    refine ⟨hfirst, hb, ?_, fun hsq => ?_⟩
    · rw [if_pos hb]
      exact Nat.le_succ_of_le hle
    · rw [if_pos hb] at hsq
      omega
  | _ =>
    rw [hpc] at hrest
    exact hrest

namespace Team

/-- The flag is set while a round is open, the mutex names the thread
between its lock and its unlock, and the counter is kept. -/
structure Inv (s : Team) : Prop where
  flag : s.suspendflag ≠ 0 ↔ s.main.isOpen = true
  mutexMain : s.mutex = some .main ↔ s.main.holds = true
  mutexWorker : ∀ w < s.nworkers,
    s.mutex = some (.worker w) ↔ (s.workers w).pc.holds = true
  mutexLt : ∀ w, s.mutex = some (.worker w) → w < s.nworkers
  ok : ∀ w < s.nworkers,
    WorkerOk s.main s.suspendRound s.seq s.bound (s.workers w)
  counter : s.main.isOpen = true ∨ s.main = .zeroing →
    s.suspendedthreads = s.enteredNow
  closed : s.main.isOpen = false → s.main ≠ .zeroing → s.suspendedthreads = 0

variable {w : Nat} {s s' : Team} {x : Worker} {a : Act}

theorem inv_init (n : Nat) : Inv (init n) where
  flag := iff_of_false (fun h => h rfl) Bool.false_ne_true
  mutexMain := iff_of_false nofun Bool.false_ne_true
  mutexWorker := fun _ _ => iff_of_false nofun Bool.false_ne_true
  mutexLt := nofun
  ok := by
    intro w _
    exact ⟨Nat.le_refl 0, nofun, nofun⟩
  counter := by
    intro h
    rcases h with h | h
    · cases h
    · cases h
  closed := fun _ _ => rfl

-- ======== steps

/-- What the step of a worker does to the mutex. -/
inductive MutexMove (w : Nat) (pc pc' : WorkerPc) (m m' : Option Party) : Prop
  | keep (hm : m' = m) (h : pc'.holds = pc.holds)
  | lock (hm : m = none) (hm' : m' = some (.worker w)) (h : pc'.holds = true)
  | unlock (hm' : m' = none) (h : pc.holds = true) (h' : pc'.holds = false)

/-- What it does to the counter: it enters the open round, or its round
and the counter stay. -/
inductive Counting (s : Team) (x x' : Worker) (c : Nat) : Prop
  | keep (hc : c = s.suspendedthreads) (h : x'.entered = x.entered)
  | enter (hc : c = s.suspendedthreads + 1) (ho : s.main.isOpen = true)
      (h : x.entered ≠ s.suspendRound) (h' : x'.entered = s.suspendRound)

section

variable (h : Inv s)
include h

theorem Inv.mutex_of_holds (hw : w < s.nworkers) (hx : (s.workers w).pc.holds = true) :
    s.mutex = some (.worker w) :=
  (h.mutexWorker w hw).mpr hx

theorem Inv.move (hw : w < s.nworkers) {m : Option Party} {c : Nat} {b : Bool}
    (hm : MutexMove w (s.workers w).pc x.pc s.mutex m) (hb : s.bound = true → b = true)
    (hok : WorkerOk s.main s.suspendRound s.seq b x) (hc : Counting s (s.workers w) x c) :
    Inv { s with
      mutex := m
      suspendedthreads := c
      bound := b
      workers := Function.update s.workers w x } := by
  -- the mutex of the others
  have hmain : m = some .main ↔ s.mutex = some .main := by
    cases hm with
    | keep hm hx => rw [hm]
    | lock hm hm' hx =>
      rw [hm, hm']
      exact iff_of_false nofun nofun
    | unlock hm' hx hx' =>
      rw [hm', h.mutex_of_holds hw hx]
      exact iff_of_false nofun nofun
  have hother : ∀ u, u ≠ w →
      (m = some (.worker u) ↔ s.mutex = some (.worker u)) := by
    intro u hu
    have hne : some (Party.worker w) ≠ some (.worker u) := by
      intro heq
      injection heq with heq
      injection heq with heq
      exact hu heq.symm
    cases hm with
    | keep hm hx => rw [hm]
    | lock hm hm' hx =>
      rw [hm, hm']
      exact iff_of_false hne nofun
    | unlock hm' hx hx' =>
      rw [hm', h.mutex_of_holds hw hx]
      exact iff_of_false nofun hne
  have hself : m = some (.worker w) ↔ x.pc.holds = true := by
    cases hm with
    | keep hm hx =>
      rw [hm, hx]
      exact h.mutexWorker w hw
    | lock hm hm' hx => exact iff_of_true hm' hx
    | unlock hm' hx hx' =>
      rw [hm', hx']
      exact iff_of_false nofun Bool.false_ne_true
  refine ⟨h.flag, hmain.trans h.mutexMain, ?_, ?_, ?_, ?_, ?_⟩
  · intro u hu
    dsimp only
    rcases eq_or_ne u w with rfl | hne
    · rw [Function.update_self]
      exact hself
    · rw [Function.update_of_ne hne]
      exact (hother u hne).trans (h.mutexWorker u hu)
  · intro u hu
    rcases eq_or_ne u w with rfl | hne
    · exact hw
    · exact h.mutexLt u ((hother u hne).mp hu)
  · intro u hu
    dsimp only
    rcases eq_or_ne u w with rfl | hne
    · rw [Function.update_self]
      exact hok
    · rw [Function.update_of_ne hne]
      have hu' := h.ok u hu
      unfold WorkerOk at hu' ⊢
      refine ⟨hu'.1, hu'.2.1, ?_⟩
      have hrest := hu'.2.2
      cases hpc : (s.workers u).pc with
      | unlocking sq =>
        rw [hpc] at hrest
        exact ⟨hrest.1, hrest.2.1, hrest.2.2.1, hrest.2.2.2.1, hb hrest.2.2.2.2⟩
      | asleep sq =>
        rw [hpc] at hrest
        exact ⟨hrest.1, hb hrest.2.1, hrest.2.2⟩
      | _ =>
        rw [hpc] at hrest
        exact hrest
  · intro hopen
    have hsum := Tally.sum_update hw
      (fun x : Worker => if x.entered = s.suspendRound then 1 else 0) s.workers x
    have hcount := h.counter hopen
    unfold enteredNow at hcount ⊢
    dsimp only at hsum ⊢
    cases hc with
    | keep hc hx =>
      rw [hx] at hsum
      omega
    | enter hc ho hx hx' =>
      rw [if_neg hx, if_pos hx'] at hsum
      omega
  · intro hopen hz
    cases hc with
    | keep hc hx => exact hc.trans (h.closed hopen hz)
    | enter hc ho hx hx' =>
      dsimp only at hopen
      rw [ho] at hopen
      cases hopen

theorem Inv.flag_eq_zero (hf : s.suspendflag = 0) : s.main.isOpen = false := by
  rw [← Bool.not_eq_true, ← h.flag]
  exact fun hne => hne hf

/-- Every step of a worker keeps the invariant. -/
theorem Inv.workerStep (hw : w < s.nworkers) (hm : Meets (.worker w) s)
    (hs : workerStep w (s.workers w) s = some s') : Inv s' := by
  have hok := h.ok w hw
  have hmove := fun {x m c b} => h.move hw (x := x) (m := m) (c := c) (b := b)
  have hmeets : (s.workers w).pc = .locking → s.suspendflag ≠ 0 →
      (s.workers w).entered ≠ s.suspendRound := hm
  rcases hx : s.workers w with ⟨pc, first, round, entered⟩
  rw [hx] at hok hmeets hmove hs
  unfold WorkerOk at hok
  obtain ⟨hle, hpost, hrest⟩ := hok
  unfold Team.workerStep at hs
  cases pc with
  | running => cases hs
  | locking =>
    simp only at hs hrest hmeets
    split at hs
    next hfree =>
      cases hs
      refine hmove (.lock hfree rfl rfl) id ⟨hle, hpost, hrest, fun ho => ?_⟩
        (.keep rfl rfl)
      exact Nat.lt_of_le_of_ne hle (hmeets trivial (h.flag.mpr ho))
    next => cases hs
  | testing =>
    simp only at hs hrest
    split at hs
    next hf =>
      cases hs
      exact hmove (.keep rfl rfl) id ⟨hle, hpost, hrest.2⟩ (.keep rfl rfl)
    next hf =>
      injection hs with hs
      have ho := h.flag.mp hf
      rw [← hs]
      exact hmove (.keep rfl rfl) id ⟨hle, hpost, hrest.1, ho, hrest.2 ho⟩
        (.keep rfl rfl)
  | leaving =>
    cases hs
    exact hmove (.unlock rfl rfl rfl) id ⟨hle, hpost, hrest⟩ (.keep rfl rfl)
  | reading =>
    cases hs
    exact hmove (.keep rfl rfl) id ⟨hle, hpost, hrest.1, hrest.2.1, rfl,
      hrest.2.2⟩
      (.keep rfl rfl)
  | counting newround =>
    obtain ⟨hfirst, ho, hnew, hlt⟩ := hrest
    simp only at hfirst hnew
    rw [hfirst, hnew] at hs
    injection hs with hs
    have hno : s.main ≠ .posting := by
      intro hp
      rw [hp] at ho
      cases ho
    rw [← hs]
    exact hmove (.keep rfl rfl) id
      ⟨Nat.le_refl _, fun hp => absurd hp hno, rfl, ho, rfl⟩
      (.enter rfl ho (Nat.ne_of_lt hlt) rfl)
  | waiting =>
    cases hs
    exact hmove (.keep rfl rfl) (fun _ => rfl)
      ⟨hle, hpost, hrest.1, hrest.2.1, hrest.2.2, rfl, rfl⟩ (.keep rfl rfl)
  | unlocking sq =>
    obtain ⟨hfirst, ho, hent, hsq, hb⟩ := hrest
    cases hs
    exact hmove (.unlock rfl rfl rfl) id
      ⟨hle, hpost, hfirst, hb, hsq.le, fun _ => ⟨hent, .inl ho⟩⟩ (.keep rfl rfl)
  | asleep sq =>
    simp only at hs
    split at hs
    next hne =>
      cases hs
      exact hmove (.keep rfl rfl) id ⟨hle, hpost, hrest.1⟩ (.keep rfl rfl)
    next => cases hs
  | awake =>
    simp only at hs
    split at hs
    next hf =>
      injection hs with hs
      have hno := h.flag_eq_zero hf
      rw [← hs]
      refine hmove (.keep rfl rfl) id ⟨hle, hpost, fun ho => ?_⟩ (.keep rfl rfl)
      rw [hno] at ho
      cases ho
    next hf =>
      cases hs
      exact hmove (.keep rfl rfl) id ⟨hle, hpost, hrest⟩ (.keep rfl rfl)

theorem Inv.moveMain {pc : MainPc} {f c sq : Nat} {m : Option Party}
    (hf : f ≠ 0 ↔ pc.isOpen = true) (hm : m = some .main ↔ pc.holds = true)
    (hother : ∀ u, m = some (.worker u) ↔ s.mutex = some (.worker u))
    (hok : ∀ u < s.nworkers, WorkerOk pc s.suspendRound sq s.bound (s.workers u))
    (hc : pc.isOpen = true ∨ pc = .zeroing → c = s.enteredNow)
    (hz : pc.isOpen = false → pc ≠ .zeroing → c = 0) :
    Inv { s with
      suspendflag := f
      suspendedthreads := c
      mutex := m
      seq := sq
      main := pc } where
  flag := hf
  mutexMain := hm
  mutexWorker := fun u hu => (hother u).trans (h.mutexWorker u hu)
  mutexLt := fun u hu => h.mutexLt u ((hother u).mp hu)
  ok := hok
  counter := hc
  closed := hz

theorem Inv.holds_eq_false (hm : s.main.holds = true) (hw : w < s.nworkers) :
    (s.workers w).pc.holds = false := by
  rw [← Bool.not_eq_true, ← h.mutexWorker w hw, h.mutexMain.mpr hm]
  exact nofun

theorem Inv.setMain {pc : MainPc} {f : Nat} (hm : s.main = .posted ∨ s.main = .spinning)
    (hpc : pc = .posted ∨ pc = .spinning ∨ pc = .locking) (hf : f ≠ 0) :
    Inv ((s.setFlag f).setMain pc) := by
  have hopen : s.main.isOpen = true ∧ s.main.holds = false := by
    rcases hm with hm | hm
    all_goals
      rw [hm]
      exact ⟨rfl, rfl⟩
  have hopen' : pc.isOpen = true ∧ pc.holds = false ∧ pc ≠ .posting := by
    rcases hpc with rfl | rfl | rfl
    all_goals exact ⟨rfl, rfl, nofun⟩
  refine h.moveMain (iff_of_true hf hopen'.1) ?_ (fun _ => Iff.rfl) ?_
    (fun _ => h.counter (.inl hopen.1)) ?_
  · rw [hopen'.2.1, ← hopen.2]
    exact h.mutexMain
  · intro u hu
    refine (h.ok u hu).congr (hopen'.1.trans hopen.1.symm) hopen'.2.2 fun hz => ?_
    rcases hm with hm | hm
    all_goals
      rw [hm] at hz
      rcases hz with hz | hz
      · cases hz
      · cases hz
  · intro hno
    rw [hopen'.1] at hno
    cases hno

/-- So does every step of the main thread. -/
theorem Inv.mainStep (hs : s.mainStep = some s') : Inv s' := by
  have hok := h.ok
  have hcounter := h.counter
  have hclosed := h.closed
  have hmutex := h.mutexMain
  have hflag := h.flag
  unfold Team.mainStep at hs
  cases hpc : s.main with
  | idle =>
    rw [hpc] at hs
    cases hs
  | posting =>
    rw [hpc] at hs hok hclosed hmutex
    cases hs
    have hlt : ∀ u < s.nworkers, (s.workers u).entered < s.suspendRound :=
      fun u hu => (hok u hu).2.1 rfl
    refine h.moveMain (iff_of_true Nat.one_ne_zero rfl) hmutex (fun _ => Iff.rfl)
      (fun u hu => (hok u hu).start (.inr rfl) (hlt u hu)) (fun _ => ?_)
      nofun
    refine (hclosed rfl nofun).trans ?_
    symm
    apply Finset.sum_eq_zero
    intro u hu
    exact if_neg (Nat.ne_of_lt (hlt u (Finset.mem_range.mp hu)))
  | posted =>
    rw [hpc] at hs
    cases hs
  | spinning =>
    rw [hpc] at hs hflag
    simp only at hs
    split at hs
    next =>
      cases hs
      exact h.setMain (.inr hpc) (.inl rfl) (hflag.mpr rfl)
    next => cases hs
  | locking =>
    rw [hpc] at hs hok hcounter hflag
    simp only at hs
    split at hs
    next hfree =>
      cases hs
      refine h.moveMain hflag (iff_of_true rfl rfl) (fun u => ?_)
        (fun u hu => (hok u hu).congr rfl nofun fun hz => ?_)
        (fun _ => hcounter (.inl rfl)) nofun
      · rw [hfree]
        exact iff_of_false nofun nofun
      · rcases hz with hz | hz
        · cases hz
        · cases hz
    next => cases hs
  | clearing =>
    have hfree := fun u hu => h.holds_eq_false (w := u) (by rw [hpc]; rfl) hu
    rw [hpc] at hs hok hcounter hmutex
    cases hs
    exact h.moveMain (iff_of_false (fun hc => hc rfl) Bool.false_ne_true) hmutex
      (fun _ => Iff.rfl) (fun u hu => (hok u hu).close (hfree u hu))
      (fun _ => hcounter (.inl rfl)) (fun _ hc => absurd rfl hc)
  | zeroing =>
    rw [hpc] at hs hok hmutex hflag
    cases hs
    refine h.moveMain hflag hmutex (fun _ => Iff.rfl)
      (fun u hu => (hok u hu).congr rfl nofun fun _ =>
        .inr rfl)
      (fun ho => ?_) (fun _ _ => rfl)
    rcases ho with ho | ho
    · cases ho
    · cases ho
  | waking =>
    rw [hpc] at hs hok hclosed hmutex hflag
    injection hs with hs
    have hb : s.broadcast.setMain .unlocking
        = { s with
          seq := if s.bound then s.seq + 1 else s.seq
          main := .unlocking } := by
      unfold broadcast Team.setMain
      by_cases hb : s.bound = true
      · simp only [if_pos hb]
      · simp only [if_neg hb]
    rw [← hs, hb]
    refine h.moveMain hflag hmutex (fun _ => Iff.rfl)
      (fun u hu => (hok u hu).wake) (fun ho => ?_)
      (fun _ _ => hclosed rfl nofun)
    rcases ho with ho | ho
    · cases ho
    · cases ho
  | unlocking =>
    rw [hpc] at hs hok hclosed hmutex hflag
    cases hs
    refine h.moveMain hflag (iff_of_false nofun Bool.false_ne_true)
      (fun u => ?_)
      (fun u hu => (hok u hu).congr rfl nofun fun hz => ?_)
      (fun ho => ?_) (fun _ _ => hclosed rfl nofun)
    · rw [hmutex.mpr rfl]
      exact iff_of_false nofun nofun
    · rcases hz with hz | hz
      · cases hz
      · cases hz
    · rcases ho with ho | ho
      · cases ho
      · cases ho

/-- One step of a run where no worker is counted twice keeps the
invariant. -/
theorem Inv.step (hm : Meets a s) (hs : step a s = some s') : Inv s' := by
  unfold Team.step at hs
  cases a with
  | post =>
    simp only at hs
    split at hs
    next hidle =>
      injection hs with hs
      have hok := h.ok
      have hclosed := h.closed
      have hmutex := h.mutexMain
      have hflag := h.flag
      rw [hidle] at hok hclosed hmutex hflag
      rw [← hs]
      refine ⟨hflag, hmutex, h.mutexWorker, h.mutexLt, fun u hu => ?_,
        fun ho => ?_, fun _ _ => hclosed rfl nofun⟩
      · exact (hok u hu).start (.inl rfl) (Nat.lt_succ_of_le (hok u hu).1)
      · rcases ho with ho | ho
        · cases ho
        · cases ho
    next => cases hs
  | wait =>
    simp only at hs
    split at hs
    next hp =>
      cases hs
      exact h.setMain (.inl hp) (.inr (.inl rfl)) (by decide)
    next => cases hs
  | resume =>
    simp only at hs
    split at hs
    next hp =>
      cases hs
      exact h.setMain (.inl hp) (.inr (.inr rfl)) (h.flag.mpr (by rw [hp]; rfl))
    next => cases hs
  | main => exact h.mainStep hs
  | enter w =>
    simp only at hs
    split at hs
    next hw =>
      cases hs
      have hok := h.ok w hw.1
      refine h.move hw.1 (.keep rfl ?_) id ⟨hok.1, hok.2.1, rfl⟩ (.keep rfl rfl)
      rw [hw.2]
      rfl
    next => cases hs
  | worker w =>
    simp only at hs
    split at hs
    next hw => exact h.workerStep hw hm hs
    next => cases hs
  | spurious w =>
    simp only at hs
    split at hs
    next hw =>
      have hok := h.ok w hw
      have hmove := fun {x m c b} =>
        h.move hw (x := x) (m := m) (c := c) (b := b)
      rcases hx : s.workers w with ⟨pc, first, round, entered⟩
      rw [hx] at hs hok hmove
      cases pc with
      | asleep sq =>
        cases hs
        exact hmove (.keep rfl rfl) id ⟨hok.1, hok.2.1, hok.2.2.1⟩
          (.keep rfl rfl)
      | _ => cases hs
    next => cases hs

end

-- ======== progress

/-- A step of the worker `w` that changes what a worker may change. -/
def Moves (w : Nat) (a : Act) (x : Worker) (s s' : Team) : Prop :=
  (a = .enter w ∨ a = .worker w) ∧ Meets a s ∧ step a s = some s'
    ∧ s'.main = s.main ∧ s'.nworkers = s.nworkers
    ∧ s'.suspendRound = s.suspendRound
    ∧ s'.workers = Function.update s.workers w x

theorem Moves.sum_lt (h : Moves w a x s s') (hw : w < s.nworkers) (weight : Worker → Nat)
    (hlt : weight x < weight (s.workers w)) :
    ∑ u ∈ Finset.range s'.nworkers, weight (s'.workers u)
      < ∑ u ∈ Finset.range s.nworkers, weight (s.workers u) := by
  obtain ⟨-, -, -, -, hn, -, hwk⟩ := h
  rw [hn, hwk]
  have hsum := Tally.sum_update hw weight s.workers x
  omega

theorem moves_worker (hw : w < s.nworkers) (hpc : (s.workers w).pc ≠ .locking)
    (hs : workerStep w (s.workers w) s = some s') (hm : s'.main = s.main)
    (hn : s'.nworkers = s.nworkers) (hr : s'.suspendRound = s.suspendRound)
    (hx : s'.workers = Function.update s.workers w x) : Moves w (.worker w) x s s' := by
  refine ⟨.inr rfl, ?_, ?_, hm, hn, hr, hx⟩
  · intro hl
    exact absurd hl hpc
  · unfold step
    exact (if_pos hw).trans hs

/-- How far a worker is from sleeping in the round `r`. -/
def toSleep (r : Nat) (x : Worker) : Nat :=
  match x.pc with
  | .leaving => 10
  | .running => 9
  | .asleep _ => if x.entered = r then 0 else 8
  | .awake => if x.entered = r then 0 else 7
  | .locking => if x.entered = r then 0 else 6
  | .testing => 5
  | .reading => 4
  | .counting _ => 3
  | .waiting => 2
  | .unlocking _ => 1

/-- A worker that holds the mutex goes on; if nobody does, so does one
that has not entered the round. -/
theorem Inv.toSleep_lt (h : Inv s) (hmain : s.main = .spinning)
    (hw : w < s.nworkers)
    (hready : (s.workers w).pc.holds = true
      ∨ (s.mutex = none ∧ (s.workers w).entered ≠ s.suspendRound)) :
    ∃ a x s', Moves w a x s s'
      ∧ toSleep s.suspendRound x < toSleep s.suspendRound (s.workers w) := by
  have hflag : s.suspendflag ≠ 0 := h.flag.mpr (by rw [hmain]; rfl)
  have hok := h.ok w hw
  have hmoves := @moves_worker w s
  rcases hx : s.workers w with ⟨pc, first, round, entered⟩
  rw [hx] at hready hok hmoves
  unfold WorkerOk at hok
  have hrest := hok.2.2
  cases pc with
  | leaving =>
    refine ⟨_, _, _, hmoves hw nofun rfl rfl rfl rfl rfl, ?_⟩
    show 9 < 10
    omega
  | testing =>
    refine ⟨_, _, s.setWorker w _, hmoves hw nofun (if_neg hflag)
      rfl rfl rfl rfl, ?_⟩
    show 4 < 5
    omega
  | reading =>
    refine ⟨_, _, _, hmoves hw nofun rfl rfl rfl rfl rfl, ?_⟩
    show 3 < 4
    omega
  | counting nr =>
    have hfirst : first = true := hrest.1
    subst hfirst
    refine ⟨_, _, _, hmoves hw nofun rfl rfl rfl rfl rfl, ?_⟩
    show 2 < 3
    omega
  | waiting =>
    refine ⟨_, _, _, hmoves hw nofun rfl rfl rfl rfl rfl, ?_⟩
    show 1 < 2
    omega
  | unlocking sq =>
    refine ⟨_, _, _, hmoves hw nofun rfl rfl rfl rfl rfl, ?_⟩
    show (if entered = s.suspendRound then 0 else 8) < 1
    rw [if_pos hrest.2.2.1]
    omega
  | running =>
    obtain ⟨-, hne⟩ := hready.resolve_left Bool.false_ne_true
    refine ⟨.enter w, ⟨.locking, true, round, entered⟩, s.setWorker w _,
      ⟨.inl rfl, trivial, ?_, rfl, rfl, rfl, rfl⟩, ?_⟩
    · unfold Team.step
      simp only [hx]
      exact if_pos ⟨hw, trivial⟩
    · show (if entered = s.suspendRound then 0 else 6) < 9
      rw [if_neg hne]
      omega
  | locking =>
    obtain ⟨hfree, hne⟩ := hready.resolve_left Bool.false_ne_true
    refine ⟨.worker w, ⟨.testing, first, round, entered⟩,
      (s.setMutex (some (.worker w))).setWorker w _,
      ⟨.inr rfl, ?_, ?_, rfl, rfl, rfl, rfl⟩, ?_⟩
    · intro _ _
      rw [hx]
      exact hne
    · unfold Team.step
      simp only [hx]
      exact (if_pos hw).trans (if_pos hfree)
    · show 5 < (if entered = s.suspendRound then 0 else 6)
      rw [if_neg hne]
      omega
  | asleep sq =>
    obtain ⟨-, hne⟩ := hready.resolve_left Bool.false_ne_true
    have hsq : s.seq ≠ sq := fun hsq => hne (hrest.2.2.2 hsq.symm).1
    refine ⟨_, ⟨.awake, first, round, entered⟩, s.setWorker w _,
      hmoves hw nofun (if_pos hsq) rfl rfl rfl rfl, ?_⟩
    show (if entered = s.suspendRound then 0 else 7)
      < (if entered = s.suspendRound then 0 else 8)
    rw [if_neg hne, if_neg hne]
    omega
  | awake =>
    obtain ⟨-, hne⟩ := hready.resolve_left Bool.false_ne_true
    refine ⟨_, ⟨.locking, first, round, entered⟩, s.setWorker w _,
      hmoves hw nofun (if_neg hflag) rfl rfl rfl rfl, ?_⟩
    show (if entered = s.suspendRound then 0 else 6)
      < (if entered = s.suspendRound then 0 else 7)
    rw [if_neg hne, if_neg hne]
    omega

/-- How far a worker is from having left. -/
def toLeave (x : Worker) : Nat :=
  match x.pc with
  | .asleep _ => 5
  | .awake => 4
  | .locking => 3
  | .testing => 2
  | .leaving => 1
  | _ => 0

/-- Between the rounds a worker that holds the mutex goes on; if nobody
does, so does any that has not left. -/
theorem Inv.toLeave_lt (h : Inv s) (hmain : s.main = .idle) (hw : w < s.nworkers)
    (hready : (s.workers w).pc.holds = true
      ∨ (s.mutex = none ∧ (s.workers w).pc ≠ .running)) :
    ∃ a x s', Moves w a x s s' ∧ toLeave x < toLeave (s.workers w) := by
  have hflag : s.suspendflag = 0 := by
    by_contra hne
    have ho := h.flag.mp hne
    rw [hmain] at ho
    cases ho
  obtain ⟨hsleep, hholds⟩ := (h.ok w hw).closed (.inl hmain)
  have hmoves := @moves_worker w s
  rcases hx : s.workers w with ⟨pc, first, round, entered⟩
  rw [hx] at hready hsleep hholds hmoves
  cases pc with
  | leaving =>
    refine ⟨_, _, _, hmoves hw nofun rfl rfl rfl rfl rfl, ?_⟩
    show 0 < 1
    omega
  | testing =>
    refine ⟨_, _, s.setWorker w _, hmoves hw nofun (if_pos hflag)
      rfl rfl rfl rfl, ?_⟩
    show 1 < 2
    omega
  | running => exact absurd rfl (hready.resolve_left Bool.false_ne_true).2
  | locking =>
    obtain ⟨hfree, -⟩ := hready.resolve_left Bool.false_ne_true
    refine ⟨.worker w, ⟨.testing, first, round, entered⟩,
      (s.setMutex (some (.worker w))).setWorker w _,
      ⟨.inr rfl, fun _ hf => absurd hflag hf, ?_, rfl, rfl, rfl, rfl⟩, ?_⟩
    · unfold Team.step
      simp only [hx]
      exact (if_pos hw).trans (if_pos hfree)
    · show 2 < 3
      omega
  | asleep sq =>
    refine ⟨_, ⟨.awake, first, round, entered⟩, s.setWorker w _,
      hmoves hw nofun (if_pos (hsleep sq rfl).symm) rfl rfl rfl rfl, ?_⟩
    show 4 < 5
    omega
  | awake =>
    refine ⟨_, ⟨.running, first, round, entered⟩, s.setWorker w _,
      hmoves hw nofun (if_pos hflag) rfl rfl rfl rfl, ?_⟩
    show 0 < 4
    omega
  | _ =>
    rcases hholds rfl with heq | heq
    all_goals cases heq

theorem Inv.mutex_cases (h : Inv s) (hm : s.main.holds = false) :
    s.mutex = none ∨ ∃ u < s.nworkers, (s.workers u).pc.holds = true := by
  rcases hmx : s.mutex with _ | p
  · exact .inl rfl
  · right
    cases p with
    | main =>
      rw [h.mutexMain.mp hmx] at hm
      cases hm
    | worker u => exact ⟨u, h.mutexLt u hmx,
      (h.mutexWorker u (h.mutexLt u hmx)).mp hmx⟩

theorem Moves.workerMeets (h : Moves w a x s s') :
    WorkerMeets a s := ⟨⟨w, h.1⟩, h.2.1⟩

/-- The suspension can return. -/
theorem Inv.canReturn (h : Inv s) : CanReturn s := by
  intro hmain
  obtain ⟨as, s', hal, hrun, hend, hall⟩ := Along.exists_run Team.step WorkerMeets
    (fun s => Inv s ∧ s.main = .spinning)
    (fun s => ∀ w < s.nworkers, (s.workers w).entered = s.suspendRound)
    (fun s => ∑ u ∈ Finset.range s.nworkers, toSleep s.suspendRound (s.workers u))
    (by
      rintro s ⟨h, hmain⟩ hno
      have hex : ∃ w < s.nworkers, (s.workers w).pc.holds = true
          ∨ (s.mutex = none ∧ (s.workers w).entered ≠ s.suspendRound) := by
        rcases h.mutex_cases (by rw [hmain]; rfl) with hfree | ⟨u, hu, hh⟩
        · simp only [not_forall] at hno
          obtain ⟨w, hw, hne⟩ := hno
          exact ⟨w, hw, .inr ⟨hfree, hne⟩⟩
        · exact ⟨u, hu, .inl hh⟩
      obtain ⟨w, hw, hready⟩ := hex
      obtain ⟨a, x, s', hmv, hlt⟩ := h.toSleep_lt hmain hw hready
      have hsum := hmv.sum_lt hw _ hlt
      obtain ⟨-, hm, hs, hmain', -, hr, -⟩ := id hmv
      refine ⟨a, s', hmv.workerMeets, hs, ⟨h.step hm hs, hmain'.trans hmain⟩, ?_⟩
      rw [hr]
      exact hsum)
    ⟨h, hmain⟩
  refine ⟨as, s', hal, hrun, ?_⟩
  have hcount := hend.1.counter (.inl (by rw [hend.2]; rfl))
  have hfull : s'.enteredNow = s'.nworkers := by
    unfold enteredNow
    rw [← Finset.card_filter, Finset.card_filter_eq_iff.mpr, Finset.card_range]
    exact fun w hw => hall w (Finset.mem_range.mp hw)
  show s'.mainStep = _
  unfold Team.mainStep
  rw [hend.2]
  exact if_pos (hcount.trans hfull)

/-- So can the workers. -/
theorem Inv.canLeave (h : Inv s) : CanLeave s := by
  intro hmain w hw
  obtain ⟨as, s', hal, hrun, -, hgone⟩ := Along.exists_run Team.step WorkerMeets
    (fun s => Inv s ∧ s.main = .idle ∧ w < s.nworkers)
    (fun s => (s.workers w).pc = .running)
    (fun s => ∑ u ∈ Finset.range s.nworkers, toLeave (s.workers u))
    (by
      rintro s ⟨h, hmain, hw⟩ hno
      have hex : ∃ u < s.nworkers, (s.workers u).pc.holds = true
          ∨ (s.mutex = none ∧ (s.workers u).pc ≠ .running) := by
        rcases h.mutex_cases (by rw [hmain]; rfl) with hfree | ⟨u, hu, hh⟩
        · exact ⟨w, hw, .inr ⟨hfree, hno⟩⟩
        · exact ⟨u, hu, .inl hh⟩
      obtain ⟨u, hu, hready⟩ := hex
      obtain ⟨a, x, s', hmv, hlt⟩ := h.toLeave_lt hmain hu hready
      have hsum := hmv.sum_lt hu _ hlt
      obtain ⟨-, hm, hs, hmain', hn, -⟩ := id hmv
      refine ⟨a, s', hmv.workerMeets, hs,
        ⟨h.step hm hs, hmain'.trans hmain, ?_⟩, hsum⟩
      rw [hn]
      exact hw)
    ⟨h, hmain, hw⟩
  exact ⟨as, s', hal, hrun, hgone⟩

/-- The invariant gives the rounds. -/
theorem Inv.suspendOk (h : Inv s) : SuspendOk s where
  counter := fun ho => h.counter (.inl ho)
  closed := fun hi => h.closed (by rw [hi]; rfl)
    (by rw [hi]; exact nofun)
  returns := by
    intro hsp s' hs w hw
    have hopen : s.main.isOpen = true := by
      rw [hsp]
      rfl
    have hcount := h.counter (.inl hopen)
    change s.mainStep = some s' at hs
    unfold Team.mainStep at hs
    rw [hsp] at hs
    simp only at hs
    split at hs
    next hfull =>
      have hall : s.enteredNow = s.nworkers := hcount.symm.trans hfull
      unfold enteredNow at hall
      rw [← Finset.card_filter] at hall
      have hent := Finset.card_filter_eq_iff.mp
        (hall.trans (Finset.card_range _).symm)
        w (Finset.mem_range.mpr hw)
      have hrest := (h.ok w hw).2.2
      refine ⟨hent, fun hpc => ?_, fun hpc => ?_⟩
      · rw [hpc] at hrest
        exact absurd hent (Nat.ne_of_lt (hrest hopen))
      · rw [hpc] at hrest
        exact absurd hent (Nat.ne_of_lt (hrest hopen))
    next => cases hs
  sleeps := by
    intro hm w hw seq hpc hseq
    rcases hm with hi | ho
    · exact absurd hseq (((h.ok w hw).closed (.inl hi)).1 seq hpc)
    · have hrest := (h.ok w hw).2.2
      rw [hpc] at hrest
      exact ⟨ho, (hrest.2.2.2 hseq).1⟩

-- ======== theorems

/-- For any number of workers and of rounds: as long as no worker takes
the mutex again in a round it has entered, the counter is the number of
suspended workers, a wait returns when all are suspended and can return,
and after a resume every worker can leave. -/
theorem suspendOk_of_meets (n : Nat) (as : List Act) (s : Team)
    (hm : Along step Meets as (init n)) (hrun : run step as (init n) = some s) :
    SuspendOk s ∧ CanReturn s ∧ CanLeave s := by
  have h := hm.run_inv (P := Inv) (fun hq h hs => h.step hq hs) (inv_init n) hrun
  exact ⟨h.suspendOk, h.canReturn, h.canLeave⟩

/-- A round of a team with one worker. -/
def oneRound : List Act :=
  [.post, .main, .enter 0, .worker 0, .worker 0, .worker 0, .worker 0,
    .worker 0, .worker 0, .wait, .main, .resume, .main, .main, .main, .main,
    .main, .worker 0, .worker 0]

theorem suspendOk_of_meets_one :
    Along step Meets oneRound (init 1)
      ∧ ∃ s, run step oneRound (init 1) = some s
        ∧ SuspendOk s ∧ CanReturn s ∧ CanLeave s := by
  have hm : Along step Meets oneRound (init 1) := by decide +kernel
  refine ⟨hm, ?_⟩
  rcases hrun : run step oneRound (init 1) with _ | s
  · have hsome : (run step oneRound (init 1)).isSome = true := by decide +kernel
    rw [hrun] at hsome
    cases hsome
  · exact ⟨s, rfl, suspendOk_of_meets 1 oneRound s hm hrun⟩

/-- The wait of the only worker ends spuriously in the round: the worker
is counted twice. -/
theorem suspendOk_fails :
    ∃ s, run step [.post, .main, .enter 0, .worker 0, .worker 0, .worker 0,
        .worker 0, .worker 0, .worker 0, .spurious 0, .worker 0, .worker 0,
        .worker 0, .worker 0, .worker 0] (init 1) = some s
      ∧ ¬ SuspendOk s := by
  have hrun : (run step [.post, .main, .enter 0, .worker 0, .worker 0, .worker 0,
      .worker 0, .worker 0, .worker 0, .spurious 0, .worker 0, .worker 0,
      .worker 0, .worker 0, .worker 0] (init 1)).map
        (fun s => (s.main, s.suspendedthreads, s.enteredNow))
      = some (.posted, 2, 1) := by decide +kernel
  obtain ⟨s, hs, hproj⟩ := Option.map_eq_some_iff.mp hrun
  refine ⟨s, hs, fun hok => ?_⟩
  simp only [Prod.mk.injEq] at hproj
  obtain ⟨hm, hc, he⟩ := hproj
  have heq := hok.counter (by rw [hm]; rfl)
  rw [hc, he] at heq
  exact absurd heq (by decide)

end Team

end XKaapi.Mt
