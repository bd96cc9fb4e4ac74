/-
The barrier of an OpenMP team (api/libgomp/libgomp_barrier.c), and the
constructs that end with one (libgomp_loop.c, GOMP_barrier).

The barrier has three counters used in turn, `cycle` naming the current
one. The last thread to arrive makes the next one current, then cleans
the one after it. All threads go through the same barrier points, one
after the other; at the end of a loop with `nowait` only the master
waits, the others count their arrival and go on.

A read of `cycle`, an increment of a counter, the write of the next cycle
and the cleaning are one step each, in any order between threads.
`gen` is not in the source: it counts the writes of `cycle`, so it is the
barrier point whose arrivals are being counted.

A thread that passed a `nowait` point may read `cycle` for its next point
while the others still arrive at the former one, and is then counted twice
there. `safe_of_meets` proves the barrier for the runs where this read
waits for the next cycle, `barrier_no_deadlock` that such a team is never
stuck; `safe_fails` is a run where the read does not wait.
-/
import XKaapi.Lib.Run
import XKaapi.Lib.Tally

namespace XKaapi.Omp

open StepMachine (run Along)
open Function (update update_of_ne update_self)

/-- BAR_CYCLES -/
def barCycles : Nat := 3

/-- The constructs of a parallel region that end with a barrier point:
`GOMP_barrier`, `GOMP_loop_end`, `GOMP_loop_end_nowait`. -/
inductive Construct where
  | barrier
  | loopEnd
  | loopEndNowait
deriving DecidableEq, Repr

/-- The thread calls `komp_barrier_wait` at the construct; otherwise
`komp_barrier_wait_start`. The master waits at every one. -/
def Construct.waits (c : Construct) (t : Nat) : Bool :=
  c != .loopEndNowait || t == 0

/-- Where a thread is in the barrier functions. -/
inductive Pc where
  /-- Before the read of `cycle`. -/
  | idle
  /-- Before the increment of the counter of `cur`. -/
  | arriving (cur : Nat)
  /-- Last to arrive, before the write of the next cycle. -/
  | advancing (cur : Nat)
  /-- Before the cleaning. -/
  | cleaning (cur : Nat)
  /-- In `kaapi_sched_suspend`, until the cycle is `next`. -/
  | suspended (next : Nat)
deriving DecidableEq, Repr

/-- The increment of the counter is done. -/
def Pc.counted : Pc → Bool
  | .idle => false
  | .arriving _ => false
  | _ => true

/-- A thread: the barrier point it is at, and where in its code. -/
structure Thread where
  point : Nat
  pc : Pc
deriving DecidableEq, Repr

/-- The thread has counted its arrival at the barrier point `k`. -/
def Thread.Arrived (k : Nat) (th : Thread) : Prop :=
  k < th.point ∨ (th.point = k ∧ th.pc.counted = true)

instance (k : Nat) (th : Thread) : Decidable (th.Arrived k) :=
  inferInstanceAs (Decidable (_ ∨ _))

/-- The thread is between the increment that found it last and the write
of the next cycle. -/
def Thread.IsAdvancing (th : Thread) : Prop := ∃ cur, th.pc = .advancing cur

instance (th : Thread) : Decidable th.IsAdvancing :=
  match th with
  | ⟨_, .advancing cur⟩ => isTrue ⟨cur, rfl⟩
  | ⟨_, .idle⟩ => isFalse fun ⟨_, h⟩ => nomatch h
  | ⟨_, .arriving _⟩ => isFalse fun ⟨_, h⟩ => nomatch h
  | ⟨_, .cleaning _⟩ => isFalse fun ⟨_, h⟩ => nomatch h
  | ⟨_, .suspended _⟩ => isFalse fun ⟨_, h⟩ => nomatch h

/-- The thread has written the next cycle and has not cleaned. -/
def Thread.IsCleaning (th : Thread) : Prop := ∃ cur, th.pc = .cleaning cur

/-- `komp_barrier_t`, and the threads of the team. -/
structure Team where
  nthreads : Nat
  cycle : Nat
  count : Nat → Nat
  gen : Nat
  threads : Nat → Thread

namespace Team

-- ======== machine

/-- komp_barrier_init, the threads at their first barrier point. -/
def init (n : Nat) : Team where
  nthreads := n
  cycle := 0
  count := fun _ => 0
  gen := 0
  threads := fun _ => ⟨0, .idle⟩

def setThread (t : Nat) (th : Thread) (s : Team) : Team :=
  { s with threads := update s.threads t th }

def setCount (cur nb : Nat) (s : Team) : Team :=
  { s with count := update s.count cur nb }

/-- The write of the next cycle. -/
def setCycle (next : Nat) (s : Team) : Team :=
  { s with
    cycle := next
    gen := s.gen + 1 }

def setPc (t : Nat) (pc : Pc) (s : Team) : Team :=
  s.setThread t ⟨(s.threads t).point, pc⟩

/-- The thread returns from the barrier function: it goes to its next
barrier point. -/
def leave (t : Nat) (s : Team) : Team :=
  s.setThread t ⟨(s.threads t).point + 1, .idle⟩

/-- One step of the thread `t` of a team whose barrier points are those
of `prog`: `komp_barrier_wait` and `komp_barrier_wait_start`, which
differ in what a thread that is not the last one does. -/
def step (prog : Nat → Construct) (t : Nat) (s : Team) : Option Team :=
  if t < s.nthreads then
    match (s.threads t).pc with
    | .idle => some (s.setPc t (.arriving s.cycle))
    | .arriving cur =>
      let nbArrived := s.count cur + 1
      let s := s.setCount cur nbArrived
      if nbArrived = s.nthreads then some (s.setPc t (.advancing cur))
      else if (prog (s.threads t).point).waits t then
        some (s.setPc t (.suspended ((cur + 1) % barCycles)))
      else some (s.leave t)
    | .advancing cur =>
      some ((s.setCycle ((cur + 1) % barCycles)).setPc t (.cleaning cur))
    | .cleaning cur =>
      let cycleToClean := ((cur + 1) % barCycles + 1) % barCycles
      some ((s.setCount cycleToClean 0).leave t)
    | .suspended next => if s.cycle = next then some (s.leave t) else none
  else none

-- ======== properties

/-- What the barrier promises in a state: a thread has left a waiting
point only after all of them arrived there, and a thread about to count
its arrival does it in the counter of its own barrier point. -/
structure Safe (prog : Nat → Construct) (s : Team) : Prop where
  left : ∀ t < s.nthreads, ∀ k < (s.threads t).point,
    (prog k).waits t = true → ∀ u < s.nthreads, (s.threads u).Arrived k
  own : ∀ t < s.nthreads, ∀ cur, (s.threads t).pc = .arriving cur →
    cur = s.cycle ∧ (s.threads t).point = s.gen

/-- A counter is 0 when its cycle becomes current. -/
def StartsClean (prog : Nat → Construct) (s : Team) : Prop :=
  ∀ t cur s', (s.threads t).pc = .advancing cur →
    step prog t s = some s' → s'.count s'.cycle = 0

/-- The cycle has moved on past the point `k`: every thread arrived there
and the last one wrote the next cycle. -/
def Passed (k : Nat) (s : Team) : Prop :=
  ∀ u < s.nthreads, (s.threads u).Arrived k ∧ ¬ (s.threads u).IsAdvancing

/-- A thread that passed a point without waiting reads `cycle` for the
next one once the cycle has moved on. -/
def Meets (prog : Nat → Construct) (t : Nat) (s : Team) : Prop :=
  (s.threads t).pc = .idle → 0 < (s.threads t).point →
    (prog ((s.threads t).point - 1)).waits t = false →
    s.Passed ((s.threads t).point - 1)

instance (k : Nat) (s : Team) : Decidable (s.Passed k) :=
  inferInstanceAs (Decidable (∀ u < s.nthreads, _))

instance (prog : Nat → Construct) (t : Nat) (s : Team) :
    Decidable (Meets prog t s) :=
  inferInstanceAs (Decidable (_ → _))

-- ======== invariant

/-- What a thread may be doing while the arrivals at the point `g` are
counted: late at the point before, at this one, or at the next one. -/
inductive Place (prog : Nat → Construct) (g t : Nat) : Thread → Prop
  | released (k : Nat) (hk : g = k + 1) :
      Place prog g t ⟨k, .suspended ((k + 1) % barCycles)⟩
  | cleaning (k : Nat) (hk : g = k + 1) :
      Place prog g t ⟨k, .cleaning (k % barCycles)⟩
  | idle : Place prog g t ⟨g, .idle⟩
  | arriving : Place prog g t ⟨g, .arriving (g % barCycles)⟩
  | suspended : Place prog g t ⟨g, .suspended ((g + 1) % barCycles)⟩
  | advancing : Place prog g t ⟨g, .advancing (g % barCycles)⟩
  | ahead (hw : (prog g).waits t = false) : Place prog g t ⟨g + 1, .idle⟩

/-- The number of threads that have counted their arrival at `k`. -/
def arrivals (k n : Nat) (threads : Nat → Thread) : Nat :=
  ∑ t ∈ Finset.range n, if (threads t).Arrived k then 1 else 0

/-- The counter of the current cycle holds the arrivals at the point
`gen`, and is full exactly when a thread is about to advance; the counter
of the next cycle is clean unless a thread is about to clean it. -/
structure Inv (prog : Nat → Construct) (s : Team) : Prop where
  cycle : s.cycle = s.gen % barCycles
  place : ∀ t < s.nthreads, Place prog s.gen t (s.threads t)
  count : s.count (s.gen % barCycles) = arrivals s.gen s.nthreads s.threads
  full : ∀ t < s.nthreads, Thread.IsAdvancing (s.threads t) →
    arrivals s.gen s.nthreads s.threads = s.nthreads
  advancer : arrivals s.gen s.nthreads s.threads = s.nthreads →
    0 < s.nthreads → ∃ t < s.nthreads, Thread.IsAdvancing (s.threads t)
  oneAdvances : ∀ t < s.nthreads, ∀ u < s.nthreads,
    Thread.IsAdvancing (s.threads t) → Thread.IsAdvancing (s.threads u) → t = u
  oneCleans : ∀ t < s.nthreads, ∀ u < s.nthreads,
    Thread.IsCleaning (s.threads t) → Thread.IsCleaning (s.threads u) → t = u
  next : (∀ t < s.nthreads, ¬ (s.threads t).IsCleaning) →
    s.count ((s.gen + 1) % barCycles) = 0

variable {prog : Nat → Construct} {g t : Nat} {s s' : Team} {th : Thread} {k n cur : Nat}
  {threads : Nat → Thread}

-- ======== lemmas

theorem Place.arrived_of_lt (h : Place prog g t th) (hk : k < g) : th.Arrived k := by
  unfold Thread.Arrived
  cases h with
  | released k' hk' =>
    rcases Nat.lt_or_ge k k' with hlt | hge
    · exact .inl hlt
    · exact .inr ⟨by dsimp only; omega, rfl⟩
  | cleaning k' hk' =>
    rcases Nat.lt_or_ge k k' with hlt | hge
    · exact .inl hlt
    · exact .inr ⟨by dsimp only; omega, rfl⟩
  | idle => exact .inl hk
  | arriving => exact .inl hk
  | suspended => exact .inl hk
  | advancing => exact .inl hk
  | ahead hw => exact .inl (Nat.lt_succ_of_lt hk)

theorem not_arrived_of_counted (hp : th.point = k) (hc : th.pc.counted = false) :
    ¬ th.Arrived k := by
  rintro (hlt | ⟨-, h⟩)
  · omega
  · rw [hc] at h
    cases h

theorem Place.not_arrived_of_gt (h : Place prog g t th) (hk : g < k) :
    ¬ th.Arrived k := by
  unfold Thread.Arrived
  rintro (hlt | ⟨heq, hc⟩)
  · cases h <;> dsimp only at hlt <;> omega
  · cases h with
    | ahead hw => cases hc
    | released k' hk' => dsimp only at heq; omega
    | cleaning k' hk' => dsimp only at heq; omega
    | _ => dsimp only at heq; omega

theorem Place.cases_arrived (h : Place prog g t th) (ha : th.Arrived g) :
    th = ⟨g, .suspended ((g + 1) % barCycles)⟩
      ∨ th = ⟨g, .advancing (g % barCycles)⟩
      ∨ (th = ⟨g + 1, .idle⟩ ∧ (prog g).waits t = false) := by
  rcases ha with hlt | ⟨heq, hc⟩
  · cases h with
    | ahead hw => exact .inr (.inr ⟨rfl, hw⟩)
    | released k' hk' => dsimp only at hlt; omega
    | cleaning k' hk' => dsimp only at hlt; omega
    | _ => dsimp only at hlt; omega
  · cases h with
    | suspended => exact .inl rfl
    | advancing => exact .inr (.inl rfl)
    | released k' hk' => dsimp only at heq; omega
    | cleaning k' hk' => dsimp only at heq; omega
    | idle => cases hc
    | arriving => cases hc
    | ahead hw => cases hc

/-- A thread that left a point where it waits is past it: the arrivals at
a later point are being counted. -/
theorem Place.lt_of_left (h : Place prog g t th) (hk : k < th.point)
    (hw : (prog k).waits t = true) : k < g := by
  cases h with
  | ahead hno =>
    rcases Nat.lt_succ_iff_lt_or_eq.mp hk with hlt | rfl
    · exact hlt
    · rw [hno] at hw
      cases hw
  | released k' hk' => dsimp only at hk; omega
  | cleaning k' hk' => dsimp only at hk; omega
  | _ => exact hk

/-- All have arrived. -/
theorem arrivals_eq_iff : arrivals k n threads = n ↔ ∀ t < n, (threads t).Arrived k := by
  unfold arrivals
  rw [← Finset.card_filter]
  have h := Finset.card_filter_eq_iff (s := Finset.range n)
    (p := fun t => (threads t).Arrived k)
  rw [Finset.card_range] at h
  rw [h]
  exact ⟨fun h t ht => h t (Finset.mem_range.mpr ht),
    fun h t ht => h t (Finset.mem_range.mp ht)⟩

/-- Nobody has arrived. -/
theorem arrivals_eq_zero (h : ∀ t < n, ¬ (threads t).Arrived k) :
    arrivals k n threads = 0 := by
  unfold arrivals
  apply Finset.sum_eq_zero
  intro t ht
  exact if_neg (h t (Finset.mem_range.mp ht))

theorem arrivals_update_same (ht : t < n) (h : th.Arrived k ↔ (threads t).Arrived k) :
    arrivals k n (update threads t th) = arrivals k n threads := by
  have hsum := Tally.sum_update ht
    (fun th : Thread => if th.Arrived k then 1 else 0) threads th
  simp only [h] at hsum
  unfold arrivals
  omega

theorem arrivals_update_succ (ht : t < n) (h : th.Arrived k)
    (h₀ : ¬ (threads t).Arrived k) :
    arrivals k n (update threads t th) = arrivals k n threads + 1 := by
  have hsum := Tally.sum_update ht
    (fun th : Thread => if th.Arrived k then 1 else 0) threads th
  simp only [if_pos h, if_neg h₀] at hsum
  unfold arrivals
  omega

-- ======== steps

theorem inv_init (prog : Nat → Construct) (n : Nat) : Inv prog (init n) where
  cycle := rfl
  place := fun _ _ => Place.idle
  count := by
    symm
    exact arrivals_eq_zero fun t _ => not_arrived_of_counted rfl rfl
  full := by
    rintro t _ ⟨cur, h⟩
    cases h
  advancer := by
    intro h hn
    exact absurd (arrivals_eq_iff.mp h 0 hn) (not_arrived_of_counted rfl rfl)
  oneAdvances := by
    rintro t _ u _ ⟨cur, h⟩
    cases h
  oneCleans := by
    rintro t _ u _ ⟨cur, h⟩
    cases h
  next := fun _ => rfl

theorem update_iff {P : Thread → Prop} (t : Nat) (h : P th ↔ P (threads t)) (u : Nat) :
    P (update threads t th u) ↔ P (threads u) := by
  rcases eq_or_ne u t with rfl | hne
  · rw [update_self]
    exact h
  · rw [update_of_ne hne]

theorem place_update (h : ∀ u < n, Place prog g u (threads u)) (hth : Place prog g t th) :
    ∀ u < n, Place prog g u (update threads t th u) := by
  intro u hu
  rcases eq_or_ne u t with rfl | hne
  · rw [update_self]
    exact hth
  · rw [update_of_ne hne]
    exact h u hu

section

variable (h : Inv prog s) (ht : t < s.nthreads)
include h ht

/-- A thread moves between its arrivals. -/
theorem Inv.move (hpl : Place prog s.gen t th)
    (harr : th.Arrived s.gen ↔ (s.threads t).Arrived s.gen)
    (hadv : th.IsAdvancing ↔ Thread.IsAdvancing (s.threads t))
    (hcl : th.IsCleaning ↔ Thread.IsCleaning (s.threads t)) :
    Inv prog (s.setThread t th) := by
  have hA := update_iff t hadv
  have hC := update_iff t hcl
  have hsum := arrivals_update_same ht harr
  unfold setThread
  refine ⟨h.cycle, place_update h.place hpl, ?_, ?_, ?_, ?_, ?_, ?_⟩
  · exact h.count.trans hsum.symm
  · intro u hu ha
    exact hsum.trans (h.full u hu ((hA u).mp ha))
  · intro hall hn
    obtain ⟨u, hu, ha⟩ := h.advancer (hsum.symm.trans hall) hn
    exact ⟨u, hu, (hA u).mpr ha⟩
  · intro u hu v hv hau hav
    exact h.oneAdvances u hu v hv ((hA u).mp hau) ((hA v).mp hav)
  · intro u hu v hv hcu hcv
    exact h.oneCleans u hu v hv ((hC u).mp hcu) ((hC v).mp hcv)
  · intro hno
    exact h.next fun u hu hc => hno u hu ((hC u).mpr hc)

theorem Inv.not_advancing (hna : ¬ (s.threads t).Arrived s.gen) :
    ∀ u < s.nthreads, ¬ (s.threads u).IsAdvancing :=
  fun u hu ha => hna (arrivals_eq_iff.mp (h.full u hu ha) t ht)

/-- The increment: the thread that fills the counter is to advance, and
it alone. -/
theorem Inv.arrive (hold : s.threads t = ⟨s.gen, .arriving (s.gen % barCycles)⟩)
    (hpl : Place prog s.gen t th) (harr : th.Arrived s.gen)
    (hadv : th.IsAdvancing ↔ s.count (s.gen % barCycles) + 1 = s.nthreads)
    (hcl : ¬ th.IsCleaning) :
    Inv prog ((s.setCount (s.gen % barCycles)
      (s.count (s.gen % barCycles) + 1)).setThread t th) := by
  have hna : ¬ (s.threads t).Arrived s.gen := by
    rw [hold]
    exact not_arrived_of_counted rfl rfl
  have hnone := h.not_advancing ht hna
  have hnotc : ¬ (s.threads t).IsCleaning := by
    rw [hold]
    intro ⟨cur, hcur⟩
    cases hcur
  have hC := update_iff t (iff_of_false hcl hnotc)
  have hA : ∀ u < s.nthreads,
    Thread.IsAdvancing (update s.threads t th u) →
      u = t ∧ th.IsAdvancing := by
    intro u hu ha
    rcases eq_or_ne u t with rfl | hne
    · rw [update_self] at ha
      exact ⟨rfl, ha⟩
    · rw [update_of_ne hne] at ha
      exact absurd ha (hnone u hu)
  have hsum := arrivals_update_succ ht harr hna
  rw [← h.count] at hsum
  unfold setCount setThread
  refine ⟨h.cycle, place_update h.place hpl, ?_, ?_, ?_, ?_, ?_, ?_⟩
  · dsimp only
    rw [update_self]
    exact hsum.symm
  · intro u hu ha
    exact hsum.trans (hadv.mp (hA u hu ha).2)
  · intro hall hn
    refine ⟨t, ht, ?_⟩
    dsimp only
    rw [update_self]
    exact hadv.mpr (hsum.symm.trans hall)
  · intro u hu v hv hau hav
    exact (hA u hu hau).1.trans (hA v hv hav).1.symm
  · intro u hu v hv hcu hcv
    exact h.oneCleans u hu v hv ((hC u).mp hcu) ((hC v).mp hcv)
  · intro hno
    have hne : (s.gen + 1) % barCycles ≠ s.gen % barCycles := by
      unfold barCycles
      omega
    dsimp only
    rw [update_of_ne hne]
    exact h.next fun u hu hc => hno u hu ((hC u).mpr hc)

/-- The write of the next cycle: every thread has arrived, so the counter
of the next cycle is clean and the arrivals at the next point are none. -/
theorem Inv.advance (hold : s.threads t = ⟨s.gen, .advancing (s.gen % barCycles)⟩) :
    s.count ((s.gen + 1) % barCycles) = 0
      ∧ Inv prog ((s.setCycle ((s.gen + 1) % barCycles)).setThread t
          ⟨s.gen, .cleaning (s.gen % barCycles)⟩) := by
  have hadv : Thread.IsAdvancing (s.threads t) := ⟨_, by rw [hold]⟩
  have hall := arrivals_eq_iff.mp (h.full t ht hadv)
  have hnocl : ∀ u < s.nthreads, ¬ (s.threads u).IsCleaning := by
    rintro u hu ⟨cur, hcur⟩
    rcases (h.place u hu).cases_arrived (hall u hu) with hth | hth | ⟨hth, -⟩
    all_goals
      rw [hth] at hcur
      cases hcur
  have hzero := h.next hnocl
  -- what the others are at the next point
  have hplace : ∀ u < s.nthreads, u ≠ t →
      Place prog (s.gen + 1) u (s.threads u) := by
    intro u hu hne
    rcases (h.place u hu).cases_arrived (hall u hu) with hth | hth | ⟨hth, -⟩
    · rw [hth]
      exact Place.released s.gen rfl
    · exact absurd (h.oneAdvances u hu t ht ⟨_, by rw [hth]⟩ hadv) hne
    · rw [hth]
      exact Place.idle
  have hnone : ∀ u < s.nthreads,
      ¬ (update s.threads t
          ⟨s.gen, .cleaning (s.gen % barCycles)⟩ u).Arrived (s.gen + 1)
        ∧ ¬ Thread.IsAdvancing (update s.threads t
          ⟨s.gen, .cleaning (s.gen % barCycles)⟩ u) := by
    intro u hu
    rcases eq_or_ne u t with rfl | hne
    · rw [update_self]
      constructor
      · rintro (hlt | ⟨heq, -⟩)
        · dsimp only at hlt
          omega
        · dsimp only at heq
          omega
      · intro ⟨cur, hcur⟩
        cases hcur
    · rw [update_of_ne hne]
      refine ⟨(h.place u hu).not_arrived_of_gt (Nat.lt_succ_self _), ?_⟩
      intro ha
      exact hne (h.oneAdvances u hu t ht ha hadv)
  have hcleans : ∀ u < s.nthreads, Thread.IsCleaning (update s.threads t
      ⟨s.gen, .cleaning (s.gen % barCycles)⟩ u) → u = t := by
    intro u hu hc
    by_contra hne
    rw [update_of_ne hne] at hc
    exact hnocl u hu hc
  refine ⟨hzero, ?_⟩
  unfold setCycle setThread
  refine ⟨rfl, ?_, ?_, ?_, ?_, ?_, ?_, ?_⟩
  · intro u hu
    dsimp only
    rcases eq_or_ne u t with rfl | hne
    · rw [update_self]
      exact Place.cleaning s.gen rfl
    · rw [update_of_ne hne]
      exact hplace u hu hne
  · dsimp only
    rw [hzero]
    exact (arrivals_eq_zero fun u hu => (hnone u hu).1).symm
  · intro u hu ha
    exact absurd ha (hnone u hu).2
  · intro hfull hn
    exact absurd (arrivals_eq_iff.mp hfull 0 hn) (hnone 0 hn).1
  · intro u hu v hv hau
    exact absurd hau (hnone u hu).2
  · intro u hu v hv hcu hcv
    exact (hcleans u hu hcu).trans (hcleans v hv hcv).symm
  · intro hno
    refine absurd ?_ (hno t ht)
    dsimp only
    rw [update_self]
    exact ⟨_, rfl⟩

/-- The cleaning: the counter after the current one, which nobody uses. -/
theorem Inv.clean (hk : s.gen = k + 1)
    (hold : s.threads t = ⟨k, .cleaning (k % barCycles)⟩) :
    Inv prog ((s.setCount ((s.gen + 1) % barCycles) 0).setThread t
      ⟨s.gen, .idle⟩) := by
  have hcl : Thread.IsCleaning (s.threads t) := ⟨_, by rw [hold]⟩
  have hnoadv : ¬ (s.threads t).IsAdvancing := by
    rw [hold]
    intro ⟨cur, hcur⟩
    cases hcur
  have hidle : ¬ Thread.IsAdvancing ⟨s.gen, .idle⟩ := by
    intro ⟨cur, hcur⟩
    cases hcur
  have hA := update_iff t (iff_of_false hidle hnoadv)
  have hnocl : ∀ u < s.nthreads,
      ¬ (update s.threads t ⟨s.gen, .idle⟩ u).IsCleaning := by
    intro u hu hc
    rcases eq_or_ne u t with rfl | hne
    · rw [update_self] at hc
      obtain ⟨cur, hcur⟩ := hc
      cases hcur
    · rw [update_of_ne hne] at hc
      exact hne (h.oneCleans u hu t ht hc hcl)
  have hsum : arrivals s.gen s.nthreads (update s.threads t ⟨s.gen, .idle⟩)
      = arrivals s.gen s.nthreads s.threads := by
    apply arrivals_update_same ht
    apply iff_of_false
    · exact not_arrived_of_counted rfl rfl
    rw [hold]
    rintro (hlt | ⟨heq, -⟩)
    · dsimp only at hlt
      omega
    · dsimp only at heq
      omega
  unfold setCount setThread
  refine ⟨h.cycle, place_update h.place Place.idle, ?_, ?_, ?_, ?_, ?_, ?_⟩
  · have hne : s.gen % barCycles ≠ (s.gen + 1) % barCycles := by
      unfold barCycles
      omega
    dsimp only
    rw [update_of_ne hne, hsum]
    exact h.count
  · intro u hu ha
    exact hsum.trans (h.full u hu ((hA u).mp ha))
  · intro hall hn
    obtain ⟨u, hu, ha⟩ := h.advancer (hsum.symm.trans hall) hn
    exact ⟨u, hu, (hA u).mpr ha⟩
  · intro u hu v hv hau hav
    exact h.oneAdvances u hu v hv ((hA u).mp hau) ((hA v).mp hav)
  · intro u hu v hv hcu
    exact absurd hcu (hnocl u hu)
  · intro _
    dsimp only
    exact update_self _ _ _

end

-- what a step of a thread does, by its place in the code

section

variable (ht : t < s.nthreads)
include ht

theorem step_idle (hth : s.threads t = ⟨k, .idle⟩) :
    step prog t s = some (s.setThread t ⟨k, .arriving s.cycle⟩) := by
  unfold step
  rw [if_pos ht]
  simp only [hth, setPc]

theorem step_arriving (hth : s.threads t = ⟨k, .arriving cur⟩) :
    step prog t s = some ((s.setCount cur (s.count cur + 1)).setThread t
      (if s.count cur + 1 = s.nthreads then ⟨k, .advancing cur⟩
        else if (prog k).waits t then ⟨k, .suspended ((cur + 1) % barCycles)⟩
        else ⟨k + 1, .idle⟩)) := by
  unfold step
  rw [if_pos ht]
  simp only [hth, setPc, leave, setCount]
  split
  next => rfl
  next =>
    split
    next => rfl
    next => rfl

theorem step_advancing (hth : s.threads t = ⟨k, .advancing cur⟩) :
    step prog t s = some ((s.setCycle ((cur + 1) % barCycles)).setThread t
      ⟨k, .cleaning cur⟩) := by
  unfold step
  rw [if_pos ht]
  simp only [hth, setPc, setCycle]

theorem step_cleaning (hth : s.threads t = ⟨k, .cleaning cur⟩) :
    step prog t s = some ((s.setCount
      (((cur + 1) % barCycles + 1) % barCycles) 0).setThread t ⟨k + 1, .idle⟩) := by
  unfold step
  rw [if_pos ht]
  simp only [hth, leave, setCount]

/-- A suspended thread waits for its cycle. -/
theorem step_suspended {next : Nat} (hth : s.threads t = ⟨k, .suspended next⟩)
    (hs : step prog t s = some s') :
    s.cycle = next ∧ s' = s.setThread t ⟨k + 1, .idle⟩ := by
  unfold step at hs
  rw [if_pos ht] at hs
  simp only [hth, leave] at hs
  split at hs
  next hc =>
    injection hs with hs
    exact ⟨hc, hs.symm⟩
  next hc => cases hs

end

theorem lt_of_step (hs : step prog t s = some s') : t < s.nthreads := by
  unfold step at hs
  split at hs
  next ht => exact ht
  next => cases hs

/-- Every step that meets the condition keeps the invariant. -/
theorem Inv.step (h : Inv prog s) (hm : Meets prog t s)
    (hs : step prog t s = some s') : Inv prog s' := by
  have ht := lt_of_step hs
  have hp := h.place t ht
  rcases hth : s.threads t with ⟨point, pc⟩
  rw [hth] at hp
  cases hp with
  | released k hk =>
    obtain ⟨-, rfl⟩ := step_suspended ht hth hs
    rw [← hk]
    apply h.move ht Place.idle
    all_goals
      rw [hth]
      apply iff_of_false
    · exact not_arrived_of_counted rfl rfl
    · rintro (hlt | ⟨heq, -⟩)
      · dsimp only at hlt
        omega
      · dsimp only at heq
        omega
    all_goals
      intro ⟨cur, hcur⟩
      cases hcur
  | cleaning _ hk =>
    rw [step_cleaning ht hth] at hs
    injection hs with hs
    have hcyc : ((point % barCycles + 1) % barCycles + 1) % barCycles
        = (s.gen + 1) % barCycles := by
      unfold barCycles
      omega
    rw [← hs, hcyc, ← hk]
    exact h.clean ht hk hth
  | idle =>
    rw [step_idle ht hth] at hs
    injection hs with hs
    rw [← hs, h.cycle]
    apply h.move ht Place.arriving
    all_goals
      rw [hth]
      apply iff_of_false
    · exact not_arrived_of_counted rfl rfl
    · exact not_arrived_of_counted rfl rfl
    all_goals
      intro ⟨cur, hcur⟩
      cases hcur
  | arriving =>
    rw [step_arriving ht hth] at hs
    cases hs
    by_cases hfull : s.count (s.gen % barCycles) + 1 = s.nthreads
    · rw [if_pos hfull]
      refine h.arrive ht hth Place.advancing (.inr ⟨rfl, rfl⟩)
        (iff_of_true ⟨_, rfl⟩ hfull) ?_
      intro ⟨cur, hcur⟩
      cases hcur
    rw [if_neg hfull]
    by_cases hw : (prog s.gen).waits t = true
    · have hmod : (s.gen % barCycles + 1) % barCycles
          = (s.gen + 1) % barCycles := by
        unfold barCycles
        omega
      rw [if_pos hw, hmod]
      refine h.arrive ht hth Place.suspended (.inr ⟨rfl, rfl⟩)
        (iff_of_false ?_ hfull) ?_
      all_goals
        intro ⟨cur, hcur⟩
        cases hcur
    · rw [if_neg hw]
      refine h.arrive ht hth (Place.ahead (Bool.eq_false_iff.mpr hw))
        (.inl (Nat.lt_succ_self _)) (iff_of_false ?_ hfull) ?_
      all_goals
        intro ⟨cur, hcur⟩
        cases hcur
  | suspended =>
    -- the cycle the thread waits for is not the current one
    obtain ⟨hc, -⟩ := step_suspended ht hth hs
    rw [h.cycle] at hc
    unfold barCycles at hc
    omega
  | advancing =>
    rw [step_advancing ht hth] at hs
    injection hs with hs
    have hcyc : (s.gen % barCycles + 1) % barCycles
        = (s.gen + 1) % barCycles := by
      unfold barCycles
      omega
    rw [← hs, hcyc]
    exact (h.advance ht hth).2
  | ahead hw =>
    -- the point this thread left would have an advancing thread
    exfalso
    unfold Meets at hm
    rw [hth] at hm
    have hpass := hm rfl (Nat.zero_lt_succ _) hw
    obtain ⟨u, hu, ha⟩ := h.advancer
      (arrivals_eq_iff.mpr fun u hu => (hpass u hu).1) (Nat.zero_lt_of_lt ht)
    exact (hpass u hu).2 ha

/-- The invariant gives the barrier. -/
theorem Inv.safe (h : Inv prog s) : Safe prog s where
  left := by
    intro t ht k hk hw u hu
    exact (h.place u hu).arrived_of_lt ((h.place t ht).lt_of_left hk hw)
  own := by
    intro t ht cur hcur
    have hp := h.place t ht
    rcases hth : s.threads t with ⟨point, pc⟩
    rw [hth] at hp hcur
    cases hp with
    | arriving =>
      injection hcur with hcur
      exact ⟨hcur.symm.trans h.cycle.symm, rfl⟩
    | _ => cases hcur

theorem Inv.startsClean (h : Inv prog s) : StartsClean prog s := by
  intro t cur s' hcur hs
  have ht := lt_of_step hs
  have hp := h.place t ht
  rcases hth : s.threads t with ⟨point, pc⟩
  rw [hth] at hp hcur
  cases hp with
  | advancing =>
    have hmod : (s.gen % barCycles + 1) % barCycles
        = (s.gen + 1) % barCycles := by
      unfold barCycles
      omega
    rw [step_advancing ht hth, hmod] at hs
    cases hs
    exact (h.advance ht hth).1
  | _ => cases hcur

-- ======== theorems

/-- Whatever the constructs, the team and the order of its steps, the
barrier keeps its promise as long as the threads that passed a `nowait`
point read the cycle of their next point after it has moved on. -/
theorem safe_of_meets (n : Nat) (prog : Nat → Construct) (as : List Nat)
    (s : Team) (hm : Along (step prog) (Meets prog) as (init n))
    (hrun : run (step prog) as (init n) = some s) :
    Safe prog s ∧ StartsClean prog s := by
  have h := hm.run_inv (P := Inv prog) (fun hq h hs => h.step hq hs)
    (inv_init prog n) hrun
  exact ⟨h.safe, h.startsClean⟩

/-- Two loops with `nowait`, then barriers. -/
def nowaitTwice (k : Nat) : Construct := if k < 2 then .loopEndNowait else .barrier

/-- A team of two, the barrier point 0 passed without waiting. -/
theorem safe_of_meets_two :
    Along (step nowaitTwice) (Meets nowaitTwice) [1, 1, 0, 0, 0, 0, 1, 1] (init 2)
      ∧ ∃ s, run (step nowaitTwice) [1, 1, 0, 0, 0, 0, 1, 1] (init 2) = some s
        ∧ Safe nowaitTwice s ∧ StartsClean nowaitTwice s := by
  have hm : Along (step nowaitTwice) (Meets nowaitTwice) [1, 1, 0, 0, 0, 0, 1, 1]
      (init 2) := by decide +kernel
  refine ⟨hm, ?_⟩
  rcases hrun : run (step nowaitTwice) [1, 1, 0, 0, 0, 0, 1, 1] (init 2) with _ | s
  · have hsome : (run (step nowaitTwice) [1, 1, 0, 0, 0, 0, 1, 1]
        (init 2)).isSome = true := by decide +kernel
    rw [hrun] at hsome
    cases hsome
  · exact ⟨s, rfl, safe_of_meets 2 nowaitTwice _ s hm hrun⟩

/-- Holding these reads back never blocks the team: some thread can
always take a step that meets the condition. -/
theorem barrier_no_deadlock {n : Nat} {prog : Nat → Construct} {as : List Nat} {s : Team}
    (hm : Along (step prog) (Meets prog) as (init n))
    (hrun : run (step prog) as (init n) = some s) (hpos : 0 < s.nthreads) :
    ∃ t s', Meets prog t s ∧ step prog t s = some s' := by
  have h : Inv prog s := hm.run_inv (fun hq h hs => h.step hq hs) (inv_init prog n) hrun
  by_contra hstuck
  have hno : ∀ {t s'}, (s.threads t).pc ≠ .idle → step prog t s ≠ some s' :=
    fun hpc hs => hstuck ⟨_, _, fun hidle => absurd hidle hpc, hs⟩
  have hadv : ∀ u < s.nthreads, ¬ (s.threads u).IsAdvancing := by
    rintro u hu ⟨cur, hcur⟩
    rcases hth : s.threads u with ⟨point, pc⟩
    obtain rfl : pc = .advancing cur := by rw [← hcur, hth]
    exact hno (by rw [hth]; nofun) (step_advancing hu hth)
  -- a thread that cannot go on has arrived at the point being counted
  have harrived : ∀ t < s.nthreads, (s.threads t).Arrived s.gen := by
    intro t ht
    have hp := h.place t ht
    rcases hth : s.threads t with ⟨point, pc⟩
    rw [hth] at hp
    cases hp with
    | released k hk =>
      have hstep : step prog t s = some (s.leave t) := by
        unfold step
        rw [if_pos ht]
        simp only [hth]
        rw [if_pos (by rw [h.cycle, hk])]
      exact absurd hstep (hno (by rw [hth]; nofun))
    | cleaning k hk => exact absurd (step_cleaning ht hth) (hno (by rw [hth]; nofun))
    | idle =>
      refine absurd ⟨t, _, fun _ hg _ => ?_, step_idle ht hth⟩ hstuck
      rw [hth] at hg ⊢
      exact fun u hu => ⟨(h.place u hu).arrived_of_lt (Nat.sub_one_lt_of_lt hg), hadv u hu⟩
    | arriving => exact absurd (step_arriving ht hth) (hno (by rw [hth]; nofun))
    | suspended => exact .inr ⟨rfl, rfl⟩
    | advancing => exact .inr ⟨rfl, rfl⟩
    | ahead hw => exact .inl (Nat.lt_succ_self _)
  obtain ⟨t, ht, hcur⟩ := h.advancer (arrivals_eq_iff.mpr harrived) hpos
  exact hadv t ht hcur

theorem barrier_no_deadlock_two :
    ∃ s, run (step nowaitTwice) [1, 1, 0] (init 2) = some s
      ∧ ∃ t s', Meets nowaitTwice t s ∧ step nowaitTwice t s = some s' :=
  ⟨_, rfl, barrier_no_deadlock (n := 2) (by decide +kernel)
    (rfl : run (step nowaitTwice) [1, 1, 0] (init 2) = some _) (by decide)⟩

/-- In a team of two the slave passes two `nowait` points before the
master arrives at the first: it fills the counter alone, and then leaves
the barrier 2 with the master counted there, which is at the point 0. -/
theorem safe_fails :
    ∃ s, run (step nowaitTwice) [1, 1, 1, 1, 1, 1, 0, 0, 1, 1, 1, 1] (init 2)
      = some s
      ∧ ¬ Safe nowaitTwice s := by
  have hrun : (run (step nowaitTwice) [1, 1, 1, 1, 1, 1, 0, 0, 1, 1, 1, 1]
      (init 2)).map (fun s => (s.nthreads, s.threads 0, s.threads 1))
      = some (2, ⟨0, .suspended 2⟩, ⟨3, .idle⟩) := by decide +kernel
  obtain ⟨s, hs, hproj⟩ := Option.map_eq_some_iff.mp hrun
  refine ⟨s, hs, fun hsafe => ?_⟩
  simp only [Prod.mk.injEq] at hproj
  obtain ⟨hn, h₀, h₁⟩ := hproj
  have harr := hsafe.left 1 (by rw [hn]; decide) 2 (by rw [h₁]; decide) rfl
    0 (by rw [hn]; decide)
  rw [h₀] at harr
  exact absurd harr (by decide)

end Team

end XKaapi.Omp
