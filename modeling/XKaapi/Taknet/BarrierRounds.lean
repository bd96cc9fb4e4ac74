/-
The barrier of the TAKNET device keeps its rounds apart.

Each rank other than 0 goes through the same stages in every barrier
(`Stage`): its message is sent, counted, rank 0 passes, the
acknowledgement is sent, sets the flag, and is cleared. `AtStage` says
what each stage means for the counts, for the messages in flight from and
to the rank, and for the flag; the invariant is that every rank is at one
stage (`Ranks`), that the counter is the sum of the arrivals, and that a
sleeping thread will be signalled (`Naps`).
-/
import XKaapi.Taknet.Barrier

namespace XKaapi.Taknet

open StepMachine (run run_preserves)
open Function (update update_apply update_eq_self update_of_ne update_self)

-- ======== messages

/-- The message the service of `d` has not executed yet. -/
def St.hand (s : St) (d : Nat) : List (Nat × Msg) :=
  match s.service d with
  | .lock m => [(d, m)]
  | .body m => [(d, m)]
  | _ => []

/-- An arrival of rank `i`, on its way to rank 0. -/
def arrivalOf (i : Nat) : Nat × Msg → Bool
  | (d, .barrier j _) => d == 0 && j == i
  | _ => false

/-- An acknowledgement on its way to rank `i`. -/
def ackTo (i : Nat) : Nat × Msg → Bool
  | (d, .ack _) => d == i
  | _ => false

/-- The arrivals of rank `i` that are not counted yet. -/
def St.arrivals (s : St) (i : Nat) : Nat :=
  (s.flight ++ s.hand 0).countP (arrivalOf i)

/-- The acknowledgements that have not set the flag of rank `i` yet. -/
def St.acks (s : St) (i : Nat) : Nat :=
  (s.flight ++ s.hand i).countP (ackTo i)

/-- A place of rank 0 past its wait, rank `i` not acknowledged yet. -/
def MainPc.Unacked : MainPc → Nat → Prop
  | .clearWaiting, _ => True
  | .sendAck j, i => j ≤ i
  | _, _ => False

/-- A message is for the barrier its rank is in. -/
def MsgOk (s : St) (d : Nat) (m : Msg) : Prop :=
  match m with
  | .barrier j k => d = 0 ∧ 0 < j ∧ j < s.wcomSize ∧ k = s.entered j
  | .ack k => 0 < d ∧ d < s.wcomSize ∧ k = s.entered d

-- ======== stages

/-- How far a rank other than 0 is in a barrier. -/
inductive Stage
  | out
  | send
  | sent
  | counted
  | unacked
  | acked
  | flagged
  | cleared
deriving DecidableEq, Repr

namespace Stage

/-- Inside the barrier. -/
def inside : Stage → Nat
  | .out => 0
  | _ => 1

/-- The arrival is counted. -/
def arrived : Stage → Nat
  | .out | .send | .sent => 0
  | _ => 1

/-- Rank 0 has passed its wait. -/
def passed : Stage → Nat
  | .out | .send | .sent | .counted => 0
  | _ => 1

def arrivals : Stage → Nat
  | .sent => 1
  | _ => 0

def acks : Stage → Nat
  | .acked => 1
  | _ => 0

def flag : Stage → Bool
  | .flagged => true
  | _ => false

end Stage

/-- Between the send of a rank and the clearing of its flag. -/
def MainPc.Waits : MainPc → Prop
  | .lock | .test | .asleep | .relock => True
  | _ => False

/-- Where the thread may be in a stage. -/
def Stage.Pc : Stage → MainPc → Prop
  | .out, pc => pc = .out
  | .send, pc => pc = .send
  | .sent, pc | .counted, pc | .unacked, pc | .acked, pc => pc.Waits
  | .flagged, pc => pc.Waits ∨ pc = .clearRecv
  | .cleared, pc => pc = .unlock

structure AtStage (s : St) (i : Nat) (st : Stage) : Prop where
  pc : st.Pc (s.main i)
  entered : s.entered i = s.left i + st.inside
  counted : s.counted i = s.left i + st.arrived
  released : s.released = s.left i + st.passed
  arrivals : s.arrivals i = st.arrivals
  acks : s.acks i = st.acks
  recv : s.recv i = st.flag
  unacked : (s.main 0).Unacked i ↔ st = .unacked

-- ------------------------------------------------- rank 0, by its place

namespace MainPc

/-- A place of rank 0. -/
def OfZero : MainPc → Prop
  | .send | .clearRecv => False
  | .sendAck i => 0 < i
  | _ => True

def inside : MainPc → Nat
  | .out => 0
  | _ => 1

def arrived : MainPc → Nat
  | .out | .lock | .incr => 0
  | _ => 1

def passed : MainPc → Nat
  | .clearWaiting | .sendAck _ | .unlock => 1
  | _ => 0

/-- Inside the section under the mutex. -/
def Crit : MainPc → Prop
  | .out | .send | .lock | .asleep | .relock => False
  | _ => True

end MainPc

def ServicePc.Crit : ServicePc → Prop
  | .body _ | .signal _ | .unlock => True
  | _ => False

-- ======== the invariant

/-- The ranks. -/
structure Ranks (s : St) : Prop where
  zeroPc : (s.main 0).OfZero
  zeroEntered : s.entered 0 = s.left 0 + (s.main 0).inside
  zeroCounted : s.counted 0 = s.left 0 + (s.main 0).arrived
  zeroReleased : s.released = s.left 0 + (s.main 0).passed
  rank : ∀ i, 0 < i → i < s.wcomSize → ∃ st, AtStage s i st

/-- The messages, the flags and the counter. -/
structure Books (s : St) : Prop where
  flight : ∀ d m, (d, m) ∈ s.flight → MsgOk s d m
  hand : ∀ d m, (d, m) ∈ s.hand d → MsgOk s d m
  flagged : ∀ i, 0 < i → s.recv i = true → s.ackOf i = s.entered i
  count : s.count = ∑ i ∈ Finset.range s.wcomSize, s.counted i

/-- A thread asleep whose wait is over has a signal coming. -/
structure Naps (s : St) : Prop where
  waiting : s.main 0 = .test ∨ s.main 0 = .asleep ∨ s.main 0 = .relock →
    s.waiting = s.wcomSize
  zero : s.main 0 = .asleep → s.count % s.wcomSize = 0 →
    ∃ j k, s.service 0 = .signal (.barrier j k)
  rank : ∀ i, 0 < i → s.main i = .asleep → s.recv i = true →
    ∃ k, s.service i = .signal (.ack k)

/-- Whoever holds a mutex is in a section under it. -/
structure Mutexes (s : St) : Prop where
  main : ∀ i, s.mutex i = some .main → (s.main i).Crit
  service : ∀ i, s.mutex i = some .service → (s.service i).Crit

structure Inv (s : St) : Prop where
  size : 0 < s.wcomSize
  ranks : Ranks s
  books : Books s
  naps : Naps s
  mutexes : Mutexes s

variable {s s' : St} {i : Nat} {st : Stage} {d k j : Nat} {m : Msg} {pc : MainPc}
  {o : Option Holder} {sv : ServicePc}

-- ======== one rank

/-- What a rank sees of the state is the same. -/
structure SameRank (s s' : St) (i : Nat) : Prop where
  main : s'.main i = s.main i
  entered : s'.entered i = s.entered i
  left : s'.left i = s.left i
  counted : s'.counted i = s.counted i
  released : s'.released = s.released
  arrivals : s'.arrivals i = s.arrivals i
  acks : s'.acks i = s.acks i
  recv : s'.recv i = s.recv i
  unacked : (s'.main 0).Unacked i ↔ (s.main 0).Unacked i

/-- The stage of a rank depends on what it has of it only. -/
theorem AtStage.congr (h : AtStage s i st) (hs : SameRank s s' i) : AtStage s' i st where
  pc := by rw [hs.main]; exact h.pc
  entered := by rw [hs.entered, hs.left]; exact h.entered
  counted := by rw [hs.counted, hs.left]; exact h.counted
  released := by rw [hs.released, hs.left]; exact h.released
  arrivals := hs.arrivals.trans h.arrivals
  acks := hs.acks.trans h.acks
  recv := hs.recv.trans h.recv
  unacked := hs.unacked.trans h.unacked

/-- Rank `i` moves, and the others stay where they are. -/
theorem Ranks.move (h : Ranks s) (hi : 0 < i) (hsize : s'.wcomSize = s.wcomSize)
    (hzero : SameRank s s' 0)
    (hother : ∀ j, 0 < j → j ≠ i → SameRank s s' j)
    (hrank : i < s.wcomSize → ∃ st, AtStage s' i st) : Ranks s' where
  zeroPc := by rw [hzero.main]; exact h.zeroPc
  zeroEntered := by
    rw [hzero.entered, hzero.left, hzero.main]
    exact h.zeroEntered
  zeroCounted := by
    rw [hzero.counted, hzero.left, hzero.main]
    exact h.zeroCounted
  zeroReleased := by
    rw [hzero.released, hzero.left, hzero.main]
    exact h.zeroReleased
  rank := by
    intro j hj hlt
    rw [hsize] at hlt
    by_cases hji : j = i
    · subst hji
      exact hrank hlt
    · obtain ⟨st, hst⟩ := h.rank j hj hlt
      exact ⟨st, hst.congr (hother j hj hji)⟩

/-- A rank is counted once more than released, or as often. -/
theorem Ranks.counted_cases (h : Ranks s) (hi : i < s.wcomSize) :
    s.released ≤ s.counted i ∧ s.counted i ≤ s.released + 1 := by
  rcases Nat.eq_zero_or_pos i with rfl | hpos
  · have hc := h.zeroCounted
    have hr := h.zeroReleased
    have hpc := h.zeroPc
    cases hmain : s.main 0 <;> rw [hmain] at hc hr hpc <;>
      simp only [MainPc.arrived, MainPc.passed, MainPc.OfZero] at hc hr hpc <;>
      omega
  · obtain ⟨st, hst⟩ := h.rank i hpos hi
    have hc := hst.counted
    have hr := hst.released
    cases st <;> simp only [Stage.arrived, Stage.passed] at hc hr <;> omega

/-- When the count is a multiple of the number of processes and rank 0 is
counted, everybody is. -/
theorem Ranks.passed (h : Ranks s) (hsize : 0 < s.wcomSize)
    (hcount : s.count = ∑ j ∈ Finset.range s.wcomSize, s.counted j)
    (hzero : s.counted 0 = s.released + 1)
    (hmod : s.count % s.wcomSize = 0) (hi : i < s.wcomSize) :
    s.counted i = s.released + 1 := by
  -- the arrivals of the round being counted
  have hle : ∀ j ∈ Finset.range s.wcomSize, s.counted j - s.released ≤ 1 := by
    intro j hj
    have := h.counted_cases (Finset.mem_range.mp hj)
    omega
  have hsplit : s.count = s.wcomSize * s.released
      + ∑ j ∈ Finset.range s.wcomSize, (s.counted j - s.released) := by
    have heach : ∀ j ∈ Finset.range s.wcomSize,
        s.counted j = s.released + (s.counted j - s.released) := by
      intro j hj
      have := h.counted_cases (Finset.mem_range.mp hj)
      omega
    rw [hcount, Finset.sum_congr rfl heach, Finset.sum_add_distrib,
      Finset.sum_const_nat (fun _ _ => rfl), Finset.card_range]
  have hbound : ∑ j ∈ Finset.range s.wcomSize, (s.counted j - s.released)
      ≤ s.wcomSize := by
    have hsum := Finset.sum_le_sum hle
    rw [Finset.sum_const_nat (fun _ _ => rfl), Finset.card_range,
      Nat.mul_one] at hsum
    exact hsum
  have hpos : 0 < ∑ j ∈ Finset.range s.wcomSize,
      (s.counted j - s.released) := by
    have hterm := Tally.le_sum hsize fun j => s.counted j - s.released
    omega
  have hfull : ∑ j ∈ Finset.range s.wcomSize, (s.counted j - s.released)
      = ∑ _j ∈ Finset.range s.wcomSize, 1 := by
    rw [Finset.sum_const_nat (fun _ _ => rfl), Finset.card_range, Nat.mul_one]
    rw [hsplit, Nat.mul_add_mod] at hmod
    have hdvd := Nat.dvd_of_mod_eq_zero hmod
    have hge := Nat.le_of_dvd hpos hdvd
    omega
  have hone := (Finset.sum_eq_sum_iff_of_le hle).mp hfull i
    (Finset.mem_range.mpr hi)
  omega

-- ======== counting messages

/-- The arrivals of a rank under way, after a post. -/
theorem arrivals_post (d : Nat) (m : Msg) (i : Nat) :
    (s.post d m).arrivals i
      = s.arrivals i + if arrivalOf i (d, m) then 1 else 0 := by
  show ((s.flight ++ [(d, m)]) ++ s.hand 0).countP (arrivalOf i) = _
  unfold St.arrivals
  rw [List.countP_append, List.countP_append, List.countP_append,
    List.countP_singleton]
  omega

/-- The acknowledgements to a rank under way, after a post. -/
theorem acks_post (d : Nat) (m : Msg) (i : Nat) :
    (s.post d m).acks i = s.acks i + if ackTo i (d, m) then 1 else 0 := by
  show ((s.flight ++ [(d, m)]) ++ s.hand i).countP (ackTo i) = _
  unfold St.acks
  rw [List.countP_append, List.countP_append, List.countP_append,
    List.countP_singleton]
  omega

/-- What is under way after a delivery. -/
theorem countP_deliver {p : Nat × Msg → Bool} {l : List (Nat × Msg)} (hmem : (d, m) ∈ l) :
    (l.erase (d, m)).countP p + (if p (d, m) then 1 else 0) = l.countP p := by
  rw [(List.perm_cons_erase hmem).countP_eq p, List.countP_cons]

/-- A rank without arrival under way has no such message. -/
theorem not_arrival_of_zero (h : s.arrivals i = 0) :
    d = 0 → (d, .barrier i k) ∉ s.flight ∧ (d, .barrier i k) ∉ s.hand 0 := by
  intro heq
  subst heq
  unfold St.arrivals at h
  rw [List.countP_eq_zero] at h
  refine ⟨fun hmem => h _ (List.mem_append_left _ hmem) ?_,
    fun hmem => h _ (List.mem_append_right _ hmem) ?_⟩
  · simp [arrivalOf]
  · simp [arrivalOf]

/-- A rank without acknowledgement under way has no such message. -/
theorem not_ack_of_zero (h : s.acks i = 0) :
    (i, .ack k) ∉ s.flight ∧ (i, .ack k) ∉ s.hand i := by
  unfold St.acks at h
  rw [List.countP_eq_zero] at h
  refine ⟨fun hmem => h _ (List.mem_append_left _ hmem) ?_,
    fun hmem => h _ (List.mem_append_right _ hmem) ?_⟩
  · simp [ackTo]
  · simp [ackTo]

-- ======== moves of a thread

/-- The thread of process `i` moves; the counts, the messages and the
flags stay. -/
structure Moves (s s' : St) (i : Nat) (pc : MainPc) : Prop where
  main : s'.main = update s.main i pc
  wcomSize : s'.wcomSize = s.wcomSize
  entered : s'.entered = s.entered
  left : s'.left = s.left
  counted : s'.counted = s.counted
  released : s'.released = s.released
  flight : s'.flight = s.flight
  hand : ∀ d, s'.hand d = s.hand d
  recv : s'.recv = s.recv

/-- The other ranks see nothing of the move. -/
theorem Moves.same (h : Moves s s' i pc) (hj : j ≠ i)
    (hunacked : (s'.main 0).Unacked j ↔ (s.main 0).Unacked j) : SameRank s s' j where
  main := by rw [h.main, update_of_ne hj]
  entered := by rw [h.entered]
  left := by rw [h.left]
  counted := by rw [h.counted]
  released := h.released
  arrivals := by unfold St.arrivals; rw [h.flight, h.hand]
  acks := by unfold St.acks; rw [h.flight, h.hand]
  recv := by rw [h.recv]
  unacked := hunacked

/-- A rank's move leaves rank 0 where it is. -/
theorem Moves.main_zero (h : Moves s s' i pc) (hi : 0 < i) : s'.main 0 = s.main 0 := by
  rw [h.main, update_of_ne (Nat.ne_of_lt hi)]

/-- A rank that moves within its stage stays there. -/
theorem AtStage.move (h : AtStage s i st) (hi : 0 < i) (hm : Moves s s' i pc)
    (hpc : st.Pc pc) : AtStage s' i st where
  pc := by rw [hm.main, update_self]; exact hpc
  entered := by rw [hm.entered, hm.left]; exact h.entered
  counted := by rw [hm.counted, hm.left]; exact h.counted
  released := by rw [hm.released, hm.left]; exact h.released
  arrivals := by
    unfold St.arrivals
    rw [hm.flight, hm.hand]
    exact h.arrivals
  acks := by
    unfold St.acks
    rw [hm.flight, hm.hand]
    exact h.acks
  recv := by rw [hm.recv]; exact h.recv
  unacked := by rw [hm.main_zero hi]; exact h.unacked

/-- A rank moves within its stage. -/
theorem Ranks.moveRank (h : Ranks s) (hi : 0 < i) (hm : Moves s s' i pc)
    (hpc : ∀ st, AtStage s i st → st.Pc pc) : Ranks s' := by
  have hzero : s'.main 0 = s.main 0 := hm.main_zero hi
  refine h.move hi hm.wcomSize (hm.same (Nat.ne_of_lt hi) (by rw [hzero]))
    (fun j _ hji => hm.same hji (by rw [hzero])) fun hlt => ?_
  obtain ⟨st, hst⟩ := h.rank i hi hlt
  exact ⟨st, hst.move hi hm (hpc st hst)⟩

/-- The numbers of rank 0 follow from where it is. -/
theorem Ranks.zero (h : Ranks s) (hpc : s.main 0 = pc) :
    s.entered 0 = s.left 0 + pc.inside ∧ s.counted 0 = s.left 0 + pc.arrived
      ∧ s.released = s.left 0 + pc.passed := by
  subst hpc
  exact ⟨h.zeroEntered, h.zeroCounted, h.zeroReleased⟩

/-- What rank 0 must keep when it moves. -/
theorem Ranks.ofZero (hself : s'.main 0 = pc) (hpc : pc.OfZero)
    (hentered : s'.entered 0 = s'.left 0 + pc.inside)
    (hcounted : s'.counted 0 = s'.left 0 + pc.arrived)
    (hreleased : s'.released = s'.left 0 + pc.passed)
    (hrank : ∀ j, 0 < j → j < s'.wcomSize → ∃ st, AtStage s' j st) : Ranks s' := by
  subst hself
  exact ⟨hpc, hentered, hcounted, hreleased, hrank⟩

/-- Rank 0 moves with the same numbers. -/
theorem Ranks.moveZero (h : Ranks s) (hm : Moves s s' 0 pc) (hpc : pc.OfZero)
    (hinside : pc.inside = (s.main 0).inside) (harrived : pc.arrived = (s.main 0).arrived)
    (hpassed : pc.passed = (s.main 0).passed)
    (hunacked : ∀ j, 0 < j → j < s.wcomSize → (pc.Unacked j ↔ (s.main 0).Unacked j)) :
    Ranks s' := by
  have hself : s'.main 0 = pc := by rw [hm.main, update_self]
  refine .ofZero hself hpc ?_ ?_ ?_ fun j hj hlt => ?_
  · rw [hm.entered, hm.left, hinside]
    exact h.zeroEntered
  · rw [hm.counted, hm.left, harrived]
    exact h.zeroCounted
  · rw [hm.released, hm.left, hpassed]
    exact h.zeroReleased
  · rw [hm.wcomSize] at hlt
    obtain ⟨st, hst⟩ := h.rank j hj hlt
    refine ⟨st, hst.congr (hm.same (Nat.ne_of_gt hj) ?_)⟩
    rw [hself]
    exact hunacked j hj hlt

/-- A message is right as long as the entries stay. -/
theorem MsgOk.congr (h : MsgOk s d m) (hsize : s'.wcomSize = s.wcomSize)
    (hentered : s'.entered = s.entered) : MsgOk s' d m := by
  cases m with
  | barrier j k =>
    unfold MsgOk at h ⊢
    rw [hsize, hentered]
    exact h
  | ack k =>
    unfold MsgOk at h ⊢
    rw [hsize, hentered]
    exact h

/-- The books depend on the messages and counters only. -/
theorem Books.congr (h : Books s) (hsize : s'.wcomSize = s.wcomSize)
    (hentered : s'.entered = s.entered) (hflight : s'.flight = s.flight)
    (hhand : ∀ d, s'.hand d = s.hand d) (hrecv : s'.recv = s.recv)
    (hackOf : s'.ackOf = s.ackOf) (hcount : s'.count = s.count)
    (hcounted : s'.counted = s.counted) : Books s' where
  flight := by
    intro d m hmem
    rw [hflight] at hmem
    exact (h.flight d m hmem).congr hsize hentered
  hand := by
    intro d m hmem
    rw [hhand] at hmem
    exact (h.hand d m hmem).congr hsize hentered
  flagged := by
    intro i hpos hi
    rw [hrecv] at hi
    rw [hackOf, hentered]
    exact h.flagged i hpos hi
  count := by
    rw [hcount, hsize, hcounted]
    exact h.count

/-- Rank `i` takes or frees its mutex. -/
theorem Mutexes.move (h : Mutexes s) (i : Nat)
    (hmutex : ∀ j, j ≠ i → s'.mutex j = s.mutex j)
    (hmain : ∀ j, j ≠ i → s'.main j = s.main j)
    (hservice : ∀ j, j ≠ i → s'.service j = s.service j)
    (hmain' : s'.mutex i = some .main → (s'.main i).Crit)
    (hservice' : s'.mutex i = some .service → (s'.service i).Crit) :
    Mutexes s' where
  main := by
    intro j hj
    by_cases hji : j = i
    · subst hji
      exact hmain' hj
    · rw [hmutex j hji] at hj
      rw [hmain j hji]
      exact h.main j hj
  service := by
    intro j hj
    by_cases hji : j = i
    · subst hji
      exact hservice' hj
    · rw [hmutex j hji] at hj
      rw [hservice j hji]
      exact h.service j hj

/-- The thread of process `i` moves, and its mutex with it. -/
theorem Mutexes.moveMain (h : Mutexes s) (hmutex : s'.mutex = update s.mutex i o)
    (hmain : s'.main = update s.main i pc) (hservice : s'.service = s.service)
    (hcrit : o = some .main → pc.Crit) (hheld : o = some .service → (s.service i).Crit) :
    Mutexes s' := by
  refine h.move i ?_ ?_ (fun _ _ => congrFun hservice _) ?_ ?_
  · exact fun j hj => by rw [hmutex, update_of_ne hj]
  · exact fun j hj => by rw [hmain, update_of_ne hj]
  · rw [hmutex, hmain, update_self, update_self]
    exact hcrit
  · rw [hmutex, hservice, update_self]
    exact hheld

/-- A rank goes on, and keeps the mutex it had. -/
theorem Mutexes.goOn (h : Mutexes s) (hmutex : s'.mutex = s.mutex)
    (hmain : s'.main = update s.main i pc) (hservice : s'.service = s.service)
    (hcrit : (s.main i).Crit → pc.Crit) : Mutexes s' :=
  h.moveMain (hmutex.trans (update_eq_self i _).symm) hmain hservice
    (fun ho => hcrit (h.main i ho)) (h.service i)

/-- A rank moves: it falls asleep only before its flag is set. -/
theorem Naps.moveRank (h : Naps s) (hi : 0 < i) (hmain : s'.main = update s.main i pc)
    (hwaiting : s'.waiting = s.waiting) (hsize : s'.wcomSize = s.wcomSize)
    (hcount : s'.count = s.count) (hservice : s'.service = s.service)
    (hrecv : ∀ j, j ≠ i → s'.recv j = s.recv j)
    (hpc : pc = .asleep → s'.recv i = true → ∃ k, s'.service i = .signal (.ack k)) :
    Naps s' := by
  have hzero : s'.main 0 = s.main 0 := by
    rw [hmain, update_of_ne (Nat.ne_of_lt hi)]
  refine ⟨?_, ?_, fun j hj hsleep hflag => ?_⟩
  · rw [hzero, hwaiting, hsize]
    exact h.waiting
  · rw [hzero, hcount, hsize, hservice]
    exact h.zero
  · by_cases hji : j = i
    · subst hji
      rw [hmain, update_self] at hsleep
      exact hpc hsleep hflag
    · rw [hmain, update_of_ne hji] at hsleep
      rw [hrecv j hji] at hflag
      rw [hservice]
      exact h.rank j hj hsleep hflag

/-- Rank 0 moves: it falls asleep only before the last arrival. -/
theorem Naps.moveZero (h : Naps s) (hmain : s'.main = update s.main 0 pc)
    (hservice : s'.service = s.service) (hrecv : s'.recv = s.recv)
    (hwaiting : pc = .test ∨ pc = .asleep ∨ pc = .relock → s'.waiting = s'.wcomSize)
    (hpc : pc = .asleep → s'.count % s'.wcomSize ≠ 0) : Naps s' := by
  have hself : s'.main 0 = pc := by rw [hmain, update_self]
  refine ⟨?_, ?_, fun j hj hsleep hflag => ?_⟩
  · rw [hself]
    exact hwaiting
  · rw [hself]
    exact fun hsleep hmod => absurd hmod (hpc hsleep)
  · rw [hmain, update_of_ne (Nat.ne_of_gt hj)] at hsleep
    rw [hrecv] at hflag
    rw [hservice]
    exact h.rank j hj hsleep hflag

-- ------------------------------------------------- the place in a stage

theorem Stage.Pc.out (h : st.Pc .out) : st = .out := by
  cases st <;> simp [Stage.Pc, MainPc.Waits] at h ⊢

theorem Stage.Pc.send (h : st.Pc .send) : st = .send := by
  cases st <;> simp [Stage.Pc, MainPc.Waits] at h ⊢

theorem Stage.Pc.clearRecv (h : st.Pc .clearRecv) : st = .flagged := by
  cases st <;> simp [Stage.Pc, MainPc.Waits] at h ⊢

theorem Stage.Pc.unlock (h : st.Pc .unlock) : st = .cleared := by
  cases st <;> simp [Stage.Pc, MainPc.Waits] at h ⊢

theorem Stage.Pc.waits {pc' : MainPc} (h : st.Pc pc) (hold : pc.Waits) (hnew : pc'.Waits) :
    st.Pc pc' := by
  cases st with
  | out =>
    rw [show pc = .out from h] at hold
    exact hold.elim
  | send =>
    rw [show pc = .send from h] at hold
    exact hold.elim
  | sent => exact hnew
  | counted => exact hnew
  | unacked => exact hnew
  | acked => exact hnew
  | flagged => exact .inl hnew
  | cleared =>
    rw [show pc = .unlock from h] at hold
    exact hold.elim

/-- Where a rank other than 0 can be. -/
theorem Ranks.pc_cases (h : Ranks s) (hi : 0 < i) (hlt : i < s.wcomSize) :
    s.main i = .out ∨ s.main i = .send ∨ (s.main i).Waits
      ∨ s.main i = .clearRecv ∨ s.main i = .unlock := by
  obtain ⟨st, hst⟩ := h.rank i hi hlt
  have hpc := hst.pc
  cases st with
  | out => exact .inl hpc
  | send => exact .inr (.inl hpc)
  | sent => exact .inr (.inr (.inl hpc))
  | counted => exact .inr (.inr (.inl hpc))
  | unacked => exact .inr (.inr (.inl hpc))
  | acked => exact .inr (.inr (.inl hpc))
  | flagged =>
    rcases hpc with hw | hc
    · exact .inr (.inr (.inl hw))
    · exact .inr (.inr (.inr (.inl hc)))
  | cleared => exact .inr (.inr (.inr (.inr hpc)))

-- ======== steps of a rank

/-- A rank moves in its loop on the flag. -/
theorem Inv.wait (h : Inv s) (hi : 0 < i) (hold : (s.main i).Waits) (hnew : pc.Waits)
    (hsleep : pc = .asleep → s.recv i = false) (hcrit : o = some .main → pc.Crit)
    (hservice : o = some .service → (s.service i).Crit) :
    Inv ((s.setMutex i o).setMain i pc) := by
  have hm : Moves s ((s.setMutex i o).setMain i pc) i pc :=
    ⟨rfl, rfl, rfl, rfl, rfl, rfl, rfl, fun _ => rfl, rfl⟩
  refine ⟨h.size, h.ranks.moveRank hi hm fun st hst => hst.pc.waits hold hnew,
    h.books.congr rfl rfl rfl (fun _ => rfl) rfl rfl rfl rfl, ?_, ?_⟩
  · refine h.naps.moveRank hi rfl rfl rfl rfl rfl (fun _ _ => rfl) ?_
    intro hpc hflag
    exact absurd (hsleep hpc) (ne_true_of_eq_false · hflag)
  · exact h.mutexes.moveMain rfl rfl rfl hcrit hservice

/-- Messages stay right when a rank that has none enters. -/
theorem MsgOk.enter (h : MsgOk s d m) (hsize : s'.wcomSize = s.wcomSize)
    (hentered : ∀ j, j ≠ i → s'.entered j = s.entered j)
    (hbarrier : ∀ k, m ≠ .barrier i k) (hack : d = i → ∀ k, m ≠ .ack k) :
    MsgOk s' d m := by
  cases m with
  | barrier j k =>
    have hji : j ≠ i := fun heq => hbarrier k (heq ▸ rfl)
    obtain ⟨hd, hpos, hlt, hk⟩ := h
    exact ⟨hd, hpos, hsize ▸ hlt, hk.trans (hentered j hji).symm⟩
  | ack k =>
    have hdi : d ≠ i := fun heq => hack heq k rfl
    obtain ⟨hpos, hlt, hk⟩ := h
    exact ⟨hpos, hsize ▸ hlt, hk.trans (hentered d hdi).symm⟩

/-- Nothing is on its way from or to a rank, and its flag is down. -/
theorem Books.enter (h : Books s) (hbarriers : i = 0 ∨ s.arrivals i = 0)
    (hacks : i = 0 ∨ s.acks i = 0) (hflag : i = 0 ∨ s.recv i = false) {e : Nat}
    (pc : MainPc) :
    Books ({ s with entered := update s.entered i e }.setMain i pc) := by
  have hbarrier : ∀ d m, MsgOk s d m → (d, m) ∈ s.flight ∨ (d, m) ∈ s.hand 0 →
      ∀ k, m ≠ .barrier i k := by
    rintro d m hok hmem k rfl
    obtain ⟨hd, hpos, -⟩ := hok
    rcases hbarriers with rfl | hnone
    · exact Nat.lt_irrefl 0 hpos
    · have hnot := not_arrival_of_zero hnone (k := k) hd
      rcases hmem with hmem | hmem
      · exact hnot.1 hmem
      · exact hnot.2 hmem
  have hack : ∀ d m, MsgOk s d m → (d, m) ∈ s.flight ∨ (d, m) ∈ s.hand d →
      d = i → ∀ k, m ≠ .ack k := by
    rintro d m hok hmem rfl k rfl
    obtain ⟨hpos, -⟩ := hok
    rcases hacks with rfl | hnone
    · exact Nat.lt_irrefl 0 hpos
    · have hnot := not_ack_of_zero hnone (k := k)
      rcases hmem with hmem | hmem
      · exact hnot.1 hmem
      · exact hnot.2 hmem
  have hentered : ∀ j, j ≠ i → ({ s with
      entered := update s.entered i e }.setMain i pc).entered j
        = s.entered j := fun j hj => update_of_ne hj ..
  refine ⟨fun d m hmem => ?_, fun d m hmem => ?_, fun j hpos hj => ?_, h.count⟩
  · have hok := h.flight d m hmem
    exact hok.enter rfl hentered (hbarrier d m hok (.inl hmem))
      (hack d m hok (.inl hmem))
  · have hmem' : (d, m) ∈ s.hand d := hmem
    have hok := h.hand d m hmem'
    refine hok.enter rfl hentered ?_ (hack d m hok (.inr hmem'))
    rintro k rfl
    have hd := hok.1
    subst hd
    exact hbarrier 0 _ hok (.inr hmem') k rfl
  · have hj' : s.recv j = true := hj
    have hji : j ≠ i := by
      intro heq
      subst heq
      rcases hflag with h0 | hdown
      · exact absurd h0 (Nat.ne_of_gt hpos)
      · exact absurd hdown (ne_false_of_eq_true hj')
    rw [hentered j hji]
    exact h.flagged j hpos hj'

/-- A rank enters the barrier. -/
theorem Inv.enterRank (h : Inv s) (hi : 0 < i) (hlt : i < s.wcomSize)
    (hpc : s.main i = .out) :
    Inv ({ s with entered := update s.entered i (s.entered i + 1) }.setMain
      i .send) := by
  obtain ⟨st, hst⟩ := h.ranks.rank i hi hlt
  have hout : st = .out := by
    have hp := hst.pc
    rw [hpc] at hp
    exact hp.out
  subst hout
  have hne : i ≠ 0 := Nat.ne_of_gt hi
  have hmain0 : update s.main i .send 0 = s.main 0 :=
    update_of_ne (Ne.symm hne) ..
  have hsame : ∀ j, j ≠ i → SameRank s ({ s with
      entered := update s.entered i (s.entered i + 1) }.setMain i
        .send) j :=
    fun j hj => ⟨update_of_ne hj .., update_of_ne hj .., rfl,
      rfl, rfl, rfl, rfl, rfl, iff_of_eq (congrArg (·.Unacked j) hmain0)⟩
  refine ⟨h.size, h.ranks.move hi rfl (hsame 0 (Ne.symm hne))
    (fun j _ hj => hsame j hj) fun _ => ⟨.send, ?_⟩,
    h.books.enter (.inr hst.arrivals) (.inr hst.acks) (.inr hst.recv)
      .send, ?_, ?_⟩
  · refine ⟨update_self .., ?_, hst.counted, hst.released,
      hst.arrivals, hst.acks, hst.recv, ?_⟩
    · show update s.entered i (s.entered i + 1) i = s.left i + 1
      rw [update_self, hst.entered]
      rfl
    · show (update s.main i .send 0).Unacked i ↔ _
      rw [hmain0, hst.unacked]
      exact ⟨nofun, nofun⟩
  · exact h.naps.moveRank hi rfl rfl rfl rfl rfl (fun _ _ => rfl)
      nofun
  · exact h.mutexes.goOn rfl rfl rfl (by rw [hpc]; exact False.elim)

/-- A right message is posted. -/
theorem Books.post (h : Books s) (hok : MsgOk s d m) (pc : MainPc) :
    Books ((s.post d m).setMain i pc) := by
  refine ⟨fun e m' hmem => ?_, h.hand, h.flagged, h.count⟩
  rcases List.mem_append.mp hmem with hmem | hmem
  · exact h.flight e m' hmem
  · cases List.mem_singleton.mp hmem
    exact hok

/-- The counter is the sum of what is counted of each rank. -/
theorem Books.countArrival (h : Books s) (hi : i < s.wcomSize) :
    s.count + 1 = ∑ j ∈ Finset.range s.wcomSize,
      update s.counted i (s.counted i + 1) j := by
  have hsum := Tally.sum_update hi (fun x => x) s.counted (s.counted i + 1)
  have hcount := h.count
  omega

/-- A rank sends its arrival. -/
theorem Inv.sendRank (h : Inv s) (hi : 0 < i) (hlt : i < s.wcomSize)
    (hpc : s.main i = .send) :
    Inv ((s.post 0 (.barrier i (s.entered i))).setMain i .lock) := by
  obtain ⟨st, hst⟩ := h.ranks.rank i hi hlt
  have hsend : st = .send := by
    have hp := hst.pc
    rw [hpc] at hp
    exact hp.send
  subst hsend
  have hne : i ≠ 0 := Nat.ne_of_gt hi
  have hmain0 : update s.main i .lock 0 = s.main 0 :=
    update_of_ne (Ne.symm hne) ..
  have hok : MsgOk s 0 (.barrier i (s.entered i)) := ⟨rfl, hi, hlt, rfl⟩
  have harrivals : ∀ j, ((s.post 0 (.barrier i (s.entered i))).setMain i
      .lock).arrivals j = s.arrivals j + if i = j then 1 else 0 := by
    intro j
    refine (arrivals_post 0 (.barrier i (s.entered i)) j).trans ?_
    simp [arrivalOf]
  have hacks : ∀ j, ((s.post 0 (.barrier i (s.entered i))).setMain i
      .lock).acks j = s.acks j :=
    fun j => acks_post 0 (.barrier i (s.entered i)) j
  have hsame : ∀ j, j ≠ i → SameRank s
      ((s.post 0 (.barrier i (s.entered i))).setMain i .lock) j := by
    intro j hj
    refine ⟨update_of_ne hj .., rfl, rfl, rfl, rfl, ?_, hacks j, rfl,
      iff_of_eq (congrArg (·.Unacked j) hmain0)⟩
    rw [harrivals, if_neg (Ne.symm hj), Nat.add_zero]
  refine ⟨h.size, h.ranks.move hi rfl (hsame 0 (Ne.symm hne))
    (fun j _ hj => hsame j hj) fun _ => ⟨.sent, ?_⟩,
    h.books.post hok .lock, ?_, ?_⟩
  · refine ⟨?_, hst.entered, hst.counted, hst.released, ?_,
      (hacks i).trans hst.acks, hst.recv, ?_⟩
    · show (update s.main i .lock i).Waits
      rw [update_self]
      trivial
    · rw [harrivals, if_pos rfl, hst.arrivals]
      rfl
    · show (update s.main i .lock 0).Unacked i ↔ _
      rw [hmain0, hst.unacked]
      exact ⟨nofun, nofun⟩
  · exact h.naps.moveRank hi rfl rfl rfl rfl rfl (fun _ _ => rfl)
      nofun
  · exact h.mutexes.goOn rfl rfl rfl (by rw [hpc]; exact False.elim)

/-- A rank sees its flag. -/
theorem Inv.flagSeen (h : Inv s) (hi : 0 < i) (hflag : s.recv i = true) :
    Inv (s.setMain i .clearRecv) := by
  have hm : Moves s (s.setMain i .clearRecv) i .clearRecv :=
    ⟨rfl, rfl, rfl, rfl, rfl, rfl, rfl, fun _ => rfl, rfl⟩
  refine ⟨h.size, h.ranks.moveRank hi hm fun st hst => ?_,
    h.books.congr rfl rfl rfl (fun _ => rfl) rfl rfl rfl rfl, ?_, ?_⟩
  · have hr := hst.recv
    rw [hflag] at hr
    cases st <;> simp [Stage.flag] at hr
    exact .inr rfl
  · exact h.naps.moveRank hi rfl rfl rfl rfl rfl (fun _ _ => rfl)
      nofun
  · exact h.mutexes.goOn rfl rfl rfl fun _ => trivial

/-- It clears the flag. -/
theorem Inv.clearRank (h : Inv s) (hi : 0 < i) (hlt : i < s.wcomSize)
    (hpc : s.main i = .clearRecv) :
    Inv ({ s with recv := update s.recv i false }.setMain i .unlock) := by
  obtain ⟨st, hst⟩ := h.ranks.rank i hi hlt
  have hflagged : st = .flagged := by
    have hp := hst.pc
    rw [hpc] at hp
    exact hp.clearRecv
  subst hflagged
  have hne : i ≠ 0 := Nat.ne_of_gt hi
  have hmain0 : update s.main i .unlock 0 = s.main 0 :=
    update_of_ne (Ne.symm hne) ..
  have hsame : ∀ j, j ≠ i → SameRank s ({ s with
      recv := update s.recv i false }.setMain i .unlock) j :=
    fun j hj => ⟨update_of_ne hj .., rfl, rfl, rfl, rfl, rfl, rfl,
      update_of_ne hj .., iff_of_eq (congrArg (·.Unacked j) hmain0)⟩
  refine ⟨h.size, h.ranks.move hi rfl (hsame 0 (Ne.symm hne))
    (fun j _ hj => hsame j hj) fun _ => ⟨.cleared, ?_⟩, ?_, ?_, ?_⟩
  · refine ⟨update_self .., hst.entered, hst.counted, hst.released,
      hst.arrivals, hst.acks, update_self .., ?_⟩
    show (update s.main i .unlock 0).Unacked i ↔ _
    rw [hmain0, hst.unacked]
    exact ⟨nofun, nofun⟩
  · refine ⟨h.books.flight, h.books.hand, fun j hpos hj => ?_, h.books.count⟩
    have hj' : update s.recv i false j = true := hj
    rw [update_apply] at hj'
    split at hj'
    next => cases hj'
    next => exact h.books.flagged j hpos hj'
  · exact h.naps.moveRank hi rfl rfl rfl rfl rfl
      (fun j hj => update_of_ne hj ..) nofun
  · exact h.mutexes.goOn rfl rfl rfl fun _ => trivial

/-- It leaves the barrier. -/
theorem Inv.leaveRank (h : Inv s) (hi : 0 < i) (hlt : i < s.wcomSize)
    (hpc : s.main i = .unlock) :
    Inv ({ s.setMutex i none with
      left := update s.left i (s.left i + 1) }.setMain i .out) := by
  obtain ⟨st, hst⟩ := h.ranks.rank i hi hlt
  have hcleared : st = .cleared := by
    have hp := hst.pc
    rw [hpc] at hp
    exact hp.unlock
  subst hcleared
  have hne : i ≠ 0 := Nat.ne_of_gt hi
  have hmain0 : update s.main i .out 0 = s.main 0 :=
    update_of_ne (Ne.symm hne) ..
  have hleft : update s.left i (s.left i + 1) i = s.left i + 1 :=
    update_self ..
  have hsame : ∀ j, j ≠ i → SameRank s ({ s.setMutex i none with
      left := update s.left i (s.left i + 1) }.setMain i .out) j :=
    fun j hj => ⟨update_of_ne hj .., rfl, update_of_ne hj ..,
      rfl, rfl, rfl, rfl, rfl, iff_of_eq (congrArg (·.Unacked j) hmain0)⟩
  refine ⟨h.size, h.ranks.move hi rfl (hsame 0 (Ne.symm hne))
    (fun j _ hj => hsame j hj) fun _ => ⟨.out, ?_⟩,
    h.books.congr rfl rfl rfl (fun _ => rfl) rfl rfl rfl rfl, ?_, ?_⟩
  · refine ⟨update_self .., ?_, ?_, ?_, hst.arrivals, hst.acks,
      hst.recv, ?_⟩
    · exact hst.entered.trans hleft.symm
    · exact hst.counted.trans hleft.symm
    · exact hst.released.trans hleft.symm
    · show (update s.main i .out 0).Unacked i ↔ _
      rw [hmain0, hst.unacked]
      exact ⟨nofun, nofun⟩
  · exact h.naps.moveRank hi rfl rfl rfl rfl rfl (fun _ _ => rfl)
      nofun
  · exact h.mutexes.moveMain rfl rfl rfl nofun nofun

-- ======== steps of rank 0

/-- Rank 0 moves with the same numbers. -/
theorem Inv.moveZero (h : Inv s) (hm : Moves s s' 0 pc) (hackOf : s'.ackOf = s.ackOf)
    (hcount : s'.count = s.count) (hservice : s'.service = s.service)
    (hmutex : ∀ j, j ≠ 0 → s'.mutex j = s.mutex j) (hpc : pc.OfZero)
    (hinside : pc.inside = (s.main 0).inside) (harrived : pc.arrived = (s.main 0).arrived)
    (hpassed : pc.passed = (s.main 0).passed)
    (hunacked : ∀ j, 0 < j → j < s.wcomSize → (pc.Unacked j ↔ (s.main 0).Unacked j))
    (hwaiting : pc = .test ∨ pc = .asleep ∨ pc = .relock → s'.waiting = s.wcomSize)
    (hsleep : pc = .asleep → s.count % s.wcomSize ≠ 0)
    (hmain : s'.mutex 0 = some .main → pc.Crit)
    (hheld : s'.mutex 0 = some .service → (s.service 0).Crit) : Inv s' := by
  refine ⟨hm.wcomSize ▸ h.size,
    h.ranks.moveZero hm hpc hinside harrived hpassed hunacked,
    h.books.congr hm.wcomSize hm.entered hm.flight hm.hand hm.recv hackOf
      hcount hm.counted, ?_, ?_⟩
  · refine h.naps.moveZero hm.main hservice hm.recv ?_ ?_
    · rw [hm.wcomSize]
      exact hwaiting
    · rw [hm.wcomSize, hcount]
      exact hsleep
  · refine h.mutexes.move 0 hmutex ?_ (fun _ _ => congrFun hservice _) ?_ ?_
    · intro j hj
      rw [hm.main, update_of_ne hj]
    · rw [hm.main, update_self]
      exact hmain
    · rw [hservice]
      exact hheld

/-- Rank 0 enters the barrier. -/
theorem Inv.enterZero (h : Inv s) (hpc : s.main 0 = .out) :
    Inv ({ s with entered := update s.entered 0 (s.entered 0 + 1) }.setMain
      0 .lock) := by
  have hself : update s.main 0 .lock 0 = .lock :=
    update_self ..
  obtain ⟨he, hc, hr⟩ := h.ranks.zero hpc
  have he' : update s.entered 0 (s.entered 0 + 1) 0 = s.left 0 + 1 := by
    rw [update_self, he]
    rfl
  refine ⟨h.size, .ofZero hself trivial he' hc hr fun j hj hlt => ?_,
    h.books.enter (.inl rfl) (.inl rfl) (.inl rfl) .lock, ?_, ?_⟩
  · obtain ⟨st, hst⟩ := h.ranks.rank j hj hlt
    have hne : j ≠ 0 := Nat.ne_of_gt hj
    refine ⟨st, hst.congr ⟨update_of_ne hne ..,
      update_of_ne hne .., rfl, rfl, rfl, rfl, rfl, rfl, ?_⟩⟩
    show (update s.main 0 .lock 0).Unacked j ↔ (s.main 0).Unacked j
    rw [hself, hpc]
    exact Iff.rfl
  · exact h.naps.moveZero rfl rfl rfl (fun hk => by simp at hk)
      nofun
  · exact h.mutexes.goOn rfl rfl rfl (by rw [hpc]; exact False.elim)

/-- It counts itself. -/
theorem Inv.incrZero (h : Inv s) (hpc : s.main 0 = .incr) :
    Inv ((s.countArrival 0).setMain 0 .setWaiting) := by
  have hself : update s.main 0 .setWaiting 0 = .setWaiting :=
    update_self ..
  obtain ⟨he, hc, hr⟩ := h.ranks.zero hpc
  have hc' : update s.counted 0 (s.counted 0 + 1) 0 = s.left 0 + 1 := by
    rw [update_self, hc]
    rfl
  refine ⟨h.size, .ofZero hself trivial he hc' hr fun j hj hlt => ?_,
    ⟨h.books.flight, h.books.hand, h.books.flagged, ?_⟩, ?_, ?_⟩
  · obtain ⟨st, hst⟩ := h.ranks.rank j hj hlt
    have hne : j ≠ 0 := Nat.ne_of_gt hj
    refine ⟨st, hst.congr ⟨update_of_ne hne .., rfl, rfl,
      update_of_ne hne .., rfl, rfl, rfl, rfl, ?_⟩⟩
    show (update s.main 0 .setWaiting 0).Unacked j ↔ (s.main 0).Unacked j
    rw [hself, hpc]
    exact Iff.rfl
  · exact h.books.countArrival h.size
  · exact h.naps.moveZero rfl rfl rfl (fun hk => by simp at hk)
      nofun
  · exact h.mutexes.goOn rfl rfl rfl fun _ => trivial

/-- It has seen all the arrivals. -/
theorem Inv.passZero (h : Inv s) (hpc : s.main 0 = .test)
    (hmod : s.count % s.wcomSize = 0) :
    Inv ({ s with released := s.released + 1 }.setMain 0 .clearWaiting) := by
  have hself : update s.main 0 .clearWaiting 0 = .clearWaiting :=
    update_self ..
  obtain ⟨he, hc, hr⟩ := h.ranks.zero hpc
  have hzero : s.counted 0 = s.released + 1 := by rw [hc, hr]; rfl
  have hr' : s.released + 1 = s.left 0 + 1 := congrArg (· + 1) hr
  refine ⟨h.size, .ofZero hself trivial he hc hr' fun j hj hlt => ?_,
    h.books.congr rfl rfl rfl (fun _ => rfl) rfl rfl rfl rfl, ?_, ?_⟩
  · obtain ⟨st, hst⟩ := h.ranks.rank j hj hlt
    have hcounted : st = .counted := by
      have hall := h.ranks.passed h.size h.books.count hzero hmod hlt
      have hsc := hst.counted
      have hsr := hst.released
      cases st <;> simp only [Stage.arrived, Stage.passed] at hsc hsr <;>
        first | rfl | omega
    subst hcounted
    have hne : j ≠ 0 := Nat.ne_of_gt hj
    refine ⟨.unacked, ?_, hst.entered, hst.counted, ?_, hst.arrivals, hst.acks,
      hst.recv, ?_⟩
    · show Stage.unacked.Pc (update s.main 0 .clearWaiting j)
      rw [update_of_ne hne]
      exact hst.pc
    · show s.released + 1 = s.left j + 1
      exact congrArg (· + 1) hst.released
    · show (update s.main 0 .clearWaiting 0).Unacked j ↔ _
      rw [hself]
      exact iff_of_true trivial rfl
  · exact h.naps.moveZero rfl rfl rfl (fun hk => by simp at hk)
      nofun
  · exact h.mutexes.goOn rfl rfl rfl fun _ => trivial

/-- It sends an acknowledgement. -/
theorem Inv.sendAck (h : Inv s) (hpc : s.main 0 = .sendAck j) (hlt : j < s.wcomSize) :
    Inv ((s.post j (.ack (s.entered 0))).setMain 0 (.sendAck (j + 1))) := by
  have hself : update s.main 0 (.sendAck (j + 1)) 0 = .sendAck (j + 1) :=
    update_self ..
  obtain ⟨he, hc, hr⟩ := h.ranks.zero hpc
  have hpos : 0 < j := by
    have hz := h.ranks.zeroPc
    rwa [hpc] at hz
  obtain ⟨st, hst⟩ := h.ranks.rank j hpos hlt
  have hunacked : st = .unacked := by
    refine hst.unacked.mp ?_
    rw [hpc]
    exact Nat.le_refl j
  subst hunacked
  have hk : s.entered 0 = s.entered j := by
    have he' : s.entered 0 = s.left 0 + 1 := he
    have hr' : s.released = s.left 0 + 1 := hr
    have hej : s.entered j = s.left j + 1 := hst.entered
    have hrj : s.released = s.left j + 1 := hst.released
    omega
  have hok : MsgOk s j (.ack (s.entered 0)) := ⟨hpos, hlt, hk⟩
  have harrivals : ∀ i, ((s.post j (.ack (s.entered 0))).setMain 0
      (.sendAck (j + 1))).arrivals i = s.arrivals i :=
    fun i => arrivals_post j (.ack (s.entered 0)) i
  have hacks : ∀ i, ((s.post j (.ack (s.entered 0))).setMain 0
      (.sendAck (j + 1))).acks i = s.acks i + if j = i then 1 else 0 := by
    intro i
    refine (acks_post j (.ack (s.entered 0)) i).trans ?_
    simp [ackTo]
  refine ⟨h.size, .ofZero hself (Nat.succ_pos j) he hc hr fun i hi hlti => ?_,
    h.books.post hok (.sendAck (j + 1)), ?_, ?_⟩
  · have hne : i ≠ 0 := Nat.ne_of_gt hi
    by_cases hij : j = i
    · subst hij
      refine ⟨.acked, ?_, hst.entered, hst.counted, hst.released,
        (harrivals j).trans hst.arrivals, ?_, hst.recv, ?_⟩
      · show Stage.acked.Pc (update s.main 0 (.sendAck (j + 1)) j)
        rw [update_of_ne hne]
        exact hst.pc
      · rw [hacks, if_pos rfl, hst.acks]
        rfl
      · show (update s.main 0 (.sendAck (j + 1)) 0).Unacked j ↔ _
        rw [hself]
        exact iff_of_false (Nat.not_succ_le_self j) nofun
    · obtain ⟨st', hst'⟩ := h.ranks.rank i hi hlti
      refine ⟨st', hst'.congr ⟨update_of_ne hne .., rfl, rfl, rfl, rfl,
        harrivals i, ?_, rfl, ?_⟩⟩
      · rw [hacks, if_neg hij, Nat.add_zero]
      · show (update s.main 0 (.sendAck (j + 1)) 0).Unacked i
          ↔ (s.main 0).Unacked i
        rw [hself, hpc]
        show j + 1 ≤ i ↔ j ≤ i
        omega
  · exact h.naps.moveZero rfl rfl rfl (fun hk => by simp at hk)
      nofun
  · exact h.mutexes.goOn rfl rfl rfl fun _ => trivial

/-- It leaves the barrier. -/
theorem Inv.leaveZero (h : Inv s) (hpc : s.main 0 = .unlock) :
    Inv ({ s.setMutex 0 none with
      left := update s.left 0 (s.left 0 + 1) }.setMain 0 .out) := by
  have hself : update s.main 0 .out 0 = .out := update_self ..
  have hleft : update s.left 0 (s.left 0 + 1) 0 = s.left 0 + 1 :=
    update_self ..
  obtain ⟨he, hc, hr⟩ := h.ranks.zero hpc
  refine ⟨h.size, .ofZero hself trivial (he.trans hleft.symm)
      (hc.trans hleft.symm) (hr.trans hleft.symm) fun j hj hlt => ?_,
    h.books.congr rfl rfl rfl (fun _ => rfl) rfl rfl rfl rfl, ?_, ?_⟩
  · obtain ⟨st, hst⟩ := h.ranks.rank j hj hlt
    have hne : j ≠ 0 := Nat.ne_of_gt hj
    refine ⟨st, hst.congr ⟨update_of_ne hne .., rfl,
      update_of_ne hne .., rfl, rfl, rfl, rfl, rfl, ?_⟩⟩
    show (update s.main 0 .out 0).Unacked j ↔ (s.main 0).Unacked j
    rw [hself, hpc]
    exact Iff.rfl
  · exact h.naps.moveZero rfl rfl rfl (fun hk => by simp at hk)
      nofun
  · exact h.mutexes.moveMain rfl rfl rfl nofun nofun

-- ======== services

/-- The service of process `i` moves; nothing else but its mutex. -/
structure Serves (s s' : St) (i : Nat) (sv : ServicePc) : Prop where
  service : s'.service = update s.service i sv
  main : s'.main = s.main
  wcomSize : s'.wcomSize = s.wcomSize
  entered : s'.entered = s.entered
  left : s'.left = s.left
  counted : s'.counted = s.counted
  released : s'.released = s.released
  flight : s'.flight = s.flight
  count : s'.count = s.count
  waiting : s'.waiting = s.waiting
  recv : s'.recv = s.recv
  ackOf : s'.ackOf = s.ackOf
  mutex : ∀ j, j ≠ i → s'.mutex j = s.mutex j

/-- The service thread holds the same message. -/
theorem Serves.hand (h : Serves s s' i sv) (hhand : s'.hand i = s.hand i) (d : Nat) :
    s'.hand d = s.hand d := by
  by_cases hd : d = i
  · subst hd
    exact hhand
  · unfold St.hand
    rw [h.service, update_of_ne hd]

/-- The ranks depend on what each has of its stage only. -/
theorem Ranks.congr (h : Ranks s) (hsize : s'.wcomSize = s.wcomSize)
    (hsame : ∀ j, SameRank s s' j) : Ranks s' where
  zeroPc := by rw [(hsame 0).main]; exact h.zeroPc
  zeroEntered := by
    rw [(hsame 0).entered, (hsame 0).left, (hsame 0).main]
    exact h.zeroEntered
  zeroCounted := by
    rw [(hsame 0).counted, (hsame 0).left, (hsame 0).main]
    exact h.zeroCounted
  zeroReleased := by
    rw [(hsame 0).released, (hsame 0).left, (hsame 0).main]
    exact h.zeroReleased
  rank := by
    intro j hj hlt
    rw [hsize] at hlt
    obtain ⟨st, hst⟩ := h.rank j hj hlt
    exact ⟨st, hst.congr (hsame j)⟩

/-- A service thread moves: it keeps the signal that it owes. -/
theorem Naps.moveService (h : Naps s) (hs : Serves s s' i sv)
    (hzero : i = 0 → s.main 0 = .asleep → s.count % s.wcomSize = 0 →
      (∃ j k, s.service 0 = .signal (.barrier j k)) →
      ∃ j k, sv = .signal (.barrier j k))
    (hrank : 0 < i → s.main i = .asleep → s.recv i = true →
      (∃ k, s.service i = .signal (.ack k)) →
      ∃ k, sv = .signal (.ack k)) : Naps s' where
  waiting := by
    rw [hs.main, hs.waiting, hs.wcomSize]
    exact h.waiting
  zero := by
    rw [hs.main, hs.count, hs.wcomSize, hs.service]
    intro hsleep hmod
    have hold := h.zero hsleep hmod
    by_cases hi : i = 0
    · subst hi
      rw [update_self]
      exact hzero rfl hsleep hmod hold
    · rw [update_of_ne (Ne.symm hi)]
      exact hold
  rank := by
    intro j hj
    rw [hs.main, hs.recv, hs.service]
    intro hsleep hflag
    have hold := h.rank j hj hsleep hflag
    by_cases hji : j = i
    · subst hji
      rw [update_self]
      exact hrank hj hsleep hflag hold
    · rw [update_of_ne hji]
      exact hold

/-- A service thread moves with the same message. -/
theorem Inv.moveService (h : Inv s) (hs : Serves s s' i sv) (hhand : s'.hand i = s.hand i)
    (hnaps : Naps s') (hmain : s'.mutex i = some .main → (s.main i).Crit)
    (hheld : s'.mutex i = some .service → sv.Crit) : Inv s' := by
  have hhands := hs.hand hhand
  have hsame : ∀ j, SameRank s s' j := by
    intro j
    refine ⟨congrFun hs.main j, congrFun hs.entered j, congrFun hs.left j,
      congrFun hs.counted j, hs.released, ?_, ?_, congrFun hs.recv j, ?_⟩
    · unfold St.arrivals
      rw [hs.flight, hhands]
    · unfold St.acks
      rw [hs.flight, hhands]
    · rw [hs.main]
  refine ⟨hs.wcomSize ▸ h.size, h.ranks.congr hs.wcomSize hsame,
    h.books.congr hs.wcomSize hs.entered hs.flight hhands hs.recv hs.ackOf
      hs.count hs.counted, hnaps, ?_⟩
  refine h.mutexes.move i hs.mutex (fun j _ => congrFun hs.main j) ?_ ?_ ?_
  · intro j hj
    rw [hs.service, update_of_ne hj]
  · rw [hs.main]
    exact hmain
  · rw [hs.service, update_self]
    exact hheld

/-- A sleeper wakes. -/
theorem Inv.wake (h : Inv s) (hlt : i < s.wcomSize) (hpc : s.main i = .asleep) :
    Inv (s.setMain i .relock) := by
  rcases Nat.eq_zero_or_pos i with rfl | hi
  · have hm : Moves s (s.setMain 0 .relock) 0 .relock :=
      ⟨rfl, rfl, rfl, rfl, rfl, rfl, rfl, fun _ => rfl, rfl⟩
    refine h.moveZero hm rfl rfl rfl (fun _ _ => rfl) trivial ?_ ?_ ?_ ?_ ?_
      nofun ?_ (h.mutexes.service 0)
    · rw [hpc]
      rfl
    · rw [hpc]
      rfl
    · rw [hpc]
      rfl
    · intro j _ _
      rw [hpc]
      exact Iff.rfl
    · intro _
      exact h.naps.waiting (.inr (.inl hpc))
    · intro hmutex
      have hcrit := h.mutexes.main 0 hmutex
      rw [hpc] at hcrit
      exact hcrit.elim
  · have hsame : s.setMutex i (s.mutex i) = s := by
      unfold St.setMutex
      rw [update_eq_self]
    have hw : (s.main i).Waits := by rw [hpc]; trivial
    have hnext : Inv ((s.setMutex i (s.mutex i)).setMain i .relock) :=
      h.wait hi hw trivial nofun ?_ (h.mutexes.service i)
    · rw [hsame] at hnext
      exact hnext
    · intro hmutex
      have hcrit := h.mutexes.main i hmutex
      rw [hpc] at hcrit
      exact hcrit.elim

/-- A signal wakes the sleeper of its rank. -/
theorem Inv.signal (h : Inv s) (hlt : i < s.wcomSize) :
    Inv (s.signal i) ∧ (s.signal i).main i ≠ .asleep := by
  unfold St.signal
  split
  next hpc =>
    refine ⟨h.wake hlt hpc, ?_⟩
    show update s.main i .relock i ≠ .asleep
    rw [update_self]
    exact nofun
  next hpc => exact ⟨h, hpc⟩

/-- The signal and the service thread's own move commute. -/
theorem signal_setService (sv : ServicePc) :
    (s.setService i sv).signal i = (s.signal i).setService i sv := by
  unfold St.signal
  show (if s.main i = .asleep then _ else _) = _
  split
  next => rfl
  next => rfl

/-- A service thread goes on when nobody waits for its signal. -/
theorem Inv.unsignal (h : Inv s) (hs : s.service i = .signal m)
    (hzero : i = 0 → s.main 0 = .asleep → s.count % s.wcomSize = 0 → False)
    (hrank : 0 < i → s.main i = .asleep → s.recv i = true → False) :
    Inv (s.setService i .unlock) := by
  have hserves : Serves s (s.setService i .unlock) i .unlock :=
    ⟨rfl, rfl, rfl, rfl, rfl, rfl, rfl, rfl, rfl, rfl, rfl, rfl, fun _ _ => rfl⟩
  refine h.moveService hserves ?_ ?_ (h.mutexes.main i) fun _ => trivial
  · unfold St.hand
    show (match update s.service i .unlock i with
      | .lock m => [(i, m)] | .body m => [(i, m)] | _ => []) = _
    rw [update_self, hs]
  · exact h.naps.moveService hserves
      (fun hi hsleep hmod _ => (hzero hi hsleep hmod).elim)
      (fun hi hsleep hflag _ => (hrank hi hsleep hflag).elim)

/-- It goes on after its signal. -/
theorem Inv.signalled (h : Inv s) (hlt : i < s.wcomSize) (hs : s.service i = .signal m) :
    Inv ((s.setService i .unlock).signal i) := by
  rw [signal_setService]
  obtain ⟨hsig, hawake⟩ := h.signal hlt
  refine hsig.unsignal (m := m) ?_ ?_ ?_
  · unfold St.signal
    split
    next => exact hs
    next => exact hs
  · rintro rfl hsleep _
    exact hawake hsleep
  · intro _ hsleep _
    exact hawake hsleep

/-- It takes or frees the mutex of its rank. -/
theorem Inv.serviceMutex (h : Inv s)
    (hhand : ((s.setMutex i o).setService i sv).hand i = s.hand i)
    (hno : ∀ m, s.service i ≠ .signal m) (hmain : o = some .main → (s.main i).Crit)
    (hheld : o = some .service → sv.Crit) : Inv ((s.setMutex i o).setService i sv) := by
  have hserves : Serves s ((s.setMutex i o).setService i sv) i sv :=
    ⟨rfl, rfl, rfl, rfl, rfl, rfl, rfl, rfl, rfl, rfl, rfl, rfl,
      fun j hj => update_of_ne hj ..⟩
  have hmutex : ((s.setMutex i o).setService i sv).mutex i = o :=
    update_self ..
  refine h.moveService hserves hhand ?_ ?_ ?_
  · refine h.naps.moveService hserves ?_ ?_
    · rintro rfl _ _ ⟨j, k, hs⟩
      exact (hno _ hs).elim
    · rintro _ _ _ ⟨k, hs⟩
      exact (hno _ hs).elim
  · rw [hmutex]
    exact hmain
  · rw [hmutex]
    exact hheld

-- ======== messages served

/-- The message of a service thread is in its hand until it is counted. -/
theorem hand_of_service (h : s.service i = .lock m ∨ s.service i = .body m) :
    s.hand i = [(i, m)] := by
  unfold St.hand
  rcases h with h | h
  · rw [h]
  · rw [h]

/-- After that the hand is empty. -/
theorem hand_of_signal (h : s.service i = .signal m) : s.hand i = [] := by
  unfold St.hand
  rw [h]

theorem hand_setService (sv : ServicePc) (hj : j ≠ i) :
    (s.setService i sv).hand j = s.hand j := by
  unfold St.hand
  show (match update s.service i sv j with
    | .lock m => [(j, m)] | .body m => [(j, m)] | _ => []) = _
  rw [update_of_ne hj]

/-- A message is delivered. -/
theorem Inv.deliver (h : Inv s) (hmem : (i, m) ∈ s.flight) (hs : s.service i = .idle) :
    Inv ({ s with flight := s.flight.erase (i, m) }.setService i (.lock m)) := by
  have hand_old : s.hand i = [] := by unfold St.hand; rw [hs]
  have hand_new : ({ s with
      flight := s.flight.erase (i, m) }.setService i (.lock m)).hand i
        = [(i, m)] := hand_of_service (.inl (update_self ..))
  have hand_ne : ∀ j, j ≠ i → ({ s with
      flight := s.flight.erase (i, m) }.setService i (.lock m)).hand j
        = s.hand j := fun j hj =>
    hand_setService (s := { s with flight := s.flight.erase (i, m) }) _ hj
  -- what is on its way to a process stays so, in the flight or in its hand
  have hcount : ∀ (p : Nat × Msg → Bool) (d : Nat),
      (d ≠ i → p (i, m) = false) →
      (s.flight.erase (i, m) ++ ({ s with
        flight := s.flight.erase (i, m) }.setService i (.lock m)).hand d).countP p
        = (s.flight ++ s.hand d).countP p := by
    intro p d hp
    have hsplit := countP_deliver (p := p) hmem
    rw [List.countP_append, List.countP_append]
    by_cases hd : d = i
    · subst hd
      rw [hand_new, hand_old, List.countP_singleton, List.countP_nil]
      exact hsplit
    · rw [hand_ne d hd]
      rw [hp hd] at hsplit
      simp only [Bool.false_eq_true, if_false] at hsplit
      omega
  have hsame : ∀ j, SameRank s ({ s with
      flight := s.flight.erase (i, m) }.setService i (.lock m)) j := by
    intro j
    refine ⟨rfl, rfl, rfl, rfl, rfl, hcount _ _ ?_, hcount _ _ ?_, rfl, Iff.rfl⟩
    · intro hi
      cases m with
      | barrier k l =>
        have hne : ¬ i = 0 := fun h0 => hi h0.symm
        simp [arrivalOf, hne]
      | ack k => rfl
    · intro hi
      cases m with
      | barrier k l => rfl
      | ack k =>
        have hne : ¬ i = j := fun h0 => hi h0.symm
        simp [ackTo, hne]
  refine ⟨h.size, h.ranks.congr rfl hsame, ⟨?_, ?_, h.books.flagged,
    h.books.count⟩, ⟨h.naps.waiting, ?_, ?_⟩, ?_⟩
  · intro d m' hm'
    exact (h.books.flight d m' (List.mem_of_mem_erase hm')).congr rfl rfl
  · intro d m' hm'
    by_cases hd : d = i
    · subst hd
      rw [hand_new] at hm'
      cases List.mem_singleton.mp hm'
      exact (h.books.flight d m hmem).congr rfl rfl
    · rw [hand_ne d hd] at hm'
      exact (h.books.hand d m' hm').congr rfl rfl
  · intro hsleep hmod
    obtain ⟨j, k, hsig⟩ := h.naps.zero hsleep hmod
    have hi : 0 ≠ i := by
      intro heq
      subst heq
      rw [hs] at hsig
      cases hsig
    exact ⟨j, k, (update_of_ne hi ..).trans hsig⟩
  · intro j hj hsleep hflag
    obtain ⟨k, hsig⟩ := h.naps.rank j hj hsleep hflag
    have hi : j ≠ i := by
      intro heq
      subst heq
      rw [hs] at hsig
      cases hsig
    exact ⟨k, (update_of_ne hi ..).trans hsig⟩
  · refine h.mutexes.move i (fun _ _ => rfl) (fun _ _ => rfl)
      (fun j hj => update_of_ne hj ..) (h.mutexes.main i) ?_
    intro hmutex
    have hcrit := h.mutexes.service i hmutex
    rw [hs] at hcrit
    exact hcrit.elim

/-- Rank 0 counts an arrival. -/
theorem Inv.countRank (h : Inv s) (hs : s.service i = .body (.barrier j k)) :
    Inv ((s.countArrival j).setService i (.signal (.barrier j k))) := by
  have hand_old : s.hand i = [(i, .barrier j k)] :=
    hand_of_service (.inr hs)
  obtain ⟨rfl, hpos, hlt, hk⟩ := h.books.hand i (.barrier j k)
    (by rw [hand_old]; exact List.mem_singleton_self _)
  have hand_new : ((s.countArrival j).setService 0
      (.signal (.barrier j k))).hand 0 = [] :=
    hand_of_signal (m := .barrier j k) (update_self 0 _ s.service)
  have hand_ne : ∀ d, d ≠ 0 → ((s.countArrival j).setService 0
      (.signal (.barrier j k))).hand d = s.hand d :=
    fun d hd => hand_setService (s := s.countArrival j) _ hd
  have harrivals : ∀ d, ((s.countArrival j).setService 0
      (.signal (.barrier j k))).arrivals d + (if j = d then 1 else 0)
        = s.arrivals d := by
    intro d
    unfold St.arrivals
    rw [hand_new, hand_old, List.append_nil, List.countP_append,
      List.countP_singleton]
    simp [arrivalOf, St.countArrival, St.setService]
  have hacks : ∀ d, ((s.countArrival j).setService 0
      (.signal (.barrier j k))).acks d = s.acks d := by
    intro d
    unfold St.acks
    by_cases hd : d = 0
    · subst hd
      rw [hand_new, hand_old, List.append_nil, List.countP_append,
        List.countP_singleton]
      simp [ackTo, St.countArrival, St.setService]
    · rw [hand_ne d hd]
      rfl
  have hne : j ≠ 0 := Nat.ne_of_gt hpos
  have hsame : ∀ d, d ≠ j → SameRank s
      ((s.countArrival j).setService 0 (.signal (.barrier j k))) d := by
    intro d hd
    refine ⟨rfl, rfl, rfl, update_of_ne hd .., rfl, ?_, hacks d, rfl, Iff.rfl⟩
    have ha := harrivals d
    rw [if_neg (Ne.symm hd)] at ha
    exact ha
  obtain ⟨st, hst⟩ := h.ranks.rank j hpos hlt
  have hsent : st = .sent := by
    have ha := harrivals j
    rw [if_pos rfl, hst.arrivals] at ha
    cases st <;> first | rfl | cases ha
  subst hsent
  refine ⟨h.size, h.ranks.move hpos rfl (hsame 0 (Ne.symm hne))
    (fun d _ hd => hsame d hd) fun _ => ⟨.counted, ?_⟩, ⟨?_, ?_, h.books.flagged,
      h.books.countArrival hlt⟩, ⟨h.naps.waiting, ?_, ?_⟩, ?_⟩
  · refine ⟨hst.pc, hst.entered, ?_, hst.released, ?_, (hacks j).trans hst.acks,
      hst.recv, ?_⟩
    · show update s.counted j (s.counted j + 1) j = s.left j + 1
      rw [update_self, hst.counted]
      rfl
    · have ha := harrivals j
      rw [if_pos rfl, hst.arrivals] at ha
      exact Nat.succ.inj ha
    · exact hst.unacked.trans
        ⟨nofun, nofun⟩
  · exact fun d m hm => (h.books.flight d m hm).congr rfl rfl
  · intro d m hm
    by_cases hd : d = 0
    · subst hd
      rw [hand_new] at hm
      cases hm
    · rw [hand_ne d hd] at hm
      exact (h.books.hand d m hm).congr rfl rfl
  · intro _ _
    refine ⟨j, k, ?_⟩
    show update s.service 0 (.signal (.barrier j k)) 0 = _
    rw [update_self]
  · intro d hd hsleep hflag
    obtain ⟨l, hsig⟩ := h.naps.rank d hd hsleep hflag
    exact ⟨l, (update_of_ne (Nat.ne_of_gt hd) ..).trans hsig⟩
  · refine h.mutexes.move 0 (fun _ _ => rfl) (fun _ _ => rfl)
      (fun d hd => update_of_ne hd ..) (h.mutexes.main 0) fun _ => ?_
    show (update s.service 0 (.signal (.barrier j k)) 0).Crit
    rw [update_self]
    trivial

/-- A rank's flag is set. -/
theorem Inv.flagRank (h : Inv s) (hs : s.service i = .body (.ack k)) :
    Inv ({ s with
      recv := update s.recv i true
      ackOf := update s.ackOf i k }.setService i (.signal (.ack k))) := by
  have hand_old : s.hand i = [(i, .ack k)] := hand_of_service (.inr hs)
  obtain ⟨hpos, hlt, hk⟩ := h.books.hand i (.ack k)
    (by rw [hand_old]; exact List.mem_singleton_self _)
  have hand_new : ({ s with
      recv := update s.recv i true
      ackOf := update s.ackOf i k }.setService i
        (.signal (.ack k))).hand i = [] := hand_of_signal (update_self ..)
  have hand_ne : ∀ d, d ≠ i → ({ s with
      recv := update s.recv i true
      ackOf := update s.ackOf i k }.setService i
        (.signal (.ack k))).hand d = s.hand d :=
    fun d hd => hand_setService (s := { s with
      recv := update s.recv i true
      ackOf := update s.ackOf i k }) _ hd
  have hne : i ≠ 0 := Nat.ne_of_gt hpos
  have hsame : ∀ d, d ≠ i → SameRank s ({ s with
      recv := update s.recv i true
      ackOf := update s.ackOf i k }.setService i
        (.signal (.ack k))) d := by
    intro d hd
    refine ⟨rfl, rfl, rfl, rfl, rfl, ?_, ?_, update_of_ne hd .., Iff.rfl⟩
    · unfold St.arrivals
      rw [hand_ne 0 (Ne.symm hne)]
      rfl
    · unfold St.acks
      rw [hand_ne d hd]
      rfl
  have hacks : ({ s with
      recv := update s.recv i true
      ackOf := update s.ackOf i k }.setService i
        (.signal (.ack k))).acks i + 1 = s.acks i := by
    unfold St.acks
    rw [hand_new, hand_old, List.append_nil, List.countP_append,
      List.countP_singleton]
    simp [ackTo, St.setService]
  obtain ⟨st, hst⟩ := h.ranks.rank i hpos hlt
  have hacked : st = .acked := by
    rw [hst.acks] at hacks
    cases st <;> first | rfl | cases hacks
  subst hacked
  refine ⟨h.size, h.ranks.move hpos rfl (hsame 0 (Ne.symm hne))
    (fun d _ hd => hsame d hd) fun _ => ⟨.flagged, ?_⟩, ⟨?_, ?_, ?_,
      h.books.count⟩, ⟨h.naps.waiting, ?_, ?_⟩, ?_⟩
  · refine ⟨.inl hst.pc, hst.entered, hst.counted, hst.released, ?_, ?_,
      update_self .., ?_⟩
    · refine Eq.trans ?_ hst.arrivals
      unfold St.arrivals
      rw [hand_ne 0 (Ne.symm hne)]
      rfl
    · rw [hst.acks] at hacks
      exact Nat.succ.inj hacks
    · exact hst.unacked.trans
        ⟨nofun, nofun⟩
  · exact fun d m hm => (h.books.flight d m hm).congr rfl rfl
  · intro d m hm
    by_cases hd : d = i
    · subst hd
      rw [hand_new] at hm
      cases hm
    · rw [hand_ne d hd] at hm
      exact (h.books.hand d m hm).congr rfl rfl
  · intro d hd hflag
    show update s.ackOf i k d = s.entered d
    by_cases hdi : d = i
    · subst hdi
      rw [update_self]
      exact hk
    · rw [update_of_ne hdi]
      exact h.books.flagged d hd ((update_of_ne hdi ..).symm.trans hflag)
  · intro hsleep hmod
    obtain ⟨a, b, hsig⟩ := h.naps.zero hsleep hmod
    exact ⟨a, b, (update_of_ne (Ne.symm hne) ..).trans hsig⟩
  · intro d hd hsleep hflag
    by_cases hdi : d = i
    · subst hdi
      exact ⟨k, update_self ..⟩
    · obtain ⟨l, hsig⟩ := h.naps.rank d hd hsleep
        ((update_of_ne hdi ..).symm.trans hflag)
      exact ⟨l, (update_of_ne hdi ..).trans hsig⟩
  · refine h.mutexes.move i (fun _ _ => rfl) (fun _ _ => rfl)
      (fun d hd => update_of_ne hd ..) (h.mutexes.main i) fun _ => ?_
    show (update s.service i (.signal (.ack k)) i).Crit
    rw [update_self]
    trivial

-- ======== every step

/-- Every entry keeps the invariant. -/
theorem Inv.enter (h : Inv s) (hlt : i < s.wcomSize)
    (hs : s.enter i = some s') : Inv s' := by
  unfold St.enter at hs
  split at hs
  next hpc =>
    cases hs
    rcases Nat.eq_zero_or_pos i with rfl | hi
    · rw [if_pos rfl]
      exact h.enterZero hpc
    · rw [if_neg (Nat.ne_of_gt hi)]
      exact h.enterRank hi hlt hpc
  next => cases hs

/-- Every step of rank 0 keeps it. -/
theorem Inv.mainZero (h : Inv s) (hs : s.mainStep 0 = some s') : Inv s' := by
  have hz := h.ranks.zeroPc
  unfold St.mainStep at hs
  cases hpc : s.main 0 with
  | out =>
    rw [hpc] at hs
    cases hs
  | send =>
    rw [hpc] at hz
    exact hz.elim
  | lock =>
    rw [hpc] at hs
    simp only at hs
    split at hs
    next hfree =>
      cases hs
      simp only [if_true]
      refine h.moveZero (show Moves s _ 0 .incr from ⟨rfl, rfl, rfl, rfl, rfl,
        rfl, rfl, fun _ => rfl, rfl⟩) rfl rfl rfl
          (fun j hj => update_of_ne hj ..)
        trivial ?_ ?_ ?_ ?_ (fun hk => by simp at hk) nofun
        (fun _ => trivial) ?_
      · rw [hpc]; rfl
      · rw [hpc]; rfl
      · rw [hpc]; rfl
      · intro j _ _
        rw [hpc]
        exact Iff.rfl
      · show update s.mutex 0 (some .main) 0 = some .service → _
        rw [update_self]
        exact nofun
    next => cases hs
  | incr =>
    rw [hpc] at hs
    cases hs
    exact h.incrZero hpc
  | setWaiting =>
    rw [hpc] at hs
    cases hs
    refine h.moveZero (show Moves s _ 0 .test from ⟨rfl, rfl, rfl, rfl, rfl,
      rfl, rfl, fun _ => rfl, rfl⟩) rfl rfl rfl (fun _ _ => rfl)
      trivial ?_ ?_ ?_ ?_ (fun _ => rfl) nofun
      (fun _ => trivial) (h.mutexes.service 0)
    · rw [hpc]; rfl
    · rw [hpc]; rfl
    · rw [hpc]; rfl
    · intro j _ _
      rw [hpc]
      exact Iff.rfl
  | test =>
    rw [hpc] at hs
    simp only [if_true] at hs
    split at hs
    next hmod =>
      cases hs
      refine h.moveZero (show Moves s _ 0 .asleep from ⟨rfl, rfl, rfl, rfl, rfl,
        rfl, rfl, fun _ => rfl, rfl⟩) rfl rfl rfl
          (fun j hj => update_of_ne hj ..)
        trivial ?_ ?_ ?_ ?_ (fun _ => h.naps.waiting (.inl hpc))
        (fun _ => hmod) ?_ ?_
      · rw [hpc]; rfl
      · rw [hpc]; rfl
      · rw [hpc]; rfl
      · intro j _ _
        rw [hpc]
        exact Iff.rfl
      · show update s.mutex 0 none 0 = some .main → _
        rw [update_self]
        exact nofun
      · show update s.mutex 0 none 0 = some .service → _
        rw [update_self]
        exact nofun
    next hmod =>
      cases hs
      exact h.passZero hpc (not_not.mp hmod)
  | asleep =>
    rw [hpc] at hs
    cases hs
  | relock =>
    rw [hpc] at hs
    simp only at hs
    split at hs
    next hfree =>
      cases hs
      refine h.moveZero (show Moves s _ 0 .test from ⟨rfl, rfl, rfl, rfl, rfl,
        rfl, rfl, fun _ => rfl, rfl⟩) rfl rfl rfl
          (fun j hj => update_of_ne hj ..)
        trivial ?_ ?_ ?_ ?_ (fun _ => h.naps.waiting (.inr (.inr hpc)))
        nofun (fun _ => trivial) ?_
      · rw [hpc]; rfl
      · rw [hpc]; rfl
      · rw [hpc]; rfl
      · intro j _ _
        rw [hpc]
        exact Iff.rfl
      · show update s.mutex 0 (some .main) 0 = some .service → _
        rw [update_self]
        exact nofun
    next => cases hs
  | clearWaiting =>
    rw [hpc] at hs
    cases hs
    refine h.moveZero (show Moves s _ 0 (.sendAck 1) from ⟨rfl, rfl, rfl, rfl, rfl,
      rfl, rfl, fun _ => rfl, rfl⟩) rfl rfl rfl (fun _ _ => rfl)
      Nat.one_pos ?_ ?_ ?_ ?_ (fun hk => by simp at hk) nofun
      (fun _ => trivial) (h.mutexes.service 0)
    · rw [hpc]; rfl
    · rw [hpc]; rfl
    · rw [hpc]; rfl
    · intro j hj _
      rw [hpc]
      exact iff_of_true hj trivial
  | sendAck j =>
    rw [hpc] at hs
    simp only at hs
    split at hs
    next hlt =>
      cases hs
      exact h.sendAck hpc hlt
    next hge =>
      cases hs
      refine h.moveZero (show Moves s _ 0 .unlock from ⟨rfl, rfl, rfl, rfl, rfl,
        rfl, rfl, fun _ => rfl, rfl⟩) rfl rfl rfl (fun _ _ => rfl)
        trivial ?_ ?_ ?_ ?_ (fun hk => by simp at hk) nofun
        (fun _ => trivial) (h.mutexes.service 0)
      · rw [hpc]; rfl
      · rw [hpc]; rfl
      · rw [hpc]; rfl
      · -- everybody is acknowledged
        intro k _ hk
        rw [hpc]
        exact iff_of_false nofun fun hu => hge (Nat.lt_of_le_of_lt hu hk)
  | clearRecv =>
    rw [hpc] at hz
    exact hz.elim
  | unlock =>
    rw [hpc] at hs
    cases hs
    exact h.leaveZero hpc

/-- Every step of another rank keeps it. -/
theorem Inv.mainRank (h : Inv s) (hi : 0 < i) (hlt : i < s.wcomSize)
    (hs : s.mainStep i = some s') : Inv s' := by
  have hne : i ≠ 0 := Nat.ne_of_gt hi
  have hplaces := h.ranks.pc_cases hi hlt
  unfold St.mainStep at hs
  cases hpc : s.main i with
  | out =>
    rw [hpc] at hs
    cases hs
  | send =>
    rw [hpc] at hs
    cases hs
    exact h.sendRank hi hlt hpc
  | lock =>
    rw [hpc] at hs
    simp only [if_neg hne] at hs
    split at hs
    next hfree =>
      cases hs
      refine h.wait hi ?_ trivial nofun (fun _ => trivial) nofun
      rw [hpc]
      trivial
    next => cases hs
  | test =>
    rw [hpc] at hs
    simp only [if_neg hne] at hs
    split at hs
    next hflag =>
      cases hs
      refine h.wait hi ?_ trivial (fun _ => hflag) nofun nofun
      rw [hpc]
      trivial
    next hflag =>
      cases hs
      exact h.flagSeen hi (eq_true_of_ne_false hflag)
  | asleep =>
    rw [hpc] at hs
    cases hs
  | relock =>
    rw [hpc] at hs
    simp only at hs
    split at hs
    next hfree =>
      cases hs
      refine h.wait hi ?_ trivial nofun (fun _ => trivial) nofun
      rw [hpc]
      trivial
    next => cases hs
  | clearRecv =>
    rw [hpc] at hs
    cases hs
    exact h.clearRank hi hlt hpc
  | unlock =>
    rw [hpc] at hs
    cases hs
    exact h.leaveRank hi hlt hpc
  -- the places of rank 0
  | incr =>
    rw [hpc] at hplaces
    simp [MainPc.Waits] at hplaces
  | setWaiting =>
    rw [hpc] at hplaces
    simp [MainPc.Waits] at hplaces
  | clearWaiting =>
    rw [hpc] at hplaces
    simp [MainPc.Waits] at hplaces
  | sendAck j =>
    rw [hpc] at hplaces
    simp [MainPc.Waits] at hplaces

/-- Every step of a service thread keeps it. -/
theorem Inv.serviceStep (h : Inv s) (hlt : i < s.wcomSize)
    (hs : s.serviceStep i = some s') : Inv s' := by
  unfold St.serviceStep at hs
  cases hsv : s.service i with
  | idle =>
    rw [hsv] at hs
    cases hs
  | lock m =>
    rw [hsv] at hs
    simp only at hs
    split at hs
    next hfree =>
      cases hs
      refine h.serviceMutex ?_ ?_ nofun fun _ => trivial
      · rw [hand_of_service (.inl hsv)]
        exact hand_of_service (.inr (update_self ..))
      · intro m' hm'
        rw [hsv] at hm'
        cases hm'
    next => cases hs
  | body m =>
    rw [hsv] at hs
    cases m with
    | barrier j k =>
      cases hs
      exact h.countRank hsv
    | ack k =>
      cases hs
      exact h.flagRank hsv
  | signal m =>
    rw [hsv] at hs
    cases m with
    | barrier j k =>
      simp only at hs
      split at hs
      next =>
        cases hs
        exact h.signalled hlt hsv
      next hno =>
        cases hs
        refine h.unsignal hsv ?_ ?_
        · -- a count that is a multiple is signalled
          rintro rfl hsleep hmod
          have hw := h.naps.waiting (.inr (.inl hsleep))
          refine hno ⟨?_, ?_⟩
          · show s.waiting ≠ 0
            rw [hw]
            exact Nat.ne_of_gt h.size
          · show s.count % s.waiting = 0
            rw [hw]
            exact hmod
        · intro hi hsleep hflag
          obtain ⟨l, hsig⟩ := h.naps.rank i hi hsleep hflag
          rw [hsv] at hsig
          cases hsig
    | ack k =>
      cases hs
      exact h.signalled hlt hsv
  | unlock =>
    rw [hsv] at hs
    cases hs
    refine h.serviceMutex ?_ ?_ nofun nofun
    · unfold St.hand
      show (match update s.service i .idle i with
        | .lock m => [(i, m)] | .body m => [(i, m)] | _ => []) = _
      rw [update_self, hsv]
    · intro m' hm'
      rw [hsv] at hm'
      cases hm'

/-- Every step keeps the invariant. -/
theorem Inv.of_step {a : Act} (h : Inv s) (hs : step a s = some s') :
    Inv s' := by
  cases a with
  | enter i =>
    unfold step at hs
    simp only at hs
    split at hs
    next hlt => exact h.enter hlt hs
    next => cases hs
  | main i =>
    unfold step at hs
    simp only at hs
    split at hs
    next hlt =>
      rcases Nat.eq_zero_or_pos i with rfl | hi
      · exact h.mainZero hs
      · exact h.mainRank hi hlt hs
    next => cases hs
  | deliver i m =>
    unfold step St.deliver at hs
    simp only at hs
    split at hs
    next hlt =>
      split at hs
      next hmsg =>
        cases hs
        exact h.deliver hmsg.1 hmsg.2
      next => cases hs
    next => cases hs
  | service i =>
    unfold step at hs
    simp only at hs
    split at hs
    next hlt => exact h.serviceStep hlt hs
    next => cases hs
  | spurious i =>
    unfold step St.spurious at hs
    simp only at hs
    split at hs
    next hlt =>
      split at hs
      next hpc =>
        cases hs
        exact h.wake hlt hpc
      next => cases hs
    next => cases hs

/-- All ranks outside, nothing under way. -/
theorem inv_init {n : Nat} (hn : 0 < n) : Inv (St.init n) where
  size := hn
  ranks := by
    refine ⟨trivial, rfl, rfl, rfl, fun i _ _ => ⟨.out, rfl, rfl, rfl, rfl, rfl,
      rfl, rfl, ?_⟩⟩
    exact iff_of_false nofun nofun
  books := by
    refine ⟨nofun, nofun, nofun, ?_⟩
    exact (Finset.sum_eq_zero fun _ _ => rfl).symm
  naps := by
    refine ⟨fun hk => ?_, nofun, nofun⟩
    rcases hk with hk | hk | hk <;> cases hk
  mutexes := ⟨nofun, nofun⟩

-- ======== what follows

/-- A rank leaves as often as every other one has entered, at most. -/
theorem Inv.together (h : Inv s) (hi : i < s.wcomSize) (hj : j < s.wcomSize) :
    s.left i ≤ s.entered j := by
  -- the barriers whose wait rank 0 has ended are between the two
  have hleft : ∀ k < s.wcomSize, s.left k ≤ s.released
      ∧ s.released ≤ s.entered k := by
    intro k hk
    rcases Nat.eq_zero_or_pos k with rfl | hpos
    · have he := h.ranks.zeroEntered
      have hr := h.ranks.zeroReleased
      cases hmain : s.main 0 <;> rw [hmain] at he hr <;>
        simp only [MainPc.inside, MainPc.passed] at he hr <;> omega
    · obtain ⟨st, hst⟩ := h.ranks.rank k hpos hk
      have he := hst.entered
      have hr := hst.released
      cases st <;> simp only [Stage.inside, Stage.passed] at he hr <;> omega
  exact (hleft i hi).1.trans (hleft j hj).2

/-- A rank that has seen its flag was acknowledged in this barrier. -/
theorem Inv.own (h : Inv s) (hlt : i < s.wcomSize)
    (hpc : s.main i = .clearRecv) :
    s.recv i = true ∧ s.ackOf i = s.entered i := by
  rcases Nat.eq_zero_or_pos i with rfl | hi
  · have hz := h.ranks.zeroPc
    rw [hpc] at hz
    exact hz.elim
  · obtain ⟨st, hst⟩ := h.ranks.rank i hi hlt
    have hflagged : st = .flagged := by
      have hp := hst.pc
      rw [hpc] at hp
      exact hp.clearRecv
    subst hflagged
    exact ⟨hst.recv, h.books.flagged i hi hst.recv⟩

/-- With both threads outside, the mutex of a rank is free. -/
theorem Inv.free (h : Inv s) (hidle : s.service i = .idle)
    (hpc : ¬ (s.main i).Crit) : s.mutex i = none := by
  cases hm : s.mutex i with
  | none => rfl
  | some holder =>
    cases holder with
    | main => exact absurd (h.mutexes.main i hm) hpc
    | service =>
      have hcrit := h.mutexes.service i hm
      rw [hidle] at hcrit
      exact hcrit.elim

section

variable (h : Inv s) (hall : s.AllInside k) (hnone : s.NoMessage)
include h hall hnone

/-- Rank 0 is asleep and no message is left: somebody has not sent its
message yet. -/
theorem Inv.sender (hsleep : s.main 0 = .asleep) :
    ∃ i < s.wcomSize, s.main i = .send := by
  have hc := h.ranks.zeroCounted
  have hr := h.ranks.zeroReleased
  rw [hsleep] at hc hr
  have hk := (hall 0 h.size).2
  have hmod : s.count % s.wcomSize ≠ 0 := by
    intro hmod
    obtain ⟨j, l, hsig⟩ := h.naps.zero hsleep hmod
    rw [hnone.2 0 h.size] at hsig
    cases hsig
  by_contra hno
  -- then all are counted, and the count is a multiple
  have hcounted : ∀ j ∈ Finset.range s.wcomSize, s.counted j = k := by
    intro j hj
    have hlt := Finset.mem_range.mp hj
    rcases Nat.eq_zero_or_pos j with rfl | hpos
    · rw [hc]
      exact hk
    · obtain ⟨st, hst⟩ := h.ranks.rank j hpos hlt
      have hkj := (hall j hlt).1
      have hlj := (hall j hlt).2
      have hej := hst.entered
      have hcj := hst.counted
      have harr : s.arrivals j = 0 := by
        unfold St.arrivals St.hand
        rw [hnone.1, hnone.2 0 h.size]
        rfl
      cases st with
      | out =>
        simp only [Stage.inside] at hej
        omega
      | send => exact (hno ⟨j, hlt, hst.pc⟩).elim
      | sent =>
        rw [hst.arrivals] at harr
        cases harr
      | counted => exact hcj.trans hlj
      | unacked => exact hcj.trans hlj
      | acked => exact hcj.trans hlj
      | flagged => exact hcj.trans hlj
      | cleared => exact hcj.trans hlj
  apply hmod
  rw [h.books.count, Finset.sum_congr rfl hcounted,
    Finset.sum_const_nat (fun _ _ => rfl), Finset.card_range,
    Nat.mul_mod_right]

theorem Inv.goesOn : ∃ i < s.wcomSize, ∃ s', step (.main i) s = some s' := by
  by_cases hsleep : s.main 0 = .asleep
  · obtain ⟨i, hlt, hpc⟩ := h.sender hall hnone hsleep
    refine ⟨i, hlt, (s.post 0 (.barrier i (s.entered i))).setMain i .lock, ?_⟩
    unfold step
    simp only [if_pos hlt]
    unfold St.mainStep
    rw [hpc]
  · refine ⟨0, h.size, Option.isSome_iff_exists.mp ?_⟩
    have hfree := h.free (hnone.2 0 h.size)
    have hz := h.ranks.zeroPc
    have he := h.ranks.zeroEntered
    have hk := hall 0 h.size
    unfold step
    simp only [if_pos h.size]
    unfold St.mainStep
    cases hpc : s.main 0 with
    | out =>
      rw [hpc] at he
      simp only [MainPc.inside] at he
      omega
    | send =>
      rw [hpc] at hz
      exact hz.elim
    | lock =>
      rw [hpc] at hfree
      simp only [if_pos (hfree nofun)]
      rfl
    | incr => rfl
    | setWaiting => rfl
    | test =>
      simp only [if_true]
      split
      next => rfl
      next => rfl
    | asleep => exact absurd hpc hsleep
    | relock =>
      rw [hpc] at hfree
      simp only [if_pos (hfree nofun)]
      rfl
    | clearWaiting => rfl
    | sendAck j =>
      simp only
      split
      next => rfl
      next => rfl
    | clearRecv => rfl
    | unlock => rfl

/-- A rank asleep with no message left: its flag is not set, and rank 0 has
not acknowledged it, so it is before its wait or still sending. -/
theorem Inv.sleeps (hlt : i < s.wcomSize) (hsleep : s.main i = .asleep) :
    (∃ j < s.wcomSize, s.main j = .send) ∨ 0 < i ∧ (s.main 0).Owes i := by
  rcases Nat.eq_zero_or_pos i with rfl | hi
  · exact .inl (h.sender hall hnone hsleep)
  by_cases hzero : s.main 0 = .asleep
  · exact .inl (h.sender hall hnone hzero)
  refine .inr ⟨hi, ?_⟩
  obtain ⟨st, hst⟩ := h.ranks.rank i hi hlt
  have hp := hst.pc
  rw [hsleep] at hp
  have hidle : s.hand i = [] ∧ s.hand 0 = [] := by
    unfold St.hand
    rw [hnone.2 i hlt, hnone.2 0 h.size]
    exact ⟨rfl, rfl⟩
  cases st with
  | out | send | cleared => exact MainPc.noConfusion hp
  | sent =>
    have harr := hst.arrivals
    unfold St.arrivals at harr
    rw [hnone.1, hidle.2] at harr
    cases harr
  | acked =>
    have hack := hst.acks
    unfold St.acks at hack
    rw [hnone.1, hidle.1] at hack
    cases hack
  | flagged =>
    -- the flag is set, so the signal would be in hand
    obtain ⟨l, hsig⟩ := h.naps.rank i hi hsleep hst.recv
    rw [hnone.2 i hlt] at hsig
    cases hsig
  | unacked =>
    have hun := hst.unacked.mpr rfl
    cases hpc : s.main 0 <;> rw [hpc] at hun <;> first | exact hun | exact hun.elim
  | counted =>
    have he := h.ranks.zeroEntered
    have hr := h.ranks.zeroReleased
    have hri := hst.released
    have hli := (hall i hlt).2
    obtain ⟨hk, hl⟩ := hall 0 h.size
    have hz := h.ranks.zeroPc
    cases hpc : s.main 0 <;> rw [hpc] at he hr hz <;>
      simp only [MainPc.inside, MainPc.passed, Stage.passed] at he hr hri <;>
      first
        | exact trivial
        | exact absurd hpc hzero
        | exact hz.elim
        | omega

end

/-- In every state the processes reach, whatever the order of their steps,
nobody has returned from a barrier somebody has not entered, no
acknowledgement is taken for another barrier's, and a state without
messages in which all are inside the same barrier goes on, its sleepers
waiting for a message that is not sent yet. -/
theorem barrierOk {n : Nat} (hn : 0 < n) (as : List Act) (s : St)
    (hrun : run step as (St.init n) = some s) : BarrierOk s := by
  have h : Inv s := run_preserves (fun h hs => h.of_step hs) (inv_init hn) hrun
  exact ⟨fun i hi j hj => h.together hi hj, fun i hi hpc => h.own hi hpc,
    fun k hall hnone => h.goesOn hall hnone,
    fun k hall hnone i hi hsleep => h.sleeps hall hnone hi hsleep⟩

/-- Two processes enter the barrier, rank 1 has returned from it. -/
theorem barrierOk_two : ∃ s, run step
    [.enter 0, .enter 1, .main 1, .main 0, .main 0, .main 0,
      .main 0, .deliver 0 (.barrier 1 1), .service 0, .service 0, .service 0,
      .service 0, .main 0, .main 0, .main 0, .main 0,
      .deliver 1 (.ack 1), .service 1, .service 1, .service 1, .service 1,
      .main 1, .main 1, .main 1, .main 1] (St.init 2) = some s
    ∧ s.left 1 = 1 ∧ BarrierOk s := by
  refine ⟨_, rfl, rfl, ?_⟩
  exact barrierOk Nat.zero_lt_two
    [.enter 0, .enter 1, .main 1, .main 0, .main 0, .main 0,
      .main 0, .deliver 0 (.barrier 1 1), .service 0, .service 0, .service 0,
      .service 0, .main 0, .main 0, .main 0, .main 0,
      .deliver 1 (.ack 1), .service 1, .service 1, .service 1, .service 1,
      .main 1, .main 1, .main 1, .main 1] _ rfl

/-- Rank 0 sleeps and no message is in flight, though both processes are
inside the barrier: rank 1 has not sent its message yet. -/
theorem asleep_before_send : ∃ s, run step
    [.enter 0, .main 0, .main 0, .main 0, .main 0, .enter 1] (St.init 2) = some s
    ∧ s.AllInside 1 ∧ s.NoMessage ∧ ∃ i < s.wcomSize, s.main i = .asleep := by
  refine ⟨_, rfl, ?_, ⟨rfl, ?_⟩, 0, ?_, rfl⟩
  · unfold St.AllInside
    decide
  · decide
  · exact Nat.zero_lt_two

end XKaapi.Taknet
