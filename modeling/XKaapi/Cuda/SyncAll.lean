/-
Synchronisation with the GPU processors (machine/cuda/kaapi_cuda_sync.c,
kaapi_cuda_proc_poll in machine/cuda/kaapi_cuda_proc.c).

One thread calls `kaapi_cuda_proc_sync_all` any number of times: it sets
the flag of each CUDA processor, waits until the barrier counter is their
number, and resets the counter. The thread of a CUDA processor reads its
flag over and over; when it is set it goes through `kaapi_cuda_sync`,
which ends by counting itself in the barrier, and clears the flag after.

One access to a flag or to the counter is one step, and so is each of the
waits inside `kaapi_cuda_sync`, in any order between threads. `calls` and
`synced` are not in the source: the number of calls begun, and for each
processor the call in which its last complete `kaapi_cuda_sync` began.

The flag is cleared after the counter, so the next call may set it in
between, and this request is lost (`syncOk_fails`). `syncOk_of_meets`
proves the protocol for the runs in which no flag is set then.
-/
import XKaapi.Lib.Run
import XKaapi.Lib.Tally

namespace XKaapi.Cuda

open StepMachine (run Along)
open Function (update update_of_ne update_self)

-- ======== state

/-- Where the caller is in `kaapi_cuda_proc_sync_all`. -/
inductive CallerPc
  | out
  | setFlag (i : Nat)
  | wait
  | reset
deriving DecidableEq, Repr

/-- The steps of `kaapi_cuda_sync`. -/
inductive SyncPc
  | streamWaitall
  | synchronizePeer2peer
  | streamSynchronize
  | addBarrier
deriving DecidableEq, Repr

/-- Where the thread of a processor is in `kaapi_cuda_proc_poll`; inside
`kaapi_cuda_sync` with the number of the call in which it began. -/
inductive PollPc
  | readFlag
  | sync (pc : SyncPc) (call : Nat)
  | clearFlag
deriving DecidableEq, Repr

/-- The processors (`isCuda` is the type of `kaapi_all_kprocessors[i]`),
their flags, the counter, and where everybody is. -/
structure St where
  countKprocessors : Nat
  isCuda : Nat → Bool
  synchronizeFlag : Nat → Bool
  synchronizeBarrier : Nat
  caller : CallerPc
  poll : Nat → PollPc
  calls : Nat
  synced : Nat → Nat

namespace St

/-- After kaapi_cuda_init and kaapi_cuda_proc_initialize. -/
def init (countKprocessors : Nat) (isCuda : Nat → Bool) : St where
  countKprocessors := countKprocessors
  isCuda := isCuda
  synchronizeFlag := fun _ => false
  synchronizeBarrier := 0
  caller := .out
  poll := fun _ => .readFlag
  calls := 0
  synced := fun _ => 0

/-- The processor `i` has a GPU. -/
def Gpu (s : St) (i : Nat) : Prop :=
  i < s.countKprocessors ∧ s.isCuda i = true

instance (s : St) (i : Nat) : Decidable (s.Gpu i) :=
  inferInstanceAs (Decidable (_ ∧ _))

/-- kaapi_cuda_get_proc_count -/
def procCount (s : St) : Nat :=
  ∑ i ∈ Finset.range s.countKprocessors, if s.isCuda i then 1 else 0

def setPoll (i : Nat) (pc : PollPc) (s : St) : St :=
  { s with poll := update s.poll i pc }

def setFlag (i : Nat) (v : Bool) (s : St) : St :=
  { s with synchronizeFlag := update s.synchronizeFlag i v }

-- ======== steps

/-- One step of the caller, inside `kaapi_cuda_proc_sync_all`. -/
def callerStep (s : St) : Option St :=
  match s.caller with
  | .out => none
  | .setFlag i =>
    if i < s.countKprocessors then
      let s := if s.isCuda i then s.setFlag i true else s
      some { s with caller := .setFlag (i + 1) }
    else some { s with caller := .wait }
  | .wait =>
    if s.synchronizeBarrier ≠ s.procCount then some s
    else some { s with caller := .reset }
  | .reset =>
    some { s with
      synchronizeBarrier := 0
      caller := .out }

/-- One step of the thread of the processor `i`. -/
def pollStep (i : Nat) (s : St) : Option St :=
  if s.Gpu i then
    match s.poll i with
    | .readFlag =>
      if s.synchronizeFlag i then
        some (s.setPoll i (.sync .streamWaitall s.calls))
      -- kaapi_cuda_stream_poll
      else some s
    | .sync .streamWaitall c =>
      some (s.setPoll i (.sync .synchronizePeer2peer c))
    | .sync .synchronizePeer2peer c =>
      some (s.setPoll i (.sync .streamSynchronize c))
    | .sync .streamSynchronize c => some (s.setPoll i (.sync .addBarrier c))
    | .sync .addBarrier c =>
      some { s.setPoll i .clearFlag with
        synchronizeBarrier := s.synchronizeBarrier + 1
        synced := update s.synced i c }
    | .clearFlag => some ((s.setFlag i false).setPoll i .readFlag)
  else none

end St

/-- A call, or one thread's next step. -/
inductive Act
  | call
  | caller
  | poll (i : Nat)
deriving DecidableEq, Repr

def step (a : Act) (s : St) : Option St :=
  match a with
  | .call =>
    if s.caller = .out then
      some { s with
        caller := .setFlag 0
        calls := s.calls + 1 }
    else none
  | .caller => s.callerStep
  | .poll i => s.pollStep i

-- ======== the statement

/-- The processor is inside `kaapi_cuda_sync`. -/
def PollPc.Inside (pc : PollPc) : Prop := ∃ k c, pc = .sync k c

/-- What the synchronisation promises in a state: a call that is past its
wait, or has returned, began before the last complete `kaapi_cuda_sync` of
each processor; and the caller does not wait for a lost request. -/
structure SyncOk (s : St) : Prop where
  returned : s.caller = .reset ∨ s.caller = .out →
    ∀ i, s.Gpu i → s.synced i = s.calls
  notLost : ¬ (s.caller = .wait ∧ (∀ i, s.Gpu i → s.synchronizeFlag i = false)
    ∧ (∀ i, s.Gpu i → ¬ (s.poll i).Inside)
    ∧ s.synchronizeBarrier < s.procCount)

/-- The condition: no flag is set between the increment of the counter
and the clearing of the flag by its thread. -/
def Meets (a : Act) (s : St) : Prop :=
  match a, s.caller with
  | .caller, .setFlag i => s.Gpu i → s.poll i ≠ .clearFlag
  | _, _ => True

instance (a : Act) (s : St) : Decidable (Meets a s) := by
  unfold Meets
  split <;> infer_instance

-- ======== the invariant

/-- The flag of `i` was set in the current call. -/
def St.Asked (s : St) (i : Nat) : Prop :=
  match s.caller with
  | .setFlag j => i < j
  | _ => True

/-- The request to `i` is not served yet. -/
def St.Pending (s : St) (i : Nat) : Prop := s.Asked i ∧ s.synced i ≠ s.calls

/-- A request that is not served has its flag, and its thread has not
begun or has begun in this call; otherwise the flag is down, or up until
the thread that has just served it clears it. -/
structure GpuOk (s : St) (i : Nat) : Prop where
  pending : s.Pending i → s.synchronizeFlag i = true
    ∧ (s.poll i = .readFlag ∨ ∃ k, s.poll i = .sync k s.calls)
  settled : ¬ s.Pending i →
    (s.poll i = .readFlag ∧ s.synchronizeFlag i = false)
      ∨ (s.poll i = .clearFlag ∧ s.synchronizeFlag i = true)
  later : ¬ s.Asked i → s.synced i ≠ s.calls
  le : s.synced i ≤ s.calls

/-- The processors that served the current call. -/
def St.served (s : St) : Nat :=
  ∑ i ∈ Finset.range s.countKprocessors,
    if s.isCuda i ∧ s.synced i = s.calls then 1 else 0

structure Inv (s : St) : Prop where
  gpu : ∀ i, s.Gpu i → GpuOk s i
  count : s.caller ≠ .out → s.synchronizeBarrier = s.served
  clean : s.caller = .out → s.synchronizeBarrier = 0
  done : s.caller = .reset ∨ s.caller = .out →
    ∀ i, s.Gpu i → s.synced i = s.calls

variable {s s' : St} {i : Nat}

theorem GpuOk.congr (h : GpuOk s i) (hasked : s'.Asked i ↔ s.Asked i)
    (hflag : s'.synchronizeFlag i = s.synchronizeFlag i)
    (hpoll : s'.poll i = s.poll i) (hsynced : s'.synced i = s.synced i)
    (hcalls : s'.calls = s.calls) : GpuOk s' i := by
  have hp : s'.Pending i ↔ s.Pending i := by
    unfold St.Pending
    rw [hasked, hsynced, hcalls]
  refine ⟨?_, ?_, ?_, ?_⟩
  · rw [hp, hflag, hpoll, hcalls]
    exact h.pending
  · rw [hp, hflag, hpoll]
    exact h.settled
  · rw [hasked, hsynced, hcalls]
    exact h.later
  · rw [hsynced, hcalls]
    exact h.le

theorem served_eq_iff :
    s.served = s.procCount ↔ ∀ i, s.Gpu i → s.synced i = s.calls := by
  unfold St.served St.procCount
  rw [Finset.sum_eq_sum_iff_of_le]
  · refine ⟨fun h i hi => ?_, fun h i hi => ?_⟩
    · have heq := h i (Finset.mem_range.mpr hi.1)
      rw [if_pos hi.2] at heq
      by_contra hne
      rw [if_neg fun hand => hne hand.2] at heq
      cases heq
    · by_cases hcuda : s.isCuda i = true
      · rw [if_pos ⟨hcuda, h i ⟨Finset.mem_range.mp hi, hcuda⟩⟩, if_pos hcuda]
      · rw [if_neg fun hand => hcuda hand.1, if_neg hcuda]
  · intro i hi
    by_cases hcuda : s.isCuda i = true
    · rw [if_pos hcuda]
      split <;> omega
    · rw [if_neg fun hand => hcuda hand.1]
      exact Nat.zero_le _

theorem served_eq_zero (h : ∀ i, s.Gpu i → s.synced i ≠ s.calls) :
    s.served = 0 := by
  unfold St.served
  refine Finset.sum_eq_zero fun i hi => if_neg ?_
  intro ⟨hcuda, heq⟩
  exact h i ⟨Finset.mem_range.mp hi, hcuda⟩ heq

theorem served_update (hi : s.Gpu i) (hne : s.synced i ≠ s.calls) :
    { s with synced := update s.synced i s.calls }.served
      = s.served + 1 := by
  have hsum := Tally.sum_update_at hi.1
    (fun j c => if s.isCuda j ∧ c = s.calls then 1 else 0) s.synced s.calls
  rw [if_neg (fun hand => hne hand.2), if_pos ⟨hi.2, rfl⟩] at hsum
  exact hsum

-- ======== the steps

theorem inv_init (n : Nat) (isCuda : Nat → Bool) : Inv (St.init n isCuda) where
  gpu := fun _ _ => ⟨fun h => absurd rfl h.2, fun _ => .inl ⟨rfl, rfl⟩,
    fun h => absurd trivial h, Nat.le_refl _⟩
  count := fun h => absurd rfl h
  clean := fun _ => rfl
  done := fun _ _ _ => rfl

theorem Inv.call (h : Inv s) (hout : s.caller = .out) :
    Inv { s with
      caller := .setFlag 0
      calls := s.calls + 1 } := by
  have hlater : ∀ j, s.Gpu j → s.synced j ≠ s.calls + 1 := by
    intro j hj
    have hle := (h.gpu j hj).le
    omega
  have hnotAsked : ∀ j, ¬ { s with
      caller := .setFlag 0
      calls := s.calls + 1 }.Asked j := fun j hj => absurd hj (Nat.not_lt_zero j)
  refine ⟨fun j hj => ?_, fun _ => ?_, nofun, ?_⟩
  · have hold := h.gpu j hj
    refine ⟨fun hp => absurd hp.1 (hnotAsked j), fun _ => ?_,
      fun _ => hlater j hj, Nat.le_succ_of_le hold.le⟩
    exact hold.settled fun hp => hp.2 (h.done (.inr hout) j hj)
  · rw [served_eq_zero hlater]
    exact h.clean hout
  · intro hc
    rcases hc with hc | hc
    · cases hc
    · cases hc

theorem Inv.moveCaller (h : Inv s) (hin : s.caller ≠ .out) {pc : CallerPc}
    (hout : pc ≠ .out) (hasked : ∀ j, s.Gpu j →
      ({ s with caller := pc }.Asked j ↔ s.Asked j))
    (hdone : pc = .reset → ∀ j, s.Gpu j → s.synced j = s.calls) :
    Inv { s with caller := pc } := by
  refine ⟨fun j hj => (h.gpu j hj).congr (hasked j hj) rfl rfl rfl rfl,
    fun _ => h.count hin, fun hc => absurd hc hout, ?_⟩
  intro hc
  rcases hc with hc | hc
  · exact hdone hc
  · exact absurd hc hout

theorem Inv.request (h : Inv s) (hpc : s.caller = .setFlag i) (hi : s.Gpu i)
    (hpoll : s.poll i ≠ .clearFlag) :
    Inv { s.setFlag i true with caller := .setFlag (i + 1) } := by
  have hin : s.caller ≠ .out := by
    rw [hpc]
    exact nofun
  have hnot : ¬ s.Asked i := by
    unfold St.Asked
    rw [hpc]
    exact Nat.lt_irrefl i
  have hold := h.gpu i hi
  refine ⟨fun j hj => ?_, fun _ => h.count hin, nofun, ?_⟩
  · by_cases hji : j = i
    · subst hji
      refine ⟨fun _ => ⟨update_self .., ?_⟩, fun hp => ?_,
        fun ha => absurd (Nat.lt_succ_self j) ha, hold.le⟩
      · rcases hold.settled (fun hp => hnot hp.1) with hrd | hcl
        · exact .inl hrd.1
        · exact absurd hcl.1 hpoll
      · exact absurd ⟨Nat.lt_succ_self j, hold.later hnot⟩ hp
    · refine (h.gpu j hj).congr ?_ (update_of_ne hji ..) rfl rfl rfl
      unfold St.Asked
      rw [hpc]
      show j < i + 1 ↔ j < i
      omega
  · intro hc
    rcases hc with hc | hc
    · cases hc
    · cases hc

theorem Inv.callerStep (h : Inv s) (hm : Meets .caller s)
    (hstep : s.callerStep = some s') : Inv s' := by
  unfold St.callerStep at hstep
  unfold Meets at hm
  cases hpc : s.caller with
  | out =>
    rw [hpc] at hstep
    cases hstep
  | setFlag j =>
    have hin : s.caller ≠ .out := by
      rw [hpc]
      exact nofun
    rw [hpc] at hstep hm
    dsimp only at hstep hm
    split at hstep
    next hlt =>
      cases hstep
      by_cases hcuda : s.isCuda j = true
      · rw [if_pos hcuda]
        exact h.request hpc ⟨hlt, hcuda⟩ (hm ⟨hlt, hcuda⟩)
      · rw [if_neg hcuda]
        refine h.moveCaller hin nofun (fun k hk => ?_) nofun
        have hne : k ≠ j := fun heq => hcuda (heq ▸ hk.2)
        unfold St.Asked
        rw [hpc]
        show k < j + 1 ↔ k < j
        omega
    next hge =>
      cases hstep
      refine h.moveCaller hin nofun (fun k hk => ?_) nofun
      unfold St.Asked
      rw [hpc]
      exact ⟨fun _ => Nat.lt_of_lt_of_le hk.1 (Nat.not_lt.mp hge),
        fun _ => trivial⟩
  | wait =>
    have hin : s.caller ≠ .out := by
      rw [hpc]
      exact nofun
    have hasked : ∀ k, s.Asked k := by
      intro k
      unfold St.Asked
      rw [hpc]
      trivial
    rw [hpc] at hstep
    dsimp only at hstep
    split at hstep
    next =>
      cases hstep
      exact h
    next heq =>
      cases hstep
      refine h.moveCaller hin nofun
        (fun k _ => ⟨fun _ => hasked k, fun _ => trivial⟩) fun _ => ?_
      rw [← served_eq_iff, ← h.count hin]
      exact not_not.mp heq
  | reset =>
    rw [hpc] at hstep
    cases hstep
    have hdone := h.done (.inl hpc)
    refine ⟨fun k hk => (h.gpu k hk).congr ⟨fun _ => ?_, fun _ => trivial⟩
      rfl rfl rfl rfl, fun hc => absurd rfl hc, fun _ => rfl, fun _ => hdone⟩
    unfold St.Asked
    rw [hpc]
    trivial

theorem GpuOk.inside (h : GpuOk s i) {k : SyncPc} {c : Nat}
    (hpoll : s.poll i = .sync k c) :
    s.Pending i ∧ c = s.calls ∧ s.synchronizeFlag i = true := by
  by_cases hp : s.Pending i
  · obtain ⟨hflag, hrd | ⟨k', hk'⟩⟩ := h.pending hp
    · rw [hpoll] at hrd
      cases hrd
    · rw [hpoll] at hk'
      cases hk'
      exact ⟨hp, rfl, hflag⟩
  · rcases h.settled hp with ⟨hrd, -⟩ | ⟨hcl, -⟩
    · rw [hpoll] at hrd
      cases hrd
    · rw [hpoll] at hcl
      cases hcl

theorem Inv.movePoll (h : Inv s) (hi : s.Gpu i) (hp : s.Pending i)
    (k : SyncPc) : Inv (s.setPoll i (.sync k s.calls)) := by
  refine ⟨fun j hj => ?_, h.count, h.clean, h.done⟩
  by_cases hji : j = i
  · subst hji
    have hold := h.gpu j hi
    exact ⟨fun _ => ⟨(hold.pending hp).1, .inr ⟨k, update_self ..⟩⟩,
      fun hnot => absurd hp hnot, hold.later, hold.le⟩
  · exact (h.gpu j hj).congr Iff.rfl rfl (update_of_ne hji ..) rfl rfl

theorem Inv.addBarrier (h : Inv s) (hi : s.Gpu i) (hp : s.Pending i)
    (hflag : s.synchronizeFlag i = true) :
    Inv { s.setPoll i .clearFlag with
      synchronizeBarrier := s.synchronizeBarrier + 1
      synced := update s.synced i s.calls } := by
  have hbusy : ¬ (s.caller = .reset ∨ s.caller = .out) :=
    fun hc => hp.2 (h.done hc i hi)
  have hin : s.caller ≠ .out := fun hc => hbusy (.inr hc)
  refine ⟨fun j hj => ?_, fun _ => ?_, fun hc => absurd hc hin,
    fun hc => absurd hc hbusy⟩
  · by_cases hji : j = i
    · subst hji
      have hnow : update s.synced j s.calls j = s.calls :=
        update_self ..
      exact ⟨fun hnew => absurd hnow hnew.2,
        fun _ => .inr ⟨update_self .., hflag⟩,
        fun ha => absurd hp.1 ha, Nat.le_of_eq hnow⟩
    · exact (h.gpu j hj).congr Iff.rfl rfl (update_of_ne hji ..)
        (update_of_ne hji ..) rfl
  · show s.synchronizeBarrier + 1 = _
    rw [h.count hin, ← served_update hi hp.2]
    rfl

theorem Inv.clearFlag (h : Inv s) (hpoll : s.poll i = .clearFlag)
    (hi : s.Gpu i) : Inv ((s.setFlag i false).setPoll i .readFlag) := by
  refine ⟨fun j hj => ?_, h.count, h.clean, h.done⟩
  by_cases hji : j = i
  · subst hji
    have hold := h.gpu j hi
    have hnot : ¬ s.Pending j := by
      intro hp
      rcases (hold.pending hp).2 with hrd | ⟨k, hk⟩
      · rw [hpoll] at hrd
        cases hrd
      · rw [hpoll] at hk
        cases hk
    exact ⟨fun hp => absurd hp hnot,
      fun _ => .inl ⟨update_self .., update_self ..⟩,
      hold.later, hold.le⟩
  · exact (h.gpu j hj).congr Iff.rfl (update_of_ne hji ..)
      (update_of_ne hji ..) rfl rfl

theorem Inv.pollStep (h : Inv s) (hstep : s.pollStep i = some s') :
    Inv s' := by
  unfold St.pollStep at hstep
  split at hstep
  next hi =>
    have hold := h.gpu i hi
    cases hpoll : s.poll i with
    | readFlag =>
      rw [hpoll] at hstep
      dsimp only at hstep
      split at hstep
      next hflag =>
        cases hstep
        refine h.movePoll hi ?_ _
        by_contra hnot
        rcases hold.settled hnot with ⟨-, hdown⟩ | ⟨hcl, -⟩
        · rw [hflag] at hdown
          cases hdown
        · rw [hpoll] at hcl
          cases hcl
      next =>
        cases hstep
        exact h
    | sync k c =>
      obtain ⟨hp, rfl, hflag⟩ := hold.inside hpoll
      rw [hpoll] at hstep
      cases k with
      | streamWaitall =>
        cases hstep
        exact h.movePoll hi hp _
      | synchronizePeer2peer =>
        cases hstep
        exact h.movePoll hi hp _
      | streamSynchronize =>
        cases hstep
        exact h.movePoll hi hp _
      | addBarrier =>
        cases hstep
        exact h.addBarrier hi hp hflag
    | clearFlag =>
      rw [hpoll] at hstep
      cases hstep
      exact h.clearFlag hpoll hi
  next => cases hstep

theorem Inv.step {a : Act} (hm : Meets a s) (h : Inv s)
    (hstep : Cuda.step a s = some s') : Inv s' := by
  cases a with
  | call =>
    unfold Cuda.step at hstep
    dsimp only at hstep
    split at hstep
    next hout =>
      cases hstep
      exact h.call hout
    next => cases hstep
  | caller => exact h.callerStep hm hstep
  | poll i => exact h.pollStep hstep

-- ======== the results

theorem Inv.syncOk (h : Inv s) : SyncOk s := by
  refine ⟨h.done, ?_⟩
  intro ⟨hwait, hflags, _, hlt⟩
  have hin : s.caller ≠ .out := by
    rw [hwait]
    exact nofun
  refine Nat.ne_of_lt hlt ?_
  rw [h.count hin, served_eq_iff]
  intro j hj
  by_contra hne
  have hp : s.Pending j := by
    refine ⟨?_, hne⟩
    unfold St.Asked
    rw [hwait]
    trivial
  have hup := ((h.gpu j hj).pending hp).1
  rw [hflags j hj] at hup
  cases hup

/-- For any number of processors and of calls, in every run in which no
flag is set before the thread that has served the former request clears
it: a call returns only after every GPU processor has gone through
`kaapi_cuda_sync` since it began, and no request is lost. -/
theorem syncOk_of_meets (n : Nat) (isCuda : Nat → Bool) (as : List Act) (s : St)
    (hm : Along step Meets as (St.init n isCuda))
    (hrun : run step as (St.init n isCuda) = some s) : SyncOk s :=
  (hm.run_inv (P := Inv) (fun hq h hstep => h.step hq hstep)
    (inv_init n isCuda) hrun).syncOk

/-- Two calls with one GPU processor. -/
def twoCalls : List Act :=
  [.call, .caller, .caller, .poll 0, .poll 0, .poll 0, .poll 0, .poll 0,
    .poll 0, .caller, .caller, .call, .caller, .caller, .poll 0, .poll 0,
    .poll 0, .poll 0, .poll 0, .poll 0, .caller, .caller]

theorem syncOk_of_meets_one :
    ∃ s, run step twoCalls (St.init 1 fun _ => true) = some s ∧ SyncOk s := by
  have hsome : (run step twoCalls (St.init 1 fun _ => true)).isSome = true := by
    decide +kernel
  obtain ⟨s, hrun⟩ := Option.isSome_iff_exists.mp hsome
  exact ⟨s, hrun, syncOk_of_meets 1 (fun _ => true) twoCalls s
    (by decide +kernel) hrun⟩

/-- The thread of the processor counts itself; the first call returns and
the second one sets the flag, which the thread then clears. -/
theorem syncOk_fails :
    ¬ ∀ (n : Nat) (isCuda : Nat → Bool) (as : List Act) (s : St),
      run step as (St.init n isCuda) = some s → SyncOk s := by
  intro hall
  have hlost : (run step [.call, .caller, .caller, .poll 0, .poll 0, .poll 0,
      .poll 0, .poll 0, .caller, .caller, .call, .caller, .caller, .poll 0]
      (St.init 1 fun _ => true)).map (fun s => (s.countKprocessors, s.caller,
        s.synchronizeFlag 0, s.poll 0, s.synchronizeBarrier, s.procCount))
      = some (1, .wait, false, .readFlag, 0, 1) := by
    decide +kernel
  obtain ⟨s, hrun, hproj⟩ := Option.map_eq_some_iff.mp hlost
  simp only [Prod.mk.injEq] at hproj
  obtain ⟨hn, hwait, hflag, hpoll, hbarrier, hcount⟩ := hproj
  have hzero : ∀ i, s.Gpu i → i = 0 := by
    intro i hi
    have hlt := hi.1
    omega
  refine (hall 1 (fun _ => true) _ s hrun).notLost ⟨hwait, fun i hi => ?_,
    fun i hi => ?_, by omega⟩
  · rw [hzero i hi]
    exact hflag
  · rw [hzero i hi, hpoll]
    intro ⟨k, c, hk⟩
    cases hk

end XKaapi.Cuda
