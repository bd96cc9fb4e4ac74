/-
Abstract execution of a task list: a visitor is applied to every
descriptor, in an order in which the tasks could run
(src/thread/kaapi_thread_readylist_generic_execframe.c). It is what
prints the graph of a frame.

Descriptors are signalled as in an execution and their counters keep
what they have counted; a counter is compared by its remainder, so the
next execution starts a new round (`afterRounds`). What the ready list,
the recv list or a bcast list leads to is visited without being counted:
"the abstract execution consider that they are ready". So a descriptor
that waits for a reception and for another task keeps a signal of an
unfinished round (`abstractexec_fails`), and the result is about the
lists in which each descriptor is signalled or entered, not both
(`WellFormed`).

Links are the entries of lists here, not cells of memory: the local
list is allocated by the function and freed by it. The order and the
bound on the signals come from `XKaapi.Lib.Activation`, whose bag of
ready nodes holds the local list and what is left of the recv list.
-/
import XKaapi.TaskList.Activated
import XKaapi.Lib.LongestPath
import Mathlib.Data.List.ReduceOption

namespace XKaapi.AbstractExec

open Activation StepMachine LongestPath TaskList Dfg
open Function (update update_of_ne update_self)

-- ======== code

/-- `kaapi_taskdescr_t`, as far as an execution reads it. An entry of a
list that leads to no descriptor is `none`. -/
structure Taskdescr (ι : Type) where
  counter : Nat
  wc : Nat
  bcast : Option (List (Option ι))
  acl : List ι

/-- `kaapi_frame_tasklist_t`, with the descriptors allocated in it. -/
structure FrameTasklist (ι : Type) where
  tds : List ι
  td : ι → Taskdescr ι
  readylist : List (Option ι)
  recvlist : List (Option ι)

/-- The descriptors, the local variables, and what the visitor has made
of its argument. -/
structure Walk (ι σ : Type) where
  td : ι → Taskdescr ι
  readylist : List (Option ι)
  recv : List (Option ι)
  arg : σ

variable {ι σ : Type} [DecidableEq ι]

/-- The body of the loop on an activation list; the remainder by 0 is
undefined. -/
def Walk.pushIfActivated (v : ι) (s : Walk ι σ) : Option (Walk ι σ) :=
  let t := s.td v
  let r := taskdescrActivated t.counter t.wc
  r.2.map fun activated =>
    { s with
      td := update s.td v { t with counter := r.1 }
      readylist :=
        if activated then s.readylist ++ [some v] else s.readylist }

/-- The loop on an activation list. -/
def Walk.pushActivated : List ι → Walk ι σ → Option (Walk ι σ)
  | [], s => some s
  | v :: vs, s => (s.pushIfActivated v).bind (Walk.pushActivated vs)

/-- The loop on a bcast list, if there is one. -/
def Walk.pushBcast (s : Walk ι σ) (bcast : Option (List (Option ι))) :
    Walk ι σ :=
  match bcast with
  | some links => { s with readylist := s.readylist ++ links }
  | none => s

/-- Execute one descriptor and push what it activates. -/
def Walk.executor (f : ι → σ → σ) (u : ι) (s : Walk ι σ) :
    Option (Walk ι σ) :=
  (Walk.pushActivated (s.td u).acl { s with arg := f u s.arg }).map
    fun s' => s'.pushBcast (s'.td u).bcast

/-- The two loops from label `redo_once` on, with a bound on the turns. -/
def redoOnce (f : ι → σ → σ) : Nat → Walk ι σ → Option (Walk ι σ)
  | 0, _ => none
  | n + 1, s =>
    match s.readylist with
    | some u :: rest =>
      (Walk.executor f u { s with readylist := rest }).bind (redoOnce f n)
    | none :: rest => redoOnce f n { s with readylist := rest }
    | [] =>
      match s.recv with
      | td :: recv =>
        redoOnce f n { s with readylist := [td], recv := recv }
      | [] => some s

/-- The initial ready list, copied. -/
def populate (tl : FrameTasklist ι) (arg : σ) : Walk ι σ where
  td := tl.td
  readylist := tl.readylist
  recv := tl.recvlist
  arg := arg

def EINVAL : Nat := 22

/-- `kaapi_thread_abstractexec_readylist`: its result, and what has
become of the descriptors and of the visitor's argument. -/
def abstractexecReadylist (fuel : Nat) (tasklist : Option (FrameTasklist ι))
    (executor : Option (ι → σ → σ)) (arg : σ) :
    Option (Nat × Option (Walk ι σ)) :=
  match tasklist, executor with
  | some tl, some f =>
    (redoOnce f fuel (populate tl arg)).map fun s => (0, some s)
  | _, _ => some (EINVAL, none)

/-- What the descriptors answer to signals in a row. -/
def answers : (ι → Taskdescr ι) → List ι → List (Option Bool)
  | _, [] => []
  | td, v :: vs =>
    let r := taskdescrActivated (td v).counter (td v).wc
    r.2 :: answers (update td v { td v with counter := r.1 }) vs

-- ======== the statement

/-- The entries of the bcast list of a descriptor. -/
def Taskdescr.bcasts (t : Taskdescr ι) : List (Option ι) := t.bcast.getD []

namespace FrameTasklist

variable (tl : FrameTasklist ι)

/-- The descriptors one leads to, each as often as it is pushed or
signalled. -/
def links (u : ι) : List ι := (tl.td u).acl ++ (tl.td u).bcasts.reduceOption

/-- The targets of all activation links. -/
def signalled : List ι := tl.tds.flatMap fun u => (tl.td u).acl

/-- The entries of all bcast lists. -/
def bcasted : List (Option ι) := tl.tds.flatMap fun u => (tl.td u).bcasts

/-- What is visited without a signal. -/
def entered : List (Option ι) := tl.readylist ++ tl.recvlist ++ tl.bcasted

/-- The list after some executions: a descriptor that is signalled has
been signalled `wc` times in each. -/
def afterRounds (k : Nat) : FrameTasklist ι :=
  { tl with
    td := fun v =>
      { tl.td v with
        counter :=
          if v ∈ tl.signalled then
            ((tl.td v).counter + k * (tl.td v).wc) % 2 ^ 32
          else (tl.td v).counter } }

/-- In `k` rounds and `n` more signals to it, no counter wraps, unless
it wraps with the rounds. -/
def NoWrap (k : Nat) (n : ι → Nat) : Prop :=
  ∀ v ∈ tl.signalled, (tl.td v).wc ∣ 2 ^ 32
    ∨ (tl.td v).counter + k * (tl.td v).wc + n v < 2 ^ 32

/-- A list between two executions that can be executed: no cycles, and
every descriptor is either signalled, `wc` times, or entered, once. -/
structure WellFormed : Prop where
  nodup : tl.tds.Nodup
  closed : ∀ u ∈ tl.tds, ∀ v ∈ tl.links u, v ∈ tl.tds
  listed : ∀ v, some v ∈ tl.readylist ++ tl.recvlist → v ∈ tl.tds
  acyclic : ∀ u ∈ tl.tds, ∀ n, ¬ Path tl.links u u (n + 1)
  wc_eq : ∀ v ∈ tl.signalled, (tl.td v).wc = tl.signalled.count v
  apart : ∀ v ∈ tl.signalled, some v ∉ tl.entered
  once : ∀ v ∈ tl.tds, v ∉ tl.signalled → tl.entered.count (some v) = 1
  range : ∀ v, (tl.td v).counter < 2 ^ 32
  rounds : ∀ v ∈ tl.tds, (tl.td v).wc ∣ (tl.td v).counter

/-- Every descriptor once, and after all its predecessors. -/
def Topological (order : List ι) : Prop :=
  order.Perm tl.tds
    ∧ ∀ l v r, order = l ++ v :: r → ∀ u ∈ tl.tds, v ∈ tl.links u → u ∈ l

/-- Whatever the visitor, the abstract execution ends, has applied it to
the descriptors in this order, and leaves the descriptors as in `tl'`. -/
def Executes (tl' : FrameTasklist ι) (order : List ι) : Prop :=
  ∀ (σ : Type) (f : ι → σ → σ) (arg : σ), ∃ fuel s,
    abstractexecReadylist fuel (some tl) (some f) arg = some (0, some s)
      ∧ s.td = tl'.td
      ∧ s.arg = order.foldl (fun a u => f u a) arg

end FrameTasklist

-- ======== the graph

section Graph

theorem count_reduceOption (l : List (Option ι)) (v : ι) :
    l.reduceOption.count v = l.count (some v) := by
  induction l with
  | nil => rfl
  | cons o l ih =>
    cases o with
    | none =>
      rw [List.reduceOption_cons_of_none, ih,
        List.count_cons_of_ne (Option.some_ne_none v).symm]
    | some u =>
      rw [List.reduceOption_cons_of_some, List.count_cons, List.count_cons, ih]
      congr 1

/-- The signals and broadcasts to a task. -/
theorem count_links (tds : List ι) (td : ι → Taskdescr ι) (v : ι) :
    (tds.flatMap fun u => (td u).acl ++ (td u).bcasts.reduceOption).count v
      = (tds.flatMap fun u => (td u).acl).count v
        + (tds.flatMap fun u => (td u).bcasts).count (some v) := by
  induction tds with
  | nil => rfl
  | cons u tds ih =>
    rw [List.flatMap_cons, List.flatMap_cons, List.flatMap_cons,
      List.count_append, List.count_append, List.count_append,
      List.count_append, count_reduceOption, ih]
    omega

namespace FrameTasklist

variable (tl : FrameTasklist ι)

/-- The list as a graph: a bcast link is a signal. -/
def graph : Graph ι where
  nodes := tl.tds
  succ := tl.links
  wait := fun v => (tl.tds.flatMap tl.links).count v

/-- What is visited whatever is signalled. -/
def pool : List ι := (tl.readylist ++ tl.recvlist).reduceOption

variable {tl}

/-- What a task waits for. -/
theorem wait_eq (v : ι) : tl.graph.wait v
    = tl.signalled.count v + tl.bcasted.count (some v) :=
  count_links tl.tds tl.td v

namespace WellFormed

variable (h : tl.WellFormed) {v : ι}
include h

/-- A signalled task waits for its counter. -/
theorem wait_signalled (hv : v ∈ tl.signalled) : tl.graph.wait v = (tl.td v).wc := by
  have hzero : tl.bcasted.count (some v) = 0 :=
    List.count_eq_zero.mpr fun hin =>
      h.apart v hv (List.mem_append_right _ hin)
  rw [wait_eq, hzero, h.wc_eq v hv, Nat.add_zero]

theorem wc_ne_zero (hv : v ∈ tl.signalled) : (tl.td v).wc ≠ 0 := by
  rw [h.wc_eq v hv]
  exact Nat.pos_iff_ne_zero.mp (List.count_pos_iff.mpr hv)

/-- A task that is entered is in the pool or broadcast, once. -/
theorem entered_once (hmem : v ∈ tl.tds) (hin : some v ∈ tl.entered) :
    tl.signalled.count v = 0
      ∧ tl.pool.count v + tl.bcasted.count (some v) = 1 := by
  have hnot : v ∉ tl.signalled := fun hs => h.apart v hs hin
  have hone := h.once v hmem hnot
  rw [entered, List.count_append] at hone
  refine ⟨List.count_eq_zero.mpr hnot, ?_⟩
  rw [pool, count_reduceOption, hone]

theorem mem_pool (hv : v ∈ tl.pool) : v ∈ tl.tds ∧ some v ∈ tl.entered := by
  have hin : some v ∈ tl.readylist ++ tl.recvlist :=
    List.reduceOption_mem_iff.mp hv
  exact ⟨h.listed v hin, List.mem_append_left _ hin⟩

/-- The graph and the pool are well formed. -/
theorem activation : Activation.WellFormed tl.graph tl.pool where
  balanced := ⟨h.nodup, fun _ => rfl, h.closed⟩
  ranked := exists_rank h.acyclic
  pool_nodup := by
    rw [List.nodup_iff_count_le_one]
    intro v
    by_cases hv : v ∈ tl.pool
    · obtain ⟨hmem, hin⟩ := h.mem_pool hv
      have hone := (h.entered_once hmem hin).2
      omega
    · rw [List.count_eq_zero.mpr hv]
      exact Nat.zero_le 1
  pool_nodes := fun v hv => (h.mem_pool hv).1
  pool_wait := by
    intro v hv
    obtain ⟨hmem, hin⟩ := h.mem_pool hv
    obtain ⟨hsig, hone⟩ := h.entered_once hmem hin
    have hpos := List.count_pos_iff.mpr hv
    rw [wait_eq]
    omega

/-- A task that waits for nothing is in the pool. -/
theorem pool_complete (hmem : v ∈ tl.graph.nodes) (hwait : tl.graph.wait v = 0) :
    v ∈ tl.pool := by
  rw [wait_eq] at hwait
  have hnot : v ∉ tl.signalled := by
    rw [← List.count_eq_zero]
    omega
  have hone := h.once v hmem hnot
  rw [entered, List.count_append, ← count_reduceOption] at hone
  refine List.count_pos_iff.mp ?_
  show 0 < (tl.readylist ++ tl.recvlist).reduceOption.count v
  omega

/-- A broadcast task waits for its broadcast only. -/
theorem wait_bcast {u : ι} (hu : u ∈ tl.tds) (hv : some v ∈ (tl.td u).bcasts) :
    v ∉ tl.signalled ∧ tl.graph.wait v = 1
      ∧ (tl.td u).bcasts.count (some v) = 1 := by
  have hin : some v ∈ tl.bcasted := List.mem_flatMap.mpr ⟨u, hu, hv⟩
  have hmem : v ∈ tl.tds := by
    refine h.closed u hu v (List.mem_append_right _ ?_)
    exact List.reduceOption_mem_iff.mpr hv
  obtain ⟨hsig, hone⟩ := h.entered_once hmem (List.mem_append_right _ hin)
  have hpos := List.count_pos_iff.mpr hin
  have hle : (tl.td u).bcasts.count (some v) ≤ tl.bcasted.count (some v) := by
    rw [bcasted, List.flatMap_def]
    refine (List.sublist_flatten_of_mem ?_).count_le (some v)
    exact List.mem_map.mpr ⟨u, hu, rfl⟩
  have hpos' := List.count_pos_iff.mpr hv
  refine ⟨List.count_eq_zero.mp hsig, ?_, ?_⟩
  · rw [wait_eq]
    omega
  · omega

end WellFormed

end FrameTasklist

end Graph

-- ======== one descriptor

section Visit

theorem signals_once {wait : ι → Nat} {vs : List ι} (hnodup : vs.Nodup)
    {a : State ι} (hwait : ∀ v ∈ vs, wait v = 1)
    (hzero : ∀ v ∈ vs, a.counter v = 0) :
    ∃ a', signals wait vs a = some a' ∧ a'.ready = vs.reverse ++ a.ready
      ∧ ∀ v, v ∉ vs → a'.counter v = a.counter v := by
  induction vs generalizing a with
  | nil => exact ⟨a, rfl, rfl, fun _ _ => rfl⟩
  | cons v vs ih =>
    obtain ⟨hv, hnodup⟩ := List.nodup_cons.mp hnodup
    have hone := hwait v List.mem_cons_self
    have hc := hzero v List.mem_cons_self
    let a₁ : State ι :=
      { a with
        counter := update a.counter v 1
        ready := v :: a.ready }
    have hsig : signal wait v a = some a₁ := by
      rw [signal, hone, if_neg Nat.one_ne_zero, hc]
      rfl
    have hother : ∀ w, w ≠ v → a₁.counter w = a.counter w := fun w hw =>
      update_of_ne hw 1 a.counter
    obtain ⟨a', hrun, hready, hkeep⟩ := ih hnodup (a := a₁)
      (fun w hw => hwait w (List.mem_cons_of_mem v hw))
      (fun w hw => by
        have hne : w ≠ v := fun heq => hv (heq ▸ hw)
        rw [hother w hne]
        exact hzero w (List.mem_cons_of_mem v hw))
    refine ⟨a', ?_, ?_, ?_⟩
    · rw [signals, hsig]
      exact hrun
    · rw [hready, List.reverse_cons, List.append_assoc]
      rfl
    · intro w hw
      rw [List.mem_cons, not_or] at hw
      rw [hkeep w hw.2, hother w hw.1]

/-- A walk on a list whose counters were `base` at its start, when the
nodes of the graph have received the signals of `a`. -/
structure Matches (tl : FrameTasklist ι) (base : ι → Nat) (a : State ι)
    (s : Walk ι σ) : Prop where
  wc : ∀ v, (s.td v).wc = (tl.td v).wc
  acl : ∀ v, (s.td v).acl = (tl.td v).acl
  bcast : ∀ v, (s.td v).bcast = (tl.td v).bcast
  counter : ∀ v, (s.td v).counter =
    if v ∈ tl.signalled then (base v + a.counter v) % 2 ^ 32 else base v

/-- Counters at the start of a round that does not wrap. -/
structure Starts (tl : FrameTasklist ι) (base : ι → Nat) : Prop where
  range : ∀ v, base v < 2 ^ 32
  rounds : ∀ v ∈ tl.signalled, (tl.td v).wc ∣ base v
  noWrap : ∀ v ∈ tl.signalled, (tl.td v).wc ∣ 2 ^ 32
    ∨ base v + (tl.td v).wc < 2 ^ 32

variable {tl : FrameTasklist ι} {base : ι → Nat} {a a' : State ι}
  {s : Walk ι σ}

/-- One signal. -/
theorem pushIfActivated_spec (h : tl.WellFormed) (hb : Starts tl base)
    (hs : Matches tl base a s) {v : ι} (hv : v ∈ tl.signalled)
    (hle : a.counter v + 1 ≤ (tl.td v).wc)
    (hsig : signal tl.graph.wait v a = some a') :
    ∃ s' new, s.pushIfActivated v = some s'
      ∧ a'.ready = new ++ a.ready
      ∧ s'.readylist = s.readylist ++ new.reverse.map some
      ∧ s'.recv = s.recv ∧ s'.arg = s.arg ∧ Matches tl base a' s' := by
  have hwait := h.wait_signalled hv
  have hwc := h.wc_ne_zero hv
  have hcounter := hs.counter v
  rw [if_pos hv] at hcounter
  have hanswer : (taskdescrActivated (s.td v).counter (s.td v).wc).2
      = some (decide ((a.counter v + 1) % (tl.td v).wc = 0)) := by
    have hiff : (tl.td v).wc ∣ base v + a.counter v + 1
        ↔ (a.counter v + 1) % (tl.td v).wc = 0 := by
      rw [Nat.add_assoc, Nat.dvd_add_right (hb.rounds v hv),
        Nat.dvd_iff_mod_eq_zero]
    rw [hs.wc v, answer_eq hwc hcounter, decide_eq_decide.mpr hiff]
    refine (hb.noWrap v hv).imp_right fun hlt => ?_
    have heq : (s.td v).counter = base v + a.counter v := by
      rw [hcounter]
      exact Nat.mod_eq_of_lt (by omega)
    exact ⟨heq, by omega⟩
  rw [signal, hwait, if_neg hwc] at hsig
  cases hsig
  let activated := decide ((a.counter v + 1) % (tl.td v).wc = 0)
  let t : Taskdescr ι :=
    { s.td v with
      counter := (taskdescrActivated (s.td v).counter (s.td v).wc).1 }
  refine ⟨{ s with
      td := update s.td v t
      readylist :=
        if activated then s.readylist ++ [some v] else s.readylist },
    if activated then [v] else [], ?_, ?_, ?_, rfl, rfl, ?_⟩
  · unfold Walk.pushIfActivated
    simp only [hanswer]
    rfl
  · by_cases hz : (a.counter v + 1) % (tl.td v).wc = 0
    · simp [activated, hz]
    · simp [activated, hz]
  · by_cases hz : (a.counter v + 1) % (tl.td v).wc = 0
    · simp [activated, hz]
    · simp [activated, hz]
  · -- only the counter of `v` moves, in both
    have htd : ∀ w, w ≠ v → update s.td v t w = s.td w :=
      fun w hw => update_of_ne hw t s.td
    have hself : update s.td v t v = t :=
      update_self v t s.td
    refine ⟨fun w => ?_, fun w => ?_, fun w => ?_, fun w => ?_⟩
    · by_cases hw : w = v
      · subst hw
        exact (congrArg Taskdescr.wc hself).trans (hs.wc w)
      · exact (congrArg Taskdescr.wc (htd w hw)).trans (hs.wc w)
    · by_cases hw : w = v
      · subst hw
        exact (congrArg Taskdescr.acl hself).trans (hs.acl w)
      · exact (congrArg Taskdescr.acl (htd w hw)).trans (hs.acl w)
    · by_cases hw : w = v
      · subst hw
        exact (congrArg Taskdescr.bcast hself).trans (hs.bcast w)
      · exact (congrArg Taskdescr.bcast (htd w hw)).trans (hs.bcast w)
    · by_cases hw : w = v
      · subst hw
        show (update s.td w t w).counter = _
        rw [hself, if_pos hv]
        show ((s.td w).counter + 1) % 2 ^ 32
          = (base w + update a.counter w (a.counter w + 1) w) % 2 ^ 32
        rw [hcounter, Nat.mod_add_mod, update_self, Nat.add_assoc]
      · show (update s.td v t w).counter = _
        rw [htd w hw, hs.counter w]
        show _ = if w ∈ tl.signalled then
          (base w + update a.counter v _ w) % 2 ^ 32 else base w
        rw [update_of_ne hw]

/-- The signals of one task. -/
theorem pushActivated_spec (h : tl.WellFormed) (hb : Starts tl base)
    {vs : List ι} (hvs : ∀ v ∈ vs, v ∈ tl.signalled)
    (hle : ∀ v ∈ vs, a.counter v + vs.count v ≤ (tl.td v).wc)
    (hs : Matches tl base a s)
    (hsig : signals tl.graph.wait vs a = some a') :
    ∃ s' new, Walk.pushActivated vs s = some s'
      ∧ a'.ready = new ++ a.ready
      ∧ s'.readylist = s.readylist ++ new.reverse.map some
      ∧ s'.recv = s.recv ∧ s'.arg = s.arg ∧ Matches tl base a' s' := by
  induction vs generalizing a s with
  | nil =>
    cases hsig
    refine ⟨s, [], rfl, rfl, ?_, rfl, rfl, hs⟩
    exact (List.append_nil _).symm
  | cons v vs ih =>
    obtain ⟨a₁, h₁, h₂⟩ := Option.bind_eq_some_iff.mp hsig
    have hv := hle v List.mem_cons_self
    rw [List.count_cons_self] at hv
    obtain ⟨s₁, new₁, hpush, hready₁, hlist₁, hrecv₁, harg₁, hs₁⟩ :=
      pushIfActivated_spec h hb hs (hvs v List.mem_cons_self) (by omega) h₁
    have hcount : ∀ w, a₁.counter w + vs.count w
        = a.counter w + (v :: vs).count w := by
      intro w
      unfold signal at h₁
      split at h₁
      · cases h₁
      · cases h₁
        by_cases hw : w = v
        · subst hw
          simp only [update_self, List.count_cons_self]
          omega
        · simp only [update_of_ne hw,
            List.count_cons_of_ne (Ne.symm hw)]
    obtain ⟨s', new, hrest, hready, hlist, hrecv, harg, hs'⟩ := ih
      (fun w hw => hvs w (List.mem_cons_of_mem v hw))
      (fun w hw => by
        rw [hcount]
        exact hle w (List.mem_cons_of_mem v hw)) hs₁ h₂
    refine ⟨s', new ++ new₁, ?_, ?_, ?_, ?_, ?_, hs'⟩
    · rw [Walk.pushActivated, hpush]
      exact hrest
    · rw [hready, hready₁, List.append_assoc]
    · rw [hlist, hlist₁, List.reverse_append, List.map_append,
        List.append_assoc]
    · rw [hrecv, hrecv₁]
    · rw [harg, harg₁]

omit [DecidableEq ι] in
theorem pushBcast_eq (s : Walk ι σ) (t : Taskdescr ι) :
    s.pushBcast t.bcast
      = { s with readylist := s.readylist ++ t.bcasts } := by
  unfold Walk.pushBcast Taskdescr.bcasts
  cases t.bcast with
  | none =>
    show s = { s with readylist := s.readylist ++ [] }
    rw [List.append_nil]
  | some links => rfl

/-- One descriptor: what it pushes is for the graph to say, the same in
every round and for every visitor. -/
theorem executor_spec (h : tl.WellFormed) (hinv : Inv tl.graph tl.pool a)
    {u : ι} (hu : u ∈ a.ready) (hstep : step tl.graph u a = some a') :
    ∃ pushed : List (Option ι),
      a'.ready.Perm (a.ready.erase u ++ pushed.reduceOption)
      ∧ ∀ {σ : Type} (f : ι → σ → σ) {base : ι → Nat} {s : Walk ι σ},
        Starts tl base → Matches tl base a s →
        ∃ s', Walk.executor f u s = some s'
          ∧ s'.readylist = s.readylist ++ pushed ∧ s'.recv = s.recv
          ∧ s'.arg = f u s.arg ∧ Matches tl base a' s' := by
  have hG := h.activation
  have hmem : u ∈ tl.tds := mem_nodes hG hinv (List.mem_append_right _ hu)
  have hle := counter_le hG hinv hu
  have hlinks : ∀ v, (tl.graph.succ u).count v = (tl.td u).acl.count v
      + (tl.td u).bcasts.reduceOption.count v := fun v => List.count_append
  have hsignalled : ∀ v ∈ (tl.td u).acl, v ∈ tl.signalled := fun v hv =>
    List.mem_flatMap.mpr ⟨u, hmem, hv⟩
  have hacl : ∀ v ∈ (tl.td u).acl,
      (a.take u).counter v + (tl.td u).acl.count v ≤ tl.graph.wait v := by
    intro v _
    have hv := hle v
    rw [hlinks] at hv
    show a.counter v + _ ≤ _
    omega
  rw [step, if_pos hu] at hstep
  change signals _ ((tl.td u).acl ++ _) _ = _ at hstep
  rw [signals_append] at hstep
  obtain ⟨a₁, h₁, h₂⟩ := Option.bind_eq_some_iff.mp hstep
  obtain ⟨a₁', new, h₁', -, hready₁, -, hcount₁, -⟩ := signals_spec hacl
  rw [h₁] at h₁'
  cases h₁'
  -- what a bcast list leads to has no signal but this one
  have hbcast : ∀ v ∈ (tl.td u).bcasts.reduceOption,
      v ∉ tl.signalled ∧ tl.graph.wait v = 1 ∧ a₁.counter v = 0
        ∧ (tl.td u).bcasts.reduceOption.count v = 1 := by
    intro v hv
    obtain ⟨hnot, hwait, hone⟩ :=
      h.wait_bcast hmem (List.reduceOption_mem_iff.mp hv)
    rw [← count_reduceOption] at hone
    have hcount : a₁.counter v = a.counter v + (tl.td u).acl.count v :=
      hcount₁ v
    have hv := hle v
    rw [hlinks] at hv
    exact ⟨hnot, hwait, by omega, hone⟩
  have hnodup : (tl.td u).bcasts.reduceOption.Nodup := by
    rw [List.nodup_iff_count_le_one]
    intro v
    by_cases hv : v ∈ (tl.td u).bcasts.reduceOption
    · exact Nat.le_of_eq (hbcast v hv).2.2.2
    · rw [List.count_eq_zero.mpr hv]
      exact Nat.zero_le 1
  obtain ⟨a₂, h₂', hready₂, hkeep⟩ := signals_once hnodup
    (fun v hv => (hbcast v hv).2.1) (fun v hv => (hbcast v hv).2.2.1)
  rw [h₂] at h₂'
  cases h₂'
  refine ⟨new.reverse.map some ++ (tl.td u).bcasts, ?_, ?_⟩
  · have hmap : (new.reverse.map some).reduceOption = new.reverse := by
      rw [List.reduceOption, List.filterMap_map]
      exact List.filterMap_some
    rw [hready₂, hready₁, List.reduceOption_append, hmap]
    show (_ ++ (new ++ a.ready.erase u)).Perm _
    calc (tl.td u).bcasts.reduceOption.reverse ++ (new ++ a.ready.erase u)
        |>.Perm ((tl.td u).bcasts.reduceOption
          ++ (new.reverse ++ a.ready.erase u)) :=
          (List.reverse_perm _).append
            ((List.reverse_perm new).symm.append_right _)
      _ |>.Perm ((new.reverse ++ a.ready.erase u)
          ++ (tl.td u).bcasts.reduceOption) := List.perm_append_comm
      _ |>.Perm ((a.ready.erase u ++ new.reverse)
          ++ (tl.td u).bcasts.reduceOption) :=
          List.perm_append_comm.append_right _
      _ |>.Perm (a.ready.erase u
          ++ (new.reverse ++ (tl.td u).bcasts.reduceOption)) := by
          rw [List.append_assoc]
  · intro σ f base s hb hs
    have hs₀ : Matches tl base (a.take u) { s with arg := f u s.arg } :=
      ⟨hs.wc, hs.acl, hs.bcast, hs.counter⟩
    obtain ⟨s₁, new', hpush, hnew, hlist, hrecv, harg, hs₁⟩ :=
      pushActivated_spec h hb hsignalled
        (fun v hv => by
          rw [← h.wait_signalled (hsignalled v hv)]
          exact hacl v hv) hs₀ h₁
    have heq : new' = new :=
      List.append_cancel_right (hnew.symm.trans hready₁)
    subst heq
    refine ⟨{ s₁ with readylist := s₁.readylist ++ (tl.td u).bcasts },
      ?_, ?_, hrecv, harg, hs₁.wc, hs₁.acl, hs₁.bcast, ?_⟩
    · unfold Walk.executor
      rw [hs.acl u, hpush]
      show some (s₁.pushBcast (s₁.td u).bcast) = _
      rw [hs₁.bcast u, pushBcast_eq]
    · show s₁.readylist ++ _ = _
      rw [hlist, List.append_assoc]
    · intro v
      show (s₁.td v).counter = _
      rw [hs₁.counter v]
      by_cases hv : v ∈ tl.signalled
      · rw [if_pos hv, if_pos hv, hkeep v fun hin => (hbcast v hin).1 hv]
      · rw [if_neg hv, if_neg hv]

end Visit

-- ======== the whole walk

section Rounds

variable {tl : FrameTasklist ι} {v : ι} {k : Nat} {n : ι → Nat}

/-- From any point on: the order of what is left is for the graph to
say. By induction on the descriptors that are not executed and, inside,
on the entries that lead to no execution. -/
theorem redoOnce_spec (h : tl.WellFormed) (n m : Nat) :
    ∀ {q r : List (Option ι)} {a : State ι}, Inv tl.graph tl.pool a →
      a.ready.Perm (q.reduceOption ++ r.reduceOption) →
      tl.tds.length - a.done.length = n → q.length + 2 * r.length = m →
      ∃ order a', run (step tl.graph) order a = some a' ∧ a'.ready = []
        ∧ ∀ {σ : Type} (f : ι → σ → σ) {base : ι → Nat} {s : Walk ι σ},
          Starts tl base → Matches tl base a s → s.readylist = q →
          s.recv = r →
          ∃ fuel s', redoOnce f fuel s = some s'
            ∧ s'.arg = order.foldl (fun x u => f u x) s.arg
            ∧ Matches tl base a' s' := by
  have hG := h.activation
  induction n using Nat.strongRecOn generalizing m with
  | ind n ihn =>
    induction m using Nat.strongRecOn with
    | ind m ihm =>
      intro q r a hinv hperm hn hm
      match q, r with
      | some u :: rest, r =>
        have hu : u ∈ a.ready := by
          refine hperm.mem_iff.mpr (List.mem_append_left _ ?_)
          exact List.reduceOption_mem_iff.mpr List.mem_cons_self
        obtain ⟨a₁, hstep, hinv₁, hdone⟩ := step_spec hG hinv hu
        obtain ⟨pushed, hpushed, hexec⟩ := executor_spec h hinv hu hstep
        -- one node fewer is left
        have hlt : tl.tds.length - a₁.done.length < n := by
          obtain ⟨hnodup, -, -⟩ := List.nodup_append.mp hinv₁.nodup
          have hle : a₁.done.length ≤ tl.tds.length :=
            (List.subperm_of_subset hnodup fun v hv => mem_nodes hG hinv₁
              (List.mem_append_left _ hv)).length_le
          rw [hdone, List.length_append, List.length_singleton] at hle ⊢
          omega
        have hperm₁ : a₁.ready.Perm
            ((rest ++ pushed).reduceOption ++ r.reduceOption) := by
          have herase : (a.ready.erase u).Perm
              (rest.reduceOption ++ r.reduceOption) := by
            have hcons := hperm.erase u
            rwa [List.reduceOption_cons_of_some, List.cons_append,
              List.erase_cons_head] at hcons
          rw [List.reduceOption_append]
          calc a₁.ready
              |>.Perm (a.ready.erase u ++ pushed.reduceOption) := hpushed
            _ |>.Perm ((rest.reduceOption ++ r.reduceOption)
                ++ pushed.reduceOption) := herase.append_right _
            _ |>.Perm (rest.reduceOption
                ++ (pushed.reduceOption ++ r.reduceOption)) := by
                rw [List.append_assoc]
                exact List.perm_append_comm.append_left _
            _ |>.Perm ((rest.reduceOption ++ pushed.reduceOption)
                ++ r.reduceOption) := by rw [List.append_assoc]
        obtain ⟨order, a', hrun, hempty, hall⟩ :=
          ihn _ hlt _ hinv₁ hperm₁ rfl rfl
        refine ⟨u :: order, a', run_cons_eq_some.mpr ⟨a₁, hstep, hrun⟩,
          hempty, ?_⟩
        intro σ f base s hb hs hq hr
        have hpop : Matches tl base a { s with readylist := rest } :=
          ⟨hs.wc, hs.acl, hs.bcast, hs.counter⟩
        obtain ⟨s₁, hs₁, hlist, hrecv, harg, hmatch⟩ := hexec f hb hpop
        obtain ⟨fuel, s', hloop, hfold, hmatch'⟩ :=
          hall f hb hmatch hlist (hrecv.trans hr)
        refine ⟨fuel + 1, s', ?_, ?_, hmatch'⟩
        · rw [redoOnce, hq]
          show (Walk.executor f u _).bind _ = _
          rw [hs₁]
          exact hloop
        · rw [hfold, harg]
          rfl
      | none :: rest, r =>
        obtain ⟨order, a', hrun, hempty, hall⟩ :=
          ihm (rest.length + 2 * r.length)
            (by rw [← hm, List.length_cons]; omega)
            (q := rest) hinv hperm hn rfl
        refine ⟨order, a', hrun, hempty, ?_⟩
        intro σ f base s hb hs hq hr
        obtain ⟨fuel, s', hloop, hfold, hmatch'⟩ := hall f
          (s := { s with readylist := rest }) hb
          ⟨hs.wc, hs.acl, hs.bcast, hs.counter⟩ rfl hr
        refine ⟨fuel + 1, s', ?_, hfold, hmatch'⟩
        rw [redoOnce, hq]
        exact hloop
      | [], td :: recv =>
        obtain ⟨order, a', hrun, hempty, hall⟩ := ihm (1 + 2 * recv.length)
          (by rw [← hm, List.length_nil, List.length_cons]; omega)
          (q := [td]) (r := recv) hinv
          (by
            rw [← List.reduceOption_append]
            exact hperm) hn rfl
        refine ⟨order, a', hrun, hempty, ?_⟩
        intro σ f base s hb hs hq hr
        obtain ⟨fuel, s', hloop, hfold, hmatch'⟩ := hall f
          (s := { s with readylist := [td], recv := recv }) hb
          ⟨hs.wc, hs.acl, hs.bcast, hs.counter⟩ rfl rfl
        refine ⟨fuel + 1, s', ?_, hfold, hmatch'⟩
        rw [redoOnce, hq]
        dsimp only
        rw [hr]
        exact hloop
      | [], [] =>
        refine ⟨[], a, rfl, List.perm_nil.mp hperm, ?_⟩
        intro σ f base s hb hs hq hr
        refine ⟨1, s, ?_, rfl, hs⟩
        rw [redoOnce, hq]
        dsimp only
        rw [hr]

open FrameTasklist

/-- The counters at the start of round `k`. -/
def FrameTasklist.startOf (tl : FrameTasklist ι) (k : Nat) (v : ι) : Nat :=
  ((tl.afterRounds k).td v).counter

/-- The counter of a signalled task after some rounds. -/
theorem startOf_signalled (hv : v ∈ tl.signalled) (k : Nat) :
    tl.startOf k v
      = ((tl.td v).counter + k * (tl.td v).wc) % 2 ^ 32 := by
  unfold startOf afterRounds
  dsimp only
  rw [if_pos hv]

/-- The other counters stay. -/
theorem startOf_other (hv : v ∉ tl.signalled) (k : Nat) :
    tl.startOf k v = (tl.td v).counter := by
  unfold startOf afterRounds
  dsimp only
  rw [if_neg hv]

theorem FrameTasklist.WellFormed.afterRounds_zero (h : tl.WellFormed) :
    tl.afterRounds 0 = tl := by
  have htd : (tl.afterRounds 0).td = tl.td := by
    funext v
    have hc : tl.startOf 0 v = (tl.td v).counter := by
      by_cases hv : v ∈ tl.signalled
      · rw [startOf_signalled hv, Nat.zero_mul, Nat.add_zero,
          Nat.mod_eq_of_lt (h.range v)]
      · exact startOf_other hv 0
    show { tl.td v with counter := tl.startOf 0 v } = tl.td v
    rw [hc]
  show { tl with td := (tl.afterRounds 0).td } = tl
  rw [htd]

/-- Each round begins at a multiple of the counter. -/
theorem FrameTasklist.WellFormed.startOf_rounds (h : tl.WellFormed) (hw : tl.NoWrap k n)
    (hv : v ∈ tl.tds) : (tl.td v).wc ∣ tl.startOf k v := by
  have hbase := h.rounds v hv
  by_cases hs : v ∈ tl.signalled
  · have hsum : (tl.td v).wc ∣ (tl.td v).counter + k * (tl.td v).wc :=
      (Nat.dvd_add_right hbase).mpr (Nat.dvd_mul_left _ k)
    rw [startOf_signalled hs]
    rcases hw v hs with hdvd | hlt
    · exact (Nat.dvd_mod_iff hdvd).mpr hsum
    · rw [Nat.mod_eq_of_lt (by omega)]
      exact hsum
  · rw [startOf_other hs]
    exact hbase

theorem FrameTasklist.WellFormed.signalled_mem (h : tl.WellFormed) (hv : v ∈ tl.signalled) :
    v ∈ tl.tds := by
  obtain ⟨u, hu, hvu⟩ := List.mem_flatMap.mp hv
  exact h.closed u hu v (List.mem_append_left _ hvu)

omit [DecidableEq ι] in
/-- A round more is a round less and the signals of one. -/
theorem noWrap_succ (hw : tl.NoWrap (k + 1) n) :
    tl.NoWrap k fun v => (tl.td v).wc + n v := by
  intro v hv
  refine (hw v hv).imp_right fun hlt => ?_
  rw [Nat.add_mul, Nat.one_mul] at hlt
  show _ + ((tl.td v).wc + n v) < _
  omega

/-- So it begins as the first one. -/
theorem FrameTasklist.WellFormed.starts (h : tl.WellFormed) (hw : tl.NoWrap (k + 1) n) :
    Starts tl (tl.startOf k) where
  range := by
    intro v
    by_cases hv : v ∈ tl.signalled
    · rw [startOf_signalled hv]
      exact Nat.mod_lt _ (Nat.two_pow_pos 32)
    · rw [startOf_other hv]
      exact h.range v
  rounds := fun v hv => h.startOf_rounds (noWrap_succ hw) (h.signalled_mem hv)
  noWrap := by
    intro v hv
    refine (noWrap_succ hw v hv).imp_right fun hlt => ?_
    have hlt : _ + ((tl.td v).wc + n v) < 2 ^ 32 := hlt
    have hle := Nat.mod_le ((tl.td v).counter + k * (tl.td v).wc) (2 ^ 32)
    rw [startOf_signalled hv]
    omega

/-- The order of every execution. -/
theorem FrameTasklist.WellFormed.exists_order (h : tl.WellFormed) :
    ∃ order, tl.Topological order ∧ ∀ (k : Nat) (n : ι → Nat),
      tl.NoWrap (k + 1) n →
        (tl.afterRounds k).Executes (tl.afterRounds (k + 1)) order := by
  have hG := h.activation
  have hperm : (start tl.pool).ready.Perm
      (tl.readylist.reduceOption ++ tl.recvlist.reduceOption) := by
    rw [← List.reduceOption_append]
    exact List.Perm.refl _
  obtain ⟨order, a', hrun, hempty, hall⟩ :=
    redoOnce_spec h _ _ (inv_start hG) hperm rfl rfl
  have hinv := inv_run hG hrun
  have hdone : a'.done = order := run_done hrun
  have hcomplete : order.Perm tl.tds := by
    have hc := run_complete hG hinv hempty fun v hv hw =>
      h.pool_complete hv hw
    rwa [hdone] at hc
  -- everything has been executed, so everything has been signalled
  have hfinal : ∀ v ∈ tl.signalled, a'.counter v = (tl.td v).wc := by
    intro v hv
    rw [hinv.counter, hdone, ← h.wait_signalled hv]
    exact (hcomplete.flatMap_right tl.links).count_eq v
  refine ⟨order, ⟨hcomplete, ?_⟩, ?_⟩
  · intro l v r heq u hu hvu
    rw [heq] at hrun
    exact pred_mem hG hrun hu hvu
  · intro k n hw σ f arg
    have hmatch : Matches tl (tl.startOf k) (start tl.pool)
        (populate (tl.afterRounds k) arg) := by
      refine ⟨fun _ => rfl, fun _ => rfl, fun _ => rfl, fun v => ?_⟩
      show tl.startOf k v = _
      split
      next hv => exact (Nat.mod_eq_of_lt ((h.starts hw).range v)).symm
      next => rfl
    obtain ⟨fuel, s', hloop, harg, hs'⟩ := hall f (h.starts hw) hmatch rfl rfl
    refine ⟨fuel, s', ?_, ?_, harg⟩
    · show (redoOnce f fuel _).map _ = _
      rw [hloop]
      rfl
    · funext v
      have hcounter : (s'.td v).counter = tl.startOf (k + 1) v := by
        rw [hs'.counter v]
        by_cases hv : v ∈ tl.signalled
        · rw [if_pos hv, hfinal v hv, startOf_signalled hv,
            startOf_signalled hv, Nat.mod_add_mod, Nat.add_mul, Nat.one_mul,
            Nat.add_assoc]
        · rw [if_neg hv, startOf_other hv, startOf_other hv]
      have heta : s'.td v = ⟨(s'.td v).counter, (s'.td v).wc,
          (s'.td v).bcast, (s'.td v).acl⟩ := rfl
      rw [heta, hcounter, hs'.wc v, hs'.bcast v, hs'.acl v]
      rfl

-- ======== what an execution sees

/-- Counters that differ by whole rounds, and do not wrap in `n` more
signals. -/
def Congruent (wc n c c' : Nat) : Prop :=
  c = c' ∨ ∃ r d, wc ∣ d ∧ c' = r % 2 ^ 32 ∧ c = (r + d) % 2 ^ 32
    ∧ (wc ∣ 2 ^ 32 ∨ r + d + n < 2 ^ 32)

theorem Congruent.answer {wc n c c' : Nat} (h : Congruent wc (n + 1) c c') :
    (taskdescrActivated c wc).2 = (taskdescrActivated c' wc).2
      ∧ Congruent wc n (taskdescrActivated c wc).1
        (taskdescrActivated c' wc).1 := by
  rcases h with rfl | ⟨r, d, hd, hc', hc, hwrap⟩
  · exact ⟨rfl, .inl rfl⟩
  · constructor
    · by_cases hwc : wc = 0
      · unfold taskdescrActivated
        dsimp only
        rw [if_pos hwc, if_pos hwc]
      · rw [answer_eq hwc hc, answer_eq hwc hc']
        · congr 2
          rw [Nat.add_right_comm, Nat.dvd_add_left hd]
        · refine hwrap.imp_right fun hlt => ?_
          have heq : c' = r := by
            rw [hc']
            exact Nat.mod_eq_of_lt (by omega)
          exact ⟨heq, by omega⟩
        · refine hwrap.imp_right fun hlt => ?_
          have heq : c = r + d := by
            rw [hc]
            exact Nat.mod_eq_of_lt (by omega)
          exact ⟨heq, by omega⟩
    · refine .inr ⟨r + 1, d, hd, ?_, ?_, ?_⟩
      · show (c' + 1) % 2 ^ 32 = _
        rw [hc', Nat.mod_add_mod]
      · show (c + 1) % 2 ^ 32 = _
        rw [hc, Nat.mod_add_mod, Nat.add_right_comm]
      · exact hwrap.imp_right fun hlt => by omega

/-- Counters that are congruent answer alike. -/
theorem answers_congr {td td' : ι → Taskdescr ι} {sigs : List ι}
    (hwc : ∀ v, (td v).wc = (td' v).wc)
    (h : ∀ v, Congruent (td v).wc (sigs.count v) (td v).counter
      (td' v).counter) : answers td sigs = answers td' sigs := by
  induction sigs generalizing td td' with
  | nil => rfl
  | cons v vs ih =>
    have hv := h v
    rw [List.count_cons_self] at hv
    obtain ⟨hanswer, hnext⟩ := hv.answer
    rw [answers, answers, ← hwc v]
    dsimp only
    rw [hanswer]
    congr 1
    refine ih (fun w => ?_) fun w => ?_
    · by_cases hw : w = v
      · subst hw
        rw [update_self, update_self]
        exact hwc w
      · rw [update_of_ne hw, update_of_ne hw]
        exact hwc w
    · by_cases hw : w = v
      · subst hw
        rw [update_self, update_self]
        exact hnext
      · have hother := h w
        rw [List.count_cons_of_ne (Ne.symm hw)] at hother
        rw [update_of_ne hw, update_of_ne hw]
        exact hother

/-- For every list whose descriptors are either signalled as often as
they wait or entered once, and as long as no counter wraps inside a
round: some order that lists every descriptor once and after all its
predecessors is the order of the first execution, and of each one after
it; each leaves all counters at whole rounds; and to whatever signals
follow, the descriptors answer as they would have before. -/
theorem abstractexec_spec (tl : FrameTasklist ι) (h : tl.WellFormed) :
    tl.afterRounds 0 = tl
      ∧ ∃ order, tl.Topological order ∧ ∀ k : Nat,
        tl.NoWrap (k + 1) (fun _ => 0) →
          (tl.afterRounds k).Executes (tl.afterRounds (k + 1)) order
          ∧ (∀ v ∈ tl.tds, (tl.td v).wc
            ∣ ((tl.afterRounds (k + 1)).td v).counter)
          ∧ ∀ sigs : List ι, tl.NoWrap (k + 1) (fun v => sigs.count v) →
            answers (tl.afterRounds (k + 1)).td sigs
              = answers tl.td sigs := by
  obtain ⟨order, htop, hexec⟩ := h.exists_order
  refine ⟨h.afterRounds_zero, order, htop, fun k hw => ?_⟩
  refine ⟨hexec k _ hw, fun v hv => h.startOf_rounds hw hv, ?_⟩
  intro sigs hsigs
  refine answers_congr (fun _ => rfl) fun v => ?_
  show Congruent (tl.td v).wc _ (tl.startOf (k + 1) v) _
  by_cases hv : v ∈ tl.signalled
  · refine .inr ⟨(tl.td v).counter, (k + 1) * (tl.td v).wc,
      Nat.dvd_mul_left _ _, ?_, startOf_signalled hv _, hsigs v hv⟩
    exact (Nat.mod_eq_of_lt (h.range v)).symm
  · exact .inl (startOf_other hv _)

end Rounds

/-- A diamond that also enters a descriptor by a bcast list, and a
descriptor that waits for a reception. -/
def diamond : FrameTasklist Nat where
  tds := [0, 1, 2, 3, 4, 5]
  td
    | 0 => ⟨0, 0, some [none, some 4], [1, 2]⟩
    | 1 => ⟨0, 1, none, [3]⟩
    | 2 => ⟨0, 1, none, [3]⟩
    | 3 => ⟨0, 2, none, []⟩
    | 5 => ⟨0, 1, none, []⟩
    | _ => ⟨0, 0, none, []⟩
  readylist := [none, some 0]
  recvlist := [some 5]

theorem diamond_wellFormed : diamond.WellFormed where
  nodup := by decide
  closed := by decide
  listed := by
    intro v hv
    simp [diamond] at hv
    rcases hv with rfl | rfl <;> decide
  acyclic := by
    intro u _ n
    refine acyclic_of_rank id (fun u v hv => ?_) u n
    match u with
    | 0 => exact (by decide : ∀ v ∈ diamond.links 0, 0 < v) v hv
    | 1 => exact (by decide : ∀ v ∈ diamond.links 1, 1 < v) v hv
    | 2 => exact (by decide : ∀ v ∈ diamond.links 2, 2 < v) v hv
    | 3 => cases hv
    | 4 => cases hv
    | 5 => cases hv
    | _ + 6 => cases hv
  wc_eq := by decide
  apart := by decide
  once := by decide
  range := by
    intro v
    have hzero : (diamond.td v).counter = 0 := by
      unfold diamond
      dsimp only
      split <;> rfl
    rw [hzero]
    exact Nat.two_pow_pos 32
  rounds := by decide

theorem abstractexec_spec_diamond : ∃ order, diamond.Topological order
    ∧ diamond.Executes (diamond.afterRounds 1) order
    ∧ (diamond.afterRounds 1).Executes (diamond.afterRounds 2) order := by
  obtain ⟨hzero, order, htop, hexec⟩ :=
    abstractexec_spec diamond diamond_wellFormed
  have h₀ := (hexec 0 (by unfold FrameTasklist.NoWrap; decide)).1
  have h₁ := (hexec 1 (by unfold FrameTasklist.NoWrap; decide)).1
  rw [hzero] at h₀
  exact ⟨order, htop, h₀, h₁⟩

/-- What a descriptor waits for: links, and a reception. -/
def FrameTasklist.inDegree (tl : FrameTasklist ι) (v : ι) : Nat :=
  (tl.tds.flatMap tl.links).count v + tl.recvlist.count (some v)

/-- Descriptor 1 waits for descriptor 0 and for a reception. -/
def received : FrameTasklist Nat where
  tds := [0, 1]
  td
    | 0 => ⟨0, 0, none, [1]⟩
    | 1 => ⟨0, 2, none, []⟩
    | _ => ⟨0, 0, none, []⟩
  readylist := [some 0]
  recvlist := [some 1]

/-- The reception is not counted: its counter is left at 1. -/
theorem abstractexec_fails :
    ¬ ∀ tl : FrameTasklist Nat, tl.tds.Nodup →
      (∀ u ∈ tl.tds, ∀ v ∈ tl.links u, v ∈ tl.tds) →
      (∀ u ∈ tl.tds, ∀ n, ¬ Path tl.links u u (n + 1)) →
      (∀ v ∈ tl.tds, (tl.td v).wc = tl.inDegree v) →
      (∀ v ∈ tl.tds, tl.readylist.count (some v) =
        if (tl.td v).wc = 0 then 1 else 0) →
      (∀ v ∈ tl.tds, (tl.td v).counter = 0) →
      ∃ fuel s, abstractexecReadylist fuel (some tl)
          (some fun u visited => visited ++ [u]) [] = some (0, some s)
        ∧ tl.Topological s.arg
        ∧ ∀ v ∈ tl.tds, (tl.td v).wc ∣ (s.td v).counter := by
  intro hall
  obtain ⟨fuel, s, hrun, -, hdvd⟩ := hall received (by decide) (by decide)
    (by
      intro u _ n
      refine acyclic_of_rank id (fun u v hv => ?_) u n
      match u with
      | 0 => exact (by decide : ∀ v ∈ received.links 0, 0 < v) v hv
      | 1 => cases hv
      | _ + 2 => cases hv)
    (by decide) (by decide) (by decide)
  have hone : (s.td 1).counter = 1 := by
    rcases fuel with _ | _ | _ | _ | fuel
    · cases hrun
    · cases hrun
    · cases hrun
    · cases hrun
    · injection hrun with hrun
      injection hrun with _ hrun
      cases hrun
      rfl
  have htwo := hdvd 1 (by decide)
  rw [hone] at htwo
  exact absurd htwo (by decide)

-- ======== the lists the builder makes

section Built

/-- A list as `kaapi_thread_computereadylist` makes it: nothing is
received and nothing is broadcast. -/
def ofBuilt (tl : TaskList.FrameTasklist) : FrameTasklist TdId where
  tds := tl.tds
  td id := ⟨(tl.td id).counter, (tl.td id).wc, none, (tl.td id).acl⟩
  readylist := tl.readylist.map some
  recvlist := []

variable {tl : TaskList.FrameTasklist}

theorem ofBuilt_links (u : TdId) : (ofBuilt tl).links u = (tl.td u).acl :=
  List.append_nil _

theorem ofBuilt_entered : (ofBuilt tl).entered = tl.readylist.map some := by
  have hnone : (ofBuilt tl).bcasted = [] :=
    List.flatMap_eq_nil_iff.mpr fun _ _ => rfl
  rw [FrameTasklist.entered, hnone, List.append_nil]
  exact List.append_nil _

/-- Whenever the frame can be executed at all, its graph can be printed
before. -/
theorem ofBuilt_wellFormed {tasks : List TaskList.Task}
    (htl : computereadylist tasks = some tl)
    (hshared : ∀ t ∈ tasks, ∀ params, t = some params →
      ∃ p ∈ params, p.m ≠ modeV) : (ofBuilt tl).WellFormed := by
  obtain ⟨opened, h⟩ := computereadylist_spec htl
  have hready : ∀ v, some v ∈ tl.readylist.map some ↔ v ∈ tl.readylist :=
    fun v => List.mem_map_of_injective (Option.some_injective _)
  have hwait : ∀ v, (tl.td v).wc = (ofBuilt tl).signalled.count v :=
    h.balanced.wait_eq
  refine ⟨h.balanced.nodup, ?_, ?_, ?_, fun v _ => hwait v, ?_, ?_, ?_, ?_⟩
  · intro u hu v hv
    rw [ofBuilt_links] at hv
    exact h.balanced.closed u hu v hv
  · intro v hv
    have hin : v ∈ tl.readylist :=
      (hready v).mp (by simpa only [ofBuilt, List.append_nil] using hv)
    obtain ⟨a, ha, rfl⟩ := (h.ready_mem v).mp hin
    exact (h.init_mem a).mpr ha
  · intro u _ n
    refine acyclic_of_rank rank (fun u v hv => ?_) u n
    rw [ofBuilt_links] at hv
    exact h.rank_lt (events_sorted 0 tasks) hv
  · intro v hv hin
    rw [ofBuilt_entered, hready] at hin
    obtain ⟨a, -, rfl⟩ := (h.ready_mem v).mp hin
    have hzero := (hwait _).symm.trans (h.wc_init a)
    exact List.count_eq_zero.mp hzero hv
  · intro v hv hnot
    have hzero : (tl.td v).wc = 0 := by
      rw [hwait]
      exact List.count_eq_zero.mpr hnot
    rw [ofBuilt_entered]
    refine List.count_eq_one_of_mem
      (h.ready_nodup.map (Option.some_injective _)) ?_
    exact (hready v).mpr (h.ready_of_wait hshared hv hzero)
  · intro v
    show (tl.td v).counter < _
    rw [h.counter]
    exact Nat.two_pow_pos 32
  · intro v _
    show _ ∣ (tl.td v).counter
    rw [h.counter]
    exact Nat.dvd_zero _

theorem ofBuilt_wellFormed_readWrite :
    ∃ tl, computereadylist TaskList.readWrite = some tl ∧ (ofBuilt tl).WellFormed :=
  ⟨_, rfl, ofBuilt_wellFormed
    (rfl : computereadylist TaskList.readWrite = some _) (by decide)⟩

end Built

end XKaapi.AbstractExec
