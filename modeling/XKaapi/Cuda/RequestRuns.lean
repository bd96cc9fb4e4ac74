/-
The runs of the request queues: what holds in every state, and where
the events are.

The invariant has three parts. `Mem` is the partition of the nodes.
`Logs` ties the history to the fifos: a fifo holds the pushed requests
that have not left, and since a stream completes its events in the order
of their records, the completed ones come first (`Logs.complete_before`).
`PcOk` is what the host thread knows: in `signalall` the requests up to
`last` are complete, and `last` is still in the fifo, whatever the
callbacks push behind it.
-/
import Mathlib.Algebra.Group.Nat.Defs
import XKaapi.Cuda.RequestQueues
import Mathlib.Data.List.Nodup

namespace XKaapi.RequestQueues

open StepMachine
open Function (update update_of_ne update_self)

variable {capacity : Nat} {x x' : State} {q : OpKind → List NodeId} {free : List NodeId}
  {n last : NodeId} {k : OpKind} {a : Act}

-- ======== invariant

/-- The node whose callback runs is in no list. -/
def Pc.hand : Pc → List NodeId
  | .callback _ _ n => [n]
  | _ => []

/-- The history, the requests of the fifos `q` and the events. -/
structure Logs (x : State) (q : OpKind → List NodeId) : Prop where
  pushed : ∀ k, x.pushed k = x.left k ++ (q k).map fun n => (x.s.req n).pushed
  called : ∀ k, x.called k = (x.left k).filter fun r => r.fnc.isSome
  state : ∀ k, ∀ n ∈ q k, (x.s.req n).state = .push
  destroyed : x.s.gpu.destroyed = []
  left : ∀ k, ∀ r ∈ x.left k, r.event ∈ x.s.gpu.completed
  recorded : ∀ k, ∃ d, (x.pushed k).map Pushed.event = d ++ x.s.gpu.pending k
    ∧ ∀ e ∈ d, e ∈ x.s.gpu.completed
  pushed_lt : ∀ k, ∀ e ∈ (x.pushed k).map Pushed.event, e < x.s.gpu.created
  completed_lt : ∀ e ∈ x.s.gpu.completed, e < x.s.gpu.created
  pending : ∀ k, ∀ e ∈ x.s.gpu.pending k, e ∉ x.s.gpu.completed
  nodup : ∀ k, (x.s.gpu.pending k).Nodup
  disjoint : ∀ k k', k ≠ k' → ∀ e ∈ x.s.gpu.pending k, e ∉ x.s.gpu.pending k'

/-- Every `wait` that is over has seen its requests leave. -/
def Quiet (x : State) : Prop := ∀ k, x.due k ≤ (x.left k).length

/-- The requests up to `last` are there and complete; a `wait` waits for
no more than these. -/
def Signals (x : State) (q : OpKind → List NodeId) (k : OpKind)
    (last : NodeId) : Prop :=
  (∀ k', k' ≠ k → x.due k' ≤ (x.left k').length)
    ∧ ∃ l₁ l₂, q k = l₁ ++ last :: l₂
      ∧ (∀ n ∈ l₁ ++ [last], x.complete n = true)
      ∧ x.due k ≤ (x.left k).length + l₁.length + 1

/-- What is left to do when the request `n` is out. -/
def After (x : State) (q : OpKind → List NodeId) (k : OpKind)
    (last n : NodeId) : Prop :=
  n = last ∧ Quiet x ∨ n ≠ last ∧ Signals x q k last

/-- What the host thread knows. -/
def PcOk (x : State) (q : OpKind → List NodeId) : Prop :=
  match x.pc with
  | .idle => Quiet x
  | .waitsome k first => Quiet x ∧ ∀ n, first = some n → n ∈ q k
  | .signalall k last => Signals x q k last
  | .callback k last n => After x q k last n

structure Inv (capacity : Nat) (x : State) (q : OpKind → List NodeId)
    (free : List NodeId) : Prop where
  mem : Mem capacity x.s q free x.pc.hand
  logs : Logs x q
  pc : PcOk x q

theorem init_links (capacity a m : Nat) (ha : a + m = capacity) :
    Fifo.Links (Stream.init capacity).next (List.range' a m) := by
  induction m generalizing a with
  | zero => trivial
  | succ m ih =>
    rw [List.range'_succ]
    have ih' := ih (a + 1) (by omega)
    cases m with
    | zero =>
      show (if a + 1 < capacity then some (a + 1) else none) = none
      rw [if_neg (by omega)]
    | succ m =>
      rw [List.range'_succ] at ih' ⊢
      refine ⟨?_, ih'⟩
      show (if a + 1 < capacity then some (a + 1) else none) = some (a + 1)
      rw [if_pos (by omega)]

theorem init_inv (hcap : 0 < capacity) :
    Inv capacity (.init capacity) (fun _ => []) (List.range capacity) := by
  refine ⟨⟨fun _ => ⟨rfl, rfl, trivial⟩, fun _ => rfl, ?_, ?_,
    List.Perm.of_eq (by simp [nodes, Pc.hand, State.init])⟩, ?_,
    fun _ => Nat.le_refl 0⟩
  · show some 0 = _
    cases capacity with
    | zero => exact absurd hcap (Nat.lt_irrefl 0)
    | succ c => rw [List.range_succ_eq_map]; rfl
  · rw [List.range_eq_range']
    exact init_links capacity 0 capacity (Nat.zero_add capacity)
  · exact {
      pushed := fun _ => rfl
      called := fun _ => rfl
      state := nofun
      destroyed := rfl
      left := nofun
      recorded := fun _ => ⟨[], rfl, nofun⟩
      pushed_lt := nofun
      completed_lt := nofun
      pending := nofun
      nodup := fun _ => List.nodup_nil
      disjoint := nofun }

theorem Logs.complete_before (hl : Logs x q) {l₁ l₂ : List NodeId}
    (hq : q k = l₁ ++ n :: l₂) (hn : x.complete n = true) :
    ∀ m ∈ l₁ ++ [n], x.complete m = true := by
  have hn' : (x.s.req n).event ∈ x.s.gpu.completed := of_decide_eq_true hn
  obtain ⟨d, hd, hcomp⟩ := hl.recorded k
  have hnp : (x.s.req n).event ∉ x.s.gpu.pending k :=
    fun h => hl.pending k _ h hn'
  have hev : (x.left k).map Pushed.event
      ++ (l₁.map (fun m => (x.s.req m).event)
        ++ (x.s.req n).event :: l₂.map fun m => (x.s.req m).event)
      = d ++ x.s.gpu.pending k := by
    rw [← hd, hl.pushed k, hq]
    simp only [List.map_append, List.map_cons, List.map_map]
    rfl
  rw [← List.append_assoc] at hev
  intro m hm
  rw [List.mem_append, List.mem_singleton] at hm
  rcases hm with hm | rfl
  · have hmd : (x.s.req m).event ∈ d := by
      rcases List.append_eq_append_iff.mp hev with ⟨c, rfl, hc⟩ | ⟨c, hc, hp⟩
      · refine List.mem_append_left c (List.mem_append_right _ ?_)
        exact List.mem_map_of_mem hm
      · refine absurd ?_ hnp
        rw [hp]
        exact List.mem_append_right c List.mem_cons_self
    exact decide_eq_true (hcomp _ hmd)
  · exact hn

-- ======== steps

theorem Signals.append (hs : Signals x q k last) {k₁ : OpKind}
    {l : List NodeId} (hd : x'.due = x.due) (hl : x'.left = x.left)
    (hc : ∀ k, ∀ m ∈ q k, x'.complete m = x.complete m) :
    Signals x' (update q k₁ (q k₁ ++ l)) k last := by
  obtain ⟨hother, l₁, l₂, hq, hcomp, hdue⟩ := hs
  have hcomp' : ∀ m ∈ l₁ ++ [last], x'.complete m = true := by
    intro m hm
    rw [hc k m, hcomp m hm]
    rw [hq]
    simp only [List.mem_append, List.mem_cons, List.not_mem_nil, or_false]
      at hm ⊢
    exact hm.imp_right .inl
  refine ⟨fun k' hk => by rw [hd, hl]; exact hother k' hk, l₁, ?_⟩
  rw [hd, hl]
  by_cases hk : k = k₁
  · subst hk
    refine ⟨l₂ ++ l, ?_, hcomp', hdue⟩
    rw [update_self, hq]
    simp
  · exact ⟨l₂, by rw [update_of_ne hk, hq], hcomp', hdue⟩

theorem Inv.push (hi : Inv capacity x q free) {fnc : Option Nat} {arg : Nat}
    (hpc : x.pc = .idle ∨ ∃ k last n, x.pc = .callback k last n)
    (hr : x.push k fnc arg = some x') :
    (∃ q' free', Inv capacity x' q' free') ∧ x'.left = x.left := by
  unfold State.push at hr
  simp only [Option.bind_eq_bind, Option.bind_eq_some_iff] at hr
  obtain ⟨⟨n, s'⟩, hr, heq⟩ := hr
  obtain ⟨free', rfl, hm, hreq, hgpu⟩ := hi.mem.push hr
  obtain ⟨-, hqd, -, -⟩ := hi.mem.places
  have hnq : ∀ k, n ∉ q k := fun k h => (hqd k n h).1 List.mem_cons_self
  have hold : ∀ k, ∀ m ∈ q k, s'.req m = x.s.req m := fun k m hmq => by
    rw [hreq, update_of_ne (ne_of_mem_of_not_mem hmq (hnq k))]
  have hnew : s'.req n = ⟨.push, 0, fnc, arg, x.s.gpu.created⟩ := by
    rw [hreq, update_self]
  have hl := hi.logs
  have hcomp : s'.gpu.completed = x.s.gpu.completed := by rw [hgpu]
  have hcre : s'.gpu.created = x.s.gpu.created + 1 := by rw [hgpu]
  have hpen : s'.gpu.pending = update x.s.gpu.pending k
      (x.s.gpu.pending k ++ [x.s.gpu.created]) := by rw [hgpu]
  cases heq
  refine ⟨⟨_, free', hm, ?_, ?_⟩, rfl⟩
  · have hmap : ∀ k, (q k).map (fun m => (s'.req m).pushed)
        = (q k).map fun m => (x.s.req m).pushed :=
      fun k => List.map_congr_left fun m hmq => by rw [hold k m hmq]
    have hpend : ∀ k', ∀ e ∈ x.s.gpu.pending k', e < x.s.gpu.created := by
      intro k' e he
      obtain ⟨d, hd, -⟩ := hl.recorded k'
      refine hl.pushed_lt k' e ?_
      rw [hd]
      exact List.mem_append_right d he
    refine ⟨fun k' => ?_, hl.called, fun k' m hmq => ?_, ?_, ?_, fun k' => ?_,
      fun k' e he => ?_, fun e he => ?_, fun k' e he => ?_, fun k' => ?_,
      fun k₁ k₂ hk e he => ?_⟩
    · by_cases hk : k' = k
      · subst hk
        simp only [update_self, List.map_append, List.map_cons,
          List.map_nil, hmap, hl.pushed, List.append_assoc]
      · simp only [update_of_ne hk, hmap, hl.pushed]
    · by_cases hk : k' = k
      · subst hk
        rw [update_self, List.mem_append, List.mem_singleton] at hmq
        rcases hmq with hmq | rfl
        · rw [hold k' m hmq, hl.state k' m hmq]
        · rw [hnew]
      · rw [update_of_ne hk] at hmq
        rw [hold k' m hmq, hl.state k' m hmq]
    · rw [hgpu]
      exact hl.destroyed
    · rw [hcomp]
      exact hl.left
    · obtain ⟨d, hd, hdc⟩ := hl.recorded k'
      refine ⟨d, ?_, by rwa [hcomp]⟩
      rw [hpen]
      by_cases hk : k' = k
      · subst hk
        simp only [update_self, List.map_append, hd, hnew,
          List.map_cons, List.map_nil, List.append_assoc]
        rfl
      · simp only [update_of_ne hk, hd]
    · rw [hcre]
      by_cases hk : k' = k
      · subst hk
        simp only [update_self, List.map_append, hnew, List.map_cons,
          List.map_nil, List.mem_append, List.mem_singleton] at he
        rcases he with he | rfl
        · exact Nat.lt_succ_of_lt (hl.pushed_lt k' e he)
        · exact Nat.lt_succ_self _
      · simp only [update_of_ne hk] at he
        exact Nat.lt_succ_of_lt (hl.pushed_lt k' e he)
    · rw [hcomp] at he
      rw [hcre]
      exact Nat.lt_succ_of_lt (hl.completed_lt e he)
    · rw [hcomp]
      rw [hpen] at he
      by_cases hk : k' = k
      · subst hk
        simp only [update_self, List.mem_append, List.mem_singleton] at he
        rcases he with he | rfl
        · exact hl.pending k' e he
        · exact fun h => Nat.lt_irrefl _ (hl.completed_lt _ h)
      · simp only [update_of_ne hk] at he
        exact hl.pending k' e he
    · rw [hpen]
      by_cases hk : k' = k
      · subst hk
        simp only [update_self]
        refine List.nodup_append.mpr ⟨hl.nodup k', List.nodup_singleton _, ?_⟩
        intro e he e' he' heq
        rw [List.mem_singleton] at he'
        have hlt := hpend k' e he
        rw [heq, he'] at hlt
        exact Nat.lt_irrefl _ hlt
      · simp only [update_of_ne hk]
        exact hl.nodup k'
    · rw [hpen] at he ⊢
      by_cases hk₁ : k₁ = k
      · subst hk₁
        rw [update_of_ne hk.symm]
        simp only [update_self, List.mem_append, List.mem_singleton] at he
        rcases he with he | rfl
        · exact hl.disjoint k₁ k₂ hk e he
        · exact fun h => Nat.lt_irrefl _ (hpend k₂ _ h)
      · simp only [update_of_ne hk₁] at he
        by_cases hk₂ : k₂ = k
        · subst hk₂
          simp only [update_self, List.mem_append, List.mem_singleton]
          rintro (h | rfl)
          · exact hl.disjoint k₁ k₂ hk e he h
          · exact Nat.lt_irrefl _ (hpend k₁ _ he)
        · simp only [update_of_ne hk₂]
          exact hl.disjoint k₁ k₂ hk e he
  · have hp := hi.pc
    have hc : ∀ k', ∀ m ∈ q k', State.complete m
        { x with
          s := s'
          pushed := update x.pushed k
            (x.pushed k ++ [(s'.req n).pushed]) } = x.complete m := by
      intro k' m hmq
      unfold State.complete
      simp only [hold k' m hmq, hcomp]
    unfold PcOk at hp ⊢
    rcases hpc with hpc | ⟨k₁, last, r, hpc⟩
    · simp only [hpc] at hp ⊢
      exact hp
    · simp only [hpc] at hp ⊢
      rcases hp with hp | ⟨hne, hs⟩
      · exact .inl hp
      · exact .inr ⟨hne, hs.append rfl rfl hc⟩

-- ======== signalling

theorem Logs.setPc (hl : Logs x q) (pc : Pc) : Logs { x with pc := pc } q :=
  ⟨hl.pushed, hl.called, hl.state, hl.destroyed, hl.left, hl.recorded,
    hl.pushed_lt, hl.completed_lt, hl.pending, hl.nodup, hl.disjoint⟩

section

variable (hi : Inv capacity x q free)
include hi

theorem Inv.signals_head (hq : Quiet x) (hh : (x.s.fifo k).head = some n)
    (hc : x.complete n = true) : Signals x q k n := by
  have hhead : (x.s.fifo k).head = (q k).head? := (hi.mem.fifo k).head
  rw [hh] at hhead
  obtain ⟨l, hl⟩ := List.head?_eq_some_iff.mp hhead.symm
  refine ⟨fun k' _ => hq k', [], l, hl, fun m hm => ?_, ?_⟩
  · rw [List.nil_append, List.mem_singleton] at hm
    rw [hm]
    exact hc
  · have hle := hq k
    simp only [List.length_nil]
    omega

theorem Inv.testfirst (hpc : x.pc = .idle) (k : OpKind) :
    Inv capacity (x.testfirst k) q free := by
  have hq : Quiet x := by
    have hp := hi.pc
    unfold PcOk at hp
    rwa [hpc] at hp
  unfold State.testfirst
  split
  next => exact hi
  next first hh =>
    split
    next hc =>
      refine ⟨?_, hi.logs.setPc _, hi.signals_head hq hh hc⟩
      have hm := hi.mem
      rwa [hpc] at hm
    next => exact hi

theorem Inv.waitfirst (hpc : x.pc = .idle) (hr : x.waitfirst k = some x') :
    Inv capacity x' q free := by
  have hi' := hi.testfirst hpc k
  unfold State.testfirst at hi'
  unfold State.waitfirst at hr
  split at hr
  next hh =>
    cases hr
    exact hi
  next first hh =>
    rw [hh] at hi'
    dsimp only at hi'
    split at hr
    next hc =>
      cases hr
      rwa [if_pos hc] at hi'
    next => cases hr

/-- `wait` finds a stream that is done: all of its requests are complete. -/
theorem Inv.wait (hpc : x.pc = .idle) (hr : x.wait k = some x') :
    Inv capacity x' q free := by
  have hq : Quiet x := by
    have hp := hi.pc
    unfold PcOk at hp
    rwa [hpc] at hp
  have hm := hi.mem
  rw [hpc] at hm
  have hl := hi.logs
  have hl' : ∀ pc due, Logs { x with
      pc := pc
      due := due } q := fun pc due =>
    ⟨hl.pushed, hl.called, hl.state, hl.destroyed, hl.left, hl.recorded,
      hl.pushed_lt, hl.completed_lt, hl.pending, hl.nodup, hl.disjoint⟩
  have hlen : (x.pushed k).length = (x.left k).length + (q k).length := by
    rw [hl.pushed, List.length_append, List.length_map]
  have hhead : (x.s.fifo k).head = (q k).head? := (hm.fifo k).head
  have htail : (x.s.fifo k).tail = (q k).getLast? := (hm.fifo k).tail
  unfold State.wait at hr
  dsimp only at hr
  split at hr
  next hh =>
    cases hr
    rw [hh, eq_comm, List.head?_eq_none_iff] at hhead
    refine ⟨by rw [hpc]; exact hm, hl' _ _, ?_⟩
    have hquiet : Quiet { x with
        due := update x.due k (x.pushed k).length } := by
      intro k'
      show update x.due k (x.pushed k).length k' ≤ (x.left k').length
      by_cases hk : k' = k
      · subst hk
        rw [update_self, hlen, hhead]
        exact Nat.le_refl _
      · rw [update_of_ne hk]
        exact hq k'
    unfold PcOk
    simp only [hpc]
    exact hquiet
  next =>
    split at hr
    next hpend =>
      rw [Option.map_eq_some_iff] at hr
      obtain ⟨last, hlast, rfl⟩ := hr
      rw [htail] at hlast
      obtain ⟨l₁, hql⟩ := List.getLast?_eq_some_iff.mp hlast
      refine ⟨hm, hl' _ _, fun k' hk => ?_, l₁, [], hql, fun m hmem => ?_, ?_⟩
      · show update x.due k (x.pushed k).length k' ≤ _
        rw [update_of_ne hk]
        exact hq k'
      · obtain ⟨d, hd, hcomp⟩ := hl.recorded k
        rw [hpend, List.append_nil, hl.pushed, List.map_append] at hd
        refine decide_eq_true (hcomp _ ?_)
        rw [← hd, List.map_map]
        refine List.mem_append_right _ ?_
        rw [hql]
        exact List.mem_map_of_mem hmem
      · show update x.due k (x.pushed k).length k
          ≤ (x.left k).length + l₁.length + 1
        rw [update_self, hlen, hql, List.length_append, List.length_singleton]
        omega
    next => cases hr

theorem Inv.waitsomeLoop {first : Option NodeId} (hpc : x.pc = .waitsome k first) :
    Inv capacity (x.waitsomeLoop k first) q free := by
  have hp := hi.pc
  unfold PcOk at hp
  rw [hpc] at hp
  obtain ⟨hq, hfirst⟩ := hp
  have hm := hi.mem
  rw [hpc] at hm
  unfold State.waitsomeLoop
  cases first with
  | none => exact ⟨hm, hi.logs.setPc _, hq⟩
  | some n =>
    obtain ⟨l₁, l₂, hqk⟩ := List.append_of_mem (hfirst n rfl)
    dsimp only
    split
    next hc =>
      refine ⟨hm, hi.logs.setPc _, fun k' _ => hq k', l₁, l₂, hqk, ?_, ?_⟩
      · exact hi.logs.complete_before hqk hc
      · have hle : x.due k ≤ (x.left k).length := hq k
        show x.due k ≤ (x.left k).length + l₁.length + 1
        omega
    next =>
      refine ⟨hm, hi.logs.setPc _, hq, fun m hm' => ?_⟩
      have hlinks := (hm.fifo k).links
      rw [hqk] at hlinks
      have hnext : x.s.next n = l₂.head? := by
        clear hqk
        induction l₁ with
        | nil => exact (Fifo.Links.head hlinks).1
        | cons a l₁ ih => exact ih (Fifo.Links.head hlinks).2
      rw [hnext] at hm'
      rw [hqk]
      refine List.mem_append_right _ (List.mem_cons_of_mem n ?_)
      exact List.mem_of_head? hm'

end

theorem Inv.finish (hm : Mem capacity x.s q free [n]) (hl : Logs x q)
    (ha : After x q k last n) :
    Inv capacity (x.finish k last n) q (n :: free) := by
  have hl' : Logs (x.finish k last n) q :=
    ⟨hl.pushed, hl.called, hl.state, hl.destroyed, hl.left, hl.recorded,
      hl.pushed_lt, hl.completed_lt, hl.pending, hl.nodup, hl.disjoint⟩
  have hfree := hm.requestFree
  unfold State.finish at hl' ⊢
  rcases ha with ⟨heq, hq⟩ | ⟨hne, hs⟩
  · rw [if_pos heq] at hl' ⊢
    exact ⟨hfree, hl', hq⟩
  · rw [if_neg hne] at hl' ⊢
    exact ⟨hfree, hl', hs⟩

theorem Logs.pop {l : List NodeId} {s' : Stream} (hl : Logs x q)
    (hq : q k = n :: l) (hc : x.complete n = true) (hreq : s'.req = x.s.req)
    (hgpu : s'.gpu = x.s.gpu) {called : OpKind → List Pushed}
    (hcalled : ∀ k', called k' = (update x.left k
      (x.left k ++ [(x.s.req n).pushed]) k').filter fun r => r.fnc.isSome)
    (pc : Pc) :
    Logs ⟨s', pc, x.pushed,
      update x.left k (x.left k ++ [(x.s.req n).pushed]), called,
      x.due⟩ (update q k l) := by
  refine ⟨fun k' => ?_, hcalled, fun k' m hm => ?_, ?_, fun k' r hr => ?_,
    ?_, ?_, ?_, ?_, ?_, ?_⟩
  · dsimp only
    rw [hreq, hl.pushed]
    by_cases hk : k' = k
    · subst hk
      rw [update_self, update_self, hq]
      simp
    · rw [update_of_ne hk, update_of_ne hk]
  · rw [hreq]
    refine hl.state k' m ?_
    by_cases hk : k' = k
    · subst hk
      rw [update_self] at hm
      rw [hq]
      exact List.mem_cons_of_mem n hm
    · rwa [update_of_ne hk] at hm
  · rw [hgpu]
    exact hl.destroyed
  · dsimp only at hr ⊢
    rw [hgpu]
    by_cases hk : k' = k
    · subst hk
      rw [update_self, List.mem_append, List.mem_singleton] at hr
      rcases hr with hr | rfl
      · exact hl.left k' r hr
      · exact of_decide_eq_true hc
    · rw [update_of_ne hk] at hr
      exact hl.left k' r hr
  · rw [hgpu]
    exact hl.recorded
  · rw [hgpu]
    exact hl.pushed_lt
  · rw [hgpu]
    exact hl.completed_lt
  · rw [hgpu]
    exact hl.pending
  · rw [hgpu]
    exact hl.nodup
  · rw [hgpu]
    exact hl.disjoint

/-- A turn of the loop of `signalall`: a complete request leaves. -/
theorem Inv.signalall (hi : Inv capacity x q free)
    (hpc : x.pc = .signalall k last) :
    (∃ q' free', Inv capacity (x.signalall k last) q' free')
      ∧ ∃ r, (x.signalall k last).left
        = update x.left k (x.left k ++ [r]) := by
  have hs := hi.pc
  unfold PcOk at hs
  rw [hpc] at hs
  obtain ⟨hother, l₁, l₂, hqk, hcomp, hdue⟩ := hs
  have hm := hi.mem
  rw [hpc] at hm
  obtain ⟨n, l, hq⟩ : ∃ n l, q k = n :: l := by
    rw [hqk]
    cases l₁ with
    | nil => exact ⟨last, l₂, rfl⟩
    | cons a l₁ => exact ⟨a, l₁ ++ last :: l₂, rfl⟩
  have hnin : n ∈ q k := by
    rw [hq]
    exact List.mem_cons_self
  have hnl : n ∉ l := by
    have hnd := hm.places.1 k
    rw [hq] at hnd
    exact (List.nodup_cons.mp hnd).1
  have hc : x.complete n = true := by
    refine hcomp n ?_
    rw [hq] at hqk
    cases l₁ with
    | nil =>
      rw [(List.cons.inj hqk).1]
      exact List.mem_cons_self
    | cons a l₁ =>
      rw [(List.cons.inj hqk).1]
      exact List.mem_cons_self
  obtain ⟨s', hpop, hm', hreq, hgpu⟩ := hm.pop hq (hi.logs.state k n hnin)
  -- what is left to do
  have hafter : ∀ pc called, After ⟨s', pc, x.pushed, update x.left k
      (x.left k ++ [(x.s.req n).pushed]), called, x.due⟩
      (update q k l) k last n := by
    intro pc called
    have hdue' : ∀ k', k' ≠ k → x.due k' ≤ (update x.left k
        (x.left k ++ [(x.s.req n).pushed]) k').length := by
      intro k' hk
      rw [update_of_ne hk]
      exact hother k' hk
    cases l₁ with
    | nil =>
      rw [List.nil_append, hq] at hqk
      refine .inl ⟨(List.cons.inj hqk).1, fun k' => ?_⟩
      by_cases hk : k' = k
      · subst hk
        show x.due k' ≤ (update x.left k' _ k').length
        rw [update_self, List.length_append, List.length_singleton]
        exact hdue
      · exact hdue' k' hk
    | cons a l₁ =>
      rw [List.cons_append, hq] at hqk
      obtain ⟨rfl, hl⟩ := List.cons.inj hqk
      refine .inr ⟨fun heq => hnl ?_, hdue', l₁, l₂, ?_, fun m hmem => ?_, ?_⟩
      · rw [hl, heq]
        exact List.mem_append_right _ List.mem_cons_self
      · rw [update_self, hl]
      · have hold := hcomp m (List.mem_cons_of_mem _ hmem)
        unfold State.complete at hold ⊢
        rw [hreq, hgpu]
        exact hold
      · show x.due k ≤ (update x.left k _ k).length + l₁.length + 1
        rw [update_self, List.length_append, List.length_singleton]
        rw [List.length_cons] at hdue
        omega
  have hr : (s'.req n).pushed = (x.s.req n).pushed := by rw [hreq]
  unfold State.signalall
  rw [hpop]
  dsimp only
  rw [hr]
  by_cases hf : (x.s.req n).pushed.fnc.isSome = true
  · rw [if_pos hf]
    have hfil : [(x.s.req n).pushed].filter (fun r => r.fnc.isSome)
        = [(x.s.req n).pushed] := by simp [hf]
    refine ⟨⟨_, free, hm', hi.logs.pop hq hc hreq hgpu (fun k' => ?_) _,
      hafter _ _⟩, _, rfl⟩
    by_cases hk : k' = k
    · subst hk
      simp only [update_self, List.filter_append, hi.logs.called, hfil]
    · simp only [update_of_ne hk, hi.logs.called]
  · rw [if_neg hf]
    have hfil : [(x.s.req n).pushed].filter (fun r => r.fnc.isSome) = [] := by
      simp [hf]
    refine ⟨⟨_, _, Inv.finish hm' (hi.logs.pop hq hc hreq hgpu
      (fun k' => ?_) _) (hafter _ _)⟩, _, rfl⟩
    by_cases hk : k' = k
    · subst hk
      simp only [update_self, List.filter_append, hi.logs.called,
        hfil, List.append_nil]
    · simp only [update_of_ne hk, hi.logs.called]

theorem Inv.ret (hi : Inv capacity x q free)
    (hpc : x.pc = .callback k last n) (error : Int) :
    Inv capacity (State.finish k last n { x with s := x.s.setError n error }) q
      (n :: free) := by
  have ha := hi.pc
  unfold PcOk at ha
  rw [hpc] at ha
  have hm := hi.mem
  rw [hpc] at hm
  have hl := hi.logs
  have hnq : ∀ k, n ∉ q k := fun k h =>
    (hm.places.2.1 k n h).2.1 (List.mem_singleton_self n)
  have hold : ∀ k, ∀ m ∈ q k, (x.s.setError n error).req m = x.s.req m :=
    fun k m hmq => update_of_ne (ne_of_mem_of_not_mem hmq (hnq k)) ..
  refine Inv.finish ⟨hm.fifo, hm.cnt, hm.lfree, hm.links, hm.perm⟩
    ⟨fun k' => ?_, hl.called, fun k' m hmq => ?_, hl.destroyed, hl.left,
      hl.recorded, hl.pushed_lt, hl.completed_lt, hl.pending, hl.nodup,
      hl.disjoint⟩ ?_
  · rw [hl.pushed k']
    exact congrArg _ (List.map_congr_left fun m hmq => by rw [hold k' m hmq])
  · rw [hold k' m hmq]
    exact hl.state k' m hmq
  · rcases ha with ha | ⟨hne, hother, l₁, l₂, hqk, hcomp, hdue⟩
    · exact .inl ha
    · refine .inr ⟨hne, hother, l₁, l₂, hqk, fun m hmem => ?_, hdue⟩
      have hin : m ∈ q k := by
        rw [hqk]
        simp only [List.mem_append, List.mem_cons, List.not_mem_nil, or_false]
          at hmem ⊢
        exact hmem.imp_right .inl
      have hc := hcomp m hmem
      unfold State.complete at hc ⊢
      rw [hold k m hin]
      exact hc

theorem Inv.complete (hi : Inv capacity x q free) {e : EventId}
    {es : List EventId} (he : x.s.gpu.pending k = e :: es) :
    Inv capacity { x with s := { x.s with gpu := { x.s.gpu with
      pending := update x.s.gpu.pending k es
      completed := x.s.gpu.completed ++ [e] } } } q free := by
  have hl := hi.logs
  have hm := hi.mem
  have hsub : ∀ k', ∀ a ∈ update x.s.gpu.pending k es k',
      a ∈ x.s.gpu.pending k' ∧ a ≠ e := by
    intro k' a ha
    by_cases hk : k' = k
    · subst hk
      rw [update_self] at ha
      have hnd := hl.nodup k'
      rw [he] at hnd ⊢
      refine ⟨List.mem_cons_of_mem e ha, ?_⟩
      rintro rfl
      exact (List.nodup_cons.mp hnd).1 ha
    · rw [update_of_ne hk] at ha
      refine ⟨ha, ?_⟩
      rintro rfl
      refine hl.disjoint k' k hk a ha ?_
      rw [he]
      exact List.mem_cons_self
  have hmono : ∀ a ∈ x.s.gpu.completed, a ∈ x.s.gpu.completed ++ [e] :=
    fun a ha => List.mem_append_left _ ha
  refine ⟨⟨hm.fifo, hm.cnt, hm.lfree, hm.links, hm.perm⟩,
    ⟨hl.pushed, hl.called, hl.state, hl.destroyed,
      fun k' r hr => hmono _ (hl.left k' r hr), fun k' => ?_, hl.pushed_lt,
      fun a ha => ?_, fun k' a ha => ?_, fun k' => ?_,
      fun k₁ k₂ hk a ha ha' => ?_⟩, ?_⟩
  · obtain ⟨d, hd, hdc⟩ := hl.recorded k'
    by_cases hk : k' = k
    · subst hk
      refine ⟨d ++ [e], ?_, ?_⟩
      · simp only [update_self]
        rw [hd, he]
        simp
      · intro a ha
        rw [List.mem_append] at ha ⊢
        exact ha.imp_left (hdc a)
    · refine ⟨d, ?_, fun a ha => hmono a (hdc a ha)⟩
      simp only [update_of_ne hk, hd]
  · rw [List.mem_append, List.mem_singleton] at ha
    rcases ha with ha | rfl
    · exact hl.completed_lt a ha
    · obtain ⟨d, hd, -⟩ := hl.recorded k
      refine hl.pushed_lt k a ?_
      rw [hd, he]
      exact List.mem_append_right d List.mem_cons_self
  · obtain ⟨hin, hne⟩ := hsub k' a ha
    rw [List.mem_append, List.mem_singleton, not_or]
    exact ⟨hl.pending k' a hin, hne⟩
  · show (update x.s.gpu.pending k es k').Nodup
    by_cases hk : k' = k
    · subst hk
      have hnd := hl.nodup k'
      rw [he] at hnd
      rw [update_self]
      exact (List.nodup_cons.mp hnd).2
    · rw [update_of_ne hk]
      exact hl.nodup k'
  · exact hl.disjoint k₁ k₂ hk a (hsub k₁ a ha).1 (hsub k₂ a ha').1
  · have hp := hi.pc
    have hsig : ∀ k' last, Signals x q k' last → Signals
        { x with s := { x.s with gpu := { x.s.gpu with
          pending := update x.s.gpu.pending k es
          completed := x.s.gpu.completed ++ [e] } } } q k' last := by
      rintro k' last ⟨hother, l₁, l₂, hqk, hcomp, hdue⟩
      refine ⟨hother, l₁, l₂, hqk, fun m hmem => ?_, hdue⟩
      exact decide_eq_true (hmono _ (of_decide_eq_true (hcomp m hmem)))
    unfold PcOk at hp ⊢
    dsimp only
    cases hpc : x.pc with
    | idle =>
      rw [hpc] at hp
      exact hp
    | waitsome k' first =>
      rw [hpc] at hp
      exact hp
    | signalall k' last =>
      rw [hpc] at hp
      exact hsig k' last hp
    | callback k' last n =>
      rw [hpc] at hp
      exact hp.imp_right fun ⟨hne, hs⟩ => ⟨hne, hsig k' last hs⟩

-- ======== runs

/-- A step takes a request out of its fifo. -/
def Pops (a : Act) (x : State) : Prop :=
  a = .host ∧ ∃ k last, x.pc = .signalall k last

/-- All that a step can do, with what it needs. -/
inductive Moved (x : State) : Act → State → Prop where
  | push {k : OpKind} {fnc : Option Nat} {arg : Nat} {y : State}
      (pc : x.pc = .idle ∨ ∃ k last n, x.pc = .callback k last n)
      (eq : x.push k fnc arg = some y) : Moved x (.push k fnc arg) y
  | test {k : OpKind} (pc : x.pc = .idle) : Moved x (.test k) (x.testfirst k)
  | testfirst {k : OpKind} (pc : x.pc = .idle) :
      Moved x (.testfirst k) (x.testfirst k)
  | waitsome {k : OpKind} (pc : x.pc = .idle) : Moved x (.waitsome k)
      { x with pc := .waitsome k (x.s.fifo k).head }
  | wait {k : OpKind} {y : State} (pc : x.pc = .idle)
      (eq : x.wait k = some y) : Moved x (.wait k) y
  | waitfirst {k : OpKind} {y : State} (pc : x.pc = .idle)
      (eq : x.waitfirst k = some y) : Moved x (.waitfirst k) y
  | loop {k : OpKind} {first : Option NodeId} (pc : x.pc = .waitsome k first) :
      Moved x .host (x.waitsomeLoop k first)
  | signal {k : OpKind} {last : NodeId} (pc : x.pc = .signalall k last) :
      Moved x .host (x.signalall k last)
  | ret {k : OpKind} {last n : NodeId} {error : Int}
      (pc : x.pc = .callback k last n) : Moved x (.ret error)
        (State.finish k last n { x with s := x.s.setError n error })
  | complete {k : OpKind} {e : EventId} {es : List EventId}
      (eq : x.s.gpu.pending k = e :: es) :
      Moved x (.complete k) { x with s := { x.s with gpu := { x.s.gpu with
        pending := update x.s.gpu.pending k es
        completed := x.s.gpu.completed ++ [e] } } }

theorem step_moved (hs : step a x = some x') : Moved x a x' := by
  unfold step at hs
  split at hs
  next hpc => exact .push (.inl hpc) hs
  next k last n hpc => exact .push (.inr ⟨k, last, n, hpc⟩) hs
  next hpc => cases hs; exact .test hpc
  next hpc => cases hs; exact .testfirst hpc
  next hpc => cases hs; exact .waitsome hpc
  next hpc => exact .wait hpc hs
  next hpc => exact .waitfirst hpc hs
  next hpc => cases hs; exact .loop hpc
  next hpc => cases hs; exact .signal hpc
  next hpc => cases hs; exact .ret hpc
  next =>
    split at hs
    next => cases hs
    next heq => cases hs; exact .complete heq
  next => cases hs

theorem testfirst_left (k : OpKind) (x : State) :
    (x.testfirst k).left = x.left := by
  unfold State.testfirst
  split
  next => rfl
  next =>
    split
    next => rfl
    next => rfl

theorem Moved.left_eq (hm : Moved x a x') (hno : ¬ Pops a x) (hi : Inv capacity x q free) :
    x'.left = x.left := by
  cases hm with
  | push pc eq => exact (hi.push pc eq).2
  | test pc => exact testfirst_left _ x
  | testfirst pc => exact testfirst_left _ x
  | waitsome pc => rfl
  | wait pc eq =>
    unfold State.wait at eq
    dsimp only at eq
    split at eq
    next => cases eq; rfl
    next =>
      split at eq
      next =>
        rw [Option.map_eq_some_iff] at eq
        obtain ⟨last, -, rfl⟩ := eq
        rfl
      next => cases eq
  | waitfirst pc eq =>
    unfold State.waitfirst at eq
    split at eq
    next => cases eq; rfl
    next =>
      split at eq
      next => cases eq; rfl
      next => cases eq
  | loop pc =>
    unfold State.waitsomeLoop
    split
    next => rfl
    next =>
      split
      next => rfl
      next => rfl
  | signal pc => exact absurd ⟨rfl, _, _, pc⟩ hno
  | ret pc => rfl
  | complete eq => rfl

theorem Moved.inv (hm : Moved x a x') (hi : Inv capacity x q free) :
    ∃ q' free', Inv capacity x' q' free' := by
  cases hm with
  | push pc eq => exact (hi.push pc eq).1
  | test pc => exact ⟨q, free, hi.testfirst pc _⟩
  | testfirst pc => exact ⟨q, free, hi.testfirst pc _⟩
  | @waitsome k pc =>
    have hp := hi.pc
    unfold PcOk at hp
    rw [pc] at hp
    have hm := hi.mem
    rw [pc] at hm
    refine ⟨q, free, hm, hi.logs.setPc _, hp, fun n hn => ?_⟩
    have hhead := (hm.fifo k).head
    exact List.mem_of_head? (hhead.symm.trans hn)
  | wait pc eq => exact ⟨q, free, hi.wait pc eq⟩
  | waitfirst pc eq => exact ⟨q, free, hi.waitfirst pc eq⟩
  | loop pc => exact ⟨q, free, hi.waitsomeLoop pc⟩
  | signal pc => exact (hi.signalall pc).1
  | ret pc => exact ⟨q, _, hi.ret pc _⟩
  | complete eq => exact ⟨q, free, hi.complete eq⟩

-- ======== contract

/-- The part of the contract about the callbacks and the nodes. A fifo
holds the pushed requests that have not left; they leave in order and
complete, and those with a callback have had it called once, then. After
a `wait` those it has waited for have left. The fifos, the free list and
the node whose callback runs, if there is one, are all the nodes. -/
structure QueuesOk (capacity : Nat) (x : State) : Prop where
  called : ∀ k, x.called k = (x.left k).filter fun r => r.fnc.isSome
  complete : ∀ k, ∀ r ∈ x.left k, r.event ∈ x.s.gpu.completed
  waited : x.pc = .idle → ∀ k, x.due k ≤ (x.left k).length
  nodes : ∃ q free, Mem capacity x.s q free x.pc.hand
    ∧ ∀ k, (x.s.fifo k).cnt.toNat = (q k).length
      ∧ x.pushed k = x.left k ++ (q k).map fun n => (x.s.req n).pushed

/-- The part about the events: `cudaEventDestroy` has been called once
for each request that has left its fifo, and for no other. -/
def EventsOk (x : State) : Prop :=
  ∀ k, ∀ r ∈ x.pushed k,
    x.s.gpu.destroyed.count r.event = if r ∈ x.left k then 1 else 0

theorem Inv.queuesOk (hlt : capacity < 2 ^ 64) (hi : Inv capacity x q free) :
    QueuesOk capacity x := by
  refine ⟨hi.logs.called, hi.logs.left, fun hpc => ?_, q, free, hi.mem,
    fun k => ⟨?_, hi.logs.pushed k⟩⟩
  · have hp := hi.pc
    unfold PcOk at hp
    rwa [hpc] at hp
  · rw [hi.mem.cnt, BitVec.toNat_ofNat, Nat.mod_eq_of_lt]
    exact Nat.lt_of_le_of_lt (hi.mem.length_le k) hlt

theorem Inv.eventsOk_iff (hi : Inv capacity x q free) :
    EventsOk x ↔ ∀ k, x.left k = [] := by
  unfold EventsOk
  rw [hi.logs.destroyed]
  constructor
  · intro hall k
    rw [List.eq_nil_iff_forall_not_mem]
    intro r hr
    have hin : r ∈ x.pushed k := by
      rw [hi.logs.pushed]
      exact List.mem_append_left _ hr
    have hcount := hall k r hin
    rw [if_pos hr] at hcount
    cases hcount
  · intro hnil k r _
    rw [hnil k, if_neg List.not_mem_nil]
    rfl

/-- In every state of a run the requests and the nodes are as they should
be; the events are too in all of them iff no request ever leaves its
fifo. -/
theorem requestQueues_spec (hcap : 0 < capacity) (hlt : capacity < 2 ^ 32)
    {as : List Act} (hrun : run step as (.init capacity) = some x) :
    (∀ bs, bs <+: as → ∀ y, run step bs (.init capacity) = some y →
        QueuesOk capacity y)
      ∧ ((∀ bs, bs <+: as → ∀ y, run step bs (.init capacity) = some y →
          QueuesOk capacity y ∧ EventsOk y)
        ↔ Along step (fun a y => ¬ Pops a y) as (.init capacity)) := by
  have hinit := init_inv hcap
  have hlt' : capacity < 2 ^ 64 := by omega
  constructor
  · intro bs _ y hy
    obtain ⟨q, free, hi⟩ := run_preserves
      (P := fun y => ∃ q free, Inv capacity y q free)
      (fun ⟨_, _, hi⟩ hs => (step_moved hs).inv hi) ⟨_, _, hinit⟩ hy
    exact hi.queuesOk hlt'
  · refine Along.iff_good
      (P := fun y => (∃ q free, Inv capacity y q free)
        ∧ ∀ k, y.left k = []) ?_ ?_ ?_ ⟨⟨_, _, hinit⟩, fun _ => rfl⟩ hrun
    · rintro y ⟨⟨q, free, hi⟩, hnil⟩
      exact ⟨hi.queuesOk hlt', hi.eventsOk_iff.mpr hnil⟩
    · rintro a y y' hno ⟨⟨q, free, hi⟩, hnil⟩ hs
      have hm := step_moved hs
      refine ⟨hm.inv hi, fun k => ?_⟩
      rw [hm.left_eq hno hi, hnil k]
    · rintro a y y' hpop ⟨⟨q, free, hi⟩, hnil⟩ hs ⟨-, hev⟩
      obtain ⟨q', free', hi'⟩ := (step_moved hs).inv hi
      have hnil' := hi'.eventsOk_iff.mp hev
      obtain ⟨rfl, k, last, hpc⟩ := not_not.mp hpop
      have heq : y' = y.signalall k last := by
        unfold step at hs
        rw [hpc] at hs
        exact (Option.some.inj hs).symm
      obtain ⟨-, r, hleft⟩ := hi.signalall hpc
      have hk := hnil' k
      rw [heq, hleft, update_self] at hk
      exact List.append_ne_nil_of_right_ne_nil _ (List.cons_ne_nil r []) hk

/-- The thread is at the loop of `signalall`. -/
def Pc.signals : Pc → Bool
  | .signalall .. => true
  | _ => false

instance (a : Act) (x : State) : Decidable (Pops a x) :=
  decidable_of_iff (a = .host ∧ x.pc.signals = true) (by
    unfold Pops Pc.signals
    cases x.pc <;> simp)

/-- Two requests are pushed, and the first one completes. -/
theorem requestQueues_two :
    ∃ x, run step [.push .h2d (some 1) 7, .push .h2d none 8, .test .h2d,
        .complete .h2d] (.init 4) = some x
      ∧ QueuesOk 4 x ∧ EventsOk x := by
  have hsome : (run step [.push .h2d (some 1) 7, .push .h2d none 8,
      .test .h2d, .complete .h2d] (.init 4)).isSome := by decide
  obtain ⟨x, hx⟩ := Option.isSome_iff_exists.mp hsome
  refine ⟨x, hx, ?_⟩
  refine (requestQueues_spec (by decide) (by decide) hx).2.mpr ?_ _
    (List.prefix_refl _) x hx
  decide

/-- The callback of a request is called, and its event is not
destroyed. -/
theorem event_not_destroyed :
    ¬ ∀ (capacity : Nat) (as : List Act) (x : State), 0 < capacity →
      capacity < 2 ^ 32 → run step as (.init capacity) = some x →
      QueuesOk capacity x ∧ EventsOk x := by
  intro hall
  have heval : (run step [.push .h2d (some 1) 7, .complete .h2d, .test .h2d,
      .host, .ret 0] (.init 4)).map (fun x =>
        (x.pushed .h2d, x.left .h2d, x.s.gpu.destroyed))
      = some ([⟨0, some 1, 7⟩], [⟨0, some 1, 7⟩], []) := by decide
  rw [Option.map_eq_some_iff] at heval
  obtain ⟨x, hx, heq⟩ := heval
  rw [Prod.mk.injEq, Prod.mk.injEq] at heq
  obtain ⟨hpushed, hleft, hdestroyed⟩ := heq
  have hcount := (hall 4 _ x (by decide) (by decide) hx).2 .h2d
    ⟨0, some 1, 7⟩ (by rw [hpushed]; exact List.mem_cons_self)
  rw [hleft, hdestroyed] at hcount
  cases hcount

end XKaapi.RequestQueues
