/-
The asynchronous requests of a device (machine/cuda/kaapi_cuda_stream.c):
three CUDA streams, each with a fifo of the requests that were pushed to
it, and one free list of request nodes. A request has an event, recorded
behind its operation; `test`, `waitsome` and `wait` look for a completed
event and signal the requests up to it: each is popped, its callback
called, and its node freed. A callback may push requests itself, also to
the fifo that is being signalled.

The host thread moves by small steps, and between any two of them the
device may complete the oldest event of a stream. `kaapi_cuda_request_destroy`
is to destroy the event of a request that leaves its fifo, but returns
early when the request is in the state PUSH, the state of every request
of a fifo: no event is ever destroyed, so that part of the contract holds
as long as no request leaves (`requestQueues_spec`).
-/
import XKaapi.Lib.Fifo
import XKaapi.Lib.Run
import Mathlib.Data.List.Perm.Basic
import Mathlib.Data.List.Range

namespace XKaapi.RequestQueues

open StepMachine
open Function (update update_eq_self update_idem update_of_ne update_self)

-- ======== state

/-- `kaapi_cuda_stream_op_t`: a kernel, or a copy to the device or from
it. Each has its own fifo. -/
inductive OpKind where
  | ker
  | h2d
  | d2h
deriving DecidableEq, Repr

/-- `kaapi_cuda_request_state_t` -/
inductive RequestState where
  | init
  | push
  | term
  | error
deriving DecidableEq, Repr

/-- The index of a request in `nodes`. -/
abbrev NodeId := Nat

/-- A `cudaEvent_t`, numbered in the order of their creation. -/
abbrev EventId := Nat

/-- `kaapi_cuda_request_t`, less its link; callbacks are numbered. -/
structure Request where
  state : RequestState
  error : Int
  fnc : Option Nat
  arg : Nat
  event : EventId
deriving DecidableEq, Repr

/-- `kaapi_cuda_fifo_stream_t` -/
structure FifoStream where
  cnt : BitVec 64
  head : Option NodeId
  tail : Option NodeId
deriving DecidableEq, Repr

/-- The device: the events there have been, those recorded in each stream
that are not complete, in order, those that are, and the calls of
`cudaEventDestroy`. -/
structure Gpu where
  created : Nat
  pending : OpKind → List EventId
  completed : List EventId
  destroyed : List EventId

/-- `kaapi_cuda_stream_t` -/
structure Stream where
  req : NodeId → Request
  next : NodeId → Option NodeId
  fifo : OpKind → FifoStream
  lfree : Option NodeId
  gpu : Gpu

namespace Stream

-- ======== operations

/-- kaapi_cuda_stream_init -/
def init (capacity : Nat) : Stream where
  req := fun _ => ⟨.init, 0, none, 0, 0⟩
  next := fun n => if n + 1 < capacity then some (n + 1) else none
  fifo := fun _ => ⟨0, none, none⟩
  lfree := some 0
  gpu := ⟨0, fun _ => [], [], []⟩

/-- kaapi_cuda_request_destroy -/
def requestDestroy (n : NodeId) (s : Stream) : Stream :=
  let r := s.req n
  if r.state = .push ∨ r.state = .term then s
  else
    { s with
      req := update s.req n { r with state := .term }
      gpu := { s.gpu with destroyed := s.gpu.destroyed ++ [r.event] } }

/-- kaapi_cuda_fifo_stream_pop -/
def pop (k : OpKind) (s : Stream) : Option (NodeId × Stream) :=
  let q := s.fifo k
  match q.head with
  | none => none
  | some n =>
    let head := s.next n
    let tail := if head = none then none else q.tail
    let s : Stream :=
      { s with
        next := update s.next n none
        fifo := update s.fifo k ⟨q.cnt - 1, head, tail⟩ }
    some (n, s.requestDestroy n)

/-- kaapi_cuda_stream_request_create: with all nodes in use, the program
is aborted. -/
def requestCreate (fnc : Option Nat) (arg : Nat) (s : Stream) :
    Option (NodeId × Stream) :=
  match s.lfree with
  | none => none
  | some n => some (n,
      { s with
        req := update s.req n ⟨.init, 0, fnc, arg, s.gpu.created⟩
        next := update s.next n none
        lfree := s.next n
        gpu := { s.gpu with created := s.gpu.created + 1 } })

/-- kaapi_cuda_stream_request_free -/
def requestFree (n : NodeId) (s : Stream) : Stream :=
  { s with
    next := update s.next n s.lfree
    lfree := some n }

/-- kaapi_cuda_fifo_stream_enqueue, with `cudaEventRecord`. -/
def enqueue (k : OpKind) (n : NodeId) (s : Stream) : Option Stream := do
  let q := s.fifo k
  let r := s.req n
  let next := update s.next n none
  let (next, head) ← match q.head with
    | none => some (next, some n)
    | some h => q.tail.map fun t =>
      (update next t (some n), some h)
  return {
    req := update s.req n { r with state := .push }
    next := next
    fifo := update s.fifo k ⟨q.cnt + 1, head, some n⟩
    lfree := s.lfree
    gpu :=
      { s.gpu with
        pending := update s.gpu.pending k
          (s.gpu.pending k ++ [r.event]) } }

/-- kaapi_cuda_stream_push -/
def push (k : OpKind) (fnc : Option Nat) (arg : Nat) (s : Stream) :
    Option (NodeId × Stream) := do
  let (n, s) ← s.requestCreate fnc arg
  let s ← s.enqueue k n
  return (n, s)

/-- The return value of the callback. -/
def setError (n : NodeId) (error : Int) (s : Stream) : Stream :=
  { s with req := update s.req n { s.req n with error := error } }

end Stream

-- ======== machine

/-- What identifies a request. -/
structure Pushed where
  event : EventId
  fnc : Option Nat
  arg : Nat
deriving DecidableEq, Repr

def Request.pushed (r : Request) : Pushed := ⟨r.event, r.fnc, r.arg⟩

/-- Where the host thread is. -/
inductive Pc where
  /-- Outside, or between two calls. -/
  | idle
  /-- In the loop of kaapi_cuda_waitsome_fifo_stream, at `first`. -/
  | waitsome (k : OpKind) (first : Option NodeId)
  /-- At the loop of kaapi_cuda_fifo_stream_signalall. -/
  | signalall (k : OpKind) (last : NodeId)
  /-- In the callback of the request `req`. -/
  | callback (k : OpKind) (last req : NodeId)
deriving DecidableEq, Repr

/-- The state, and its history for each kind of operation: the requests
pushed, those that have left the fifo, those whose callback was called,
and how many of them were pushed before the last `wait`. -/
structure State where
  s : Stream
  pc : Pc
  pushed : OpKind → List Pushed
  left : OpKind → List Pushed
  called : OpKind → List Pushed
  due : OpKind → Nat

/-- What happens next. -/
inductive Act where
  | push (k : OpKind) (fnc : Option Nat) (arg : Nat)
  | test (k : OpKind)
  | testfirst (k : OpKind)
  | waitsome (k : OpKind)
  | wait (k : OpKind)
  | waitfirst (k : OpKind)
  /-- The loop of the call goes on. -/
  | host
  /-- The callback returns. -/
  | ret (error : Int)
  /-- The device completes the oldest event of a stream. -/
  | complete (k : OpKind)
deriving DecidableEq, Repr

namespace State

def init (capacity : Nat) : State :=
  ⟨.init capacity, .idle, fun _ => [], fun _ => [], fun _ => [], fun _ => 0⟩

/-- `cudaEventQuery` on the event of a node. -/
def complete (n : NodeId) (x : State) : Bool :=
  (x.s.req n).event ∈ x.s.gpu.completed

/-- kaapi_cuda_stream_push -/
def push (k : OpKind) (fnc : Option Nat) (arg : Nat) (x : State) :
    Option State := do
  let (n, s) ← x.s.push k fnc arg
  return { x with
    s := s
    pushed := update x.pushed k (x.pushed k ++ [(s.req n).pushed]) }

/-- kaapi_cuda_testfirst_fifo_stream -/
def testfirst (k : OpKind) (x : State) : State :=
  match (x.s.fifo k).head with
  | none => x
  | some first =>
    if x.complete first then { x with pc := .signalall k first } else x

/-- kaapi_cuda_test_fifo_stream: its loop ends at the first answer. -/
def test (k : OpKind) (x : State) : State := x.testfirst k

/-- kaapi_cuda_waitfirst_fifo_stream: `cudaEventSynchronize` comes back
when the event is complete. -/
def waitfirst (k : OpKind) (x : State) : Option State :=
  match (x.s.fifo k).head with
  | none => some x
  | some first =>
    if x.complete first then some { x with pc := .signalall k first }
    else none

/-- kaapi_cuda_wait_fifo_stream: `cudaStreamSynchronize` comes back when
the stream has nothing left to do. -/
def wait (k : OpKind) (x : State) : Option State :=
  let x := { x with due := update x.due k (x.pushed k).length }
  match (x.s.fifo k).head with
  | none => some x
  | some _ =>
    if x.s.gpu.pending k = [] then
      (x.s.fifo k).tail.map fun last => { x with pc := .signalall k last }
    else none

/-- The loop of kaapi_cuda_waitsome_fifo_stream. -/
def waitsomeLoop (k : OpKind) (first : Option NodeId) (x : State) : State :=
  match first with
  | none => { x with pc := .idle }
  | some n =>
    if x.complete n then { x with pc := .signalall k n }
    else { x with pc := .waitsome k (x.s.next n) }

/-- The end of a turn of the loop of kaapi_cuda_fifo_stream_signalall. -/
def finish (k : OpKind) (last req : NodeId) (x : State) : State :=
  { x with
    s := x.s.requestFree req
    pc := if req = last then .idle else .signalall k last }

/-- A turn of this loop, up to the callback. -/
def signalall (k : OpKind) (last : NodeId) (x : State) : State :=
  match x.s.pop k with
  | none => { x with pc := .idle }
  | some (n, s) =>
    let r := (s.req n).pushed
    let x := { x with
      s := s
      left := update x.left k (x.left k ++ [r]) }
    if r.fnc.isSome then
      { x with
        pc := .callback k last n
        called := update x.called k (x.called k ++ [r]) }
    else x.finish k last n

end State

/-- The machine: the host thread, its callbacks and the device. -/
def step (a : Act) (x : State) : Option State :=
  match a, x.pc with
  | .push k fnc arg, .idle => x.push k fnc arg
  | .push k fnc arg, .callback .. => x.push k fnc arg
  | .test k, .idle => some (x.test k)
  | .testfirst k, .idle => some (x.testfirst k)
  | .waitsome k, .idle => some { x with pc := .waitsome k (x.s.fifo k).head }
  | .wait k, .idle => x.wait k
  | .waitfirst k, .idle => x.waitfirst k
  | .host, .waitsome k first => some (x.waitsomeLoop k first)
  | .host, .signalall k last => some (x.signalall k last)
  | .ret error, .callback k last n =>
    some ({ x with s := x.s.setError n error }.finish k last n)
  | .complete k, _ =>
    match x.s.gpu.pending k with
    | [] => none
    | e :: es =>
      some { x with s := { x.s with gpu := { x.s.gpu with
        pending := update x.s.gpu.pending k es
        completed := x.s.gpu.completed ++ [e] } } }
  | _, _ => none

-- ======== memory

/-- The nodes of the three fifos, of the free list, and those in hand. -/
def nodes (q : OpKind → List NodeId) (free hand : List NodeId) :
    List NodeId :=
  q .ker ++ q .h2d ++ q .d2h ++ free ++ hand

/-- The fifos and the free list are the lists `q` and `free`; with the
nodes in hand these are all the nodes there are, each once. -/
structure Mem (capacity : Nat) (s : Stream) (q : OpKind → List NodeId)
    (free hand : List NodeId) : Prop where
  fifo : ∀ k, Fifo.Holds s.next ⟨(s.fifo k).head, (s.fifo k).tail⟩ (q k)
  cnt : ∀ k, (s.fifo k).cnt = BitVec.ofNat 64 (q k).length
  lfree : s.lfree = free.head?
  links : Fifo.Links s.next free
  perm : (nodes q free hand).Perm (List.range capacity)

section mem

variable {capacity : Nat} {s s' : Stream} {q : OpKind → List NodeId}
  {free hand l : List NodeId} {n : NodeId} {k : OpKind}

theorem Mem.nodup (hm : Mem capacity s q free hand) :
    (nodes q free hand).Nodup :=
  hm.perm.nodup_iff.mpr List.nodup_range

theorem Mem.places (hm : Mem capacity s q free hand) :
    (∀ k, (q k).Nodup) ∧ (∀ k, ∀ n ∈ q k, n ∉ free ∧ n ∉ hand
      ∧ ∀ k', k' ≠ k → n ∉ q k') ∧ free.Nodup ∧ ∀ n ∈ free, n ∉ hand := by
  have hnd := hm.nodup
  unfold nodes at hnd
  simp only [List.nodup_append, List.mem_append] at hnd
  refine ⟨fun k => ?_, fun k n hn => ⟨?_, ?_, fun k' hk => ?_⟩, ?_, ?_⟩
  · cases k <;> grind
  · cases k <;> grind
  · cases k <;> grind
  · cases k <;> cases k' <;> grind
  · grind
  · grind

theorem nodes_perm (q : OpKind → List NodeId) (k : OpKind)
    (l free hand : List NodeId) :
    (nodes (update q k l) free hand).Perm
      (l ++ nodes (update q k []) free hand) := by
  rw [List.perm_iff_count]
  intro n
  unfold nodes
  cases k
  all_goals
    simp [update, List.count_append]
    try omega

theorem Mem.length_le (hm : Mem capacity s q free hand) (k : OpKind) :
    (q k).length ≤ capacity := by
  have hlen := hm.perm.length_eq
  unfold nodes at hlen
  simp only [List.length_append, List.length_range] at hlen
  cases k <;> omega

theorem links_update (h : Fifo.Links s.next l) (hn : n ∉ l)
    (x : Option NodeId) : Fifo.Links (update s.next n x) l :=
  h.congr fun _ ha => update_of_ne (ne_of_mem_of_not_mem ha hn) ..

theorem enqueue_eq
    (hq : Fifo.Holds s.next ⟨(s.fifo k).head, (s.fifo k).tail⟩ l) :
    s.enqueue k n = some
      { s with
        req := update s.req n { s.req n with state := .push }
        next := (Fifo.pushTail s.next
          ⟨(s.fifo k).head, (s.fifo k).tail⟩ n).1
        fifo := update s.fifo k ⟨(s.fifo k).cnt + 1, (l ++ [n]).head?, some n⟩
        gpu := { s.gpu with
          pending := update s.gpu.pending k
            (s.gpu.pending k ++ [(s.req n).event]) } } := by
  have hhead : (s.fifo k).head = l.head? := hq.head
  have htail : (s.fifo k).tail = l.getLast? := hq.tail
  unfold Stream.enqueue Fifo.pushTail
  rcases List.eq_nil_or_concat l with rfl | ⟨l', t, rfl⟩
  · have hh : (s.fifo k).head = none := hhead
    have ht : (s.fifo k).tail = none := htail
    simp only [hh, ht, Option.bind_eq_bind, Option.bind_some]
    rfl
  · have ht : (s.fifo k).tail = some t := by simpa using htail
    obtain ⟨h, hh⟩ : ∃ h, (l'.concat t).head? = some h := by
      cases l' with
      | nil => exact ⟨t, rfl⟩
      | cons a l' => exact ⟨a, rfl⟩
    have hh' : (l'.concat t ++ [n]).head? = some h := by
      rw [List.head?_append, hh]
      rfl
    rw [hh] at hhead
    simp only [hhead, ht, hh', Option.map_some, Option.bind_eq_bind,
      Option.bind_some]
    rfl

theorem Mem.push (hm : Mem capacity s q free hand) {fnc : Option Nat}
    {arg : Nat} (hr : s.push k fnc arg = some (n, s')) :
    ∃ free', free = n :: free'
      ∧ Mem capacity s' (update q k (q k ++ [n])) free' hand
      ∧ s'.req = update s.req n ⟨.push, 0, fnc, arg, s.gpu.created⟩
      ∧ s'.gpu = { s.gpu with
        created := s.gpu.created + 1
        pending := update s.gpu.pending k
          (s.gpu.pending k ++ [s.gpu.created]) } := by
  obtain ⟨hqn, hqd, hfn, hfd⟩ := hm.places
  unfold Stream.push Stream.requestCreate at hr
  cases free with
  | nil =>
    have hl : s.lfree = none := hm.lfree
    rw [hl] at hr
    cases hr
  | cons n₀ free' =>
    have hl : s.lfree = some n₀ := hm.lfree
    obtain ⟨hnext, hlinks⟩ := Fifo.Links.head hm.links
    have hn₀ : n₀ ∉ free' := (List.nodup_cons.mp hfn).1
    have hnq : ∀ k, n₀ ∉ q k :=
      fun k h => (hqd k n₀ h).1 List.mem_cons_self
    rw [hl] at hr
    simp only [Option.bind_eq_bind, Option.bind_some] at hr
    have hq₁ : ∀ k, Fifo.Holds (update s.next n₀ none)
        ⟨(s.fifo k).head, (s.fifo k).tail⟩ (q k) := fun k =>
      (hm.fifo k).congr fun a ha =>
        update_of_ne (ne_of_mem_of_not_mem ha (hnq k)) ..
    rw [enqueue_eq (hq₁ k)] at hr
    cases hr
    refine ⟨free', rfl, ⟨fun k' => ?_, fun k' => ?_, hnext, ?_, ?_⟩, ?_, ?_⟩
    · -- the fifo, and the two others
      by_cases hk : k' = k
      · subst hk
        have hpush := (hq₁ k').pushTail (hqn k') (hnq k')
        refine ⟨?_, ?_, ?_⟩
        · simp only [update_self]
        · simp only [update_self]
          simp
        · rw [update_self]
          exact hpush.links
      · simp only [update_of_ne hk]
        refine (hq₁ k').congr fun a ha => ?_
        refine Fifo.pushTail_next (hq₁ k) ((hqd k' a ha).2.2 k (Ne.symm hk)) ?_
        exact ne_of_mem_of_not_mem ha (hnq k')
    · by_cases hk : k' = k
      · subst hk
        simp only [update_self, List.length_append,
          List.length_singleton, hm.cnt]
        exact (BitVec.ofNat_add ..).symm
      · simp only [update_of_ne hk, hm.cnt]
    · refine (links_update hlinks hn₀ none).congr fun a ha => ?_
      refine Fifo.pushTail_next (hq₁ k) (fun haq => ?_)
        (ne_of_mem_of_not_mem ha hn₀)
      exact (hqd k a haq).1 (List.mem_cons_of_mem n ha)
    · refine List.Perm.trans ?_ hm.perm
      rw [List.perm_iff_count]
      intro m
      have h₁ := (nodes_perm q k (q k ++ [n]) free' hand).count_eq m
      have h₂ := (nodes_perm q k (q k) (n :: free') hand).count_eq m
      rw [update_eq_self] at h₂
      rw [h₁, h₂]
      unfold nodes
      simp only [List.count_append, List.count_cons, List.count_nil]
      omega
    · simp only [update_self, update_idem]
    · simp only [update_self]

theorem Mem.pop (hm : Mem capacity s q free []) (hq : q k = n :: l)
    (hpush : (s.req n).state = .push) :
    ∃ s', s.pop k = some (n, s')
      ∧ Mem capacity s' (update q k l) free [n]
      ∧ s'.req = s.req ∧ s'.gpu = s.gpu := by
  obtain ⟨hqn, hqd, hfn, hfd⟩ := hm.places
  have hk := hm.fifo k
  rw [hq] at hk
  have hhead : (s.fifo k).head = some n := hk.head
  have htail : (s.fifo k).tail = (n :: l).getLast? := hk.tail
  obtain ⟨hnext, hlinks⟩ := Fifo.Links.head hk.links
  have hnd := hqn k
  rw [hq] at hnd
  have hnl : n ∉ l := (List.nodup_cons.mp hnd).1
  have hnf : n ∉ free := (hqd k n (by rw [hq]; exact List.mem_cons_self)).1
  have hnq : ∀ k', k' ≠ k → n ∉ q k' :=
    (hqd k n (by rw [hq]; exact List.mem_cons_self)).2.2
  have htl : (if l.head? = none then none else (s.fifo k).tail)
      = l.getLast? := by
    rw [htail]
    cases l with
    | nil => rfl
    | cons a l =>
      rw [if_neg (by simp), List.getLast?_cons_cons]
  unfold Stream.pop Stream.requestDestroy
  simp only [hhead, hnext, hpush, true_or, if_true, htl]
  refine ⟨_, rfl, ⟨fun k' => ?_, fun k' => ?_, hm.lfree, ?_, ?_⟩, rfl, rfl⟩
  · by_cases hkk : k' = k
    · subst hkk
      simp only [update_self]
      exact ⟨rfl, rfl, links_update hlinks hnl none⟩
    · simp only [update_of_ne hkk]
      refine (hm.fifo k').congr fun a ha => ?_
      exact update_of_ne (ne_of_mem_of_not_mem ha (hnq k' hkk)) ..
  · by_cases hkk : k' = k
    · subst hkk
      simp only [update_self, hm.cnt, hq, List.length_cons]
      rw [BitVec.ofNat_add]
      exact BitVec.add_sub_cancel ..
    · simp only [update_of_ne hkk, hm.cnt]
  · exact links_update hm.links hnf none
  · refine List.Perm.trans ?_ hm.perm
    rw [List.perm_iff_count]
    intro m
    have h₁ := (nodes_perm q k l free [n]).count_eq m
    have h₂ := (nodes_perm q k (n :: l) free []).count_eq m
    rw [← hq, update_eq_self, hq] at h₂
    rw [h₁, h₂]
    unfold nodes
    simp only [List.count_append, List.count_cons, List.count_nil]
    omega

theorem Mem.requestFree (hm : Mem capacity s q free [n]) :
    Mem capacity (s.requestFree n) q (n :: free) [] := by
  obtain ⟨hqn, hqd, hfn, hfd⟩ := hm.places
  have hnf : n ∉ free := fun h => hfd n h (List.mem_singleton_self n)
  have hnq : ∀ k, n ∉ q k :=
    fun k h => (hqd k n h).2.1 (List.mem_singleton_self n)
  unfold Stream.requestFree
  refine ⟨fun k => ?_, hm.cnt, rfl, ?_, ?_⟩
  · refine (hm.fifo k).congr fun a ha => ?_
    exact update_of_ne (ne_of_mem_of_not_mem ha (hnq k)) ..
  · have hlinks := links_update hm.links hnf s.lfree
    cases free with
    | nil =>
      show update s.next n s.lfree n = none
      rw [update_self, hm.lfree]
      rfl
    | cons a free =>
      refine ⟨?_, hlinks⟩
      show update s.next n s.lfree n = some a
      rw [update_self, hm.lfree]
      rfl
  · refine List.Perm.trans ?_ hm.perm
    rw [List.perm_iff_count]
    intro m
    unfold nodes
    simp only [List.count_append, List.count_cons, List.count_nil]
    omega

end mem

end XKaapi.RequestQueues
