/-
The order of the events in the trace files.

`Books` is the account of the events of a kprocessor: what it has pushed
is what its file holds, then the buffer a writer holds, then the buffers
of the FIFO in their order, then the buffer it pushes in. It holds as long
as no two writers hold buffers of one kprocessor (`one`), which is what a
run has to meet. The rest of the invariant says who owns a buffer
(`Owned`), that an opened kprocessor is not forgotten (`Known`), which
buffers have been written (`Stamps`), and what the finalisation has waited
for (`Roles`).
-/
import XKaapi.Trace.EventRecorder

namespace XKaapi.Trace

open StepMachine (run Along)
open Function (update update_of_ne update_self)

variable {α : Type}

namespace Recorder

-- ======== invariant

/-- The events a kprocessor has in the buffer it pushes in. -/
def cur (s : Recorder α) (k : Nat) : List α :=
  match (s.producers k).buf with
  | some b => (s.heap b).events
  | none => []

/-- The events of a kprocessor in the FIFO. -/
def queue (s : Recorder α) (k : Nat) : List α :=
  (s.fifo.filter fun b => (s.heap b).kid = k).flatMap fun b => (s.heap b).events

/-- The file of the kprocessor holds these events, and its header if it is
open. -/
def Filed (f : Option (List (Record α))) (evs : List α) : Prop :=
  (f = none ∧ evs = []) ∨ f = some (.header :: evs.map .event)

/-- The file when a writer holds an unwritten buffer, by what the writer
is to do. -/
def FiledBy (pc : WriterPc) (f : Option (List (Record α))) (evs : List α) : Prop :=
  match pc with
  | .opening _ => f = none ∧ evs = []
  | .heading _ => f = some [] ∧ evs = []
  | .writing _ => f = some (.header :: evs.map .event)
  | _ => Filed f evs

structure Books (s : Recorder α) : Prop where
  kid : ∀ k b, (s.producers k).buf = some b → (s.heap b).kid = k
  one : ∀ x y b c, (s.writers x).unwritten = some b →
    (s.writers y).unwritten = some c → (s.heap b).kid = (s.heap c).kid → x = y
  hand : ∀ x b, (s.writers x).unwritten = some b → ∃ evs,
    s.pushed (s.heap b).kid = evs ++ (s.heap b).events
        ++ s.queue (s.heap b).kid ++ s.cur (s.heap b).kid
      ∧ FiledBy (s.writers x) (s.file (s.heap b).kid) evs
  rest : ∀ k, (∀ x b, (s.writers x).unwritten = some b → (s.heap b).kid ≠ k) →
    ∃ evs, s.pushed k = evs ++ s.queue k ++ s.cur k ∧ Filed (s.file k) evs

/-- A kprocessor that has not opened its buffer is nowhere, one that has
is somewhere. -/
structure Known (s : Recorder α) : Prop where
  bound : ∀ k, s.opened k = true → k < s.nkprocs
  producers : ∀ k, s.producers k ≠ .closed → s.opened k = true
  queued : ∀ b ∈ s.fifo, s.opened (s.heap b).kid = true
  writers : ∀ x b, (s.writers x).unwritten = some b → s.opened (s.heap b).kid = true
  file : ∀ k, s.file k ≠ none → s.opened k = true
  present : ∀ k, s.opened k = true → s.producers k ≠ .closed
    ∨ (∃ b ∈ s.fifo, (s.heap b).kid = k)
    ∨ (∃ x b, (s.writers x).unwritten = some b ∧ (s.heap b).kid = k)
    ∨ s.file k ≠ none

structure Stamps (s : Recorder α) : Prop where
  stamped : ∀ n < s.flushed, n ∈ s.written ∨ (∃ b ∈ s.fifo, s.stamp b = n)
    ∨ ∃ x b, (s.writers x).unwritten = some b ∧ s.stamp b = n
  free : ∀ b ∈ s.free, s.stamp b ∈ s.written
  freeing : ∀ x b, s.writers x = .freeing b → s.stamp b ∈ s.written
  since : ∀ x, s.since x ≤ s.flushed
  fence : ∀ x, 1 < x → s.writers x = .idle → ∀ n < s.since x, n ∈ s.written

structure Roles (s : Recorder α) : Prop where
  two : 1 < s.nwriters
  range : ∀ x, s.nwriters ≤ x → s.writers x = .idle
  joining : ∀ x, s.writers x = .joining → x = 1
  exited : ∀ x, s.writers x = .exited → x ≤ 1
  closed : s.writers 1 ≠ .idle → ∀ k, s.producers k = .closed
  ended : s.writers 1 = .exited →
    s.fifo = [] ∧ ∀ x, (s.writers x).unwritten = none

structure Inv (owner : Nat → Owner) (s : Recorder α) : Prop where
  owned : Owned owner s
  books : Books s
  known : Known s
  stamps : Stamps s
  roles : Roles s

variable {owner : Nat → Owner} {s s' : Recorder α} {k x b : Nat} {pc : WriterPc}
  {f : List Nat}

-- ======== frames

theorem update_forall {β : Type} {P : Nat → β → Prop} {f : Nat → β} {v : β}
    (hk : P k v) (h : ∀ j, j ≠ k → P j (f j)) : ∀ j,
      P j (update f k v j) :=
  (Function.forall_update_iff f P).mpr ⟨hk, h⟩

/-- An unwritten buffer is one that the writer has. -/
theorem unwritten_buf (h : pc.unwritten = some b) : pc.buf = some b := by
  cases pc with
  | testing c => exact h
  | opening c => exact h
  | heading c => exact h
  | writing c => exact h
  | _ => cases h

theorem queue_congr (hf : s'.fifo = s.fifo)
    (hh : ∀ b ∈ s.fifo, s'.heap b = s.heap b) (k : Nat) :
    s'.queue k = s.queue k := by
  unfold queue
  rw [hf]
  have hfil : (s.fifo.filter fun b => (s'.heap b).kid = k)
      = s.fifo.filter fun b => (s.heap b).kid = k := by
    apply List.filter_congr
    intro b hb
    rw [hh b hb]
  rw [hfil]
  apply List.flatMap_congr
  intro b hb
  rw [hh b (List.mem_of_mem_filter hb)]

/-- The events not yet flushed are those of the buffer. -/
theorem cur_of_buf (h : (s.producers k).buf = some b) :
    s.cur k = (s.heap b).events := by
  unfold cur
  rw [h]

theorem cur_of_none (h : (s.producers k).buf = none) : s.cur k = [] := by
  unfold cur
  rw [h]

theorem cur_congr (hp : (s'.producers k).buf = (s.producers k).buf)
    (hh : ∀ b, (s.producers k).buf = some b → s'.heap b = s.heap b) :
    s'.cur k = s.cur k := by
  unfold cur
  rw [hp]
  cases hb : (s.producers k).buf with
  | none => rfl
  | some b =>
    dsimp only
    rw [hh b hb]

/-- The buffer of a kprocessor is nowhere else. -/
theorem Owned.ne_of_producer (h : Owned owner s) (hb : owner b = .producer k) :
    b ∉ s.fifo ∧ (∀ x, (s.writers x).buf ≠ some b)
      ∧ ∀ j, j ≠ k → (s.producers j).buf ≠ some b := by
  refine ⟨fun hm => ?_, fun x hx => ?_, fun j hj hjb => ?_⟩
  · have := h.queued b hm
    rw [hb] at this
    cases this
  · have := h.writers x b hx
    rw [hb] at this
    cases this
  · have := h.producers j b hjb
    rw [hb] at this
    injection this with this
    exact hj this.symm

/-- The writers that move have no unwritten buffer. -/
def Quiet (s s' : Recorder α) : Prop :=
  ∀ x, s'.writers x = s.writers x
    ∨ ((s'.writers x).unwritten = none ∧ (s.writers x).unwritten = none)

/-- The writers hold the same buffers after a quiet step. -/
theorem Quiet.unwritten (h : Quiet s s') (x : Nat) :
    (s'.writers x).unwritten = (s.writers x).unwritten := by
  rcases h x with hx | ⟨hx, hx'⟩
  · rw [hx]
  · rw [hx, hx']

theorem Quiet.eq (h : Quiet s s') (hb : (s.writers x).unwritten = some b) :
    s'.writers x = s.writers x := by
  rcases h x with hx | ⟨-, hx⟩
  · exact hx
  · rw [hx] at hb
    cases hb

/-- A writer without buffer moves. -/
theorem quiet_setWriter (h : pc.unwritten = none) (hx : (s.writers x).unwritten = none) :
    Quiet s (s.setWriter x pc) := by
  intro y
  rcases eq_or_ne y x with rfl | hne
  · right
    refine ⟨?_, hx⟩
    show (update s.writers y pc y).unwritten = none
    rw [update_self]
    exact h
  · left
    exact update_of_ne hne ..

/-- The events are accounted for when buffers and files stay. -/
theorem Books.frame (h : Books s) (hw : Quiet s s') (hfile : s'.file = s.file)
    (hkid : ∀ k b, (s'.producers k).buf = some b → (s'.heap b).kid = k)
    (hhand : ∀ x b, (s.writers x).unwritten = some b → s'.heap b = s.heap b)
    (hacc : ∀ k, ∃ d, s'.pushed k = s.pushed k ++ d
      ∧ s'.queue k ++ s'.cur k = s.queue k ++ s.cur k ++ d) : Books s' where
  kid := hkid
  one := by
    intro x y b c hx hy heq
    rw [hw.unwritten] at hx hy
    rw [hhand x b hx, hhand y c hy] at heq
    exact h.one x y b c hx hy heq
  hand := by
    intro x b hx
    rw [hw.unwritten] at hx
    obtain ⟨evs, hev, hf⟩ := h.hand x b hx
    rw [hw.eq hx, hhand x b hx, hfile]
    obtain ⟨d, hp, hq⟩ := hacc (s.heap b).kid
    refine ⟨evs, ?_, hf⟩
    rw [hp, hev, List.append_assoc _ (s'.queue _), hq]
    simp only [List.append_assoc]
  rest := by
    intro k hk
    have hk' : ∀ x b, (s.writers x).unwritten = some b → (s.heap b).kid ≠ k := by
      intro x b hx
      have hne := hk x b ((hw.unwritten x).trans hx)
      rw [hhand x b hx] at hne
      exact hne
    obtain ⟨evs, hev, hf⟩ := h.rest k hk'
    obtain ⟨d, hp, hq⟩ := hacc k
    refine ⟨evs, ?_, ?_⟩
    · rw [hp, hev, List.append_assoc _ (s'.queue _), hq]
      simp only [List.append_assoc]
    · rw [hfile]
      exact hf

/-- The files stay known. -/
theorem Known.frame (h : Known s) (hw : Quiet s s') (hfile : s'.file = s.file)
    (hbound : ∀ k, s'.opened k = true → k < s'.nkprocs)
    (hopen : ∀ k, s.opened k = true → s'.opened k = true)
    (hprod : ∀ k, s'.producers k ≠ .closed → s'.opened k = true)
    (hqueue : ∀ b ∈ s'.fifo, b ∈ s.fifo ∨ s'.opened (s'.heap b).kid = true)
    (hsub : ∀ b ∈ s.fifo, b ∈ s'.fifo)
    (hfifo : ∀ b ∈ s.fifo, (s'.heap b).kid = (s.heap b).kid)
    (hhand : ∀ x b, (s.writers x).unwritten = some b →
      (s'.heap b).kid = (s.heap b).kid)
    (hpres : ∀ k, s'.opened k = true → s.opened k = true ∨ s'.producers k ≠ .closed)
    (hmove : ∀ k, s.producers k ≠ .closed → s'.producers k ≠ .closed
      ∨ ∃ b ∈ s'.fifo, (s'.heap b).kid = k) : Known s' where
  bound := hbound
  producers := hprod
  queued := by
    intro b hb
    rcases hqueue b hb with hb' | hb'
    · rw [hfifo b hb']
      exact hopen _ (h.queued b hb')
    · exact hb'
  writers := by
    intro x b hx
    rw [hw.unwritten] at hx
    rw [hhand x b hx]
    exact hopen _ (h.writers x b hx)
  file := by
    intro k hk
    rw [hfile] at hk
    exact hopen _ (h.file k hk)
  present := by
    intro k hk
    rcases hpres k hk with hk | hk
    · rcases h.present k hk with hp | ⟨b, hb, hbk⟩ | ⟨x, b, hx, hbk⟩ | hf
      · exact (hmove k hp).imp_right .inl
      · exact .inr (.inl ⟨b, hsub b hb, (hfifo b hb).trans hbk⟩)
      · exact .inr (.inr (.inl ⟨x, b, (hw.unwritten x).trans hx,
          (hhand x b hx).trans hbk⟩))
      · rw [← hfile] at hf
        exact .inr (.inr (.inr hf))
    · exact .inl hk

/-- A writer keeps or drops its buffer. -/
theorem Owned.setWriter (h : Owned owner s) (hwr : s'.writers = update s.writers x pc)
    (hpr : s'.producers = s.producers) (hq : s'.fifo = s.fifo) (hf : s'.free = s.free)
    (hn : s'.next = s.next) (hpc : ∀ b, pc.buf = some b → (s.writers x).buf = some b) :
    Owned owner s' := by
  refine ⟨hpr ▸ h.producers, hq ▸ h.queued, hq ▸ h.queuedOnce, ?_, hf ▸ h.free,
    hf ▸ h.freeOnce, hn ▸ h.fresh⟩
  rw [hwr]
  exact update_forall (P := fun x (pc : WriterPc) => ∀ b, pc.buf = some b →
    owner b = .writer x) (fun b hb => h.writers x b (hpc b hb)) fun y _ =>
      h.writers y

/-- A kprocessor keeps or drops its buffer. -/
theorem Owned.setProducer (h : Owned owner s) {pc : ProducerPc}
    (hpc : ∀ b, pc.buf = some b → (s.producers k).buf = some b) :
    Owned owner (s.setProducer k pc) where
  producers := update_forall
    (P := fun k (pc : ProducerPc) => ∀ b, pc.buf = some b → owner b = .producer k)
    (fun b hb => h.producers k b (hpc b hb)) (fun j _ => h.producers j)
  queued := h.queued
  queuedOnce := h.queuedOnce
  writers := h.writers
  free := h.free
  freeOnce := h.freeOnce
  fresh := h.fresh

-- ======== producers' steps

/-- No finalisation while a kprocessor is open. -/
theorem Inv.writer_idle (h : Inv owner s) (hk : s.producers k ≠ .closed) :
    s.writers 1 = .idle := by
  by_contra hne
  exact hk (h.roles.closed hne k)

theorem closed_buf {pc : ProducerPc} (h : pc = .closed) : pc.buf = none := by
  rw [h]
  rfl

/-- A push keeps the invariant. -/
theorem Inv.push (h : Inv owner s) (hpc : s.producers k = .ready b) (e : α) :
    Inv owner (s.push k e b) := by
  have hbuf : (s.producers k).buf = some b := by
    rw [hpc]
    rfl
  obtain ⟨hq, hwr, hpr⟩ := h.owned.ne_of_producer (h.owned.producers k b hbuf)
  have hkidb : (s.heap b).kid = k := h.books.kid k b hbuf
  have hheap : ∀ c, c ≠ b → (s.push k e b).heap c = s.heap c :=
    fun c hc => update_of_ne hc ..
  have hself : (s.push k e b).heap b = ⟨(s.heap b).events ++ [e], (s.heap b).kid⟩ :=
    update_self ..
  have hkid : ∀ c, ((s.push k e b).heap c).kid = (s.heap c).kid := by
    intro c
    rcases eq_or_ne c b with rfl | hc
    · rw [hself]
    · rw [hheap c hc]
  have hprod : ∀ j, ((s.push k e b).producers j).buf = (s.producers j).buf := by
    refine update_forall (P := fun j (pc : ProducerPc) =>
      pc.buf = (s.producers j).buf)
      ?_ (fun j _ => rfl)
    rw [hbuf]
    split
    · rfl
    · rfl
  have hopened : ∀ j, (s.push k e b).producers j ≠ .closed → s.opened j = true := by
    refine update_forall (P := fun j pc => pc ≠ ProducerPc.closed → s.opened j
      = true)
      (fun _ => ?_) (fun j _ => h.known.producers j)
    apply h.known.producers k
    rw [hpc]
    exact nofun
  have hclosed : ∀ j, s.producers j ≠ .closed → (s.push k e b).producers j
    ≠ .closed := by
    refine update_forall
      (P := fun j (pc : ProducerPc) => s.producers j ≠ .closed → pc ≠ .closed)
      (fun _ => ?_) (fun j _ hj => hj)
    split
    · exact nofun
    · exact nofun
  have hhand : ∀ x c, (s.writers x).unwritten = some c →
      (s.push k e b).heap c = s.heap c := by
    intro x c hx
    apply hheap
    intro heq
    subst heq
    exact hwr x (unwritten_buf hx)
  have hqueue : ∀ j, (s.push k e b).queue j = s.queue j :=
    queue_congr rfl fun c hc => hheap c fun heq => hq (heq ▸ hc)
  have hidle : s.writers 1 = .idle := by
    apply h.writer_idle (k := k)
    rw [hpc]
    exact nofun
  refine ⟨⟨?_, h.owned.queued, h.owned.queuedOnce, h.owned.writers, h.owned.free,
    h.owned.freeOnce, h.owned.fresh⟩, ?_, ?_, ⟨h.stamps.stamped, h.stamps.free,
    h.stamps.freeing, h.stamps.since, h.stamps.fence⟩, ⟨h.roles.two, h.roles.range,
    h.roles.joining, h.roles.exited, fun hne => absurd hidle hne, h.roles.ended⟩⟩
  · intro j c hj
    exact h.owned.producers j c ((hprod j).symm.trans hj)
  · refine h.books.frame (fun _ => .inl rfl) rfl ?_ hhand ?_
    · intro j c hj
      rw [hkid]
      exact h.books.kid j c ((hprod j).symm.trans hj)
    · intro j
      rw [hqueue]
      rcases eq_or_ne j k with rfl | hne
      · refine ⟨[e], update_self .., ?_⟩
        have hcur : (s.push j e b).cur j = s.cur j ++ [e] := by
          rw [cur_of_buf hbuf, cur_of_buf ((hprod j).trans hbuf), hself]
        rw [hcur]
        simp only [List.append_assoc]
      · refine ⟨[], (update_of_ne hne ..).trans
          (List.append_nil _).symm, ?_⟩
        have hcur : (s.push k e b).cur j = s.cur j := by
          apply cur_congr (hprod j)
          intro c hc
          exact hheap c fun heq => hpr j hne (heq ▸ hc)
        rw [hcur]
        exact (List.append_nil _).symm
  · exact h.known.frame (fun _ => .inl rfl) rfl h.known.bound
      (fun _ hj => hj) hopened
      (fun c hc => .inl hc) (fun _ hc => hc) (fun c _ => hkid c)
      (fun _ c _ => hkid c) (fun _ hj => .inl hj)
        (fun j hj => .inl (hclosed j hj))

theorem update_owner {c : Nat} {o p q : Owner} (hb : owner b = p) (hc : owner c = o)
    (hne : o ≠ p) : update owner b q c = o := by
  rw [update_of_ne, hc]
  intro heq
  subst heq
  exact hne (hc.symm.trans hb)

/-- A buffer goes to the FIFO: a kprocessor flushes or closes it. -/
theorem Inv.enqueue (h : Inv owner s) (hbuf : (s.producers k).buf = some b)
    {pc : ProducerPc} (hpc : pc.buf = none) :
    Inv (update owner b .queued) ((s.enqueue b).setProducer k pc) := by
  have hown := h.owned.producers k b hbuf
  obtain ⟨hq, hwr, hpr⟩ := h.owned.ne_of_producer hown
  have hkidb : (s.heap b).kid = k := h.books.kid k b hbuf
  have hnc : s.producers k ≠ .closed := by
    intro hc
    rw [hc] at hbuf
    cases hbuf
  have hidle := h.writer_idle hnc
  have hstamp : ∀ c, c ≠ b →
      ((s.enqueue b).setProducer k pc).stamp c = s.stamp c :=
    fun c hc => update_of_ne hc ..
  have hheld : ∀ x c, (s.writers x).buf = some c → c ≠ b := by
    rintro x c hx rfl
    exact hwr x hx
  refine ⟨?_, ?_, ?_, ?_,
    ⟨h.roles.two, h.roles.range, h.roles.joining, h.roles.exited,
    fun hne => absurd hidle hne, fun hex => ?_⟩⟩
  · refine ⟨?_, ?_, ?_, ?_, ?_, h.owned.freeOnce, ?_⟩
    · refine update_forall (P := fun j (pc : ProducerPc) => ∀ c, pc.buf = some c →
        update owner b .queued c = .producer j) ?_ fun j hj c hc => ?_
      · intro c hc
        rw [hpc] at hc
        cases hc
      · refine update_owner hown (h.owned.producers j c hc) fun heq => ?_
        injection heq with heq
        exact hj heq
    · intro c hc
      rcases List.mem_append.mp hc with hc | hc
      · exact update_owner hown (h.owned.queued c hc) nofun
      · rw [List.mem_singleton.mp hc]
        exact update_self ..
    · exact List.nodup_append.mpr ⟨h.owned.queuedOnce, List.pairwise_singleton _ b,
        fun c hc d hd heq => hq (List.mem_singleton.mp hd ▸ heq ▸ hc)⟩
    · exact fun x c hc =>
        update_owner hown (h.owned.writers x c hc) nofun
    · exact fun c hc => update_owner hown (h.owned.free c hc) nofun
    · exact fun c hc => update_owner hown (h.owned.fresh c hc) nofun
  · refine h.books.frame (fun _ => .inl rfl) rfl ?_ (fun _ _ _ => rfl) ?_
    · refine update_forall (P := fun j (pc : ProducerPc) => ∀ c, pc.buf = some c →
        (s.heap c).kid = j) ?_ fun j _ => h.books.kid j
      intro c hc
      rw [hpc] at hc
      cases hc
    · intro j
      refine ⟨[], (List.append_nil _).symm, ?_⟩
      rw [List.append_nil]
      have hqueue : ((s.enqueue b).setProducer k pc).queue j
          = s.queue j ++ if (s.heap b).kid = j then (s.heap b).events else [] := by
        unfold queue
        show ((s.fifo ++ [b]).filter fun b => (s.heap b).kid = j).flatMap
          (fun b => (s.heap b).events) = _
        rw [List.filter_append, List.flatMap_append]
        congr 1
        by_cases hj : (s.heap b).kid = j
        · simp [hj]
        · simp [hj]
      rw [hqueue]
      rcases eq_or_ne j k with rfl | hne
      · have hcur : ((s.enqueue b).setProducer j pc).cur j = [] := by
          apply cur_of_none
          show (update s.producers j pc j).buf = none
          rw [update_self, hpc]
        rw [hcur, cur_of_buf hbuf, if_pos hkidb, List.append_nil]
      · have hcur : ((s.enqueue b).setProducer k pc).cur j = s.cur j := by
          refine cur_congr ?_ ?_
          swap
          · exact fun _ _ => rfl
          show (update s.producers k pc j).buf = _
          rw [update_of_ne hne]
        rw [hcur, if_neg (hkidb ▸ hne.symm), List.append_nil]
  · refine h.known.frame (fun _ => .inl rfl) rfl h.known.bound
      (fun _ hj => hj) ?_ ?_
      (fun c hc => List.mem_append_left _ hc) (fun _ _ => rfl) (fun _ _ _ => rfl)
      (fun _ hj => .inl hj) ?_
    · exact update_forall
        (P := fun j pc => pc ≠ ProducerPc.closed → s.opened j = true)
        (fun _ => h.known.producers k hnc) (fun j _ => h.known.producers j)
    · intro c hc
      rcases List.mem_append.mp hc with hc | hc
      · exact .inl hc
      · right
        rw [List.mem_singleton.mp hc]
        show s.opened (s.heap b).kid = true
        rw [hkidb]
        exact h.known.producers k hnc
    · intro j hj
      rcases eq_or_ne j k with rfl | hne
      · exact .inr ⟨b, List.mem_append_right _ List.mem_cons_self, hkidb⟩
      · left
        show update s.producers k pc j ≠ .closed
        rw [update_of_ne hne]
        exact hj
  · refine ⟨?_, ?_, ?_, fun x => Nat.le_succ_of_le (h.stamps.since x),
      h.stamps.fence⟩
    · intro n hn
      rcases Nat.lt_succ_iff_lt_or_eq.mp hn with hlt | rfl
      · rcases h.stamps.stamped n hlt with hw | ⟨c, hc, hcn⟩ | ⟨x, c, hc, hcn⟩
        · exact .inl hw
        · have hcb : c ≠ b := fun heq => hq (heq ▸ hc)
          exact .inr (.inl ⟨c, List.mem_append_left _ hc,
            (hstamp c hcb).trans hcn⟩)
        · have hcb := hheld x c (unwritten_buf hc)
          exact .inr (.inr ⟨x, c, hc, (hstamp c hcb).trans hcn⟩)
      · exact .inr (.inl ⟨b, List.mem_append_right _ List.mem_cons_self,
          update_self ..⟩)
    · intro c hc
      rw [hstamp c]
      · exact h.stamps.free c hc
      · intro heq
        subst heq
        have hf := h.owned.free c hc
        rw [hown] at hf
        cases hf
    · intro x c hc
      rw [hstamp c]
      · exact h.stamps.freeing x c hc
      · apply hheld x c
        change s.writers x = _ at hc
        rw [hc]
        rfl
  · rw [show s.writers 1 = .exited from hex] at hidle
    cases hidle

/-- The state in which `k` has got the buffer `b`. -/
def acquire (k b n : Nat) (f : List Nat) (o : Nat → Bool) (s : Recorder α) :
    Recorder α :=
  { s with
    heap := update s.heap b ⟨[], k⟩
    next := n
    free := f
    producers := update s.producers k (.ready b)
    opened := o }

/-- A kprocessor gets a buffer that nobody has. -/
theorem Owned.acquire (h : Owned owner s) {n : Nat} {o : Nat → Bool}
    (hb : owner b = .nobody ∨ owner b = .free) (hn : s.next ≤ n ∧ b < n)
    (hf : f.Nodup ∧ ∀ c ∈ f, c ∈ s.free ∧ c ≠ b) :
    Owned (update owner b (.producer k)) (s.acquire k b n f o) := by
  have hother : ∀ {c p}, owner c = p → p ≠ .nobody → p ≠ .free →
      update owner b (.producer k) c = p := by
    intro c p hc h₁ h₂
    rcases hb with hb | hb
    · exact update_owner hb hc h₁
    · exact update_owner hb hc h₂
  refine ⟨?_, ?_, h.queuedOnce, ?_, ?_, hf.1, ?_⟩
  · refine update_forall (P := fun j (pc : ProducerPc) => ∀ c, pc.buf = some c →
      update owner b (.producer k) c = .producer j) ?_ fun j _ c hc => ?_
    · intro c hc
      cases hc
      exact update_self ..
    · exact hother (h.producers j c hc) nofun nofun
  · exact fun c hc => hother (h.queued c hc) nofun
      nofun
  · exact fun x c hc => hother (h.writers x c hc) nofun
      nofun
  · intro c hc
    obtain ⟨hmem, hne⟩ := hf.2 c hc
    rw [update_of_ne hne]
    exact h.free c hmem
  · intro c hc
    change n ≤ c at hc
    rw [update_of_ne (by omega)]
    exact h.fresh c (Nat.le_trans hn.1 hc)

/-- The invariant when it does. -/
theorem Inv.acquire (h : Inv owner s) (hbuf : (s.producers k).buf = none)
    (hidle : s.writers 1 = .idle) {n : Nat} {o : Nat → Bool}
    (hb : owner b = .nobody ∨ owner b = .free) (hn : s.next ≤ n ∧ b < n)
    (hf : f.Nodup ∧ ∀ c ∈ f, c ∈ s.free ∧ c ≠ b) (hk : k < s.nkprocs)
    (ho : o k = true ∧ ∀ j, j ≠ k → o j = s.opened j) :
    Inv (update owner b (.producer k)) (s.acquire k b n f o) := by
  have hnot : ∀ {c p}, owner c = p → p ≠ .nobody → p ≠ .free → c ≠ b := by
    rintro c p hc h₁ h₂ rfl
    rcases hb with hb | hb
    · exact h₁ (hc.symm.trans hb)
    · exact h₂ (hc.symm.trans hb)
  have hq : ∀ c ∈ s.fifo, c ≠ b := fun c hc =>
    hnot (h.owned.queued c hc) nofun nofun
  have hwr : ∀ x c, (s.writers x).buf = some c → c ≠ b := fun x c hc =>
    hnot (h.owned.writers x c hc) nofun nofun
  have hpr : ∀ j c, (s.producers j).buf = some c → c ≠ b := fun j c hc =>
    hnot (h.owned.producers j c hc) nofun nofun
  have hheap : ∀ c, c ≠ b → (s.acquire k b n f o).heap c = s.heap c :=
    fun c hc => update_of_ne hc ..
  have hself : (s.acquire k b n f o).heap b = ⟨[], k⟩ := update_self ..
  have hopen : ∀ j, s.opened j = true → o j = true := by
    intro j hj
    rcases eq_or_ne j k with rfl | hne
    · exact ho.1
    · rw [ho.2 j hne]
      exact hj
  have hbound : ∀ j, o j = true → j < s.nkprocs := by
    intro j hj
    rcases eq_or_ne j k with rfl | hne
    · exact hk
    · exact h.known.bound j (ho.2 j hne ▸ hj)
  refine ⟨h.owned.acquire hb hn hf, ?_, ?_, ⟨h.stamps.stamped,
    fun c hc => h.stamps.free c (hf.2 c hc).1, h.stamps.freeing, h.stamps.since,
    h.stamps.fence⟩, ⟨h.roles.two, h.roles.range, h.roles.joining, h.roles.exited,
    fun hne => absurd hidle hne, h.roles.ended⟩⟩
  · refine h.books.frame (fun _ => .inl rfl) rfl ?_
      (fun x c hc => hheap c (hwr x c (unwritten_buf hc))) ?_
    · refine update_forall (P := fun j (pc : ProducerPc) => ∀ c, pc.buf = some c →
        ((s.acquire k b n f o).heap c).kid = j) ?_ fun j _ c hc => ?_
      · intro c hc
        injection hc with hc
        rw [← hc, hself]
      · rw [hheap c (hpr j c hc)]
        exact h.books.kid j c hc
    · intro j
      refine ⟨[], (List.append_nil _).symm, ?_⟩
      have hqueue : ∀ j, (s.acquire k b n f o).queue j = s.queue j :=
        queue_congr rfl fun c hc => hheap c (hq c hc)
      have hcur : (s.acquire k b n f o).cur j = s.cur j := by
        rcases eq_or_ne j k with rfl | hne
        · have hready : ((s.acquire j b n f o).producers j).buf = some b := by
            show (update s.producers j (.ready b) j).buf = some b
            rw [update_self]
            rfl
          rw [cur_of_none hbuf, cur_of_buf hready, hself]
        · refine cur_congr ?_ ?_
          · show (update s.producers k _ j).buf = _
            rw [update_of_ne hne]
          · exact fun c hc => hheap c (hpr j c hc)
      rw [hqueue, hcur, List.append_nil]
  · refine h.known.frame (fun _ => .inl rfl) rfl hbound hopen ?_
      (fun c hc => .inl hc) (fun _ hc => hc) (fun c hc => ?_)
        (fun x c hc => ?_) ?_ ?_
    · exact update_forall (P := fun j pc => pc ≠ ProducerPc.closed → o j = true)
        (fun _ => ho.1) (fun j _ hj => hopen j (h.known.producers j hj))
    · rw [hheap c (hq c hc)]
    · rw [hheap c (hwr x c (unwritten_buf hc))]
    · exact update_forall
        (P := fun j (pc : ProducerPc) => o j = true → s.opened j = true ∨ pc
          ≠ .closed)
        (fun _ => .inr nofun) fun j hne hj =>
          .inl (ho.2 j hne ▸ hj)
    · intro j hj
      left
      refine update_forall (P := fun j (pc : ProducerPc) =>
        s.producers j ≠ .closed →
        pc ≠ .closed) ?_ (fun j _ hj => hj) j hj
      exact nofun

/-- A kprocessor moves with the buffer that it has. -/
theorem Inv.setProducer (h : Inv owner s) (pc : ProducerPc)
    (hbuf : pc.buf = (s.producers k).buf) (hk : s.producers k ≠ .closed)
    (hpc : pc ≠ .closed) : Inv owner (s.setProducer k pc) := by
  have hprod : ∀ j, ((s.setProducer k pc).producers j).buf = (s.producers j).buf :=
    update_forall (P := fun j (pc : ProducerPc) => pc.buf = (s.producers j).buf)
      hbuf fun _ _ => rfl
  have hidle := h.writer_idle hk
  refine ⟨h.owned.setProducer fun c hc => hbuf ▸ hc, ?_, ?_, ⟨h.stamps.stamped,
    h.stamps.free, h.stamps.freeing, h.stamps.since, h.stamps.fence⟩, ⟨h.roles.two,
    h.roles.range, h.roles.joining, h.roles.exited, fun hne => absurd hidle hne,
    h.roles.ended⟩⟩
  · refine h.books.frame (fun _ => .inl rfl) rfl
      (fun j c hj => h.books.kid j c ((hprod j).symm.trans hj))
        (fun _ _ _ => rfl) ?_
    intro j
    refine ⟨[], (List.append_nil _).symm, ?_⟩
    rw [cur_congr (hprod j) fun _ _ => rfl, List.append_nil]
    rfl
  · refine h.known.frame (fun _ => .inl rfl) rfl h.known.bound (fun _ hj => hj) ?_
      (fun c hc => .inl hc) (fun _ hc => hc) (fun _ _ => rfl)
      (fun _ _ _ => rfl) (fun _ hj => .inl hj) (fun j hj => .inl ?_)
    · exact update_forall
        (P := fun j pc => pc ≠ ProducerPc.closed → s.opened j = true)
        (fun _ => h.known.producers k hk) fun j _ => h.known.producers j
    · exact update_forall (P := fun j (pc : ProducerPc) => s.producers j ≠ .closed →
        pc ≠ .closed) (fun _ => hpc) (fun j _ hj => hj) j hj

/-- Every step of a flush keeps the invariant. -/
theorem Inv.producerStep (h : Inv owner s) (hk : k < s.nkprocs)
    (hs : s.producerStep k = some s') :
    ∃ owner', Inv owner' s' := by
  unfold Recorder.producerStep at hs
  have hnc := fun hne => h.writer_idle (k := k) hne
  have hopen := h.known.producers k
  cases hpc : s.producers k with
  | closed =>
    rw [hpc] at hs
    cases hs
  | ready b =>
    rw [hpc] at hs
    cases hs
  | flushing b =>
    rw [hpc] at hs
    simp only at hs
    split at hs
    next => cases hs
    next =>
      cases hs
      exact ⟨_, h.enqueue (by rw [hpc]; rfl) rfl⟩
  | allocating =>
    have hidle := hnc (by rw [hpc]; exact nofun)
    rw [hpc] at hs hopen
    simp only at hs
    split at hs
    next hfree =>
      cases hs
      refine ⟨_, h.acquire (b := s.next) (n := s.next + 1) (f := s.free)
        (o := s.opened) (by rw [hpc]; rfl) hidle
        (.inl (h.owned.fresh _ (Nat.le_refl _)))
          ⟨Nat.le_succ _, Nat.lt_succ_self _⟩
        ⟨h.owned.freeOnce, fun c hc => ?_⟩
        hk ⟨hopen nofun, fun _ _ => rfl⟩⟩
      rw [hfree] at hc
      cases hc
    next =>
      cases hs
      refine ⟨owner, h.setProducer .popping ?_ ?_ ?_⟩
      · rw [hpc]
        rfl
      · rw [hpc]
        exact nofun
      · exact nofun
  | popping =>
    have hidle := hnc (by rw [hpc]; exact nofun)
    rw [hpc] at hs hopen
    simp only at hs
    split at hs
    next hfree =>
      cases hs
      refine ⟨_, h.acquire (b := s.next) (n := s.next + 1) (f := s.free)
        (o := s.opened) (by rw [hpc]; rfl) hidle
        (.inl (h.owned.fresh _ (Nat.le_refl _)))
          ⟨Nat.le_succ _, Nat.lt_succ_self _⟩
        ⟨h.owned.freeOnce, fun c hc => ?_⟩
        hk ⟨hopen nofun, fun _ _ => rfl⟩⟩
      rw [hfree] at hc
      cases hc
    next b rest hfree =>
      cases hs
      have hmem : b ∈ s.free := by
        rw [hfree]
        exact List.mem_cons_self
      have hnodup := h.owned.freeOnce
      rw [hfree, List.nodup_cons] at hnodup
      have hlt : b < s.next := by
        by_contra hge
        have hno := h.owned.fresh b (Nat.le_of_not_lt hge)
        rw [h.owned.free b hmem] at hno
        cases hno
      refine ⟨_, h.acquire (b := b) (n := s.next) (f := rest) (o := s.opened)
        (by rw [hpc]; rfl) hidle (.inr (h.owned.free b hmem))
        ⟨Nat.le_refl _, hlt⟩ ⟨hnodup.2, fun c hc => ⟨?_, ?_⟩⟩
        hk ⟨hopen nofun, fun _ _ => rfl⟩⟩
      · rw [hfree]
        exact List.mem_cons_of_mem _ hc
      · intro heq
        subst heq
        exact hnodup.1 hc

-- ======== writers' steps

/-- A step that writes no file and moves no buffer keeps it. -/
theorem Inv.quiet (h : Inv owner s) {owner' : Nat → Owner} (hw : Quiet s s')
    (howned : Owned owner' s') (hstamps : Stamps s') (hroles : Roles s')
    (hheap : s'.heap = s.heap) (hfile : s'.file = s.file) (hfifo : s'.fifo = s.fifo)
    (hprod : s'.producers = s.producers) (hopened : s'.opened = s.opened)
    (hn : s'.nkprocs = s.nkprocs)
      (hpushed : s'.pushed = s.pushed) : Inv owner' s' := by
  refine ⟨howned, ?_, ?_, hstamps, hroles⟩
  · refine h.books.frame hw hfile ?_ (fun _ b _ => by rw [hheap]) fun j =>
      ⟨[], ?_, ?_⟩
    · intro k b hb
      rw [hprod] at hb
      rw [hheap]
      exact h.books.kid k b hb
    · rw [hpushed, List.append_nil]
    · have hq : s'.queue j = s.queue j :=
        queue_congr hfifo (fun b _ => by rw [hheap]) j
      have hc : s'.cur j = s.cur j :=
        cur_congr (by rw [hprod]) fun b _ => by rw [hheap]
      rw [hq, hc, List.append_nil]
  · refine h.known.frame hw hfile ?_ ?_ ?_ ?_ ?_ ?_ ?_ ?_ ?_
    · rw [hopened, hn]
      exact h.known.bound
    · intro k hk
      rw [hopened]
      exact hk
    · intro k hk
      rw [hprod] at hk
      rw [hopened]
      exact h.known.producers k hk
    · intro b hb
      rw [hfifo] at hb
      exact .inl hb
    · intro b hb
      rw [hfifo]
      exact hb
    · intro b _
      rw [hheap]
    · intro x b _
      rw [hheap]
    · intro k hk
      rw [hopened] at hk
      exact .inl hk
    · intro k hk
      rw [hprod]
      exact .inl hk

/-- What the stamps need of a writer that moves without an unwritten
buffer: where it ends free of a buffer the buffer is written, and a fence
that returns has seen the buffers of before its call. -/
theorem Stamps.quiet (h : Stamps s) (hw : Quiet s s') (hfifo : s'.fifo = s.fifo)
    (hfl : s'.flushed = s.flushed) (hst : s'.stamp = s.stamp)
    (hwr : s'.written = s.written)
    (hfree : ∀ b ∈ s'.free, s.stamp b ∈ s.written)
    (hfreeing : ∀ x b, s'.writers x = .freeing b → s.stamp b ∈ s.written)
    (hsince : ∀ x, s'.since x ≤ s.flushed)
    (hfence : ∀ x, 1 < x → s'.writers x = .idle → ∀ n < s'.since x, n ∈ s.written) :
    Stamps s' where
  stamped := by
    rw [hfl, hst, hwr, hfifo]
    intro n hn
    simp only [hw.unwritten]
    exact h.stamped n hn
  free := by
    rw [hst, hwr]
    exact hfree
  freeing := by
    rw [hst, hwr]
    exact hfreeing
  since := by
    rw [hfl]
    exact hsince
  fence := by
    rw [hwr]
    exact hfence

theorem Roles.setWriter (h : Roles s) (hwr : s'.writers = update s.writers x pc)
    (hn : s'.nwriters = s.nwriters) (hpr : s'.producers = s.producers)
    (hx : x < s.nwriters) (hjoin : pc = .joining → x = 1) (hexit : pc = .exited → x ≤ 1)
    (hclosed : x = 1 → pc ≠ .idle → ∀ k, s.producers k = .closed)
    (hend : s'.writers 1 = .exited → s'.fifo = [] ∧ ∀ y, (s'.writers y).unwritten = none) :
    Roles s' := by
  refine ⟨hn ▸ h.two, ?_, ?_, ?_, ?_, hend⟩
  · rw [hwr, hn]
    exact update_forall (P := fun y (pc : WriterPc) => s.nwriters ≤ y → pc = .idle)
      (fun hy => absurd hx (Nat.not_lt.mpr hy)) fun y _ => h.range y
  · rw [hwr]
    exact update_forall (P := fun y pc => pc = WriterPc.joining → y = 1)
      hjoin fun y _ => h.joining y
  · rw [hwr]
    exact update_forall (P := fun y pc => pc = WriterPc.exited → y ≤ 1)
      hexit fun y _ => h.exited y
  · rw [hwr, hpr]
    refine update_forall (P := fun y pc => y = 1 → pc ≠ WriterPc.idle →
      ∀ k, s.producers k = .closed) hclosed (fun y _ hy => ?_) 1 rfl
    rw [hy]
    exact h.closed

/-- A writer that is not the finalisation, or not at its end, and that has
no unwritten buffer: what the end of the finalisation is stays. -/
theorem Roles.ended_setWriter (h : Roles s) (hwr : s'.writers = update s.writers x pc)
    (hq : s'.fifo = s.fifo) (hpc : x = 1 → pc ≠ .exited) (hu : pc.unwritten = none) :
    s'.writers 1 = .exited → s'.fifo = [] ∧ ∀ y,
      (s'.writers y).unwritten = none := by
  intro hex
  have hold : s.writers 1 = .exited := by
    rw [hwr] at hex
    rcases eq_or_ne 1 x with hx | hx
    · rw [← hx, update_self] at hex
      exact absurd hex (hpc hx.symm)
    · rw [update_of_ne hx] at hex
      exact hex
  rw [hq, hwr]
  exact ⟨(h.ended hold).1,
    update_forall (P := fun _ (pc : WriterPc) => pc.unwritten = none)
    hu fun y _ => (h.ended hold).2 y⟩

/-- A fence begins. -/
theorem Inv.fencebuffers (h : Inv owner s) (h1 : 1 < x) (hx : x < s.nwriters)
    (hpc : s.writers x = .idle) :
    Inv owner ({ s with since := update s.since x s.flushed }.setWriter x
      .scanning) := by
  have hne : x ≠ 1 := Nat.ne_of_gt h1
  have hw : Quiet s ({ s with since := update s.since x s.flushed
    }.setWriter x
      .scanning) :=
    quiet_setWriter (s := s) rfl (by rw [hpc]; rfl)
  refine h.quiet hw ?_ ?_ ?_ rfl rfl rfl rfl rfl rfl rfl
  · exact h.owned.setWriter rfl rfl rfl rfl rfl fun b hb => nomatch hb
  · refine h.stamps.quiet hw rfl rfl rfl rfl h.stamps.free ?_ ?_ ?_
    · exact update_forall (P := fun x pc => ∀ b, pc = WriterPc.freeing b →
        s.stamp b ∈ s.written) (fun b hb => nomatch hb) fun y _ =>
          h.stamps.freeing y
    · exact update_forall (P := fun _ n => n ≤ s.flushed) (Nat.le_refl _)
        fun y _ => h.stamps.since y
    · intro y hy hidle n hn
      rcases eq_or_ne y x with rfl | hyx
      · change update s.writers y _ y = _ at hidle
        rw [update_self] at hidle
        cases hidle
      · change update s.writers x _ y = _ at hidle
        change n < update s.since x _ y at hn
        rw [update_of_ne hyx] at hidle hn
        exact h.stamps.fence y hy hidle n hn
  · exact h.roles.setWriter rfl rfl rfl hx nofun
      nofun (fun heq => absurd heq hne)
      (h.roles.ended_setWriter rfl rfl nofun rfl)

/-- A writer without buffer goes on. -/
theorem Inv.moveWriter (h : Inv owner s) {f g : Bool}
    (hux : (s.writers x).unwritten = none) (hu : pc.unwritten = none)
    (hbuf : pc.buf = none) (hidle : 1 < x → pc = .idle → ∀ n < s.since x, n ∈ s.written)
    (hroles : Roles ({ s with finalize := f, held := g }.setWriter x pc)) :
    Inv owner ({ s with finalize := f, held := g }.setWriter x pc) := by
  have hw : Quiet s ({ s with finalize := f, held := g }.setWriter x pc) :=
    quiet_setWriter (s := s) hu hux
  refine h.quiet hw ?_ ?_ hroles rfl rfl rfl rfl rfl rfl rfl
  · exact h.owned.setWriter rfl rfl rfl rfl rfl fun b hb => by rw [hbuf] at hb; cases hb
  · refine h.stamps.quiet hw rfl rfl rfl rfl h.stamps.free ?_ h.stamps.since ?_
    · refine update_forall (P := fun x pc => ∀ b, pc = WriterPc.freeing b →
        s.stamp b ∈ s.written) (fun b hb => ?_) fun y _ => h.stamps.freeing y
      rw [hb] at hbuf
      cases hbuf
    · exact update_forall (P := fun x pc => 1 < x → pc = WriterPc.idle →
        ∀ n < s.since x, n ∈ s.written) hidle fun y _ => h.stamps.fence y

/-- The finalisation begins. -/
theorem Inv.fini (h : Inv owner s) (hpc : s.writers 1 = .idle)
    (hclosed : ∀ k, s.producers k = .closed) :
    Inv owner ({ s with finalize := true }.setWriter 1 .joining) := by
  refine h.moveWriter (by rw [hpc]; rfl) rfl rfl nofun ?_
  exact h.roles.setWriter rfl rfl rfl h.roles.two (fun _ => rfl)
    nofun (fun _ _ => hclosed)
    (h.roles.ended_setWriter rfl rfl nofun rfl)

/-- It has joined the collector, and takes the lock. -/
theorem Inv.joined (h : Inv owner s) (hpc : s.writers x = .joining)
    (hx : x < s.nwriters) :
    Inv owner ({ s with held := true }.setWriter x .scanning) := by
  have hone := h.roles.joining x hpc
  refine h.moveWriter (by rw [hpc]; rfl) rfl rfl nofun ?_
  refine h.roles.setWriter rfl rfl rfl hx nofun nofun (fun _ _ => ?_)
    (h.roles.ended_setWriter rfl rfl nofun rfl)
  apply h.roles.closed
  rw [← hone, hpc]
  exact nofun

theorem unwritten_of_range (h : Roles s) (hx : s.nwriters ≤ x) :
    (s.writers x).unwritten = none := by
  rw [h.range x hx]
  rfl

section

variable (h : Inv owner s) (hx : x < s.nwriters)
include h hx

/-- A writer finds the FIFO empty. -/
theorem Inv.emptyStep (hpc : s.writers x = .scanning) (hempty : s.fifo = [])
    (hm : ∀ y, y ≠ x → ∀ c, (s.writers y).unwritten = some c →
      (1 < x → s.since x ≤ s.stamp c) ∧ x ≠ 1) (hs : s.emptyStep x = some s') :
    Inv owner s' := by
  have hux : (s.writers x).unwritten = none := by
    rw [hpc]
    rfl
  unfold Recorder.emptyStep at hs
  split at hs
  next h0 =>
    split at hs
    next =>
      cases hs
      refine h.moveWriter hux rfl rfl nofun ?_
      exact h.roles.setWriter rfl rfl rfl hx nofun
        (fun _ => by omega) (fun h1 => by omega)
        (h.roles.ended_setWriter rfl rfl (fun h1 => by omega) rfl)
    next => cases hs
  next h0 =>
    split at hs
    next h1 =>
      cases hs
      have hw : Quiet s ({ s with held := false }.setWriter x .exited) :=
        quiet_setWriter (s := s) rfl hux
      have hnone : ∀ y, (s.writers y).unwritten = none := by
        intro y
        rcases eq_or_ne y x with rfl | hne
        · exact hux
        · rcases hc : (s.writers y).unwritten with _ | c
          · rfl
          · exact absurd h1 (hm y hne c hc).2
      refine h.moveWriter hux rfl rfl nofun ?_
      refine h.roles.setWriter rfl rfl rfl hx nofun
        (fun _ => Nat.le_of_eq h1) (fun _ _ => ?_) fun _ => ⟨hempty, fun y => ?_⟩
      · apply h.roles.closed
        rw [← h1, hpc]
        exact nofun
      · exact (hw.unwritten y).trans (hnone y)
    next h1 =>
      cases hs
      refine h.moveWriter hux rfl rfl (fun hlt _ n hn => ?_) ?_
      · -- the buffer is written, or a writer holds one of before the call
        rcases h.stamps.stamped n (Nat.lt_of_lt_of_le hn (h.stamps.since x))
          with hwr | ⟨c, hc, -⟩ | ⟨y, c, hc, hcn⟩
        · exact hwr
        · rw [hempty] at hc
          cases hc
        · have hne : y ≠ x := by
            intro heq
            subst heq
            rw [hux] at hc
            cases hc
          have hle := (hm y hne c hc).1 hlt
          omega
      · exact h.roles.setWriter rfl rfl rfl hx nofun
          nofun (fun h1' => absurd h1' h1)
          (h.roles.ended_setWriter rfl rfl nofun rfl)

/-- A written buffer is freed: to the free list, or to the system. -/
theorem Inv.freed (hpc : s.writers x = .freeing b) {o : Owner}
    (ho : (o = .free ∧ f = b :: s.free) ∨ (o = .nobody ∧ f = s.free)) :
    Inv (update owner b o)
      ({ s with free := f }.setWriter x .scanning) := by
  have hown : owner b = .writer x := by
    apply h.owned.writers
    rw [hpc]
    rfl
  have hw : Quiet s ({ s with free := f }.setWriter x .scanning) :=
    quiet_setWriter (s := s) rfl (by rw [hpc]; rfl)
  have hmem : ∀ c ∈ f, c = b ∧ o = .free ∨ c ∈ s.free := by
    intro c hc
    rcases ho with ⟨ho, hf⟩ | ⟨-, hf⟩
    · rw [hf] at hc
      rcases List.mem_cons.mp hc with rfl | hc
      · exact .inl ⟨rfl, ho⟩
      · exact .inr hc
    · exact .inr (hf ▸ hc)
  refine h.quiet hw ?_ ?_ ?_ rfl rfl rfl rfl rfl rfl rfl
  · have hkeep : ∀ {c p}, owner c = p → p ≠ .writer x →
        update owner b o c = p := update_owner hown
    refine ⟨fun j c hc => hkeep (h.owned.producers j c hc) nofun,
      fun c hc => hkeep (h.owned.queued c hc) nofun,
      h.owned.queuedOnce, ?_, ?_, ?_,
      fun c hc => hkeep (h.owned.fresh c hc) nofun⟩
    · refine update_forall (P := fun y (pc : WriterPc) => ∀ c, pc.buf = some c →
        update owner b o c = .writer y) (fun c hc => nomatch hc) ?_
      intro y hne c hc
      refine update_owner hown (h.owned.writers y c hc) fun heq => ?_
      injection heq with heq
      exact hne heq
    · intro c hc
      rcases hmem c hc with ⟨rfl, hof⟩ | hc
      · rw [update_self, hof]
      · exact update_owner hown (h.owned.free c hc) nofun
    · rcases ho with ⟨-, hf⟩ | ⟨-, hf⟩
      · show f.Nodup
        rw [hf, List.nodup_cons]
        refine ⟨fun hmem => ?_, h.owned.freeOnce⟩
        have hfree := h.owned.free b hmem
        rw [hown] at hfree
        cases hfree
      · show f.Nodup
        rw [hf]
        exact h.owned.freeOnce
  · refine h.stamps.quiet hw rfl rfl rfl rfl ?_ ?_ h.stamps.since ?_
    · intro c hc
      rcases hmem c hc with ⟨rfl, -⟩ | hc
      · exact h.stamps.freeing x c hpc
      · exact h.stamps.free c hc
    · exact update_forall (P := fun x pc => ∀ b, pc = WriterPc.freeing b →
        s.stamp b ∈ s.written) (fun b hb => nomatch hb) fun y _ =>
          h.stamps.freeing y
    · exact update_forall (P := fun x pc => 1 < x → pc = WriterPc.idle →
        ∀ n < s.since x, n ∈ s.written) nofun
        fun y _ => h.stamps.fence y
  · refine h.roles.setWriter rfl rfl rfl hx nofun
      nofun (fun h1 _ => ?_)
      (h.roles.ended_setWriter rfl rfl nofun rfl)
    apply h.roles.closed
    rw [← h1, hpc]
    exact nofun

/-- A writer takes the first buffer of the FIFO, of which no other writer
holds a buffer of the same kprocessor. -/
theorem Inv.take (hpc : s.writers x = .scanning) {rest : List Nat}
    (hfifo : s.fifo = b :: rest)
    (hm : ∀ y, y ≠ x → ∀ c, (s.writers y).unwritten = some c →
      (s.heap c).kid ≠ (s.heap b).kid) :
    Inv (update owner b (.writer x))
      ({ s with fifo := rest }.setWriter x (.testing b)) := by
  have hmem : b ∈ s.fifo := by
    rw [hfifo]
    exact List.mem_cons_self
  have hown := h.owned.queued b hmem
  have hnodup := h.owned.queuedOnce
  rw [hfifo, List.nodup_cons] at hnodup
  have hsub : ∀ c ∈ rest, c ∈ s.fifo := by
    intro c hc
    rw [hfifo]
    exact List.mem_cons_of_mem _ hc
  have hux : (s.writers x).unwritten = none := by
    rw [hpc]
    rfl
  have hself : ({ s with fifo := rest }.setWriter x (.testing b)).writers x
    = .testing b :=
    update_self ..
  have hother : ∀ y, y ≠ x →
      ({ s with fifo := rest }.setWriter x (.testing b)).writers y = s.writers y :=
    fun y hy => update_of_ne hy ..
  have hnokid : ∀ y c, (s.writers y).unwritten = some c →
      (s.heap c).kid ≠ (s.heap b).kid := by
    intro y c hc
    rcases eq_or_ne y x with rfl | hy
    · rw [hux] at hc
      cases hc
    · exact hm y hy c hc
  have hqueue : ∀ k, s.queue k
    = (if (s.heap b).kid = k then (s.heap b).events else [])
      ++ ({ s with fifo := rest }.setWriter x (.testing b)).queue k := by
    intro k
    unfold queue
    rw [hfifo]
    show ((b :: rest).filter fun b => (s.heap b).kid = k).flatMap
        (fun b => (s.heap b).events)
      = _ ++ (rest.filter fun b => (s.heap b).kid = k).flatMap
        fun b => (s.heap b).events
    by_cases hk : (s.heap b).kid = k
    · simp [hk]
    · simp [hk]
  refine ⟨?_, ⟨h.books.kid, ?_, ?_, ?_⟩, ?_, ?_, ?_⟩
  · refine ⟨fun j c hc => update_owner hown (h.owned.producers j c hc)
        nofun, ?_, hnodup.2, ?_,
      fun c hc => update_owner hown (h.owned.free c hc) nofun,
      h.owned.freeOnce,
      fun c hc => update_owner hown (h.owned.fresh c hc) nofun⟩
    · intro c hc
      rw [update_of_ne]
      · exact h.owned.queued c (hsub c hc)
      · intro heq
        subst heq
        exact hnodup.1 hc
    · refine update_forall (P := fun y (pc : WriterPc) => ∀ c, pc.buf = some c →
        update owner b (.writer x) c = .writer y) ?_ fun y _ c hc => ?_
      · intro c hc
        cases hc
        exact update_self ..
      · exact update_owner hown (h.owned.writers y c hc) nofun
  · intro y z c d hc hd heq
    rcases eq_or_ne y x with rfl | hy
    · rcases eq_or_ne z y with rfl | hz
      · rfl
      · rw [hself] at hc
        rw [hother z hz] at hd
        injection hc with hc
        rw [← hc] at heq
        exact absurd heq.symm (hnokid z d hd)
    · rcases eq_or_ne z x with rfl | hz
      · rw [hself] at hd
        rw [hother y hy] at hc
        injection hd with hd
        rw [← hd] at heq
        exact absurd heq (hnokid y c hc)
      · rw [hother y hy] at hc
        rw [hother z hz] at hd
        exact h.books.one y z c d hc hd heq
  · intro y c hc
    rcases eq_or_ne y x with rfl | hy
    · rw [hself] at hc ⊢
      cases hc
      obtain ⟨evs, hev, hf⟩ := h.books.rest (s.heap b).kid hnokid
      refine ⟨evs, ?_, hf⟩
      show s.pushed (s.heap b).kid = _
      rw [hev, hqueue, if_pos rfl]
      simp only [List.append_assoc]
      rfl
    · rw [hother y hy] at hc ⊢
      obtain ⟨evs, hev, hf⟩ := h.books.hand y c hc
      refine ⟨evs, ?_, hf⟩
      rw [hqueue, if_neg (hnokid y c hc).symm] at hev
      exact hev
  · intro k hk
    have hne : (s.heap b).kid ≠ k := hk x b (by rw [hself]; rfl)
    obtain ⟨evs, hev, hf⟩ := h.books.rest k fun y c hc => by
      rcases eq_or_ne y x with rfl | hy
      · rw [hux] at hc
        cases hc
      · exact hk y c (by rw [hother y hy]; exact hc)
    refine ⟨evs, ?_, hf⟩
    rw [hqueue, if_neg hne] at hev
    exact hev
  · refine ⟨h.known.bound, h.known.producers, fun c hc =>
      h.known.queued c (hsub c hc), ?_,
      h.known.file, ?_⟩
    · refine update_forall (P := fun _ (pc : WriterPc) => ∀ c,
        pc.unwritten = some c →
        s.opened (s.heap c).kid = true) ?_ fun y _ => h.known.writers y
      intro c hc
      cases hc
      exact h.known.queued b hmem
    · intro k hk
      rcases h.known.present k hk with hp | ⟨c, hc, hck⟩ | ⟨y, c, hc, hck⟩ | hf
      · exact .inl hp
      · rw [hfifo] at hc
        rcases List.mem_cons.mp hc with rfl | hc
        · exact .inr (.inr (.inl ⟨x, c, by rw [hself]; rfl, hck⟩))
        · exact .inr (.inl ⟨c, hc, hck⟩)
      · have hy : y ≠ x := by
          intro heq
          subst heq
          rw [hux] at hc
          cases hc
        exact .inr (.inr (.inl ⟨y, c, by rw [hother y hy]; exact hc, hck⟩))
      · exact .inr (.inr (.inr hf))
  · refine ⟨fun n hn => ?_, h.stamps.free, ?_, h.stamps.since, ?_⟩
    · rcases h.stamps.stamped n hn with hw | ⟨c, hc, hcn⟩ | ⟨y, c, hc, hcn⟩
      · exact .inl hw
      · rw [hfifo] at hc
        rcases List.mem_cons.mp hc with rfl | hc
        · exact .inr (.inr ⟨x, c, by rw [hself]; rfl, hcn⟩)
        · exact .inr (.inl ⟨c, hc, hcn⟩)
      · have hy : y ≠ x := by
          intro heq
          subst heq
          rw [hux] at hc
          cases hc
        exact .inr (.inr ⟨y, c, by rw [hother y hy]; exact hc, hcn⟩)
    · exact update_forall (P := fun _ pc => ∀ b, pc = WriterPc.freeing b →
        s.stamp b ∈ s.written) (fun b hb => nomatch hb) fun y _ =>
          h.stamps.freeing y
    · exact update_forall (P := fun x pc => 1 < x → pc = WriterPc.idle →
        ∀ n < s.since x, n ∈ s.written) nofun
        fun y _ => h.stamps.fence y
  · refine h.roles.setWriter rfl rfl rfl hx nofun
      nofun (fun h1 _ => ?_) fun hex => ?_
    · apply h.roles.closed
      rw [← h1, hpc]
      exact nofun
    · -- the finalisation has not ended: the FIFO is not empty
      have hold : s.writers 1 = .exited := by
        rcases eq_or_ne 1 x with h1 | h1
        · rw [h1, hself] at hex
          cases hex
        · rw [hother 1 h1] at hex
          exact hex
      have hnil := (h.roles.ended hold).1
      rw [hfifo] at hnil
      cases hnil

/-- A writer goes on in _kaapi_write_evb, up to the write of the events:
only the file of the kprocessor of its buffer may change. -/
theorem Inv.stage (hu : (s.writers x).unwritten = some b) (pc : WriterPc)
    (hpc : pc.unwritten = some b) (f : Nat → Option (List (Record α)))
    (hfile : ∀ j, j ≠ (s.heap b).kid → f j = s.file j)
    (hf : ∀ evs, FiledBy (s.writers x) (s.file (s.heap b).kid) evs →
      FiledBy pc (f (s.heap b).kid) evs)
    (hkeep : s.file (s.heap b).kid ≠ none → f (s.heap b).kid ≠ none) :
    Inv owner ({ s with file := f }.setWriter x pc) := by
  have hself : ({ s with file := f }.setWriter x pc).writers x = pc :=
    update_self ..
  have hother : ∀ y, y ≠ x →
      ({ s with file := f }.setWriter x pc).writers y = s.writers y :=
    fun y hy => update_of_ne hy ..
  have hun : ∀ y, (({ s with file := f }.setWriter x pc).writers y).unwritten
      = (s.writers y).unwritten := by
    intro y
    rcases eq_or_ne y x with rfl | hy
    · rw [hself, hpc, hu]
    · rw [hother y hy]
  have hidle : pc ≠ .idle ∧ pc ≠ .exited ∧ pc ≠ .joining
      ∧ ∀ c, pc ≠ .freeing c := by
    refine ⟨?_, ?_, ?_, ?_⟩
    all_goals
      intros
      intro heq
      subst heq
      cases hpc
  have hold : s.writers x ≠ .idle := by
    intro hc
    rw [hc] at hu
    cases hu
  refine ⟨?_, ⟨h.books.kid, ?_, ?_, ?_⟩,
    ⟨h.known.bound, h.known.producers, h.known.queued, ?_, ?_, ?_⟩,
    ⟨?_, h.stamps.free, ?_, h.stamps.since, ?_⟩, ?_⟩
  · refine h.owned.setWriter rfl rfl rfl rfl rfl fun c hc => ?_
    rw [unwritten_buf hpc] at hc
    rw [unwritten_buf hu]
    exact hc
  · intro y z c d hc hd heq
    rw [hun] at hc hd
    exact h.books.one y z c d hc hd heq
  · intro y c hc
    rw [hun] at hc
    obtain ⟨evs, hev, hfd⟩ := h.books.hand y c hc
    refine ⟨evs, hev, ?_⟩
    rcases eq_or_ne y x with rfl | hy
    · rw [hu] at hc
      injection hc with hc
      rw [hself, ← hc]
      rw [← hc] at hfd
      exact hf evs hfd
    · have hne : (s.heap c).kid ≠ (s.heap b).kid :=
        fun heq => hy (h.books.one y x c b hc hu heq)
      rw [hother y hy]
      show FiledBy _ (f (s.heap c).kid) evs
      rw [hfile _ hne]
      exact hfd
  · intro k hk
    have hne : (s.heap b).kid ≠ k := hk x b ((hun x).trans hu)
    obtain ⟨evs, hev, hfd⟩ := h.books.rest k fun y c hc => hk y c ((hun y).trans hc)
    refine ⟨evs, hev, ?_⟩
    show Filed (f k) evs
    rw [hfile k hne.symm]
    exact hfd
  · intro y c hc
    rw [hun] at hc
    exact h.known.writers y c hc
  · intro k hk
    change f k ≠ none at hk
    by_cases hkb : k = (s.heap b).kid
    · rw [hkb]
      exact h.known.writers x b hu
    · rw [hfile k hkb] at hk
      exact h.known.file k hk
  · intro k hk
    rcases h.known.present k hk with hp | hq | ⟨y, c, hc, hck⟩ | hfk
    · exact .inl hp
    · exact .inr (.inl hq)
    · exact .inr (.inr (.inl ⟨y, c, (hun y).trans hc, hck⟩))
    · refine .inr (.inr (.inr ?_))
      show f k ≠ none
      by_cases hkb : k = (s.heap b).kid
      · rw [hkb] at hfk ⊢
        exact hkeep hfk
      · rw [hfile k hkb]
        exact hfk
  · intro n hn
    simp only [hun]
    exact h.stamps.stamped n hn
  · exact update_forall (P := fun _ pc => ∀ b, pc = WriterPc.freeing b →
      s.stamp b ∈ s.written) (fun c hc => absurd hc (hidle.2.2.2 c))
      fun y _ => h.stamps.freeing y
  · exact update_forall (P := fun x pc => 1 < x → pc = WriterPc.idle →
      ∀ n < s.since x, n ∈ s.written) (fun _ heq => absurd heq hidle.1)
      fun y _ => h.stamps.fence y
  · refine h.roles.setWriter rfl rfl rfl hx (fun heq => absurd heq hidle.2.2.1)
      (fun heq => absurd heq hidle.2.1) (fun h1 _ => ?_) fun hex => ?_
    · apply h.roles.closed
      rw [← h1]
      exact hold
    · have hend : s.writers 1 = .exited := by
        rcases eq_or_ne 1 x with h1 | h1
        · rw [h1, hself] at hex
          exact absurd hex hidle.2.1
        · rw [hother 1 h1] at hex
          exact hex
      have hnone := (h.roles.ended hend).2 x
      rw [hu] at hnone
      cases hnone

end

/-- The state after the write of the events of the buffer `b`. -/
def wrote (x b : Nat) (s : Recorder α) : Recorder α :=
  ((({ s with written := s.stamp b :: s.written }.setFile (s.heap b).kid
    ((s.file (s.heap b).kid).getD []
      ++ (s.heap b).events.map Record.event)).setBuffer b
      ⟨[], (s.heap b).kid⟩).setWriter x (.freeing b))

/-- A writer has written the events of its buffer. -/
theorem Inv.wrote (h : Inv owner s) (hx : x < s.nwriters)
    (hpc : s.writers x = .writing b) : Inv owner (s.wrote x b) := by
  have hu : (s.writers x).unwritten = some b := by
    rw [hpc]
    rfl
  have hown := h.owned.writers x b (unwritten_buf hu)
  have hself : (s.wrote x b).writers x = .freeing b := update_self ..
  have hother : ∀ y, y ≠ x → (s.wrote x b).writers y = s.writers y :=
    fun y hy => update_of_ne hy ..
  have hun : ∀ y c, ((s.wrote x b).writers y).unwritten = some c →
      y ≠ x ∧ (s.writers y).unwritten = some c := by
    intro y c hc
    rcases eq_or_ne y x with rfl | hy
    · rw [hself] at hc
      cases hc
    · rw [hother y hy] at hc
      exact ⟨hy, hc⟩
  have hheap : ∀ c, c ≠ b → (s.wrote x b).heap c = s.heap c :=
    fun c hc => update_of_ne hc ..
  have hkid : ∀ c, ((s.wrote x b).heap c).kid = (s.heap c).kid := by
    intro c
    rcases eq_or_ne c b with rfl | hc
    · show (update s.heap c _ c).kid = _
      rw [update_self]
    · rw [hheap c hc]
  have hfile : ∀ k, k ≠ (s.heap b).kid → (s.wrote x b).file k = s.file k :=
    fun k hk => update_of_ne hk ..
  have hfileb : (s.wrote x b).file (s.heap b).kid
      = some ((s.file (s.heap b).kid).getD [] ++ (s.heap b).events.map .event) :=
    update_self ..
  -- the buffer is in no other place
  have hq : ∀ c ∈ s.fifo, c ≠ b := by
    rintro c hc rfl
    have hqd := h.owned.queued c hc
    rw [hown] at hqd
    cases hqd
  have hp : ∀ k c, (s.producers k).buf = some c → c ≠ b := by
    rintro k c hc rfl
    have hpd := h.owned.producers k c hc
    rw [hown] at hpd
    cases hpd
  have hw : ∀ y c, y ≠ x → (s.writers y).unwritten = some c → c ≠ b := by
    rintro y c hy hc rfl
    have hwd := h.owned.writers y c (unwritten_buf hc)
    rw [hown] at hwd
    injection hwd with hwd
    exact hy hwd.symm
  have hqueue : ∀ k, (s.wrote x b).queue k = s.queue k :=
    queue_congr rfl fun c hc => hheap c (hq c hc)
  have hcur : ∀ k, (s.wrote x b).cur k = s.cur k :=
    fun k => cur_congr rfl fun c hc => hheap c (hp k c hc)
  refine ⟨?_, ⟨?_, ?_, ?_, ?_⟩, ⟨h.known.bound, h.known.producers, ?_, ?_, ?_, ?_⟩,
    ⟨?_, ?_, ?_, h.stamps.since, ?_⟩, ?_⟩
  · refine h.owned.setWriter rfl rfl rfl rfl rfl fun c hc => ?_
    rw [unwritten_buf hu]
    exact hc
  · intro k c hc
    rw [hkid]
    exact h.books.kid k c hc
  · intro y z c d hc hd heq
    rw [hkid, hkid] at heq
    exact h.books.one y z c d (hun y c hc).2 (hun z d hd).2 heq
  · intro y c hc
    obtain ⟨hy, hc⟩ := hun y c hc
    obtain ⟨evs, hev, hf⟩ := h.books.hand y c hc
    have hne : (s.heap c).kid ≠ (s.heap b).kid :=
      fun heq => hy (h.books.one y x c b hc hu heq)
    rw [hheap c (hw y c hy hc), hqueue, hcur, hother y hy, hfile _ hne]
    exact ⟨evs, hev, hf⟩
  · intro k hk
    rw [hqueue, hcur]
    rcases eq_or_ne k (s.heap b).kid with rfl | hne
    · obtain ⟨evs, hev, hf⟩ := h.books.hand x b hu
      rw [hpc] at hf
      change s.file (s.heap b).kid = some (.header :: evs.map .event) at hf
      refine ⟨evs ++ (s.heap b).events, hev, .inr ?_⟩
      rw [hfileb, hf, List.map_append]
      rfl
    · rw [hfile k hne]
      refine h.books.rest k fun y c hc => ?_
      rcases eq_or_ne y x with rfl | hy
      · rw [hu] at hc
        cases hc
        exact hne.symm
      · rw [← hkid c]
        refine hk y c ?_
        rw [hother y hy]
        exact hc
  · intro c hc
    rw [hkid]
    exact h.known.queued c hc
  · intro y c hc
    rw [hkid]
    exact h.known.writers y c (hun y c hc).2
  · intro k hk
    rcases eq_or_ne k (s.heap b).kid with rfl | hne
    · exact h.known.writers x b hu
    · rw [hfile k hne] at hk
      exact h.known.file k hk
  · intro k hk
    simp only [hkid]
    rcases h.known.present k hk with hp | hq | ⟨y, c, hc, hck⟩ | hf
    · exact .inl hp
    · exact .inr (.inl hq)
    · refine .inr (.inr ?_)
      rcases eq_or_ne y x with rfl | hy
      · rw [hu] at hc
        injection hc with hc
        right
        rw [← hck, ← hc, hfileb]
        exact nofun
      · left
        refine ⟨y, c, ?_, hck⟩
        rw [hother y hy]
        exact hc
    · refine .inr (.inr (.inr ?_))
      rcases eq_or_ne k (s.heap b).kid with rfl | hne
      · rw [hfileb]
        exact nofun
      · rw [hfile k hne]
        exact hf
  · intro n hn
    rcases h.stamps.stamped n hn with hwr | hq | ⟨y, c, hc, hcn⟩
    · exact .inl (List.mem_cons_of_mem _ hwr)
    · exact .inr (.inl hq)
    · rcases eq_or_ne y x with rfl | hy
      · rw [hu] at hc
        injection hc with hc
        left
        rw [← hcn, ← hc]
        exact List.mem_cons_self
      · refine .inr (.inr ⟨y, c, ?_, hcn⟩)
        rw [hother y hy]
        exact hc
  · exact fun c hc => List.mem_cons_of_mem _ (h.stamps.free c hc)
  · refine update_forall (P := fun _ pc => ∀ c, pc = WriterPc.freeing c →
      s.stamp c ∈ s.stamp b :: s.written) ?_
      fun y _ c hc => List.mem_cons_of_mem _ (h.stamps.freeing y c hc)
    intro c hc
    injection hc with hc
    rw [hc]
    exact List.mem_cons_self
  · exact update_forall (P := fun x pc => 1 < x → pc = WriterPc.idle →
      ∀ n < s.since x, n ∈ s.stamp b :: s.written) nofun
      fun y _ hy hi n hn => List.mem_cons_of_mem _ (h.stamps.fence y hy hi n hn)
  · refine h.roles.setWriter rfl rfl rfl hx nofun
      nofun (fun h1 _ => ?_)
      (h.roles.ended_setWriter rfl rfl nofun rfl)
    apply h.roles.closed
    rw [← h1, hpc]
    exact nofun

/-- Every step of a writer that meets the condition keeps the invariant. -/
theorem Inv.writerStep (h : Inv owner s) (hx : x < s.nwriters)
    (hm : Meets (.writer x) s) (hs : s.writerStep x = some s') :
    ∃ owner', Inv owner' s' := by
  unfold Recorder.writerStep at hs
  have hmeets : s.writers x = .scanning → ∀ y, y ≠ x → ∀ c,
      (s.writers y).unwritten = some c → MayGo x c s s.fifo := by
    intro hsc y hy c hc
    have hlt : y < s.nwriters := by
      by_contra hge
      rw [unwritten_of_range h.roles (Nat.le_of_not_lt hge)] at hc
      cases hc
    exact hm hsc y hlt hy c hc
  cases hpc : s.writers x with
  | idle =>
    rw [hpc] at hs
    cases hs
  | exited =>
    rw [hpc] at hs
    cases hs
  | joining =>
    rw [hpc] at hs
    simp only at hs
    split at hs
    next =>
      cases hs
      exact ⟨owner, h.joined hpc hx⟩
    next => cases hs
  | scanning =>
    rw [hpc] at hs
    simp only at hs
    split at hs
    next => cases hs
    next =>
      have hm' := hmeets hpc
      split at hs
      next hempty =>
        rw [hempty] at hm'
        exact ⟨owner, h.emptyStep hx hpc hempty hm' hs⟩
      next b rest hfifo =>
        rw [hfifo] at hm'
        cases hs
        exact ⟨_, h.take hx hpc hfifo hm'⟩
  | testing b =>
    have hu : (s.writers x).unwritten = some b := by
      rw [hpc]
      rfl
    rw [hpc] at hs
    simp only at hs
    refine ⟨owner, ?_⟩
    split at hs
    next hnone =>
      cases hs
      refine h.stage hx hu (.opening b) rfl s.file (fun _ _ => rfl)
        (fun evs hf => ?_) id
      rw [hpc, hnone] at hf
      rw [hnone]
      rcases hf with hf | hf
      · exact hf
      · cases hf
    next f hsome =>
      cases hs
      refine h.stage hx hu (.writing b) rfl s.file (fun _ _ => rfl)
        (fun evs hf => ?_) id
      rw [hpc, hsome] at hf
      rw [hsome]
      rcases hf with hf | hf
      · cases hf.1
      · exact hf
  | opening b =>
    have hu : (s.writers x).unwritten = some b := by
      rw [hpc]
      rfl
    rw [hpc] at hs
    cases hs
    refine ⟨owner, h.stage hx hu (.heading b) rfl
      (update s.file (s.heap b).kid (some []))
      (fun j hj => update_of_ne hj ..) (fun evs hf => ?_) fun _ => ?_⟩
    · rw [hpc] at hf
      exact ⟨update_self .., hf.2⟩
    · rw [update_self]
      exact nofun
  | heading b =>
    have hu : (s.writers x).unwritten = some b := by
      rw [hpc]
      rfl
    rw [hpc] at hs
    cases hs
    refine ⟨owner, h.stage hx hu (.writing b) rfl
      (update s.file (s.heap b).kid
        (some ((s.file (s.heap b).kid).getD [] ++ [Record.header])))
      (fun j hj => update_of_ne hj ..) (fun evs hf => ?_) fun _ => ?_⟩
    · rw [hpc] at hf
      rw [hf.1, hf.2]
      exact update_self ..
    · rw [update_self]
      exact nofun
  | writing b =>
    rw [hpc] at hs
    cases hs
    exact ⟨owner, h.wrote hx hpc⟩
  | freeing b =>
    rw [hpc] at hs
    simp only at hs
    split at hs
    next =>
      cases hs
      exact ⟨_, h.freed hx hpc (.inr ⟨rfl, rfl⟩)⟩
    next =>
      cases hs
      exact ⟨_, h.freed hx hpc (.inl ⟨rfl, rfl⟩)⟩

/-- Every step does. -/
theorem Inv.step (h : Inv owner s) {a : Act α} (hm : Meets a s)
    (hs : step a s = some s') : ∃ owner', Inv owner' s' := by
  unfold Recorder.step at hs
  cases a with
  | openbuffer k =>
    simp only at hs
    split at hs
    next hk =>
      cases hs
      have hclosed : s.producers k = .closed := by
        by_contra hne
        have hopen := h.known.producers k hne
        rw [hk.2.1] at hopen
        cases hopen
      exact ⟨_, h.acquire (b := s.next) (n := s.next + 1) (f := s.free)
        (o := update s.opened k true) (by rw [hclosed]; rfl) hk.2.2
        (.inl (h.owned.fresh _ (Nat.le_refl _)))
          ⟨Nat.le_succ _, Nat.lt_succ_self _⟩
        ⟨h.owned.freeOnce, fun c hc => ⟨hc, fun heq => by
          have hfree := h.owned.free c hc
          rw [heq, h.owned.fresh _ (Nat.le_refl _)] at hfree
          cases hfree⟩⟩
        hk.1 ⟨update_self .., fun j hj => update_of_ne hj ..⟩⟩
    next => cases hs
  | push k e =>
    simp only at hs
    split at hs
    next =>
      split at hs
      next b hb =>
        cases hs
        exact ⟨owner, h.push hb e⟩
      next => cases hs
    next => cases hs
  | producer k =>
    simp only at hs
    split at hs
    next hk => exact h.producerStep hk hs
    next => cases hs
  | closebuffer k =>
    simp only at hs
    split at hs
    next =>
      split at hs
      next b hb =>
        cases hs
        exact ⟨_, h.enqueue (by rw [hb]; rfl) rfl⟩
      next => cases hs
    next => cases hs
  | fencebuffers x =>
    simp only at hs
    split at hs
    next hx =>
      cases hs
      exact ⟨owner, h.fencebuffers hx.1 hx.2.1 hx.2.2.1⟩
    next => cases hs
  | fini =>
    simp only at hs
    split at hs
    next hx =>
      cases hs
      refine ⟨owner, h.fini hx.1 fun k => ?_⟩
      by_contra hne
      exact hne (hx.2 k (h.known.bound k (h.known.producers k hne)))
    next => cases hs
  | writer x =>
    simp only at hs
    split at hs
    next hx => exact h.writerStep hx hm hs
    next => cases hs

/-- The recorder after its initialisation. -/
theorem inv_init (n nw : Nat) : Inv (fun _ => .nobody) (init α n nw) := by
  have hun : ∀ x, ((init α n nw).writers x).buf = none ∧
      (((init α n nw).writers x) = .scanning ∧ x = 0
        ∨ (init α n nw).writers x = .idle ∧ x ≠ 0) := by
    intro x
    show (if x = 0 then WriterPc.scanning else .idle).buf = none ∧ _
    by_cases hx : x = 0
    · rw [if_pos hx]
      exact ⟨rfl, .inl ⟨if_pos hx, hx⟩⟩
    · rw [if_neg hx]
      exact ⟨rfl, .inr ⟨if_neg hx, hx⟩⟩
  have hnone : ∀ x b, ((init α n nw).writers x).unwritten ≠ some b := by
    intro x b hb
    have hbuf := unwritten_buf hb
    rw [(hun x).1] at hbuf
    cases hbuf
  have hidle : (init α n nw).writers 1 = .idle := rfl
  refine ⟨⟨(fun k b hb => nomatch hb), (fun b hb => nomatch hb), List.nodup_nil, ?_,
    (fun b hb => nomatch hb), List.nodup_nil, fun _ _ => rfl⟩,
    ⟨(fun k b hb => nomatch hb), fun x y b c hb => absurd hb (hnone x b),
      fun x b hb => absurd hb (hnone x b), fun k _ => ⟨[], rfl, .inl ⟨rfl, rfl⟩⟩⟩,
    ⟨(fun k hk => nomatch hk), fun k hk => absurd rfl hk, (fun b hb => nomatch hb),
      fun x b hb => absurd hb (hnone x b), fun k hk => absurd rfl hk,
      (fun k hk => nomatch hk)⟩,
    ⟨fun n hn => absurd hn (Nat.not_lt_zero n), (fun b hb => nomatch hb), ?_,
      fun _ => Nat.le_refl 0, fun x _ _ n hn => absurd hn (Nat.not_lt_zero n)⟩,
    ⟨Nat.le_add_left 2 nw, ?_, ?_, ?_, fun hne => absurd hidle hne, ?_⟩⟩
  · intro x b hb
    rw [(hun x).1] at hb
    cases hb
  · intro x b hb
    have hbuf := (hun x).1
    rw [hb] at hbuf
    cases hbuf
  · intro x hx
    refine if_neg ?_
    intro heq
    subst heq
    exact absurd hx (by show ¬ nw + 2 ≤ 0; omega)
  · intro x hx
    rcases (hun x).2 with ⟨hpc, -⟩ | ⟨hpc, -⟩
    · rw [hx] at hpc
      cases hpc
    · rw [hx] at hpc
      cases hpc
  · intro x hx
    rcases (hun x).2 with ⟨hpc, -⟩ | ⟨hpc, -⟩
    · rw [hx] at hpc
      cases hpc
    · rw [hx] at hpc
      cases hpc
  · intro hex
    rw [hidle] at hex
    cases hex

/-- The invariant gives what the recorder promises. -/
theorem Inv.tracesOk (h : Inv owner s) : TracesOk s where
  owned := ⟨owner, h.owned⟩
  reuse := h.stamps.free
  complete := by
    intro hex k
    obtain ⟨hnil, hnone⟩ := h.roles.ended hex
    have hclosed := h.roles.closed (by rw [hex]; exact nofun) k
    have hno : ∀ x b, (s.writers x).unwritten ≠ some b := by
      intro x b hb
      rw [hnone x] at hb
      cases hb
    obtain ⟨evs, hev, hf⟩ := h.books.rest k fun x b hb => absurd hb (hno x b)
    have hq : s.queue k = [] := by
      unfold queue
      rw [hnil]
      rfl
    rw [hq, cur_of_none (closed_buf hclosed), List.append_nil,
      List.append_nil] at hev
    split
    next hopen =>
      rcases h.known.present k hopen with hp | ⟨b, hb, -⟩ | ⟨x, b, hb, -⟩ | hfile
      · exact absurd hclosed hp
      · rw [hnil] at hb
        cases hb
      · exact absurd hb (hno x b)
      · rw [hev]
        exact hf.resolve_left fun hc => hfile hc.1
    next hopen =>
      by_contra hfile
      exact hopen (h.known.file k hfile)
  fence := h.stamps.fence

-- ======== theorems

/-- Whatever the kprocessors push and whatever the order of the producers,
the collector, the fences and the finalisation: as long as no two writers
hold buffers of one kprocessor and no fence returns while a writer still
holds a buffer flushed before its call, the traces are complete and in
order. -/
theorem traces_of_meets (n nw : Nat) (as : List (Act α)) (s : Recorder α)
    (hm : Along step Meets as (init α n nw))
    (hrun : run step as (init α n nw) = some s) : TracesOk s := by
  have h := hm.run_inv (P := fun s => ∃ owner, Inv owner s)
    (fun hq h hs => h.elim fun _ h => h.step hq hs) ⟨_, inv_init n nw⟩ hrun
  obtain ⟨owner, h⟩ := h
  exact h.tracesOk

/-- Two kprocessors, with two events and one: while the collector writes
the buffer of the second, a fence writes that of the first; then the
finalisation. -/
def twoTraces : List (Act Nat) :=
  [.openbuffer 0, .openbuffer 1, .push 0 7, .push 1 8, .push 0 9,
    .closebuffer 1, .closebuffer 0, .writer 0, .fencebuffers 2, .writer 2,
    .writer 2, .writer 0, .writer 2, .writer 0, .writer 2, .writer 2, .writer 0,
    .writer 0, .writer 0, .writer 2, .writer 2, .fini, .writer 0, .writer 1,
    .writer 1]

theorem traces_of_meets_two :
    Along step Meets twoTraces (init Nat 2 1)
      ∧ ∃ s, run step twoTraces (init Nat 2 1) = some s
        ∧ s.writers 1 = .exited ∧ TracesOk s := by
  have hm : Along step Meets twoTraces (init Nat 2 1) := by decide +kernel
  have hexit : (run step twoTraces (init Nat 2 1)).map (fun s => s.writers 1)
      = some .exited := by decide +kernel
  obtain ⟨s, hrun, hend⟩ := Option.map_eq_some_iff.mp hexit
  exact ⟨hm, s, hrun, hend, traces_of_meets 2 1 twoTraces s hm hrun⟩

/-- The collector has taken the only flushed buffer and has not written it:
the fence finds the FIFO empty and returns. -/
theorem traces_fail :
    ∃ s, run step [.openbuffer 0, .push 0 7, .closebuffer 0, .writer 0,
        .fencebuffers 2, .writer 2] (init Nat 1 1) = some s ∧ ¬ TracesOk s := by
  have hrun : (run step [.openbuffer 0, .push 0 7, .closebuffer 0, .writer 0,
      .fencebuffers 2, .writer 2] (init Nat 1 1)).map
        (fun s => (s.writers 2, s.since 2, s.written))
      = some (.idle, 1, []) := by decide +kernel
  obtain ⟨s, hs, hproj⟩ := Option.map_eq_some_iff.mp hrun
  refine ⟨s, hs, fun hok => ?_⟩
  simp only [Prod.mk.injEq] at hproj
  obtain ⟨hw, hsince, hwritten⟩ := hproj
  have hmem := hok.fence 2 (by decide) hw 0 (by rw [hsince]; decide)
  rw [hwritten] at hmem
  cases hmem

end Recorder

end XKaapi.Trace
