/-
What the skeleton does is what the peers sent.

Everything of a source that has not been received yet (`sent`: its wire,
the payload it still owes, the messages of its other instructions) is
always the messages of a list of instructions, after the payload the
skeleton is waiting for; the events still due are those of the same
instructions. A send moves the border between the wire and the rest, which
`sent` does not see; a reception takes the first message away.
-/
import XKaapi.Network.Skeleton

namespace XKaapi.Network

open StepMachine (run Along)
open Function (update update_of_ne update_self)

-- ======== messages

/-- The payload that follows a header. -/
def payloadMsg (mem : Nat → UInt8) (lptr size : Nat) : List Msg :=
  if 0 < size then [.data (bytesAt mem lptr size)] else []

/-- The messages of an instruction. -/
def Instruction.msgs (mem : Nat → UInt8) : Instruction → List Msg
  | .nop _ => []
  | .wb _ => []
  | .am i _ => .am i.handler i.size :: payloadMsg mem i.lptr i.size
  | .rwdma i _ => .rw i.dptr i.size :: payloadMsg mem i.lptr i.size

/-- The messages and the events of one list of instructions. -/
def Coming (mem : Nat → UInt8) (ms : List Msg) (evs : List Event) : Prop :=
  ∃ rest : List Instruction, ms = rest.flatMap (Instruction.msgs mem)
    ∧ evs = rest.flatMap (Instruction.event mem)

/-- The first message that is still to come. -/
theorem Coming.head {mem : Nat → UInt8} {m : Msg} {ms : List Msg} {evs : List Event}
    (h : Coming mem (m :: ms) evs) :
    ∃ lptr size ms' evs', Coming mem ms' evs' ∧ ms = payloadMsg mem lptr size ++ ms'
      ∧ ((∃ handler, m = .am handler size
          ∧ evs = .call handler (bytesAt mem lptr size) size :: evs')
        ∨ ∃ dptr, m = .rw dptr size ∧ evs = .write dptr
          (bytesAt mem lptr size) :: evs') := by
  obtain ⟨rest, hms, hevs⟩ := h
  induction rest generalizing evs with
  | nil => cases hms
  | cons i rest ih =>
    rw [List.flatMap_cons] at hms hevs
    cases i with
    | nop c => exact ih hms hevs
    | wb c => exact ih hms hevs
    | am i c =>
      injection hms with hm hms
      exact ⟨i.lptr, i.size, _, _, ⟨rest, rfl, rfl⟩, hms,
        .inl ⟨i.handler, hm, hevs⟩⟩
    | rwdma i c =>
      injection hms with hm hms
      exact ⟨i.lptr, i.size, _, _, ⟨rest, rfl, rfl⟩, hms,
        .inr ⟨i.dptr, hm, hevs⟩⟩

/-- Without message nothing is owed. -/
theorem Coming.nil {mem : Nat → UInt8} {evs : List Event} (h : Coming mem [] evs) :
    evs = [] := by
  obtain ⟨rest, hms, hevs⟩ := h
  rw [hevs, List.flatMap_eq_nil_iff]
  intro i hi
  have hmsgs := List.flatMap_eq_nil_iff.mp hms.symm i hi
  cases i with
  | nop c => rfl
  | wb c => rfl
  | am i c => cases hmsgs
  | rwdma i c => cases hmsgs

namespace Mpi

-- ======== invariant

/-- The payload a peer owes. -/
def halfMsgs (mem : Nat → UInt8) : Option (Nat × Nat) → List Msg
  | none => []
  | some (lptr, size) => [.data (bytesAt mem lptr size)]

theorem halfMsgs_halfOf (mem : Nat → UInt8) (lptr size : Nat) :
    halfMsgs mem (halfOf lptr size) = payloadMsg mem lptr size := by
  unfold halfOf payloadMsg
  split
  all_goals rfl

/-- What a peer has not sent. -/
def unsent (mem : Nat → UInt8) (p : Peer) : List Msg :=
  halfMsgs mem p.half ++ p.todo.flatMap (Instruction.msgs mem)

/-- What has not been received from a source. -/
def sent (s : Mpi) (src : Nat) : List Msg := s.wire src ++ unsent (s.mem src)
    (s.peers src)

end Mpi

/-- The payload the skeleton is waiting for from a source, and what it does
with it. -/
def Stage.pending (src : Nat) : Stage → Option (Nat × (List UInt8 → Event))
  | .payloadAm source handler size =>
    if source = src then some
      (size, fun bytes => .call handler bytes size) else none
  | .payloadRw source dptr size =>
    if source = src then some (size, fun bytes => .write dptr bytes) else none
  | _ => none

/-- The source of the payload. -/
def Stage.source : Stage → Option Nat
  | .payloadAm source _ _ => some source
  | .payloadRw source _ _ => some source
  | _ => none

namespace Mpi

/-- The messages to come are the events to come. -/
def Owes (mem : Nat → UInt8) (ms : List Msg) (evs : List Event) :
    Option (Nat × (List UInt8 → Event)) → Prop
  | none => Coming mem ms evs
  | some (size, event) => ∃ bytes ms' evs', bytes.length = size
      ∧ ms = .data bytes :: ms' ∧ evs = event bytes :: evs' ∧ Coming mem ms' evs'

structure Inv (s : Mpi) : Prop where
  assertion : s.failed = false
  stream : ∀ src, ∃ evs, s.expected src = s.logOf src ++ evs
    ∧ Owes (s.mem src) (s.sent src) evs (s.stage.pending src)
  running : s.stage ≠ .finished
  source : ∀ src, s.stage.source = some src → src < s.n
  length : s.bufferAm.length = s.szBufferAm
  size : ∀ src handler size, s.stage = .payloadAm src handler size
    → s.szBufferAm = size

variable {s s' : Mpi} {src : Nat} {p : Peer} {m : Msg} {rest : List Msg} {size : Nat}

/-- Before the first message. -/
theorem inv_init (n serviceTerm localGid : Nat) (wcomSize : Int)
    (mem : Nat → Nat → UInt8) (heap : Nat → UInt8) (prog : Nat → List Instruction) :
    Inv (init n serviceTerm localGid wcomSize mem heap prog) where
  assertion := rfl
  stream := fun src => ⟨_, rfl, prog src, rfl, rfl⟩
  running := nofun
  source := nofun
  length := rfl
  size := nofun

-- ======== sends

/-- A peer moves without sending. -/
theorem sent_setPeer (u : Nat)
    (h : unsent (s.mem src) p = unsent (s.mem src) (s.peers src)) :
    (s.setPeer src p).sent u = s.sent u := by
  unfold sent setPeer
  dsimp only
  rcases eq_or_ne u src with rfl | hne
  · rw [update_self, h]
  · rw [update_of_ne hne]

/-- What was sent stays the same when a message is posted. -/
theorem sent_post (u : Nat)
    (h : unsent (s.mem src) (s.peers src) = m :: unsent (s.mem src) p) :
    ((s.setPeer src p).post src m).sent u = s.sent u := by
  unfold sent post setWire setPeer
  dsimp only
  rcases eq_or_ne u src with rfl | hne
  · rw [update_self, update_self, h, List.append_assoc]
    rfl
  · rw [update_of_ne hne, update_of_ne hne]

/-- A peer moves without sending. -/
theorem Inv.setPeer (h : Inv s)
    (hp : unsent (s.mem src) p = unsent (s.mem src) (s.peers src)) :
    Inv (s.setPeer src p) where
  assertion := h.assertion
  stream := by
    intro u
    rw [sent_setPeer u hp]
    exact h.stream u
  running := h.running
  source := h.source
  length := h.length
  size := h.size

/-- A peer posts its next message. -/
theorem Inv.post (h : Inv s)
    (hp : unsent (s.mem src) (s.peers src) = m :: unsent (s.mem src) p) :
    Inv ((s.setPeer src p).post src m) where
  assertion := h.assertion
  stream := by
    intro u
    rw [sent_post u hp]
    exact h.stream u
  running := h.running
  source := h.source
  length := h.length
  size := h.size

/-- Every step of a flush keeps the invariant. -/
theorem Inv.flush (h : Inv s) (hq : Meets (.send src) s)
    (hs : s.flush src = some s') :
    Inv s' := by
  have hhalf : ∀ h ∈ (s.peers src).half, h.2 < 2 ^ 31 := hq
  unfold Mpi.flush at hs
  split at hs
  · next todo lptr size hp =>
      rw [hp] at hhalf
      have hlt : size < 2 ^ 31 := hhalf (lptr, size) rfl
      have hint := toInt_of_lt hlt
      rw [if_neg (by omega)] at hs
      cases hs
      rw [hint]
      exact h.post (by rw [hp]; rfl)
  · cases hs
  · next c todo hp =>
      cases hs
      exact h.setPeer (by rw [hp]; rfl)
  · next c todo hp =>
      cases hs
      exact h.setPeer (by rw [hp]; rfl)
  · next i c todo hp =>
      cases hs
      refine h.post ?_
      rw [hp]
      unfold unsent
      rw [halfMsgs_halfOf]
      rfl
  · next i c todo hp =>
      cases hs
      refine h.post ?_
      rw [hp]
      unfold unsent
      rw [halfMsgs_halfOf]
      rfl

-- ======== receptions

/-- The skeleton takes the first message of `src`, does `es` and goes to
the stage `st`. -/
theorem Inv.take (h : Inv s) (b : List UInt8) (z : Nat) (a : Int) (es : List Event)
    (st : Stage) (hw : s.wire src = m :: rest)
    (hothers : ∀ u, u ≠ src → s.stage.pending u = none ∧ st.pending u = none)
    (hstream : ∀ evs, Owes (s.mem src)
      (m :: (rest ++ unsent (s.mem src) (s.peers src)))
        evs (s.stage.pending src) →
      ∃ evs', evs = es ++ evs' ∧ Owes (s.mem src)
        (rest ++ unsent (s.mem src) (s.peers src))
        evs' (st.pending src)) (hrun : st ≠ .finished)
    (hsource : ∀ u, st.source = some u → u < s.n) (hlen : b.length = z)
    (hsize : ∀ u handler size, st = .payloadAm u handler size → z = size) :
    Inv { s with
      wire := update s.wire src rest
      bufferAm := b
      szBufferAm := z
      ackTerm := a
      log := s.log ++ es.map fun e => (src, e)
      stage := st } where
  assertion := h.assertion
  stream := by
    intro u
    obtain ⟨evs, hexp, howes⟩ := h.stream u
    rcases eq_or_ne u src with rfl | hne
    · unfold sent at howes
      rw [hw, List.cons_append] at howes
      obtain ⟨evs', hevs, howes'⟩ := hstream evs howes
      refine ⟨evs', ?_, ?_⟩
      · show s.expected u = ((s.log ++ es.map fun e => (u, e)).filter fun e =>
          e.1 = u).map
          Prod.snd ++ evs'
        rw [hexp, hevs, List.filter_append, List.map_append, List.append_assoc]
        unfold logOf
        simp [List.filter_map, Function.comp_def]
      · unfold sent
        dsimp only
        rw [update_self]
        exact howes'
    · obtain ⟨hold, hnew⟩ := hothers u hne
      refine ⟨evs, ?_, ?_⟩
      · show s.expected u = ((s.log ++ es.map fun e => (src, e)).filter
          fun e => e.1 = u).map
          Prod.snd ++ evs
        rw [hexp, List.filter_append, List.map_append]
        unfold logOf
        simp [List.filter_map, Function.comp_def, hne.symm]
      · unfold sent
        dsimp only
        rw [update_of_ne hne, hnew, ← hold]
        exact howes
  running := hrun
  source := hsource
  length := hlen
  size := hsize

theorem service_eq (src : Nat) {handler : Nat} (h : ¬ s.Ends handler) : ∃ a,
    s.service src handler = { s with
      ackTerm := a
      log := s.log ++ [(src, .call handler s.bufferAm s.szBufferAm)]
      stage := .header } := by
  unfold service emit
  split
  · next hterm =>
      split
      · next hgid =>
          have hne : ¬ s.ackTerm + 1 = s.wcomSize - 1 := fun hc =>
            h ⟨hterm, fun _ => hc⟩
          exact ⟨s.ackTerm + 1, if_neg hne⟩
      · next hgid => exact absurd ⟨hterm, fun hc => absurd hc hgid⟩ h
  · exact ⟨s.ackTerm, rfl⟩

/-- The buffer grows to the size. -/
theorem grow_eq (size : Nat) (h : s.bufferAm.length = s.szBufferAm)
    (hle : s.szBufferAm ≤ size) : ∃ b : List UInt8, b.length = size
      ∧ s.grow size = { s with
          bufferAm := b
          szBufferAm := size } := by
  unfold grow
  split
  · exact ⟨_, length_bytesAt _ _ _, rfl⟩
  · next hlt =>
      have heq : s.szBufferAm = size := Nat.le_antisymm hle (Nat.not_lt.mp hlt)
      refine ⟨s.bufferAm, h.trans heq, ?_⟩
      rw [← heq]

theorem pending_header {st : Stage} (h : st = .header) (u : Nat) : st.pending u
    = none := by
  rw [h]
  rfl

theorem owes_payload {mem : Nat → UInt8} {lptr : Nat} {ms ms' : List Msg}
    {evs evs' : List Event} (event : List UInt8 → Event) (hcoming : Coming mem ms' evs')
    (hms : ms = payloadMsg mem lptr size ++ ms')
    (hevs : evs = event (bytesAt mem lptr size) :: evs') :
    (0 < size → Owes mem ms evs (some (size, event)))
      ∧ (size = 0 → evs = event [] :: evs' ∧ ms = ms') := by
  unfold payloadMsg at hms
  refine ⟨fun hlt => ?_, fun hzero => ?_⟩
  · rw [if_pos hlt] at hms
    exact ⟨_, _, _, length_bytesAt mem lptr size, hms, hevs, hcoming⟩
  · rw [if_neg (by omega)] at hms
    rw [hzero] at hevs
    exact ⟨hevs, hms⟩

theorem pending_other {st : Stage} {u : Nat} (h : st.source = some src)
    (hne : u ≠ src) :
    st.pending u = none := by
  cases st with
  | header => rfl
  | payloadAm source handler size =>
    injection h with h
    exact if_neg fun hc => hne (hc.symm.trans h)
  | payloadRw source dptr size =>
    injection h with h
    exact if_neg fun hc => hne (hc.symm.trans h)
  | finished => rfl

/-- A header is received. -/
theorem Inv.header (h : Inv s) (hsrc : src < s.n) (hq : Meets (.recv src) s)
    (hst : s.stage = .header) (hs : s.skel src = some s') : Inv s' := by
  have hnone := pending_header hst
  have hself : ∀ u, some src = some u → u < s.n := by
    intro u hu
    injection hu with hu
    exact hu ▸ hsrc
  have hq : s.MeetsAt src s.stage := hq
  unfold skel at hs
  simp only [hst] at hq hs
  have hq : s.MeetsHeader (s.wire src) := hq
  cases hw : s.wire src with
  | nil =>
    rw [hw] at hs
    cases hs
  | cons m rest =>
    simp only [hw] at hs
    rw [hw] at hq
    cases m with
    | am handler size =>
      dsimp only at hs
      split at hs
      · next hlt =>
          obtain ⟨b, hb, hgrow⟩ := grow_eq
            (s := s.setWire src rest) size h.length hq.1
          rw [hgrow] at hs
          cases hs
          have hinv := h.take b size s.ackTerm []
            (.payloadAm src handler size) hw
            (fun u hne => ⟨hnone u, pending_other rfl hne⟩) ?_ nofun
            hself hb ?_
          · rw [List.map_nil, List.append_nil] at hinv
            exact hinv
          · intro evs howes
            rw [hnone src] at howes
            obtain ⟨lptr, size', ms, evs', hcoming, hms, hkind⟩ := howes.head
            rcases hkind with ⟨handler', hm, hevs⟩ | ⟨dptr, hm, -⟩
            · cases hm
              refine ⟨evs, rfl, ?_⟩
              show Owes _ _ _ (if src = src then _ else none)
              rw [if_pos rfl]
              exact (owes_payload (fun b =>
                .call handler b size) hcoming hms hevs).1 hlt
            · cases hm
          · intro u handler' size' heq
            injection heq
      · next hlt =>
          have hzero : size = 0 := by omega
          have hends : ¬ (s.setWire src rest).Ends handler := hq.2 hzero
          obtain ⟨a, ha⟩ := service_eq src hends
          rw [ha] at hs
          cases hs
          have hz : s.szBufferAm = 0 := by
            have hle := hq.1
            omega
          refine h.take _ _ _ [_] _ hw (fun u _ => ⟨hnone u, rfl⟩) ?_
            nofun nofun h.length
            nofun
          intro evs howes
          rw [hnone src] at howes
          obtain ⟨lptr, size', ms, evs', hcoming, hms, hkind⟩ := howes.head
          rcases hkind with ⟨handler', hm, hevs⟩ | ⟨dptr, hm, -⟩
          · cases hm
            obtain ⟨hevs', hms'⟩ :=
              (owes_payload (fun b => .call handler b size) hcoming hms
                hevs).2 hzero
            have hbuf : s.bufferAm = [] := List.length_eq_zero_iff.mp
              (h.length.trans hz)
            refine ⟨evs', ?_, hms' ▸ hcoming⟩
            rw [hevs', hzero]
            show _ = Event.call handler s.bufferAm s.szBufferAm :: evs'
            rw [hbuf, hz]
          · cases hm
    | rw dptr size =>
      dsimp only at hs
      split at hs
      · next hlt =>
          cases hs
          have hinv := h.take s.bufferAm s.szBufferAm s.ackTerm []
            (.payloadRw src dptr size) hw
              (fun u hne => ⟨hnone u, pending_other rfl hne⟩) ?_
              nofun
            hself h.length nofun
          · rw [List.map_nil, List.append_nil] at hinv
            exact hinv
          · intro evs howes
            rw [hnone src] at howes
            obtain ⟨lptr, size', ms, evs', hcoming, hms, hkind⟩ := howes.head
            rcases hkind with ⟨handler, hm, -⟩ | ⟨dptr', hm, hevs⟩
            · cases hm
            · cases hm
              refine ⟨evs, rfl, ?_⟩
              show Owes _ _ _ (if src = src then _ else none)
              rw [if_pos rfl]
              exact (owes_payload (Event.write dptr) hcoming hms hevs).1 hlt
      · next hlt =>
          have hzero : size = 0 := by omega
          cases hs
          refine h.take _ _ _ [_] _ hw (fun u _ => ⟨hnone u, rfl⟩) ?_
            nofun nofun h.length
            nofun
          intro evs howes
          rw [hnone src] at howes
          obtain ⟨lptr, size', ms, evs', hcoming, hms, hkind⟩ := howes.head
          rcases hkind with ⟨handler, hm, -⟩ | ⟨dptr', hm, hevs⟩
          · cases hm
          · cases hm
            obtain ⟨hevs', hms'⟩ :=
              (owes_payload (Event.write dptr) hcoming hms hevs).2 hzero
            exact ⟨evs', hevs', hms' ▸ hcoming⟩
    | data bytes =>
      obtain ⟨evs, -, howes⟩ := h.stream src
      unfold sent at howes
      rw [hw, hnone src] at howes
      obtain ⟨lptr, size, ms, evs', -, -, hkind⟩ := Coming.head howes
      rcases hkind with ⟨handler, hm, -⟩ | ⟨dptr, hm, -⟩
      all_goals cases hm

/-- The bytes of a message are received. -/
theorem Inv.recvData (h : Inv s) {event : List UInt8 → Event}
    (hpend : s.stage.pending src = some (size, event)) (hlt : size < 2 ^ 31)
    {k : List UInt8 → Mpi → Mpi} (hs : s.recvData src size k = some s') :
    ∃ bytes rest, s.wire src = .data bytes :: rest ∧ bytes.length = size
      ∧ s' = k bytes (s.setWire src rest) := by
  have hint := toInt_of_lt hlt
  unfold Mpi.recvData at hs
  rw [if_neg (by omega)] at hs
  obtain ⟨evs, -, howes⟩ := h.stream src
  rw [hpend] at howes
  obtain ⟨bytes, ms', evs', hlen, hms, -, -⟩ := howes
  unfold sent at hms
  cases hw : s.wire src with
  | nil =>
    rw [hw] at hs
    cases hs
  | cons m rest =>
    rw [hw, List.cons_append] at hms
    injection hms with hm hms
    subst hm
    simp only [hw, takeData] at hs
    rw [if_pos (by omega)] at hs
    cases hs
    exact ⟨bytes, rest, rfl, hlen, rfl⟩

theorem owes_data {mem : Nat → UInt8} {bytes : List UInt8} {ms : List Msg}
    {evs : List Event} {event : List UInt8 → Event}
    (h : Owes mem (.data bytes :: ms) evs (some (size, event))) :
    ∃ evs', evs = [event bytes] ++ evs' ∧ Coming mem ms evs' := by
  obtain ⟨bytes', ms', evs', -, hms, hevs, hcoming⟩ := h
  cases hms
  exact ⟨evs', hevs, hcoming⟩

/-- An active message is served. -/
theorem Inv.payloadAm (h : Inv s) (hq : Meets (.recv src) s) {handler : Nat}
    (hst : s.stage = .payloadAm src handler size) (hs : s.skel src = some s') :
    Inv s' := by
  have hpend : s.stage.pending src = some
    (size, fun b => .call handler b size) := by
    rw [hst]
    exact if_pos rfl
  have hq : s.MeetsAt src s.stage := hq
  unfold skel at hs
  simp only [hst] at hq hs
  rw [if_pos trivial] at hs
  obtain ⟨bytes, rest, hw, hlen, rfl⟩ := h.recvData hpend hq.1 hs
  have hsize := h.size src handler size hst
  have hbuf : bytes ++ s.bufferAm.drop bytes.length = bytes := by
    rw [List.drop_eq_nil_of_le, List.append_nil]
    exact Nat.le_of_eq (by rw [hlen, h.length, hsize])
  have hends : ¬ ((s.setWire src rest).store bytes).Ends handler := hq.2
  obtain ⟨a, ha⟩ := service_eq src hends
  rw [ha]
  refine h.take _ _ _ [_] _ hw (fun u hne => ⟨?_, rfl⟩) ?_ nofun nofun ?_ nofun
  · rw [hst]
    exact pending_other rfl hne
  · intro evs howes
    rw [hpend] at howes
    obtain ⟨evs', hevs, hcoming⟩ := owes_data howes
    refine ⟨evs', ?_, hcoming⟩
    show evs = [.call handler
      (bytes ++ s.bufferAm.drop bytes.length) s.szBufferAm] ++ evs'
    rw [hbuf, hsize, hevs]
  · show (bytes ++ s.bufferAm.drop bytes.length).length = s.szBufferAm
    rw [hbuf, hlen, hsize]

/-- A remote write is served. -/
theorem Inv.payloadRw (h : Inv s) (hq : Meets (.recv src) s) {dptr : Nat}
    (hst : s.stage = .payloadRw src dptr size) (hs : s.skel src = some s') : Inv s' := by
  have hpend : s.stage.pending src = some (size, Event.write dptr) := by
    rw [hst]
    exact if_pos rfl
  have hq : s.MeetsAt src s.stage := hq
  unfold skel at hs
  simp only [hst] at hq hs
  rw [if_pos trivial] at hs
  obtain ⟨bytes, rest, hw, hlen, rfl⟩ := h.recvData hpend hq hs
  refine h.take _ _ _ [_] _ hw (fun u hne => ⟨?_, rfl⟩) ?_ nofun
    nofun h.length nofun
  · rw [hst]
    exact pending_other rfl hne
  · intro evs howes
    rw [hpend] at howes
    exact owes_data howes

/-- Every step of the receiver keeps the invariant. -/
theorem Inv.skel (h : Inv s) (hsrc : src < s.n) (hq : Meets (.recv src) s)
    (hs : s.skel src = some s') : Inv s' := by
  have hs' := hs
  unfold Mpi.skel at hs'
  cases hst : s.stage with
  | header => exact h.header hsrc hq hst hs
  | payloadAm source handler size =>
    simp only [hst] at hs'
    split at hs'
    · next heq =>
        subst heq
        exact h.payloadAm hq hst hs
    · cases hs'
  | payloadRw source dptr size =>
    simp only [hst] at hs'
    split at hs'
    · next heq =>
        subst heq
        exact h.payloadRw hq hst hs
    · cases hs'
  | finished => exact absurd hst h.running

/-- Every step keeps it. -/
theorem Inv.step {a : MpiAct} (h : Inv s) (hq : Meets a s)
    (hs : Mpi.step a s = some s') :
    Inv s' := by
  unfold Mpi.step at hs
  rw [h.assertion] at hs
  cases a with
  | send src =>
    dsimp only at hs
    split at hs
    · cases hs
    · split at hs
      · exact h.flush hq hs
      · cases hs
  | recv src =>
    dsimp only at hs
    split at hs
    · cases hs
    · split at hs
      · next hsrc => exact h.skel hsrc hq hs
      · cases hs

-- ======== ends

/-- A flush that is stuck has sent everything. -/
theorem unsent_of_flush (h : s.flush src = none) :
    unsent (s.mem src) (s.peers src) = [] := by
  unfold Mpi.flush at h
  split at h
  · split at h
    all_goals cases h
  · next hp =>
      rw [hp]
      rfl
  all_goals cases h

theorem recvData_ne_none {k : List UInt8 → Mpi → Mpi} {bytes : List UInt8}
    (hw : s.wire src = .data bytes :: rest) : s.recvData src size k ≠ none := by
  unfold Mpi.recvData
  split
  · exact nofun
  · simp only [hw, takeData]
    split
    all_goals exact nofun

/-- A message that has come is received. -/
theorem skel_ne_none (h : Inv s) (hw : s.wire src = m :: rest)
    (hst : s.stage = .header ∨ s.stage.source = some src) : s.skel src ≠ none := by
  obtain ⟨evs, -, howes⟩ := h.stream src
  unfold sent at howes
  rw [hw, List.cons_append] at howes
  unfold Mpi.skel
  rcases hst with hst | hst
  · simp only [hst, hw]
    cases m with
    | am handler size =>
      dsimp only
      split
      all_goals exact nofun
    | rw dptr size =>
      dsimp only
      split
      all_goals exact nofun
    | data bytes => exact nofun
  · cases hstage : s.stage with
    | header =>
      rw [hstage] at hst
      cases hst
    | finished =>
      rw [hstage] at hst
      cases hst
    | payloadAm source handler size =>
      rw [hstage] at hst howes
      cases hst
      simp only [Stage.pending, if_pos] at howes
      obtain ⟨bytes, ms', evs', -, hms, -, -⟩ := howes
      injection hms with hm
      rw [hm] at hw
      simp only [if_pos]
      exact recvData_ne_none hw
    | payloadRw source dptr size =>
      rw [hstage] at hst howes
      cases hst
      simp only [Stage.pending, if_pos] at howes
      obtain ⟨bytes, ms', evs', -, hms, -, -⟩ := howes
      injection hms with hm
      rw [hm] at hw
      simp only [if_pos]
      exact recvData_ne_none hw

/-- In the end everything was received. -/
theorem Inv.complete (h : Inv s) (hstuck : ∀ a, Mpi.step a s = none) {u : Nat}
    (hu : u < s.n) : s.logOf u = s.expected u := by
  have hsend : ∀ v < s.n, s.flush v = none := by
    intro v hv
    have hnone := hstuck (.send v)
    unfold Mpi.step at hnone
    rw [h.assertion] at hnone
    simpa [hv] using hnone
  have hrecv : ∀ v < s.n, s.skel v = none := by
    intro v hv
    have hnone := hstuck (.recv v)
    unfold Mpi.step at hnone
    rw [h.assertion] at hnone
    simpa [hv] using hnone
  have hwire : ∀ v < s.n, s.stage = .header ∨ s.stage.source = some v
    → s.sent v = [] := by
    intro v hv hst
    unfold sent
    rw [unsent_of_flush (hsend v hv), List.append_nil]
    cases hw : s.wire v with
    | nil => rfl
    | cons m rest => exact absurd (hrecv v hv) (skel_ne_none h hw hst)
  have hheader : s.stage = .header := by
    cases hst : s.stage with
    | header => rfl
    | finished => exact absurd hst h.running
    | payloadAm source handler size =>
      have hv : source < s.n := h.source source (by rw [hst]; rfl)
      obtain ⟨evs, -, howes⟩ := h.stream source
      rw [hwire source hv (.inr (by rw [hst]; rfl)), hst] at howes
      simp only [Stage.pending, if_pos] at howes
      obtain ⟨bytes, ms', evs', -, hms, -, -⟩ := howes
      cases hms
    | payloadRw source dptr size =>
      have hv : source < s.n := h.source source (by rw [hst]; rfl)
      obtain ⟨evs, -, howes⟩ := h.stream source
      rw [hwire source hv (.inr (by rw [hst]; rfl)), hst] at howes
      simp only [Stage.pending, if_pos] at howes
      obtain ⟨bytes, ms', evs', -, hms, -, -⟩ := howes
      cases hms
  obtain ⟨evs, hexp, howes⟩ := h.stream u
  rw [hwire u hu (.inl hheader), pending_header hheader] at howes
  rw [hexp, Coming.nil howes, List.append_nil]

/-- The invariant gives the delivery in order. -/
theorem Inv.mpiOk (h : Inv s) : s.MpiOk where
  delivered := by
    intro u
    obtain ⟨evs, hexp, -⟩ := h.stream u
    exact ⟨evs, hexp.symm⟩
  assertion := h.assertion
  complete := fun hstuck _ hu => h.complete hstuck hu

-- ======== results

/-- The messages of two peers: active messages of sizes 2 and 3, a remote
write between them. -/
def twoPeers (src : Nat) : List Instruction :=
  if src = 0 then [.am ⟨7, 2, 100⟩ ⟨0, 0⟩, .nop ⟨0, 0⟩, .am ⟨8, 3, 100⟩ ⟨0, 0⟩]
  else [.rwdma ⟨50, 1, 200⟩ ⟨0, 0⟩, .rwdma ⟨60, 0, 200⟩ ⟨0, 0⟩]

def twoPeersInit : Mpi :=
  init 2 1 1 3 (fun src k => UInt8.ofNat (src + k)) (fun _ => 0) twoPeers

def twoPeersRun : List MpiAct :=
  [.send 0, .send 1, .recv 0, .send 1, .send 0, .recv 0, .send 0, .recv 1, .send 0,
    .send 0, .recv 1, .recv 0, .recv 0, .send 1, .recv 1]

/-- An active message of size 1 after one of size 2. -/
def smallerSecond (_ : Nat) : List Instruction :=
  [.am ⟨7, 2, 100⟩ ⟨0, 0⟩, .am ⟨7, 1, 200⟩ ⟨0, 0⟩]

end Mpi

end XKaapi.Network
