/-
What the TAKNET skeleton does is what the peers have flushed, as long as
no active message is read.

What a source has sent and still owes (`coming`: the header the skeleton
is in, the messages on its wire, the data a peer owes) is always the
messages of a list of instructions, those not done yet (`Fifo`). A send
keeps the list or adds its instruction; a reception takes its first one.
-/
import XKaapi.Taknet.Wire

namespace XKaapi.Taknet.Wire

open StepMachine (run Along)
open Function (update update_of_ne update_self)
open Network (Instruction bytesAt length_bytesAt)

namespace Tak

-- ======== messages

/-- The messages of an instruction. -/
def encode (mem : Nat → UInt8) : Instruction → List Msg
  | .nop _ => []
  | .wb _ => []
  | .am i _ =>
    [.header (headerAm i.handler i.size) (bytesAt mem i.lptr i.size)]
  | .rwdma i _ =>
    [.header (headerRw i.dptr i.size) [], .data (bytesAt mem i.lptr i.size)]

/-- The header of the remote write the skeleton is in. -/
def opened (src : Nat) : Stage → List Msg
  | .header => []
  | .data source ptr size =>
    if source = src then [.header (headerRw ptr size) []] else []

def owed (half : Option (List UInt8)) : List Msg :=
  (half.map Msg.data).toList

/-- What is to come from a source. -/
def coming (s : Tak) (src : Nat) : List Msg :=
  opened src s.stage ++ s.wire src ++ owed (s.half src)

variable {mem : Nat → UInt8} {m : Msg} {todo don : List Instruction} {i : Instruction}
  {ptr size : Nat} {rest : List Msg}

/-- The instruction of the first message on the wire. -/
theorem peel (gid : Nat) {ms : List Msg} (h : m :: ms = todo.flatMap (encode mem)) :
    ∃ skip i rest ms', todo = skip ++ i :: rest
      ∧ skip.flatMap (event mem gid) = [] ∧ encode mem i = m :: ms'
      ∧ ms = ms' ++ rest.flatMap (encode mem) := by
  induction todo with
  | nil => cases h
  | cons i todo ih =>
    rw [List.flatMap_cons] at h
    cases i with
    | nop c =>
      obtain ⟨skip, i, rest, ms', htodo, hskip, hi, hms⟩ := ih h
      exact ⟨.nop c :: skip, i, rest, ms', by rw [htodo]; rfl, hskip, hi, hms⟩
    | wb c =>
      obtain ⟨skip, i, rest, ms', htodo, hskip, hi, hms⟩ := ih h
      exact ⟨.wb c :: skip, i, rest, ms', by rw [htodo]; rfl, hskip, hi, hms⟩
    | am a c =>
      injection h with hm hms
      exact ⟨[], .am a c, todo, [], rfl, rfl, by rw [hm]; rfl, hms⟩
    | rwdma r c =>
      injection h with hm hms
      exact ⟨[], .rwdma r c, todo, [.data (bytesAt mem r.lptr r.size)], rfl, rfl,
        by rw [hm]; rfl, hms⟩

theorem event_of_encode_nil {gid : Nat} (h : [] = todo.flatMap (encode mem)) :
    todo.flatMap (event mem gid) = [] := by
  rw [List.flatMap_eq_nil_iff]
  intro i hi
  have hnone := List.flatMap_eq_nil_iff.mp h.symm i hi
  cases i with
  | nop c => rfl
  | wb c => rfl
  | am a c => cases hnone
  | rwdma r c => cases hnone

theorem encode_opened {ms : List Msg}
    (h : encode mem i = .header (headerRw ptr size) [] :: ms) :
    ∃ r c, i = .rwdma r c ∧ r.dptr = ptr ∧ r.size = size
      ∧ ms = [.data (bytesAt mem r.lptr r.size)] := by
  cases i with
  | nop c => cases h
  | wb c => cases h
  | am a c =>
    injection h with hm _
    injection hm with hh _
    cases congrArg Header.opcode hh
  | rwdma r c =>
    injection h with hm hms
    injection hm with hh _
    exact ⟨r, c, rfl, congrArg Header.ptr hh, congrArg Header.size hh, hms.symm⟩

-- ======== invariant

/-- What is done for a source is the beginning of what it has asked for,
what is to come is the rest. -/
structure Fifo (s : Tak) (src : Nat) (don todo : List Instruction) : Prop where
  sent : s.sent src = don ++ todo
  log : s.logOf src = don.flatMap (event (s.mem src) src)
  coming : s.coming src = todo.flatMap (encode (s.mem src))

structure Inv (s : Tak) : Prop where
  segment : s.segaddr + s.segsize < 2 ^ 64
  aligned : s.segsize % 8 = 0
  assertion : s.failed = false
  buffer : s.overrun = false
  ackTerm : s.ackTerm = false
  fifo : ∀ src, ∃ don todo, Fifo s src don todo
  allowed : ∀ src, ∀ i ∈ s.sent src, s.Allowed i
  writes : ∀ e ∈ s.log, s.InSegment e.2
  lower : ∀ b ∈ s.blocks, s.segaddr ≤ b.1
  upper : ∀ b ∈ s.blocks,
    b.1 + b.2 < s.segaddr + s.segsize ∧ b.1 + b.2 ≤ s.segaddr + s.segsp
  disjoint : s.blocks.Pairwise fun a b => a.1 + a.2 ≤ b.1

variable {s s' : Tak} {src : Nat}

theorem Inv.inBound (h : Inv s) (hb : s.InBlock ptr size) :
    s.segaddr ≤ ptr ∧ ptr + size < s.segaddr + s.segsize := by
  obtain ⟨b, hmem, hlo, hhi⟩ := hb
  have hlower := h.lower b hmem
  have hupper := (h.upper b hmem).1
  omega

theorem Inv.not_outOfBound (h : Inv s) (hb : s.InBlock ptr size) :
    ¬ s.OutOfBound ptr size := by
  have hin := h.inBound hb
  have hseg := h.segment
  rintro (hlo | hhi)
  · omega
  · rw [Nat.mod_eq_of_lt hseg, Nat.mod_eq_of_lt (by omega)] at hhi
    omega

theorem Fifo.congr (h : Fifo s src don todo) (hsent : s'.sent src = s.sent src)
    (hlog : s'.logOf src = s.logOf src) (hcoming : s'.coming src = s.coming src)
    (hmem : s'.mem = s.mem) : Fifo s' src don todo where
  sent := hsent.trans h.sent
  log := by rw [hlog, hmem]; exact h.log
  coming := by rw [hcoming, hmem]; exact h.coming

-- ======== allocate

/-- An allocation keeps the invariant. -/
theorem Inv.allocate (h : Inv s)
    (hm : s.segsp + size < 2 ^ 64 ∨ s.segsize ≤ (s.segsp + size) % 2 ^ 64) :
    Inv (s.allocate size) := by
  unfold Tak.allocate
  simp only
  split
  next => exact h
  next hgt =>
    rcases hm with hlt | hge
    · rw [Nat.mod_eq_of_lt hlt] at hgt
      have hseg := h.segment
      have halign := h.aligned
      have hround : (s.segsp + size + 8) % 2 ^ 64 / 8 * 8 ≥ s.segsp + size := by
        omega
      refine ⟨h.segment, h.aligned, h.assertion, h.buffer, h.ackTerm, fun src => ?_,
        fun src i hi => ?_, h.writes, fun b hb => ?_, fun b hb => ?_, ?_⟩
      · obtain ⟨don, todo, hf⟩ := h.fifo src
        exact ⟨don, todo, hf.congr rfl rfl rfl rfl⟩
      · have hold := h.allowed src i hi
        cases i with
        | nop c => trivial
        | wb c => trivial
        | am a c => exact hold
        | rwdma r c =>
          obtain ⟨b, hb, hin⟩ := hold
          exact ⟨b, List.mem_append_left _ hb, hin⟩
      · rcases List.mem_append.mp hb with hb | hb
        · exact h.lower b hb
        · cases List.mem_singleton.mp hb
          exact Nat.le_add_right ..
      · show b.1 + b.2 < s.segaddr + s.segsize
          ∧ b.1 + b.2 ≤ s.segaddr + (s.segsp + size + 8) % 2 ^ 64 / 8 * 8
        rcases List.mem_append.mp hb with hb | hb
        · have hup := h.upper b hb
          omega
        · cases List.mem_singleton.mp hb
          simp only
          omega
      · refine List.pairwise_append.mpr ⟨h.disjoint, List.pairwise_singleton .., ?_⟩
        intro a ha b hb
        cases List.mem_singleton.mp hb
        exact (h.upper a ha).2
    · exact absurd hge hgt

-- ======== sends

theorem Fifo.append (h : Fifo s src don todo) (hsent : s'.sent src = s.sent src ++ [i])
    (hlog : s'.logOf src = s.logOf src) (hmem : s'.mem = s.mem)
    (hcoming : s'.coming src = s.coming src ++ encode (s.mem src) i) :
    Fifo s' src don (todo ++ [i]) where
  sent := by rw [hsent, h.sent, List.append_assoc]
  log := by rw [hlog, hmem]; exact h.log
  coming := by
    rw [hcoming, hmem, h.coming, List.flatMap_append]
    simp

theorem InSegment.congr {e : Event} (h : s.InSegment e)
    (hsegaddr : s'.segaddr = s.segaddr) (hsegsize : s'.segsize = s.segsize) :
    s'.InSegment e := by
  cases e with
  | call sid source payload size => trivial
  | write dptr bytes =>
    unfold InSegment at h ⊢
    rw [hsegaddr, hsegsize]
    exact h
  | stray dptr size =>
    unfold InSegment at h ⊢
    rw [hsegaddr, hsegsize]
    exact h

theorem Allowed.congr (h : s.Allowed i) (hblocks : s'.blocks = s.blocks) :
    s'.Allowed i := by
  cases i with
  | nop c => trivial
  | wb c => trivial
  | am a c => exact h
  | rwdma r c =>
    unfold Allowed InBlock at h ⊢
    rw [hblocks]
    exact h

theorem flush_same (s : Tak) (src : Nat) (i : Instruction) :
    (s.flush src i).sent = update s.sent src (s.sent src ++ [i])
      ∧ (s.flush src i).segaddr = s.segaddr ∧ (s.flush src i).segsize = s.segsize
      ∧ (s.flush src i).segsp = s.segsp ∧ (s.flush src i).mem = s.mem
      ∧ (s.flush src i).stage = s.stage ∧ (s.flush src i).ackTerm = s.ackTerm
      ∧ (s.flush src i).overrun = s.overrun ∧ (s.flush src i).failed = s.failed
      ∧ (s.flush src i).blocks = s.blocks ∧ (s.flush src i).log = s.log := by
  cases i with
  | nop c => exact ⟨rfl, rfl, rfl, rfl, rfl, rfl, rfl, rfl, rfl, rfl, rfl⟩
  | wb c => exact ⟨rfl, rfl, rfl, rfl, rfl, rfl, rfl, rfl, rfl, rfl, rfl⟩
  | am a c => exact ⟨rfl, rfl, rfl, rfl, rfl, rfl, rfl, rfl, rfl, rfl, rfl⟩
  | rwdma r c => exact ⟨rfl, rfl, rfl, rfl, rfl, rfl, rfl, rfl, rfl, rfl, rfl⟩

theorem coming_flush (i : Instruction) (hhalf : s.half src = none) :
    (s.flush src i).coming src = s.coming src ++ encode (s.mem src) i := by
  have hold : s.coming src = opened src s.stage ++ s.wire src := by
    unfold Tak.coming
    rw [hhalf]
    exact List.append_nil _
  rw [hold]
  cases i with
  | nop c =>
    show s.coming src = _
    rw [hold]
    exact (List.append_nil _).symm
  | wb c =>
    show s.coming src = _
    rw [hold]
    exact (List.append_nil _).symm
  | am a c =>
    show opened src s.stage ++ update s.wire src _ src ++ owed (s.half src) = _
    rw [update_self, hhalf]
    simp [owed, encode]
  | rwdma r c =>
    show opened src s.stage ++ update s.wire src _ src
      ++ owed (update s.half src _ src) = _
    rw [update_self, update_self]
    simp [owed, encode]

theorem coming_flush_ne (i : Instruction) {other : Nat} (hne : other ≠ src) :
    (s.flush src i).coming other = s.coming other := by
  cases i with
  | nop c => rfl
  | wb c => rfl
  | am a c =>
    show opened other s.stage ++ update s.wire src _ other
      ++ owed (s.half other) = _
    rw [update_of_ne hne]
    rfl
  | rwdma r c =>
    show opened other s.stage ++ update s.wire src _ other
      ++ owed (update s.half src _ other) = _
    rw [update_of_ne hne, update_of_ne hne]
    rfl

/-- A flush keeps it. -/
theorem Inv.flush (h : Inv s) (hhalf : s.half src = none) (hi : s.Allowed i) :
    Inv (s.flush src i) := by
  obtain ⟨hsent, haddr, hsize, hsp, hmem, -, hterm, hover, hfail, hblocks,
    hlog⟩ := flush_same s src i
  have hlogs : ∀ other, (s.flush src i).logOf other = s.logOf other := by
    intro other
    unfold logOf
    rw [hlog]
  refine ⟨?_, ?_, hfail.trans h.assertion, hover.trans h.buffer,
    hterm.trans h.ackTerm, fun other => ?_, fun other i' hi' => ?_,
    fun e he => ?_, ?_, ?_, ?_⟩
  · rw [haddr, hsize]
    exact h.segment
  · rw [hsize]
    exact h.aligned
  · obtain ⟨don, todo, hf⟩ := h.fifo other
    by_cases hne : other = src
    · subst hne
      refine ⟨don, todo ++ [i], hf.append ?_ (hlogs other) hmem
        (coming_flush i hhalf)⟩
      rw [hsent, update_self]
    · refine ⟨don, todo, hf.congr ?_ (hlogs other) (coming_flush_ne i hne) hmem⟩
      rw [hsent, update_of_ne hne]
  · refine Allowed.congr ?_ hblocks
    rw [hsent] at hi'
    by_cases hne : other = src
    · subst hne
      rw [update_self] at hi'
      rcases List.mem_append.mp hi' with hi' | hi'
      · exact h.allowed other i' hi'
      · cases List.mem_singleton.mp hi'
        exact hi
    · rw [update_of_ne hne] at hi'
      exact h.allowed other i' hi'
  · rw [hlog] at he
    exact (h.writes e he).congr haddr hsize
  · rw [hblocks, haddr]
    exact h.lower
  · rw [hblocks, haddr, hsize, hsp]
    exact h.upper
  · rw [hblocks]
    exact h.disjoint

/-- The second message of a write is sent. -/
theorem Inv.sendData (h : Inv s) {bytes : List UInt8}
    (hhalf : s.half src = some bytes) : Inv (s.sendData src bytes) := by
  refine ⟨h.segment, h.aligned, h.assertion, h.buffer, h.ackTerm, fun other => ?_,
    fun other i hi => (h.allowed other i hi).congr rfl,
    fun e he => (h.writes e he).congr rfl rfl, h.lower, h.upper, h.disjoint⟩
  obtain ⟨don, todo, hf⟩ := h.fifo other
  refine ⟨don, todo, hf.congr rfl rfl ?_ rfl⟩
  show opened other s.stage ++ update s.wire src _ other
    ++ owed (update s.half src none other) = _
  unfold Tak.coming
  by_cases hne : other = src
  · subst hne
    rw [update_self, update_self, hhalf]
    simp [owed]
  · rw [update_of_ne hne, update_of_ne hne]

-- ======== receptions

theorem logOf_append {e : Event} (hlog : s'.log = s.log ++ [(src, e)])
    (other : Nat) :
    s'.logOf other = s.logOf other ++ if src = other then [e] else [] := by
  unfold logOf
  rw [hlog, List.filter_append, List.map_append]
  by_cases hne : src = other
  · simp [hne]
  · simp [hne]

/-- What the receiver finds first. -/
theorem Fifo.head (h : Fifo s src don todo) (hst : s.stage = .header)
    (hwire : s.wire src = m :: rest) :
    ∃ skip i todo', todo = skip ++ i :: todo'
      ∧ skip.flatMap (event (s.mem src) src) = []
      ∧ ((∃ a c, i = .am a c ∧ m = .header (headerAm a.handler a.size)
            (bytesAt (s.mem src) a.lptr a.size))
        ∨ ∃ r c, i = .rwdma r c ∧ m = .header (headerRw r.dptr r.size) []) := by
  have hcoming := h.coming
  unfold Tak.coming at hcoming
  rw [hst, hwire] at hcoming
  obtain ⟨skip, i, todo', ms', htodo, hskip, hi, -⟩ := peel src hcoming
  refine ⟨skip, i, todo', htodo, hskip, ?_⟩
  cases i with
  | nop c => cases hi
  | wb c => cases hi
  | am a c =>
    injection hi with hm _
    exact .inl ⟨a, c, rfl, hm.symm⟩
  | rwdma r c =>
    injection hi with hm _
    exact .inr ⟨r, c, rfl, hm.symm⟩

/-- What it finds after the header of a write. -/
theorem Fifo.second (h : Fifo s src don todo) (hst : s.stage = .data src ptr size)
    (hwire : s.wire src = m :: rest) :
    ∃ skip r c todo', todo = skip ++ .rwdma r c :: todo'
      ∧ skip.flatMap (event (s.mem src) src) = []
      ∧ r.dptr = ptr ∧ r.size = size
      ∧ m = .data (bytesAt (s.mem src) r.lptr r.size)
      ∧ rest ++ owed (s.half src) = todo'.flatMap (encode (s.mem src)) := by
  have hcoming := h.coming
  unfold Tak.coming opened at hcoming
  rw [hst, hwire] at hcoming
  simp only [if_true] at hcoming
  obtain ⟨skip, i, todo', ms', htodo, hskip, hi, hms⟩ :=
    peel src hcoming
  obtain ⟨r, c, rfl, hptr, hsize, hms'⟩ := encode_opened hi
  rw [hms'] at hms
  injection hms with hm hrest
  exact ⟨skip, r, c, todo', htodo, hskip, hptr, hsize, hm, hrest⟩

/-- A header is received. -/
theorem Inv.recvHeader (h : Inv s) (hst : s.stage = .header)
    (hwire : s.wire src = m :: rest) (hm : MeetsRecv src s.stage (s.wire src)) :
    Inv (s.skel src m rest) := by
  obtain ⟨don, todo, hf⟩ := h.fifo src
  obtain ⟨skip, i, todo', htodo, hskip, hcase⟩ := hf.head hst hwire
  rcases hcase with ⟨a, c, rfl, rfl⟩ | ⟨r, c, rfl, rfl⟩
  · rw [hst, hwire] at hm
    exact absurd rfl hm
  · have hmem : Instruction.rwdma r c ∈ s.sent src := by
      rw [hf.sent, htodo]
      simp
    have hbound : ¬ s.OutOfBound r.dptr r.size :=
      h.not_outOfBound (h.allowed src _ hmem)
    have hnext : s.skel src (.header (headerRw r.dptr r.size) []) rest
        = { s with
            wire := update s.wire src rest
            stage := .data src r.dptr r.size } := by
      have hfits : ¬ 1024 < (Msg.header (headerRw r.dptr r.size) []).size :=
        by show ¬ 1024 < 24; decide
      unfold skel
      simp only [hst]
      rw [if_neg hfits]
      exact if_neg hbound
    rw [hnext]
    refine ⟨h.segment, h.aligned, h.assertion, h.buffer, h.ackTerm,
      fun other => ?_, fun other i hi => (h.allowed other i hi).congr rfl,
      fun e he => (h.writes e he).congr rfl rfl, h.lower, h.upper, h.disjoint⟩
    obtain ⟨don', todo'', hf'⟩ := h.fifo other
    refine ⟨don', todo'', hf'.congr rfl rfl ?_ rfl⟩
    -- the header is still to come, now as the one the skeleton is in
    show opened other (.data src r.dptr r.size)
      ++ update s.wire src rest other ++ owed (s.half other) = _
    unfold Tak.coming opened
    rw [hst]
    simp only
    by_cases hne : src = other
    · subst hne
      rw [if_pos rfl, update_self, hwire]
      rfl
    · rw [if_neg hne, update_of_ne (Ne.symm hne)]

/-- The bytes of a write are received. -/
theorem Inv.recvData (h : Inv s) (hst : s.stage = .data src ptr size)
    (hwire : s.wire src = m :: rest) : Inv (s.skel src m rest) := by
  obtain ⟨don, todo, hf⟩ := h.fifo src
  obtain ⟨skip, r, c, todo', htodo, hskip, rfl, rfl, rfl, hrest⟩ :=
    hf.second hst hwire
  have hmem : Instruction.rwdma r c ∈ s.sent src := by
    rw [hf.sent, htodo]
    simp
  have hin := h.inBound (h.allowed src _ hmem)
  have hnext : s.skel src (.data (bytesAt (s.mem src) r.lptr r.size)) rest
      = { s with
          wire := update s.wire src rest
          stage := .header
          failed := false
          log := s.log
            ++ [(src, .write r.dptr (bytesAt (s.mem src) r.lptr r.size))] } := by
    unfold skel
    simp [hst, Msg.size, Msg.copied, length_bytesAt]
  have hlogs : ∀ other, (s.skel src (.data (bytesAt (s.mem src) r.lptr r.size))
      rest).logOf other = s.logOf other ++ if src = other
        then [.write r.dptr (bytesAt (s.mem src) r.lptr r.size)] else [] :=
    logOf_append (by rw [hnext])
  have hcomings : ∀ other, other ≠ src →
      (s.skel src (.data (bytesAt (s.mem src) r.lptr r.size)) rest).coming other
        = s.coming other := by
    intro other hne
    rw [hnext]
    unfold Tak.coming opened
    rw [hst]
    simp only [if_neg (Ne.symm hne)]
    rw [update_of_ne hne]
  refine ⟨?_, ?_, ?_, ?_, ?_, fun other => ?_, ?_, ?_, ?_, ?_, ?_⟩
  · rw [hnext]
    exact h.segment
  · rw [hnext]
    exact h.aligned
  · rw [hnext]
  · rw [hnext]
    exact h.buffer
  · rw [hnext]
    exact h.ackTerm
  · by_cases hne : other = src
    · subst hne
      refine ⟨don ++ skip ++ [.rwdma r c], todo', ?_, ?_, ?_⟩
      · rw [hnext]
        show s.sent other = _
        rw [hf.sent, htodo]
        simp
      · rw [hlogs, if_pos rfl, hnext, hf.log, List.flatMap_append,
          List.flatMap_append, hskip, List.append_nil]
        rfl
      · rw [hnext]
        show [] ++ update s.wire other rest other ++ _ = _
        rw [update_self]
        exact hrest
    · obtain ⟨don', todo'', hf'⟩ := h.fifo other
      refine ⟨don', todo'', hf'.congr ?_ ?_ (hcomings other hne) ?_⟩
      · rw [hnext]
      · rw [hlogs, if_neg (Ne.symm hne), List.append_nil]
      · rw [hnext]
  · rw [hnext]
    exact fun other i hi => (h.allowed other i hi).congr rfl
  · rw [hnext]
    intro e he
    rcases List.mem_append.mp he with he | he
    · exact (h.writes e he).congr rfl rfl
    · cases List.mem_singleton.mp he
      refine ⟨hin.1, ?_⟩
      rw [length_bytesAt]
      exact Nat.le_of_lt hin.2
  · rw [hnext]
    exact h.lower
  · rw [hnext]
    exact h.upper
  · rw [hnext]
    exact h.disjoint

-- ======== one step

/-- Every step that meets the condition keeps the invariant. -/
theorem Inv.of_step {a : TakAct} (h : Inv s) (hm : Meets a s)
    (hs : step a s = some s') : Inv s' := by
  unfold step at hs
  split at hs
  next => cases hs
  next =>
    cases a with
    | alloc size =>
      cases hs
      exact h.allocate hm
    | flush src i =>
      simp only at hs
      split at hs
      next hok =>
        cases hs
        exact h.flush hok.2.1 hok.2.2
      next => cases hs
    | data src =>
      simp only at hs
      split at hs
      next =>
        obtain ⟨bytes, hhalf, rfl⟩ := Option.map_eq_some_iff.mp hs
        exact h.sendData hhalf
      next => cases hs
    | recv src =>
      simp only at hs
      split at hs
      next =>
        split at hs
        next => cases hs
        next m rest hwire =>
          cases hs
          cases hst : s.stage with
          | header => exact h.recvHeader hst hwire hm
          | data source ptr size =>
            unfold Meets at hm
            rw [hst] at hm
            cases hm
            exact h.recvData hst hwire
      next => cases hs

theorem inv_init {n segaddr segsize : Nat} (mem : Nat → Nat → UInt8)
    (hseg : segaddr + segsize < 2 ^ 64) (halign : segsize % 8 = 0) :
    Inv (init n segaddr segsize mem) where
  segment := hseg
  aligned := halign
  assertion := rfl
  buffer := rfl
  ackTerm := rfl
  fifo := fun _ => ⟨[], [], rfl, rfl, rfl⟩
  allowed := nofun
  writes := nofun
  lower := nofun
  upper := nofun
  disjoint := List.Pairwise.nil

/-- Nothing is left to send or to receive: everything is done. -/
theorem Inv.complete (h : Inv s)
    (hidle : ∀ src, step (.data src) s = none ∧ step (.recv src) s = none)
    (hlt : src < s.n) : s.logOf src = s.expected src := by
  have hgo : ¬ (s.failed = true ∨ s.ackTerm = true) := by
    rw [h.assertion, h.ackTerm]
    decide
  have hhalf : s.half src = none := by
    have hdata := (hidle src).1
    unfold step at hdata
    rw [if_neg hgo] at hdata
    simpa only [if_pos hlt, Option.map_eq_none_iff] using hdata
  have hwire : s.wire src = [] := by
    have hrecv := (hidle src).2
    unfold step at hrecv
    rw [if_neg hgo] at hrecv
    simp only [if_pos hlt] at hrecv
    split at hrecv
    next hnil => exact hnil
    next => cases hrecv
  obtain ⟨don, todo, hf⟩ := h.fifo src
  have hcoming := hf.coming
  unfold Tak.coming at hcoming
  rw [hwire, hhalf, List.append_nil] at hcoming
  have hnone : todo.flatMap (event (s.mem src) src) = [] := by
    cases hst : s.stage with
    | header =>
      rw [hst] at hcoming
      exact event_of_encode_nil hcoming
    | data source ptr size =>
      rw [hst] at hcoming
      unfold opened at hcoming
      simp only at hcoming
      split at hcoming
      next =>
        -- a header without its data is not all of an instruction
        obtain ⟨_, i, _, ms', -, -, hi, hms⟩ := peel src hcoming
        obtain ⟨_, _, -, -, -, rfl⟩ := encode_opened hi
        cases hms
      next => exact event_of_encode_nil hcoming
  unfold expected
  rw [hf.sent, List.flatMap_append, hnone, List.append_nil]
  exact hf.log

/-- The invariant gives the order. -/
theorem Inv.takOk (h : Inv s) : TakOk s where
  delivered := by
    intro src
    obtain ⟨don, todo, hf⟩ := h.fifo src
    unfold expected
    rw [hf.sent, hf.log, List.flatMap_append]
    exact List.prefix_append ..
  assertion := h.assertion
  buffer := h.buffer
  writes := h.writes
  inside := fun b hb => ⟨h.lower b hb, Nat.le_of_lt (h.upper b hb).1⟩
  disjoint := h.disjoint
  complete := fun hidle _ hlt => h.complete hidle hlt

-- ======== the other direction

/-- An active message is executed on behalf of another process, when it is
executed at all. -/
theorem Inv.wrong_am (h : Inv s) (hst : s.stage = .header) {hd : Header}
    {payload : List UInt8} (hwire : s.wire src = .header hd payload :: rest)
    (ham : hd.opcode = .am) : ¬ TakOk (s.skel src (.header hd payload) rest) := by
  intro hok
  obtain ⟨don, todo, hf⟩ := h.fifo src
  obtain ⟨skip, i, todo', htodo, hskip, hcase⟩ := hf.head hst hwire
  rcases hcase with ⟨a, c, rfl, hm⟩ | ⟨r, c, rfl, hm⟩
  · cases hm
    by_cases hover : 1024 < (Msg.header (headerAm a.handler a.size)
        (bytesAt (s.mem src) a.lptr a.size)).size
    · have hfail := hok.assertion
      unfold skel at hfail
      simp [hst, if_pos hover] at hfail
    · by_cases hbig : a.size < 512
      · -- the call is the next event of this source
        have hnext : s.skel src (.header (headerAm a.handler a.size)
            (bytesAt (s.mem src) a.lptr a.size)) rest
            = { s with
                wire := update s.wire src rest
                log := s.log ++ [(src, .call (a.handler % 2 ^ 8) (src + 1)
                  ((bytesAt (s.mem src) a.lptr a.size).take a.size) a.size)] } := by
          unfold skel
          simp only [hst]
          rw [if_neg hover]
          exact if_pos hbig
        have hpre := hok.delivered src
        have hlog := logOf_append (congrArg Tak.log hnext) src
        rw [hlog, if_pos rfl, hf.log] at hpre
        have hexp : (s.skel src (.header (headerAm a.handler a.size)
            (bytesAt (s.mem src) a.lptr a.size)) rest).expected src
            = don.flatMap (event (s.mem src) src)
              ++ .call a.handler src (bytesAt (s.mem src) a.lptr a.size) a.size
                :: todo'.flatMap (event (s.mem src) src) := by
          rw [hnext]
          show (s.sent src).flatMap (event (s.mem src) src) = _
          rw [hf.sent, htodo, List.flatMap_append, List.flatMap_append, hskip,
            List.nil_append, List.flatMap_cons]
          rfl
        rw [hexp, List.prefix_append_right_inj] at hpre
        have hhead := (List.cons_prefix_cons.mp hpre).1
        injection hhead with _ hgid
        omega
      · have hfail := hok.assertion
        unfold skel at hfail
        simp only [hst] at hfail
        rw [if_neg hover] at hfail
        unfold dispatch at hfail
        simp [headerAm, hbig] at hfail
  · cases hm
    cases ham

/-- A step that does not meet it breaks the order. -/
theorem not_ok_of_step {a : TakAct} (hm : ¬ Meets a s) (h : Inv s)
    (hs : step a s = some s') : ¬ TakOk s' := by
  unfold step at hs
  split at hs
  next => cases hs
  next =>
    cases a with
    | alloc size =>
      cases hs
      intro hok
      obtain ⟨hwrap, hgiven⟩ := not_or.mp hm
      have hin := hok.inside (s.segaddr + s.segsp, size) (by
        unfold Tak.allocate
        simp only [if_neg hgiven]
        exact List.mem_append_right _ (List.mem_singleton_self _))
      have hsize : (s.allocate size).segsize = s.segsize
          ∧ (s.allocate size).segaddr = s.segaddr := by
        unfold Tak.allocate
        simp only [if_neg hgiven]
        trivial
      rw [hsize.1, hsize.2] at hin
      have hseg := h.segment
      have hend := hin.2
      simp only at hend
      omega
    | flush src i => exact absurd trivial hm
    | data src => exact absurd trivial hm
    | recv src =>
      simp only at hs
      split at hs
      next =>
        split at hs
        next => cases hs
        next m rest hwire =>
          cases hs
          have hm : ¬ MeetsRecv src s.stage (s.wire src) := hm
          cases hst : s.stage with
          | header =>
            rw [hst, hwire] at hm
            cases m with
            | header hd payload =>
              exact h.wrong_am hst hwire (not_not.mp hm)
            | data bytes => exact absurd trivial hm
          | data source ptr size =>
            rw [hst] at hm
            have hne : src ≠ source := hm
            intro hok
            have hfail := hok.assertion
            unfold skel at hfail
            simp [hst, hne] at hfail
      next => cases hs

/-- In every run of the device with its peers, everything holds in every
state iff no block is given for a size that wraps, no active message is
read, and no message of another source comes between the header and the
data of a remote write. -/
theorem takOk_iff {n segaddr segsize : Nat} (mem : Nat → Nat → UInt8)
    (hseg : segaddr + segsize < 2 ^ 64) (halign : segsize % 8 = 0)
    (as : List TakAct) (s : Tak)
    (hrun : run step as (init n segaddr segsize mem) = some s) :
    (∀ bs, bs <+: as → ∀ t, run step bs (init n segaddr segsize mem) = some t →
        TakOk t)
      ↔ Along step Meets as (init n segaddr segsize mem) :=
  Along.iff_good Inv.takOk (fun hm h hs => h.of_step hm hs)
    (fun hm h hs => not_ok_of_step hm h hs) (inv_init mem hseg halign) hrun

/-- A block of 16 bytes is given and a peer writes 2 bytes in it. -/
theorem takOk_write : ∃ s, run step
    [.alloc 16, .flush 0 (.rwdma ⟨4096, 2, 0⟩ ⟨0, 0⟩), .data 0, .recv 0, .recv 0]
      (init 1 4096 4096 fun _ _ => 7) = some s
    ∧ s.logOf 0 = [.write 4096 [7, 7]]
    ∧ ∀ bs, bs <+: [.alloc 16, .flush 0 (.rwdma ⟨4096, 2, 0⟩ ⟨0, 0⟩), .data 0,
        .recv 0, .recv 0] → ∀ t,
      run step bs (init 1 4096 4096 fun _ _ => 7) = some t → TakOk t := by
  refine ⟨_, rfl, by decide, ?_⟩
  exact (takOk_iff (fun _ _ => 7) (by decide) (by decide)
    [.alloc 16, .flush 0 (.rwdma ⟨4096, 2, 0⟩ ⟨0, 0⟩), .data 0, .recv 0, .recv 0]
    _ rfl).mpr (by decide)

/-- The process 0 sends an active message: the service is called with the
id 1. Two processes write: the header of the one is matched with that of
the other. -/
theorem takOk_fails :
    (∃ s, run step [.flush 0 (.am ⟨3, 1, 0⟩ ⟨0, 0⟩), .recv 0]
        (init 1 4096 4096 fun _ _ => 7) = some s
      ∧ s.log = [(0, .call 3 1 [7] 1)] ∧ ¬ TakOk s)
    ∧ ∃ s, run step [.alloc 16, .alloc 16,
        .flush 0 (.rwdma ⟨4096, 2, 0⟩ ⟨0, 0⟩),
        .flush 1 (.rwdma ⟨4120, 2, 0⟩ ⟨0, 0⟩), .recv 0, .recv 1]
        (init 2 4096 4096 fun _ _ => 7) = some s
      ∧ s.log = [(1, .stray 4096 24)] ∧ s.failed = true ∧ ¬ TakOk s := by
  refine ⟨⟨_, rfl, rfl, fun hok => ?_⟩, _, rfl, rfl, rfl, fun hok => ?_⟩
  · exact absurd (hok.delivered 0) (by decide)
  · exact absurd hok.assertion (by decide)

end Tak

end XKaapi.Taknet.Wire
