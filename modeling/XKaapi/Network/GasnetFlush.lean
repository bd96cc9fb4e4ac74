/-
Flushing an instruction buffer on a GASNet channel
(network/gasnet/kagasnet_channel.cpp).

A put is asynchronous inside an access region, and its callback is put off
until the region has been waited for: at a write barrier and at the end,
`flush` goes again over the instructions since `beg` and calls the
callbacks of the puts among them, unless `has_put_cbk` says that there is
none. The other instructions call their callback where they stand.

# The trace

`flush` answers what it asks of GASNet and which callbacks it calls, in
order. An access region is named by the number of those opened before it,
which stands for its handle. A callback is a call to foreign code, an event
like the others; `send p` is what `gasnet_AMRequestMedium1` answers to the
message at position `p`.

A `void` slot is one that an instruction of type `INST_VOID` would be in; the
source sets no such type (the constructor sets `INST_NOP`). Its callback is
not looked at, here as in the other networks.
-/
import XKaapi.Network.InstructionStream

namespace XKaapi.Network.Gasnet

-- ======== events

/-- What `flush` does, in order. -/
inductive Event where
  | beginRegion (r : Nat)
  | endRegion (r : Nat)
  | wait (r : Nat)
  | put (pos : Nat) (body : Body)
  | am (pos : Nat) (body : Body)
  | call (pos : Nat) (err : Int) (c : Callback)
deriving DecidableEq, Repr

/-- The call of the callback at `pos`, if there is one. -/
def callback (pos : Nat) (err : Int) (c : Callback) : List Event :=
  if c.cbk ≠ 0 then [.call pos err c] else []

-- ======== flush

/-- The locals of `flush`, and what it has done. -/
structure Loop where
  beg : Nat
  hasPutCbk : Bool
  region : Nat
  out : List Event

/-- `while (beg != curr)`: the callbacks of the puts among the `n`
instructions from `beg` on. -/
def replay (is : List Slot) : (n beg : Nat) → List Event
  | 0, _ => []
  | n + 1, beg =>
    (match is[beg]? with
      | some s => if s.type = .rwdma then callback beg 0 s.cbk else []
      | none => [])
      ++ replay is n (beg + 1)

/-- One turn of the loop, on the instruction at `curr`. -/
def flushStep (is : List Slot) (send : Nat → Int) (curr : Nat) (s : Slot)
    (l : Loop) : Loop :=
  match s.type with
  | .void => l
  | .nop => { l with out := l.out ++ callback curr 0 s.cbk }
  | .wb =>
    { beg := curr
      hasPutCbk := false
      region := l.region + 1
      out := l.out ++ [.endRegion l.region, .wait l.region]
        ++ (if l.hasPutCbk then replay is (curr - l.beg) l.beg else [])
        ++ callback curr 0 s.cbk ++ [.beginRegion (l.region + 1)] }
  | .am =>
    { l with out := l.out ++ .am curr s.body :: callback curr (send curr) s.cbk }
  | .rwdma =>
    { l with
      hasPutCbk := l.hasPutCbk || decide (s.cbk.cbk ≠ 0)
      out := l.out ++ [.put curr s.body] }

/-- `while (curr != last)`. -/
def flushLoop (is : List Slot) (send : Nat → Int) : List Slot → Nat → Loop → Loop
  | [], _, l => l
  | s :: rest, curr, l => flushLoop is send rest (curr + 1) (flushStep is send curr s l)

/-- After the loop: the last region. -/
def finish (is : List Slot) (l : Loop) : List Event :=
  l.out ++ [.endRegion l.region, .wait l.region]
    ++ (if l.hasPutCbk then replay is (is.length - l.beg) l.beg else [])

/-- `GASNET::OutChannel::flush`, on the instructions from `first` to `last`. -/
def flush (is : List Slot) (send : Nat → Int) : List Event :=
  finish is (flushLoop is send is 0
    { beg := 0
      hasPutCbk := false
      region := 0
      out := [.beginRegion 0] })

-- ======== trace

/-- The calls put off. -/
def putOff (pend : List (Nat × Callback)) : List Event :=
  pend.map fun x => .call x.1 0 x.2

/-- The flush of the instructions left, the first at `curr`, in region `r`
with the callbacks `pend` put off. -/
def trace (send : Nat → Int) : List Slot → (curr r : Nat) → List (Nat × Callback) →
    List Event
  | [], _, r, pend => [.endRegion r, .wait r] ++ putOff pend
  | s :: rest, curr, r, pend =>
    match s.type with
    | .void => trace send rest (curr + 1) r pend
    | .nop => callback curr 0 s.cbk ++ trace send rest (curr + 1) r pend
    | .wb =>
      [.endRegion r, .wait r] ++ putOff pend ++ callback curr 0 s.cbk
        ++ .beginRegion (r + 1) :: trace send rest (curr + 1) (r + 1) []
    | .am =>
      .am curr s.body :: (callback curr (send curr) s.cbk
        ++ trace send rest (curr + 1) r pend)
    | .rwdma =>
      .put curr s.body :: trace send rest (curr + 1) r
        (if s.cbk.cbk ≠ 0 then pend ++ [(curr, s.cbk)] else pend)

-- ======== the two loops

/-- What is replayed of one instruction. -/
def replayOne (is : List Slot) (pos : Nat) : List Event :=
  match is[pos]? with
  | some s => if s.type = .rwdma then callback pos 0 s.cbk else []
  | none => []

theorem replay_succ (is : List Slot) (n beg : Nat) :
    replay is (n + 1) beg = replay is n beg ++ replayOne is (beg + n) := by
  induction n generalizing beg with
  | zero => simp [replay, replayOne]
  | succ n ih =>
    rw [replay, ih (beg + 1), ← List.append_assoc]
    congr 2
    omega

/-- The position and the flag stand for the callbacks put off. -/
structure Pending (is : List Slot) (l : Loop) (curr : Nat)
    (pend : List (Nat × Callback)) : Prop where
  le : l.beg ≤ curr
  replay : replay is (curr - l.beg) l.beg = putOff pend
  none : l.hasPutCbk = false → pend = []

namespace Pending

variable {is : List Slot} {l : Loop} {curr : Nat} {pend : List (Nat × Callback)}

theorem replayed (h : Pending is l curr pend) :
    (if l.hasPutCbk then XKaapi.Network.Gasnet.replay is (curr - l.beg) l.beg else [])
      = putOff pend := by
  split
  · exact h.replay
  · next hno =>
    rw [h.none (by simpa using hno)]
    rfl

theorem next {l' : Loop} {new : List (Nat × Callback)} (h : Pending is l curr pend)
    (hbeg : l'.beg = l.beg) (hnew : replayOne is curr = putOff new)
    (hflag : l'.hasPutCbk = false → l.hasPutCbk = false ∧ new = []) :
    Pending is l' (curr + 1) (pend ++ new) where
  le := by
    have := h.le
    omega
  replay := by
    have hle := h.le
    have hlen : curr + 1 - l.beg = (curr - l.beg) + 1 := by omega
    have hpos : l.beg + (curr - l.beg) = curr := by omega
    rw [hbeg, hlen, replay_succ, h.replay, hpos, hnew]
    simp [putOff]
  none hno := by
    obtain ⟨hl, hnil⟩ := hflag hno
    rw [h.none hl, hnil]
    rfl

end Pending

variable {is : List Slot} {s : Slot} {curr p : Nat}

theorem replayOne_other (hs : is[curr]? = some s) (hne : s.type ≠ .rwdma) :
    replayOne is curr = [] := by
  simp only [replayOne, hs, if_neg hne]

theorem replayOne_rwdma (hs : is[curr]? = some s) (heq : s.type = .rwdma) :
    replayOne is curr = putOff (if s.cbk.cbk ≠ 0 then [(curr, s.cbk)] else []) := by
  simp only [replayOne, hs, if_pos heq, callback]
  split <;> rfl

/-- The loop with the position and the flag is the one with the list. -/
theorem flushLoop_eq (is : List Slot) (send : Nat → Int) (rest : List Slot) :
    ∀ {curr : Nat} {l : Loop} {pend : List (Nat × Callback)},
      is.drop curr = rest → curr + rest.length = is.length →
      Pending is l curr pend →
      finish is (flushLoop is send rest curr l)
        = l.out ++ trace send rest curr l.region pend := by
  induction rest with
  | nil =>
    intro curr l pend _ hlen h
    rw [flushLoop, finish, trace, ← hlen, List.length_nil, Nat.add_zero, h.replayed,
      List.append_assoc]
  | cons s rest ih =>
    intro curr l pend hdrop hlen h
    have hs : is[curr]? = some s := by
      rw [← List.head?_drop, hdrop]
      rfl
    have hrest : is.drop (curr + 1) = rest := by
      rw [← List.tail_drop, hdrop]
      rfl
    have hlen' : curr + 1 + rest.length = is.length := by
      rw [List.length_cons] at hlen
      omega
    rw [flushLoop]
    cases ht : s.type with
    | void =>
      have hone := replayOne_other hs (by rw [ht]; decide)
      have hn : Pending is l (curr + 1) (pend ++ []) :=
        h.next rfl hone fun hno => ⟨hno, rfl⟩
      rw [List.append_nil] at hn
      simp only [flushStep, trace, ht]
      exact ih hrest hlen' hn
    | nop =>
      have hone := replayOne_other hs (by rw [ht]; decide)
      have hn : Pending is (flushStep is send curr s l) (curr + 1) (pend ++ []) :=
        h.next (by simp only [flushStep, ht]) hone
        (fun hno => ⟨by simpa only [flushStep, ht] using hno, rfl⟩)
      rw [List.append_nil] at hn
      rw [ih hrest hlen' hn]
      simp only [flushStep, trace, ht, List.append_assoc]
    | wb =>
      have hn : Pending is (flushStep is send curr s l) (curr + 1) [] := by
        simp only [flushStep, ht]
        refine ⟨Nat.le_succ curr, ?_, fun _ => rfl⟩
        have hone := replayOne_other hs (by rw [ht]; decide)
        rw [Nat.add_sub_cancel_left, replay_succ]
        dsimp only
        rw [Nat.add_zero, hone]
        rfl
      rw [ih hrest hlen' hn]
      simp only [flushStep, trace, ht, h.replayed, List.append_assoc,
        List.singleton_append]
    | am =>
      have hone := replayOne_other hs (by rw [ht]; decide)
      have hn : Pending is (flushStep is send curr s l) (curr + 1) (pend ++ []) :=
        h.next (by simp only [flushStep, ht]) hone
        (fun hno => ⟨by simpa only [flushStep, ht] using hno, rfl⟩)
      rw [List.append_nil] at hn
      rw [ih hrest hlen' hn]
      simp only [flushStep, trace, ht, List.append_assoc, List.cons_append]
    | rwdma =>
      have hn : Pending is (flushStep is send curr s l) (curr + 1) _ := h.next
        (by simp only [flushStep, ht]) (replayOne_rwdma hs ht) fun hno => by
          simp only [flushStep, ht, Bool.or_eq_false_iff,
            decide_eq_false_iff_not] at hno
          exact ⟨hno.1, if_neg hno.2⟩
      rw [ih hrest hlen' hn]
      simp only [flushStep, trace, ht, List.append_assoc, List.singleton_append]
      split <;> simp

theorem flush_eq (is : List Slot) (send : Nat → Int) :
    flush is send = .beginRegion 0 :: trace send is 0 0 [] :=
  flushLoop_eq is send is rfl (Nat.zero_add _) ⟨Nat.le_refl 0, rfl, fun _ => rfl⟩

-- ======== exactly once

/-- The event calls the callback at `p`. -/
def Event.isCall (p : Nat) : Event → Bool
  | .call q _ _ => q == p
  | _ => false

/-- The calls that the instruction `s` at `p` asks for. -/
def calls (send : Nat → Int) (p : Nat) (s : Slot) : List Event :=
  match s.type with
  | .void => []
  | .am => callback p (send p) s.cbk
  | _ => callback p 0 s.cbk

theorem filter_callback (p q : Nat) (err : Int) (c : Callback) :
    (callback q err c).filter (Event.isCall p) = if q = p then callback p err c else [] := by
  unfold callback
  by_cases hc : c.cbk = 0
  · simp [hc]
  · by_cases hq : q = p
    · simp [hc, hq, Event.isCall]
    · simp [hc, hq, Event.isCall]

theorem filter_putOff (p : Nat) (pend : List (Nat × Callback)) :
    (putOff pend).filter (Event.isCall p) = putOff (pend.filter fun x => x.1 == p) := by
  unfold putOff
  rw [List.filter_map]
  rfl

theorem putOff_filter_of_lt {pend : List (Nat × Callback)} (hlt : ∀ x ∈ pend, x.1 < curr)
    (hp : curr ≤ p) : (pend.filter fun x => x.1 == p) = [] := by
  rw [List.filter_eq_nil_iff]
  intro x hx
  have := hlt x hx
  simp only [beq_iff_eq]
  omega

/-- What the trace calls at `p`: what is put off there, and what the
instruction there, if it is still to come, asks for. -/
theorem trace_calls (send : Nat → Int) (p : Nat) (rest : List Slot) :
    ∀ (curr r : Nat) (pend : List (Nat × Callback)), (∀ x ∈ pend, x.1 < curr) →
      (trace send rest curr r pend).filter (Event.isCall p)
        = putOff (pend.filter fun x => x.1 == p)
          ++ if curr ≤ p then (rest[p - curr]?.map (calls send p)).getD [] else [] := by
  induction rest with
  | nil =>
    intro curr r pend _
    simp [trace, filter_putOff, Event.isCall]
  | cons s rest ih =>
    intro curr r pend hlt
    have hlt' : ∀ x ∈ pend, x.1 < curr + 1 := fun x hx => Nat.lt_succ_of_lt (hlt x hx)
    -- the instruction at `curr` itself, and those after it
    have hsplit : (if curr ≤ p then ((s :: rest)[p - curr]?.map (calls send p)).getD []
          else [])
        = (if curr = p then calls send p s else [])
          ++ if curr + 1 ≤ p then (rest[p - (curr + 1)]?.map (calls send p)).getD []
            else [] := by
      rcases Nat.lt_trichotomy curr p with h | h | h
      · have hidx : p - curr = (p - (curr + 1)) + 1 := by omega
        rw [if_pos (by omega), if_neg (by omega), if_pos (by omega), hidx]
        rfl
      · subst h
        rw [if_pos (Nat.le_refl _), if_pos rfl, if_neg (Nat.not_succ_le_self _),
          Nat.sub_self]
        simp
      · rw [if_neg (by omega), if_neg (by omega), if_neg (by omega)]
        rfl
    -- what is put off and what `curr` asks for do not both concern `p`
    have hswap : ∀ own : List Event,
        (if curr = p then own else []) ++ putOff (pend.filter fun x => x.1 == p)
          = putOff (pend.filter fun x => x.1 == p) ++ if curr = p then own else [] := by
      intro own
      split
      · rw [putOff_filter_of_lt hlt (by omega)]
        exact List.append_nil _
      · exact (List.append_nil _).symm
    rw [hsplit]
    cases ht : s.type with
    | void =>
      simp only [trace, ht, ih _ _ _ hlt', calls, ite_self, List.nil_append]
    | nop =>
      simp only [trace, ht, List.filter_append, filter_callback, ih _ _ _ hlt', calls]
      rw [← List.append_assoc, ← List.append_assoc, hswap]
    | wb =>
      have hregion : [Event.endRegion r, .wait r].filter (Event.isCall p) = [] := rfl
      have hbegin : Event.isCall p (.beginRegion (r + 1)) = false := rfl
      have hrest := ih (curr + 1) (r + 1) [] (by simp)
      simp only [trace, ht, List.filter_append, hregion, filter_putOff,
        filter_callback, List.filter_cons, hbegin, hrest, calls]
      simp [putOff]
    | am =>
      have ham : Event.isCall p (.am curr s.body) = false := rfl
      have hsend : (if curr = p then callback p (send curr) s.cbk else [])
          = if curr = p then callback p (send p) s.cbk else [] := by
        split
        · next h => rw [h]
        · rfl
      simp only [trace, ht, List.filter_cons, ham, List.filter_append,
        filter_callback, hsend, ih _ _ _ hlt', calls, Bool.false_eq_true, if_false]
      rw [← List.append_assoc, ← List.append_assoc, hswap]
    | rwdma =>
      have hput : Event.isCall p (.put curr s.body) = false := rfl
      have hnew : ∀ x ∈ (if s.cbk.cbk ≠ 0 then pend ++ [(curr, s.cbk)] else pend),
          x.1 < curr + 1 := by
        intro x hx
        split at hx
        · rcases List.mem_append.mp hx with hx | hx
          · exact hlt' x hx
          · rw [List.mem_singleton.mp hx]
            exact Nat.lt_succ_self curr
        · exact hlt' x hx
      simp only [trace, ht, List.filter_cons, hput, ih _ _ _ hnew, calls,
        Bool.false_eq_true, if_false]
      rw [← List.append_assoc]
      congr 1
      by_cases hc : s.cbk.cbk = 0
      · simp [hc, callback]
      · by_cases hp : curr = p
        · simp [hc, hp, callback, putOff]
        · simp [hc, hp, putOff]

-- ======== order

/-- What an instruction puts off. -/
def puttingOff (curr : Nat) (s : Slot) : List (Nat × Callback) :=
  if s.type = .rwdma ∧ s.cbk.cbk ≠ 0 then [(curr, s.cbk)] else []

section Order

variable (send : Nat → Int) {s : Slot} {rest : List Slot} {curr r : Nat}
  {pend : List (Nat × Callback)}

theorem trace_wb (hs : s.type = .wb) :
    trace send (s :: rest) curr r pend
      = ([.endRegion r, .wait r] ++ putOff pend) ++ callback curr 0 s.cbk
        ++ .beginRegion (r + 1) :: trace send rest (curr + 1) (r + 1) [] := by
  simp only [trace, hs]

theorem trace_cons (rest : List Slot) (curr r : Nat) (pend : List (Nat × Callback))
    (hs : s.type ≠ .wb) :
    ∃ pre, trace send (s :: rest) curr r pend
        = pre ++ trace send rest (curr + 1) r (pend ++ puttingOff curr s)
      ∧ (s.type = .rwdma → pre = [.put curr s.body]) := by
  cases ht : s.type with
  | wb => exact absurd ht hs
  | void =>
    refine ⟨[], ?_, nofun⟩
    simp [trace, puttingOff, ht]
  | nop =>
    refine ⟨callback curr 0 s.cbk, ?_, nofun⟩
    simp [trace, puttingOff, ht]
  | am =>
    refine ⟨.am curr s.body :: callback curr (send curr) s.cbk, ?_, nofun⟩
    simp [trace, puttingOff, ht]
  | rwdma =>
    refine ⟨[.put curr s.body], ?_, fun _ => rfl⟩
    by_cases hc : s.cbk.cbk = 0
    · simp [trace, puttingOff, ht, hc]
    · simp [trace, puttingOff, ht, hc]

theorem putOff_sublist (rest : List Slot) :
    ∀ (curr : Nat) (pend : List (Nat × Callback)),
      List.Sublist ([Event.endRegion r, .wait r] ++ putOff pend)
        (trace send rest curr r pend) := by
  induction rest with
  | nil =>
    intro curr pend
    exact List.Sublist.refl _
  | cons s rest ih =>
    intro curr pend
    by_cases hs : s.type = .wb
    · rw [trace_wb send hs, List.append_assoc]
      exact List.sublist_append_left _ _
    · obtain ⟨pre, heq, -⟩ := trace_cons send rest curr r pend hs
      rw [heq]
      refine List.Sublist.trans ?_ ((ih (curr + 1) (pend ++ puttingOff curr s)).trans
        (List.sublist_append_right _ _))
      refine (List.Sublist.refl _).append ?_
      rw [putOff, putOff, List.map_append]
      exact List.sublist_append_left _ _

/-- The trace from an instruction on: what was put off is still to come, and
the region has begun. -/
theorem trace_drop (rest : List Slot) :
    ∀ {k : Nat} (curr r : Nat) (pend : List (Nat × Callback)), k ≤ rest.length →
      ∃ pre r' pend', trace send rest curr r pend
          = pre ++ trace send (rest.drop k) (curr + k) r' pend'
        ∧ List.Sublist ([Event.endRegion r, .wait r] ++ putOff pend)
          (pre ++ ([.endRegion r', .wait r'] ++ putOff pend'))
        ∧ List.Sublist [Event.beginRegion r'] (.beginRegion r :: pre) := by
  induction rest with
  | nil =>
    intro k curr r pend hk
    have hz : k = 0 := Nat.le_zero.mp hk
    exact ⟨[], r, pend, by rw [hz]; rfl, List.Sublist.refl _, List.Sublist.refl _⟩
  | cons s rest ih =>
    intro k curr r pend hk
    cases k with
    | zero => exact ⟨[], r, pend, rfl, List.Sublist.refl _, List.Sublist.refl _⟩
    | succ k =>
      have hle : k ≤ rest.length := Nat.le_of_succ_le_succ hk
      have hidx : curr + 1 + k = curr + (k + 1) := by omega
      by_cases hs : s.type = .wb
      · obtain ⟨pre, r', pend', heq, -, hreg⟩ := ih (curr + 1) (r + 1) [] hle
        rw [hidx] at heq
        rw [trace_wb send hs, heq, ← List.cons_append, ← List.append_assoc]
        refine ⟨_, r', pend', rfl, ?_, ?_⟩
        · rw [List.append_assoc, List.append_assoc]
          exact List.sublist_append_left _ _
        · exact (hreg.trans (List.sublist_append_right _ _)).cons _
      · obtain ⟨pre₀, heq₀, -⟩ := trace_cons send rest curr r pend hs
        obtain ⟨pre, r', pend', heq, hsub, hreg⟩ :=
          ih (curr + 1) r (pend ++ puttingOff curr s) hle
        rw [hidx] at heq
        rw [putOff, List.map_append] at hsub
        rw [heq₀, heq, ← List.append_assoc]
        refine ⟨_, r', pend', rfl, ?_, ?_⟩
        · refine List.Sublist.trans ((List.Sublist.refl _).append ?_)
            (hsub.trans ?_)
          · exact List.sublist_append_left _ _
          · rw [List.append_assoc]
            exact List.sublist_append_right _ _
        · exact hreg.trans (List.Sublist.cons_cons _ (List.sublist_append_right _ _))

theorem drop_eq_cons {is : List Slot} {k : Nat} {t : Slot} (hk : is[k]? = some t) :
    is.drop k = t :: is.drop (k + 1) := by
  obtain ⟨hlt, ht⟩ := List.getElem?_eq_some_iff.mp hk
  rw [List.drop_eq_getElem_cons hlt, ht]

/-- The callbacks of barriers and of puts still to come are called after those
put off. -/
theorem called_sublist {t : Slot} {k : Nat} (ht : t.type = .wb ∨ t.type = .rwdma)
    (hc : t.cbk.cbk ≠ 0) (hk : rest[k]? = some t) (curr r : Nat)
    (pend : List (Nat × Callback)) :
    List.Sublist
      ([Event.endRegion r, .wait r] ++ putOff pend ++ [.call (curr + k) 0 t.cbk])
      (trace send rest curr r pend) := by
  have hlt := (List.getElem?_eq_some_iff.mp hk).1
  obtain ⟨pre, r', pend', heq, hsub, -⟩ :=
    trace_drop send rest curr r pend (Nat.le_of_lt hlt)
  rw [heq, drop_eq_cons hk]
  refine (hsub.append (List.Sublist.refl _)).trans ?_
  rw [List.append_assoc]
  refine (List.Sublist.refl pre).append ?_
  rcases ht with ht | ht
  · rw [trace_wb send ht, callback, if_pos hc]
    exact List.sublist_append_left _ _
  · obtain ⟨pre₀, heq₀, -⟩ := trace_cons send (rest.drop (k + 1)) (curr + k) r' pend'
      (s := t) (by rw [ht]; decide)
    have hnew : puttingOff (curr + k) t = [(curr + k, t.cbk)] := if_pos ⟨ht, hc⟩
    have hrest := putOff_sublist send (r := r') (rest.drop (k + 1)) (curr + k + 1)
      (pend' ++ puttingOff (curr + k) t)
    rw [hnew, putOff, List.map_append, ← List.append_assoc] at hrest
    rw [heq₀, hnew]
    exact hrest.trans (List.sublist_append_right _ _)

end Order

-- ======== the regions

/-- Access regions begin and end in turn, numbered from `n` on, and every
put is inside one. -/
def regionsOk : (n : Nat) → (inside : Bool) → List Event → Bool
  | _, inside, [] => !inside
  | n, inside, .beginRegion r :: l => !inside && r == n && regionsOk n true l
  | n, inside, .endRegion r :: l => inside && r == n && regionsOk (n + 1) false l
  | n, inside, .put _ _ :: l => inside && regionsOk n inside l
  | n, inside, _ :: l => regionsOk n inside l

theorem regionsOk_callback (n : Nat) (inside : Bool) (pos : Nat) (err : Int)
    (c : Callback) (l : List Event) :
    regionsOk n inside (callback pos err c ++ l) = regionsOk n inside l := by
  unfold callback
  split <;> rfl

theorem regionsOk_putOff (n : Nat) (inside : Bool) (pend : List (Nat × Callback))
    (l : List Event) : regionsOk n inside (putOff pend ++ l) = regionsOk n inside l := by
  induction pend with
  | nil => rfl
  | cons x pend ih => exact ih

theorem trace_regions (send : Nat → Int) (rest : List Slot) :
    ∀ (curr r : Nat) (pend : List (Nat × Callback)),
      regionsOk r true (trace send rest curr r pend) = true := by
  induction rest with
  | nil =>
    intro curr r pend
    have h := regionsOk_putOff (r + 1) false pend []
    rw [List.append_nil] at h
    simp [trace, regionsOk, h]
  | cons s rest ih =>
    intro curr r pend
    cases ht : s.type with
    | void => simp only [trace, ht, ih]
    | nop => simp only [trace, ht, regionsOk_callback, ih]
    | wb =>
      simp [trace, ht, regionsOk, regionsOk_callback, regionsOk_putOff, ih]
    | am => simp only [trace, ht, regionsOk, regionsOk_callback, ih]
    | rwdma => simp only [trace, ht, regionsOk, ih, Bool.true_and]

-- ======== result

theorem trace_put (send : Nat → Int) (hs : is[p]? = some s) (ht : s.type = .rwdma) :
    ∃ pre r pend, trace send is 0 0 [] = pre ++ .put p s.body ::
        trace send (is.drop (p + 1)) (p + 1) r (pend ++ puttingOff p s)
      ∧ List.Sublist [Event.beginRegion r] (.beginRegion 0 :: pre) := by
  have hlt : p < is.length := (List.getElem?_eq_some_iff.mp hs).1
  obtain ⟨pre, r, pend, heq, -, hreg⟩ :=
    trace_drop send is (k := p) 0 0 [] (Nat.le_of_lt hlt)
  obtain ⟨pre', heq', hput⟩ :=
    trace_cons (s := s) send (is.drop (p + 1)) p r pend (by rw [ht]; decide)
  rw [Nat.zero_add, drop_eq_cons hs, heq', hput ht] at heq
  exact ⟨pre, r, pend, heq, hreg⟩

/-- What the completion callbacks of a flush must satisfy. -/
structure CallbacksOk (is : List Slot) (send : Nat → Int) (l : List Event) : Prop where
  /-- Each callback is called once, with its argument and the answer to its
  message, but for those of `void` slots, which are not called. -/
  once : ∀ p, l.filter (Event.isCall p) = (is[p]?.map (calls send p)).getD []
  /-- The callback of a put comes after the wait on the region of the put. -/
  waited : ∀ p s, is[p]? = some s → s.type = .rwdma → s.cbk.cbk ≠ 0 →
    ∃ r, List.Sublist [Event.beginRegion r, .put p s.body, .endRegion r, .wait r,
      .call p 0 s.cbk] l
  /-- The callback of a barrier comes after the puts before it, waited for,
  and their callbacks. -/
  barrier : ∀ p s w t, p < w → is[p]? = some s → s.type = .rwdma →
    is[w]? = some t → t.type = .wb → t.cbk.cbk ≠ 0 →
    (∃ r, List.Sublist [Event.put p s.body, .endRegion r, .wait r, .call w 0 t.cbk] l)
      ∧ (s.cbk.cbk ≠ 0 → List.Sublist [Event.call p 0 s.cbk, .call w 0 t.cbk] l)
  /-- The callbacks of puts come in order. -/
  ordered : ∀ p s q t, p < q → is[p]? = some s → s.type = .rwdma → s.cbk.cbk ≠ 0 →
    is[q]? = some t → t.type = .rwdma → t.cbk.cbk ≠ 0 →
    List.Sublist [Event.call p 0 s.cbk, .call q 0 t.cbk] l
  /-- Regions begin and end in turn. -/
  regions : regionsOk 0 false l = true

theorem getElem?_after {q : Nat} {t : Slot} (hlt : p < q) (hq : is[q]? = some t) :
    (is.drop (p + 1))[q - (p + 1)]? = some t := by
  rw [List.getElem?_drop, show p + 1 + (q - (p + 1)) = q by omega]
  exact hq

/-- Completion callbacks of the channel: for every sequence of instructions. -/
theorem flush_callbacks (is : List Slot) (send : Nat → Int) :
    CallbacksOk is send (flush is send) where
  once p := by
    have hbegin : Event.isCall p (.beginRegion 0) = false := rfl
    have h := trace_calls send p is 0 0 [] (by simp)
    rw [flush_eq, List.filter_cons, hbegin, h]
    simp [putOff]
  waited p s hs ht hc := by
    rw [flush_eq]
    obtain ⟨pre, r, pend, heq, hreg⟩ := trace_put send hs ht
    have hnew : puttingOff p s = [(p, s.cbk)] := if_pos ⟨ht, hc⟩
    have hrest := putOff_sublist send (r := r) (is.drop (p + 1)) (p + 1)
      (pend ++ puttingOff p s)
    rw [hnew, putOff, List.map_append] at hrest
    rw [heq, hnew]
    refine ⟨r, hreg.append (List.Sublist.cons_cons _ (List.Sublist.trans ?_ hrest))⟩
    show List.Sublist ([Event.endRegion r, .wait r] ++ [.call p 0 s.cbk]) _
    exact (List.Sublist.refl _).append (List.sublist_append_right _ _)
  barrier p s w t hlt hs hst hw hwt hwc := by
    obtain ⟨pre, r, pend, heq, -⟩ := trace_put send hs hst
    have h := called_sublist send (.inl hwt) hwc (getElem?_after hlt hw) (p + 1) r
      (pend ++ puttingOff p s)
    rw [show p + 1 + (w - (p + 1)) = w by omega] at h
    rw [flush_eq, heq]
    constructor
    · refine ⟨r, .cons _ (List.Sublist.trans ?_ (List.sublist_append_right _ _))⟩
      refine List.Sublist.cons_cons _ (List.Sublist.trans ?_ h)
      show List.Sublist ([Event.endRegion r, .wait r] ++ [.call w 0 t.cbk]) _
      exact (List.sublist_append_left _ _).append (List.Sublist.refl _)
    · intro hsc
      have hnew : puttingOff p s = [(p, s.cbk)] := if_pos ⟨hst, hsc⟩
      rw [hnew, putOff, List.map_append] at h
      refine .cons _ (List.Sublist.trans (.cons _ ?_) (List.sublist_append_right _ _))
      rw [hnew]
      refine List.Sublist.trans ?_ h
      show List.Sublist ([Event.call p 0 s.cbk] ++ [.call w 0 t.cbk]) _
      refine List.Sublist.append ?_ (List.Sublist.refl _)
      exact (List.sublist_append_right _ _).trans (List.sublist_append_right _ _)
  ordered p s q t hlt hs hst hsc hq hqt hqc := by
    obtain ⟨pre, r, pend, heq, -⟩ := trace_put send hs hst
    have h := called_sublist send (.inr hqt) hqc (getElem?_after hlt hq) (p + 1) r
      (pend ++ puttingOff p s)
    have hnew : puttingOff p s = [(p, s.cbk)] := if_pos ⟨hst, hsc⟩
    rw [show p + 1 + (q - (p + 1)) = q by omega, hnew, putOff, List.map_append] at h
    rw [flush_eq, heq]
    refine .cons _ (List.Sublist.trans (.cons _ ?_) (List.sublist_append_right _ _))
    rw [hnew]
    refine List.Sublist.trans ?_ h
    show List.Sublist ([Event.call p 0 s.cbk] ++ [.call q 0 t.cbk]) _
    refine List.Sublist.append ?_ (List.Sublist.refl _)
    exact (List.sublist_append_right _ _).trans (List.sublist_append_right _ _)
  regions := by
    rw [flush_eq]
    exact trace_regions send is 0 0 []

/-- A slot that is not filled yet, its callback set. -/
def voidSlot : Slot where
  type := .void
  body := .none
  cbk := ⟨1, 0⟩

/-- The callback of a `void` slot is not called. -/
theorem void_not_called : ¬ ∀ (is : List Slot) (send : Nat → Int) (p : Nat) (s : Slot),
    is[p]? = some s → s.cbk.cbk ≠ 0 →
    ((flush is send).filter (Event.isCall p)).length = 1 := by
  intro h
  have hcall := h [voidSlot] (fun _ => 0) 0 voidSlot rfl (by decide)
  exact absurd hcall (by decide)

end XKaapi.Network.Gasnet
