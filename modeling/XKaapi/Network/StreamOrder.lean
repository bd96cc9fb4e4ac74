/-
The order of the instructions of a stream.

`Held` cuts the reservations in three: what has been flushed, what the
buffer to send holds (`mid`, until its flush), and what the current buffer
holds between its read and its write positions (`last`). A slot of the
current buffer holds its instruction unless a thread is still filling it.
An exchange moves `last` to `mid`, which asks that no slot is being
filled.
-/
import XKaapi.Network.InstructionStream

namespace XKaapi.Network

open StepMachine (run Along)
open Function (update update_of_ne update_self)

-- ======== slices

theorem slice_eq {buf : Nat → Slot} {lo hi : Nat} {l : List Instruction}
    (hlen : l.length = hi - lo)
    (h : ∀ k i, l[k]? = some i → (buf (lo + k)).read = some i) :
    slice buf lo hi = l.map some := by
  unfold slice
  apply List.ext_getElem?
  intro k
  rw [List.getElem?_map, List.getElem?_map]
  rcases Nat.lt_or_ge k l.length with hk | hk
  · have hk' : k < hi - lo := hlen ▸ hk
    rw [List.getElem?_range' hk', List.getElem?_eq_getElem hk, Nat.one_mul]
    exact congrArg some (h k _ (List.getElem?_eq_getElem hk))
  · rw [List.getElem?_eq_none hk, List.getElem?_eq_none]
    · rfl
    · rw [List.length_range', ← hlen]
      exact hk

theorem length_slice (buf : Nat → Slot) (lo hi : Nat) :
    (slice buf lo hi).length = hi - lo := by
  unfold slice
  rw [List.length_map, List.length_range']

namespace Stream

-- ======== invariant

structure Held (s : Stream) (mid last : List Instruction) : Prop where
  posR_le : s.posR ≤ s.posW
  posW_le : s.posW ≤ s.capacity
  length : last.length = s.posW - s.posR
  reserved : ∃ done, s.flushed = done.map some
    ∧ s.reserved.map Prod.snd = done ++ mid ++ last
  sent : ∀ t k, s.threads t = .flushing k →
    slice s.tosend.buf s.tosend.posR s.tosend.posW = mid.map some
  unsent : (∀ t k, s.threads t ≠ .flushing k) → mid = []
  slots : ∀ k i, last[k]? = some i → (s.buf (s.posR + k)).read = some i
    ∨ ∃ t, (s.threads t).slot = some (s.posR + k)
  filling : ∀ t i p, s.threads t = .filling i p →
    ∃ k, p = s.posR + k ∧ last[k]? = some i
  publishing : ∀ t i p, s.threads t = .publishing i p →
    (∃ k, p = s.posR + k ∧ last[k]? = some i)
      ∧ (i.publish (s.buf p)).read = some i
  once : ∀ t u p, (s.threads t).slot = some p → (s.threads u).slot = some p → t = u

structure Inv (s : Stream) : Prop where
  held : ∃ mid last, Held s mid last
  one : ∀ t u, (s.threads t).sends = true → (s.threads u).sends = true → t = u
  posted : ∀ t, (s.threads t).sends = true → s.tosend.state = .posted
  free : s.tosend.state = .free → s.tosend.posW = 0 ∧ s.tosend.posR = 0
  calls : ∀ t, s.calls t = s.reservedBy t ++ (s.threads t).pending
  assertion : ∀ t, s.threads t ≠ .aborted
  since : ∀ t, s.since t ≤ s.reserved.length
  synced : ∀ t, s.threads t ≠ .syncWaiting → s.threads t ≠ .syncing →
    s.threads t ≠ .flushing none → s.since t ≤ s.flushed.length
  syncing : ∀ t, s.threads t = .flushing none →
    s.since t ≤ s.flushed.length + (s.tosend.posW - s.tosend.posR)
  range : ∀ t, s.nthreads ≤ t → s.threads t = .idle

variable {s s' : Stream} {t : Nat} {pc : StreamPc} {mid last : List Instruction}
  {k : Option Instruction} {i : Instruction} {p : Nat}

theorem inv_init (n capacity : Nat) : Inv (init n capacity) where
  held := by
    refine ⟨[], [], Nat.le_refl 0, Nat.zero_le _, rfl, ⟨[], rfl, rfl⟩, ?_,
      fun _ => rfl,
      ?_, ?_, ?_, ?_⟩
    · intro t k h
      cases h
    · intro k i h
      cases h
    · intro t i p h
      cases h
    · intro t i p h
      cases h
    · intro t u p h
      cases h
  one := fun t u h => nomatch h
  posted := fun t h => nomatch h
  free := fun _ => ⟨rfl, rfl⟩
  calls := fun _ => rfl
  assertion := fun t h => nomatch h
  since := fun _ => Nat.le_refl 0
  synced := fun _ _ _ _ => Nat.le_refl 0
  syncing := fun t h => nomatch h
  range := fun _ _ => rfl

-- ======== frames

theorem update_cases {u : Nat} {f : Nat → StreamPc} {P : StreamPc → Prop}
    (h : P (update f t pc u)) : (u = t ∧ P pc) ∨ (u ≠ t ∧ P (f u)) := by
  rcases eq_or_ne u t with rfl | hne
  · rw [update_self] at h
    exact .inl ⟨rfl, h⟩
  · rw [update_of_ne hne] at h
    exact .inr ⟨hne, h⟩

/-- A thread without a slot moves, and gets none; the buffers stay. -/
theorem Held.move (h : Held s mid last)
    (hthreads : s'.threads = update s.threads t pc)
    (hpos : s'.posR = s.posR ∧ s'.posW = s.posW ∧ s'.capacity = s.capacity)
    (hbuf : s'.buf = s.buf)
    (hlog : s'.flushed = s.flushed ∧ s'.reserved = s.reserved)
    (hsent : (∃ u k, s.threads u = .flushing k) → s'.tosend = s.tosend)
    (hold : (s.threads t).slot = none ∧ ∀ k, s.threads t ≠ .flushing k)
    (hnew : pc.slot = none ∧ ∀ k, pc ≠ .flushing k) : Held s' mid last := by
  have hslot : ∀ u, (s'.threads u).slot = (s.threads u).slot := by
    intro u
    rw [hthreads]
    rcases eq_or_ne u t with rfl | hne
    · rw [update_self, hnew.1, hold.1]
    · rw [update_of_ne hne]
  have hflush : ∀ u k, s'.threads u = .flushing k → s.threads u = .flushing k := by
    intro u k hu
    rw [hthreads] at hu
    rcases update_cases (P := (· = .flushing k)) hu with ⟨-, hu⟩ | ⟨-, hu⟩
    · exact absurd hu (hnew.2 k)
    · exact hu
  obtain ⟨hR, hW, hC⟩ := hpos
  refine ⟨?_, ?_, ?_, ?_, ?_, ?_, ?_, ?_, ?_, ?_⟩
  · rw [hR, hW]
    exact h.posR_le
  · rw [hW, hC]
    exact h.posW_le
  · rw [hR, hW]
    exact h.length
  · rw [hlog.1, hlog.2]
    exact h.reserved
  · intro u k hu
    have hu' := hflush u k hu
    rw [hsent ⟨u, k, hu'⟩]
    exact h.sent u k hu'
  · intro hno
    refine h.unsent fun u k hu => hno u k ?_
    rw [hthreads, update_of_ne]
    · exact hu
    · intro heq
      subst heq
      exact hold.2 k hu
  · intro k i hk
    simp only [hslot, hbuf, hR]
    exact h.slots k i hk
  · intro u i p hu
    rw [hR]
    refine h.filling u i p ?_
    rw [hthreads] at hu
    rcases update_cases (P := (· = .filling i p)) hu with ⟨-, hu⟩ | ⟨-, hu⟩
    · rw [hu] at hnew
      cases hnew.1
    · exact hu
  · intro u i p hu
    rw [hR, hbuf]
    refine h.publishing u i p ?_
    rw [hthreads] at hu
    rcases update_cases (P := (· = .publishing i p)) hu with ⟨-, hu⟩ | ⟨-, hu⟩
    · rw [hu] at hnew
      cases hnew.1
    · exact hu
  · intro u v p hu hv
    rw [hslot] at hu hv
    exact h.once u v p hu hv

theorem flushing_sends (h : pc = .flushing k) : pc.sends = true := by
  rw [h]
  rfl

theorem calls_update (h : ∀ u, s.calls u = s.reservedBy u ++ (s.threads u).pending)
    (hpend : pc.pending = (s.threads t).pending) (u : Nat) :
    s.calls u = s.reservedBy u ++ (update s.threads t pc u).pending := by
  rcases eq_or_ne u t with rfl | hne
  · rw [update_self, hpend]
    exact h u
  · rw [update_of_ne hne]
    exact h u

/-- A thread that neither sends nor has a slot moves, and stays so. -/
theorem Inv.move (h : Inv s) (ht : t < s.nthreads) {c : Nat → List Instruction}
    {n : Nat → Nat}
    (hold : (s.threads t).slot = none ∧ (s.threads t).sends = false)
    (hnew : pc.slot = none ∧ pc.sends = false ∧ pc ≠ .aborted)
    (hcalls : ∀ u, c u = s.reservedBy u ++ (update s.threads t pc u).pending)
    (hsince : ∀ u, n u ≤ s.reserved.length)
    (hother : ∀ u, u ≠ t → n u = s.since u)
    (hsynced : pc ≠ .syncWaiting → pc ≠ .syncing → n t ≤ s.flushed.length) :
    Inv { s with
      threads := update s.threads t pc
      calls := c
      since := n } := by
  have hnf : ∀ {q : StreamPc}, q.sends = false → ∀ k, q ≠ .flushing k := by
    intro q hq k hk
    rw [flushing_sends hk] at hq
    cases hq
  have hsend : ∀ u, (update s.threads t pc u).sends = true →
      (s.threads u).sends = true := by
    intro u hu
    rcases update_cases (P := fun q => q.sends = true) hu with ⟨-, hu⟩ | ⟨-, hu⟩
    · rw [hnew.2.1] at hu
      cases hu
    · exact hu
  obtain ⟨mid, last, hheld⟩ := h.held
  refine ⟨⟨mid, last, hheld.move rfl ⟨rfl, rfl, rfl⟩ rfl ⟨rfl, rfl⟩ (fun _ => rfl)
      ⟨hold.1, hnf hold.2⟩ ⟨hnew.1, hnf hnew.2.1⟩⟩,
    fun u v hu hv => h.one u v (hsend u hu) (hsend v hv),
    fun u hu => h.posted u (hsend u hu), h.free, hcalls, ?_, hsince, ?_, ?_, ?_⟩
  · intro u hu
    rcases update_cases (P := (· = .aborted)) hu with ⟨-, hu⟩ | ⟨-, hu⟩
    · exact hnew.2.2 hu
    · exact h.assertion u hu
  · intro u h₁ h₂ h₃
    dsimp only at h₁ h₂ h₃ ⊢
    rcases eq_or_ne u t with rfl | hne
    · rw [update_self] at h₁ h₂
      exact hsynced h₁ h₂
    · rw [update_of_ne hne] at h₁ h₂ h₃
      rw [hother u hne]
      exact h.synced u h₁ h₂ h₃
  · intro u hu
    dsimp only at hu ⊢
    rcases update_cases (P := (· = .flushing none)) hu with ⟨-, hu⟩ | ⟨hne, hu⟩
    · exact absurd hu (hnf hnew.2.1 none)
    · rw [hother u hne]
      exact h.syncing u hu
  · intro u hu
    dsimp only
    rw [update_of_ne]
    · exact h.range u hu
    · intro heq
      subst heq
      exact absurd ht (Nat.not_lt.mpr hu)

/-- A thread moves without a slot. -/
theorem Inv.setThread (h : Inv s) (ht : t < s.nthreads)
    (hold : (s.threads t).slot = none ∧ (s.threads t).sends = false)
    (hnew : pc.slot = none ∧ pc.sends = false ∧ pc ≠ .aborted)
    (hpend : pc.pending = (s.threads t).pending)
    (hsynced : pc ≠ .syncWaiting → pc ≠ .syncing → s.since t ≤ s.flushed.length) :
    Inv (s.setThread t pc) :=
  h.move ht hold hnew (calls_update h.calls hpend) h.since (fun _ _ => rfl) hsynced

/-- A buffer is sent. -/
theorem Inv.flush (h : Inv s) (ht : t < s.nthreads) (hpc : s.threads t = .flushing k) :
    Inv ({ s with
      flushed := s.flushed
        ++ slice s.tosend.buf s.tosend.posR s.tosend.posW }.setThread t
      (.resetting k)) := by
  obtain ⟨mid, last, hheld⟩ := h.held
  have hsends := flushing_sends hpc
  have hsl := hheld.sent t k hpc
  obtain ⟨done, hdone, hres⟩ := hheld.reserved
  have hsend : ∀ u, (update s.threads t (.resetting k) u).sends = true →
      (s.threads u).sends = true := by
    intro u hu
    rcases update_cases (P := fun q => q.sends = true) hu with ⟨rfl, -⟩ | ⟨-, hu⟩
    · exact hsends
    · exact hu
  have hnone : ∀ u k', update s.threads t (.resetting k) u
    ≠ .flushing k' := by
    intro u k' hu
    rcases update_cases (P := (· = .flushing k')) hu with ⟨-, hu⟩ | ⟨hne, hu⟩
    · cases hu
    · exact hne (h.one u t (flushing_sends hu) hsends)
  have hslot : ∀ u, (update s.threads t (.resetting k) u).slot
      = (s.threads u).slot := by
    intro u
    rcases eq_or_ne u t with rfl | hne
    · rw [update_self, hpc]
      rfl
    · rw [update_of_ne hne]
  unfold Stream.setThread
  refine ⟨⟨[], last, hheld.posR_le, hheld.posW_le, hheld.length,
    ⟨done ++ mid, ?_, ?_⟩,
    fun u k' hu => absurd hu (hnone u k'), fun _ => rfl, ?_, ?_, ?_, ?_⟩,
    fun u v hu hv => h.one u v (hsend u hu) (hsend v hv),
    fun u hu => h.posted u (hsend u hu), h.free, ?_, ?_, h.since, ?_,
    fun u hu => absurd hu (hnone u none), ?_⟩
  · dsimp only
    rw [hdone, hsl, List.map_append]
  · dsimp only
    rw [hres, List.append_nil]
  · simp only [hslot]
    exact hheld.slots
  · intro u i p hu
    rcases update_cases (P := (· = .filling i p)) hu with ⟨-, hu⟩ | ⟨-, hu⟩
    · cases hu
    · exact hheld.filling u i p hu
  · intro u i p hu
    rcases update_cases (P := (· = .publishing i p)) hu with ⟨-, hu⟩ | ⟨-, hu⟩
    · cases hu
    · exact hheld.publishing u i p hu
  · simp only [hslot]
    exact hheld.once
  · refine calls_update h.calls ?_
    rw [hpc]
    cases k with
    | none => rfl
    | some i => rfl
  · intro u hu
    rcases update_cases (P := (· = .aborted)) hu with ⟨-, hu⟩ | ⟨-, hu⟩
    · cases hu
    · exact h.assertion u hu
  · intro u h₁ h₂ h₃
    dsimp only at h₁ h₂ h₃ ⊢
    rw [List.length_append, length_slice]
    rcases eq_or_ne u t with rfl | hne
    · cases k with
      | none => exact h.syncing u hpc
      | some i =>
        have hle := h.synced u (by rw [hpc]; exact nofun)
          (by rw [hpc]; exact nofun)
          (by rw [hpc]; exact nofun)
        omega
    · rw [update_of_ne hne] at h₁ h₂ h₃
      have hle := h.synced u h₁ h₂ h₃
      omega
  · intro u hu
    dsimp only
    rw [update_of_ne]
    · exact h.range u hu
    · intro heq
      subst heq
      exact absurd ht (Nat.not_lt.mpr hu)

theorem range_update (h : ∀ u, s.nthreads ≤ u → s.threads u = .idle)
    (ht : t < s.nthreads) (u : Nat) (hu : s.nthreads ≤ u) :
    update s.threads t pc u = .idle := by
  rw [update_of_ne]
  · exact h u hu
  · intro heq
    subst heq
    exact absurd ht (Nat.not_lt.mpr hu)

theorem assertion_update (h : ∀ u, s.threads u ≠ .aborted) (hpc : pc ≠ .aborted)
    (u : Nat) : update s.threads t pc u ≠ .aborted := by
  intro hu
  rcases update_cases (P := (· = .aborted)) hu with ⟨-, hu⟩ | ⟨-, hu⟩
  · exact hpc hu
  · exact h u hu

/-- A buffer begins anew. -/
theorem Inv.reset (h : Inv s) (ht : t < s.nthreads) (hpc : s.threads t = .resetting k)
    (hnew : pc.slot = none ∧ pc.sends = false ∧ pc ≠ .aborted)
    (hpend : pc.pending = (s.threads t).pending) :
    Inv ({ s with tosend := ⟨.free, s.tosend.buf, 0, 0⟩ }.setThread t pc) := by
  obtain ⟨mid, last, hheld⟩ := h.held
  have hsends : (s.threads t).sends = true := by
    rw [hpc]
    rfl
  have hnof : ∀ u k', s.threads u ≠ .flushing k' := by
    intro u k' hu
    have heq := h.one u t (flushing_sends hu) hsends
    rw [heq, hpc] at hu
    cases hu
  have hnf : ∀ k', pc ≠ .flushing k' := by
    intro k' hk
    rw [flushing_sends hk] at hnew
    cases hnew.2.1
  have hno : ∀ u, (update s.threads t pc u).sends ≠ true := by
    intro u hu
    rcases update_cases (P := fun q => q.sends = true) hu with ⟨-, hu⟩ | ⟨hne, hu⟩
    · rw [hnew.2.1] at hu
      cases hu
    · exact hne (h.one u t hu hsends)
  have hold : (s.threads t).slot = none := by
    rw [hpc]
    rfl
  refine ⟨⟨mid, last, hheld.move rfl ⟨rfl, rfl, rfl⟩ rfl ⟨rfl, rfl⟩ ?_
      ⟨hold, hnof t⟩ ⟨hnew.1, hnf⟩⟩,
    fun u v hu => absurd hu (hno u), fun u hu => absurd hu (hno u), fun _ =>
      ⟨rfl, rfl⟩,
    calls_update h.calls hpend, assertion_update h.assertion hnew.2.2, h.since,
      ?_, ?_,
    range_update h.range ht⟩
  · intro ⟨u, k', hu⟩
    exact absurd hu (hnof u k')
  · intro u h₁ h₂ h₃
    change update s.threads t pc u ≠ _ at h₁
    change update s.threads t pc u ≠ _ at h₂
    change update s.threads t pc u ≠ _ at h₃
    show s.since u ≤ s.flushed.length
    rcases eq_or_ne u t with rfl | hne
    · refine h.synced u ?_ ?_ ?_
      all_goals
        rw [hpc]
        exact nofun
    · rw [update_of_ne hne] at h₁ h₂ h₃
      exact h.synced u h₁ h₂ h₃
  · intro u hu
    exact absurd (flushing_sends hu) (hno u)

/-- The exchange of the buffers, when no slot is being filled: what the
current buffer holds is to be sent. -/
theorem Inv.exchange (h : Inv s) (ht : t < s.nthreads) {w r : Nat}
    (hfree : s.tosend.state = .free) (hw : w ≤ s.capacity) (hr : r = w)
    (hsettled : ∀ u, (s.threads u).slot = none)
    (hpend : (StreamPc.flushing k).pending = (s.threads t).pending)
    (hsync : k ≠ none → s.threads t ≠ .syncWaiting ∧ s.threads t ≠ .syncing) :
    Inv { s with
      tosend := ⟨.posted, s.buf, s.posW, s.posR⟩
      buf := s.tosend.buf
      posW := w
      posR := r
      threads := update s.threads t (.flushing k) } := by
  obtain ⟨mid, last, hheld⟩ := h.held
  have hno : ∀ u, (s.threads u).sends ≠ true := by
    intro u hu
    rw [h.posted u hu] at hfree
    cases hfree
  have hmid : mid = [] := hheld.unsent fun u k' hu => hno u (flushing_sends hu)
  obtain ⟨done, hdone, hres⟩ := hheld.reserved
  rw [hmid, List.append_nil] at hres
  have hslots : ∀ j i, last[j]? = some i → (s.buf (s.posR + j)).read = some i := by
    intro j i hj
    rcases hheld.slots j i hj with hread | ⟨u, hu⟩
    · exact hread
    · rw [hsettled u] at hu
      cases hu
  have hnoslot : ∀ u, (update s.threads t (.flushing k) u).slot
    = none := by
    intro u
    rcases eq_or_ne u t with rfl | hne
    · rw [update_self]
      rfl
    · rw [update_of_ne hne]
      exact hsettled u
  have hself : ∀ u, (update s.threads t (.flushing k) u).sends = true →
      u = t := by
    intro u hu
    by_contra hne
    rw [update_of_ne hne] at hu
    exact hno u hu
  refine ⟨⟨last, [], Nat.le_of_eq hr, hw, ?_, ⟨done, hdone, ?_⟩, fun _ _ _ => ?_,
    fun hall => ?_, (fun j i hj => nomatch hj), ?_, ?_, ?_⟩,
    fun u v hu hv => (hself u hu).trans (hself v hv).symm, fun _ _ => rfl,
    nofun, calls_update h.calls hpend,
    assertion_update h.assertion nofun, h.since, ?_, ?_,
    range_update h.range ht⟩
  · show 0 = w - r
    rw [hr, Nat.sub_self]
  · dsimp only
    rw [hres, List.append_nil]
  · exact slice_eq hheld.length hslots
  · exact absurd (update_self ..) (hall t k)
  · intro u i p hu
    have hn := hnoslot u
    rw [show update s.threads t (.flushing k) u = _ from hu] at hn
    cases hn
  · intro u i p hu
    have hn := hnoslot u
    rw [show update s.threads t (.flushing k) u = _ from hu] at hn
    cases hn
  · intro u v p hu
    rw [hnoslot u] at hu
    cases hu
  · intro u h₁ h₂ h₃
    dsimp only at h₁ h₂ h₃ ⊢
    rcases eq_or_ne u t with rfl | hne
    · rw [update_self] at h₃
      obtain ⟨hn₁, hn₂⟩ := hsync fun hk => h₃ (congrArg _ hk)
      refine h.synced u hn₁ hn₂ fun hc => ?_
      exact hno u (flushing_sends hc)
    · rw [update_of_ne hne] at h₁ h₂ h₃
      exact h.synced u h₁ h₂ h₃
  · intro u _
    have hle := h.since u
    have hlen := congrArg List.length hres
    have hdl := congrArg List.length hdone
    rw [List.length_map, List.length_append] at hlen
    rw [List.length_map] at hdl
    have hll := hheld.length
    show s.since u ≤ s.flushed.length + (s.posW - s.posR)
    omega

theorem noSend_update (hold : (s.threads t).sends = false) (hnew : pc.sends = false)
    (u : Nat) : (update s.threads t pc u).sends = (s.threads u).sends := by
  rcases eq_or_ne u t with rfl | hne
  · rw [update_self, hnew, hold]
  · rw [update_of_ne hne]

theorem flushing_update (hnew : pc.sends = false) {u : Nat}
    (hu : update s.threads t pc u = .flushing k) : u ≠ t ∧ s.threads u = .flushing k := by
  rcases update_cases (P := (· = .flushing k)) hu with ⟨-, hu⟩ | ⟨hne, hu⟩
  · rw [flushing_sends hu] at hnew
    cases hnew
  · exact ⟨hne, hu⟩

/-- The increment, in a buffer that is not full. -/
theorem Inv.reserve (h : Inv s) (ht : t < s.nthreads) (hpc : s.threads t = .reserving i)
    (hlt : s.posW < s.capacity) :
    Inv ({ s with
      posW := s.posW + 1
      reserved := s.reserved ++ [(t, i)] }.setThread t (.filling i s.posW)) := by
  obtain ⟨mid, last, hheld⟩ := h.held
  obtain ⟨done, hdone, hres⟩ := hheld.reserved
  have hold : (s.threads t).sends = false := by
    rw [hpc]
    rfl
  have hsend : ∀ u, (update s.threads t (.filling i s.posW) u).sends
      = (s.threads u).sends := noSend_update hold rfl
  have hle := hheld.posR_le
  have hlen := hheld.length
  have hslotlt : ∀ u p, (s.threads u).slot = some p → p < s.posW := by
    intro u p hu
    have hk : ∃ j k, p = s.posR + k ∧ last[k]? = some j := by
      cases hq : s.threads u with
      | filling j q =>
        rw [hq] at hu
        injection hu with hu
        obtain ⟨k, hk⟩ := hheld.filling u j q hq
        exact ⟨j, k, hu ▸ hk⟩
      | publishing j q =>
        rw [hq] at hu
        injection hu with hu
        obtain ⟨k, hk⟩ := (hheld.publishing u j q hq).1
        exact ⟨j, k, hu ▸ hk⟩
      | _ =>
        rw [hq] at hu
        cases hu
    obtain ⟨j, k, hp, hk⟩ := hk
    have hkl := (List.getElem?_eq_some_iff.mp hk).1
    omega
  have hgrow : ∀ {k : Nat} {j : Instruction}, last[k]? = some j →
      (last ++ [i])[k]? = some j := by
    intro k j hk
    rw [List.getElem?_append_left (List.getElem?_eq_some_iff.mp hk).1]
    exact hk
  have hother : ∀ {u q : Nat}, (s.threads u).slot = some q → u ≠ t := by
    rintro u q hu rfl
    rw [hpc] at hu
    cases hu
  unfold Stream.setThread
  refine ⟨⟨mid, last ++ [i], Nat.le_succ_of_le hle, hlt, ?_, ⟨done, hdone, ?_⟩,
    ?_, ?_,
    ?_, ?_, ?_, ?_⟩, fun u v hu hv => h.one u v (hsend u ▸ hu) (hsend v ▸ hv),
    fun u hu => h.posted u (hsend u ▸ hu), h.free, ?_,
    assertion_update h.assertion nofun, ?_, ?_, ?_,
    range_update h.range ht⟩
  · rw [List.length_append, List.length_singleton]
    dsimp only
    omega
  · dsimp only
    rw [List.map_append, hres, List.append_assoc, List.append_assoc,
      List.append_assoc]
    rfl
  · intro u k hu
    exact hheld.sent u k (flushing_update rfl hu).2
  · intro hall
    refine hheld.unsent fun u k hu => hall u k ?_
    dsimp only
    rw [update_of_ne]
    · exact hu
    · intro heq
      subst heq
      rw [hpc] at hu
      cases hu
  · intro k j hk
    dsimp only at hk ⊢
    rcases Nat.lt_or_ge k last.length with hkl | hkl
    · rw [List.getElem?_append_left hkl] at hk
      rcases hheld.slots k j hk with hread | ⟨u, hu⟩
      · exact .inl hread
      · refine .inr ⟨u, ?_⟩
        rw [update_of_ne (hother hu)]
        exact hu
    · have hkl' := (List.getElem?_eq_some_iff.mp hk).1
      rw [List.length_append, List.length_singleton] at hkl'
      refine .inr ⟨t, ?_⟩
      rw [update_self]
      show some s.posW = some (s.posR + k)
      congr 1
      omega
  · intro u j p hu
    rcases update_cases (P := (· = .filling j p)) hu with ⟨-, hu⟩ | ⟨-, hu⟩
    · injection hu with hj hp
      refine ⟨last.length, ?_, ?_⟩
      · show p = s.posR + last.length
        omega
      · rw [List.getElem?_append_right (Nat.le_refl _), Nat.sub_self, ← hj]
        rfl
    · obtain ⟨k, hp, hk⟩ := hheld.filling u j p hu
      exact ⟨k, hp, hgrow hk⟩
  · intro u j p hu
    rcases update_cases (P := (· = .publishing j p)) hu with ⟨-, hu⟩ | ⟨-, hu⟩
    · cases hu
    · obtain ⟨⟨k, hp, hk⟩, hread⟩ := hheld.publishing u j p hu
      exact ⟨⟨k, hp, hgrow hk⟩, hread⟩
  · intro u v p hu hv
    rcases update_cases (P := fun q => q.slot = some p) hu with ⟨hut,
      hu'⟩ | ⟨-, hu'⟩
    · rcases update_cases (P := fun q => q.slot = some p) hv with ⟨hvt,
        -⟩ | ⟨-, hv'⟩
      · exact hut.trans hvt.symm
      · have hp : s.posW = p := Option.some.inj hu'
        have hlt := hslotlt v p hv'
        omega
    · rcases update_cases (P := fun q => q.slot = some p) hv with ⟨-,
        hv'⟩ | ⟨-, hv'⟩
      · have hp : s.posW = p := Option.some.inj hv'
        have hlt := hslotlt u p hu'
        omega
      · exact hheld.once u v p hu' hv'
  · intro u
    have hc := h.calls u
    show s.calls u = ((s.reserved ++ [(t, i)]).filter fun r => r.1 = u).map Prod.snd
      ++ (update s.threads t (.filling i s.posW) u).pending
    rw [List.filter_append, List.map_append, hc]
    rcases eq_or_ne u t with rfl | hne
    · rw [update_self, hpc]
      simp [reservedBy, StreamPc.pending]
    · rw [update_of_ne hne]
      simp [reservedBy, hne.symm]
  · intro u
    show s.since u ≤ (s.reserved ++ [(t, i)]).length
    rw [List.length_append]
    exact Nat.le_add_right_of_le (h.since u)
  · intro u h₁ h₂ h₃
    dsimp only at h₁ h₂ h₃ ⊢
    rcases eq_or_ne u t with rfl | hne
    · refine h.synced u ?_ ?_ ?_
      all_goals
        rw [hpc]
        exact nofun
    · rw [update_of_ne hne] at h₁ h₂ h₃
      exact h.synced u h₁ h₂ h₃
  · intro u hu
    exact h.syncing u (flushing_update rfl hu).2

/-- What an inserting thread writes in its slot: the others read theirs as
before. -/
theorem Held.write (h : Held s mid last) {v : Slot} (hslot : (s.threads t).slot = some p)
    (hpc : pc.slot = none ∨ pc.slot = some p) (hold : (s.threads t).sends = false)
    (hnew : pc.sends = false)
    (hread : pc.slot = none → ∀ k i, p = s.posR + k → last[k]? = some i → v.read = some i)
    (hfill : ∀ i q, pc ≠ .filling i q)
    (hpub : ∀ i q, pc = .publishing i q → q = p
      ∧ (∃ k, p = s.posR + k ∧ last[k]? = some i) ∧ (i.publish v).read = some i) :
    Held ((s.setSlot p v).setThread t pc) mid last := by
  have hother : ∀ u q, u ≠ t → (s.threads u).slot = some q → q ≠ p := by
    rintro u q hne hq rfl
    exact hne (h.once u t q hq hslot)
  unfold Stream.setThread Stream.setSlot
  refine ⟨h.posR_le, h.posW_le, h.length, h.reserved, ?_, ?_, ?_, ?_, ?_, ?_⟩
  · intro u k hu
    exact h.sent u k (flushing_update hnew hu).2
  · intro hall
    refine h.unsent fun u k hu => hall u k ?_
    dsimp only
    rw [update_of_ne]
    · exact hu
    · intro heq
      subst heq
      rw [flushing_sends hu] at hold
      cases hold
  · intro k i hk
    dsimp only
    by_cases hp : s.posR + k = p
    · rw [hp, update_self]
      rcases hpc with hn | hn
      · exact .inl (hread hn k i hp.symm hk)
      · refine .inr ⟨t, ?_⟩
        rw [update_self]
        exact hn
    · rw [update_of_ne hp]
      rcases h.slots k i hk with hr | ⟨u, hu⟩
      · exact .inl hr
      · refine .inr ⟨u, ?_⟩
        rw [update_of_ne]
        · exact hu
        · intro heq
          subst heq
          exact hp (Option.some.inj (hu.symm.trans hslot))
  · intro u i q hu
    rcases update_cases (P := (· = .filling i q)) hu with ⟨-, hu⟩ | ⟨-, hu⟩
    · exact absurd hu (hfill i q)
    · exact h.filling u i q hu
  · intro u i q hu
    dsimp only
    rcases update_cases (P := (· = .publishing i q)) hu with ⟨-, hu⟩ | ⟨hne, hu⟩
    · obtain ⟨rfl, hk, hr⟩ := hpub i q hu
      rw [update_self]
      exact ⟨hk, hr⟩
    · rw [update_of_ne (hother u q hne (by rw [hu]; rfl))]
      exact h.publishing u i q hu
  · intro u w q hu hw
    have hback : ∀ {x}, (update s.threads t pc x).slot = some q →
        (s.threads x).slot = some q := by
      intro x hx
      rcases update_cases (P := fun c => c.slot = some q) hx with ⟨hxt,
        hx'⟩ | ⟨-, hx'⟩
      · rcases hpc with hn | hn
        · rw [hn] at hx'
          cases hx'
        · rw [hxt, hslot, ← hn]
          exact hx'
      · exact hx'
    exact h.once u w q (hback hu) (hback hw)

/-- A thread writes in its slot. -/
theorem Inv.write (h : Inv s) (ht : t < s.nthreads) {v : Slot}
    (hheld : ∃ mid last, Held ((s.setSlot p v).setThread t pc) mid last)
    (hold : (s.threads t).sends = false ∧ (s.threads t).pending = []
      ∧ s.threads t ≠ .syncWaiting ∧ s.threads t ≠ .syncing)
    (hnew : pc.sends = false ∧ pc.pending = [] ∧ pc ≠ .aborted) :
    Inv ((s.setSlot p v).setThread t pc) := by
  have hsend := noSend_update hold.1 hnew.1
  refine ⟨hheld, fun u w hu hw => h.one u w (hsend u ▸ hu) (hsend w ▸ hw),
    fun u hu => h.posted u (hsend u ▸ hu), h.free, ?_,
    assertion_update h.assertion hnew.2.2, h.since, ?_, ?_, range_update h.range ht⟩
  · exact calls_update h.calls (by rw [hnew.2.1, hold.2.1])
  · intro u h₁ h₂ h₃
    change update s.threads t pc u ≠ _ at h₁
    change update s.threads t pc u ≠ _ at h₂
    change update s.threads t pc u ≠ _ at h₃
    show s.since u ≤ s.flushed.length
    rcases eq_or_ne u t with rfl | hne
    · refine h.synced u hold.2.2.1 hold.2.2.2 fun hc => ?_
      rw [flushing_sends hc] at hold
      cases hold.1
    · rw [update_of_ne hne] at h₁ h₂ h₃
      exact h.synced u h₁ h₂ h₃
  · intro u hu
    exact h.syncing u (flushing_update hnew.1 hu).2

/-- It fills its slot. -/
theorem Inv.fill (h : Inv s) (ht : t < s.nthreads) (hpc : s.threads t = .filling i p) :
    Inv ((s.setSlot p (i.fill (s.buf p))).setThread t (.publishing i p)) := by
  obtain ⟨mid, last, hheld⟩ := h.held
  refine h.write ht ⟨mid, last, hheld.write ?_ (.inr rfl) ?_ rfl nofun
    nofun ?_⟩ ?_ ⟨rfl, rfl, nofun⟩
  · rw [hpc]
    rfl
  · rw [hpc]
    rfl
  · intro j q hq
    injection hq with hj hq
    subst hj hq
    exact ⟨rfl, hheld.filling t i p hpc, i.read_publish_fill _⟩
  · rw [hpc]
    exact ⟨rfl, rfl, nofun, nofun⟩

/-- It publishes its slot. -/
theorem Inv.publish (h : Inv s) (ht : t < s.nthreads)
    (hpc : s.threads t = .publishing i p) :
    Inv ((s.setSlot p (i.publish (s.buf p))).setThread t .idle) := by
  obtain ⟨mid, last, hheld⟩ := h.held
  refine h.write ht ⟨mid, last, hheld.write ?_ (.inl rfl) ?_ rfl (fun _ => ?_)
    nofun nofun⟩ ?_
    ⟨rfl, rfl, nofun⟩
  · rw [hpc]
    rfl
  · rw [hpc]
    rfl
  · intro k j hp hk
    obtain ⟨⟨k', hp', hk'⟩, hread⟩ := hheld.publishing t i p hpc
    have hkk : k = k' := by omega
    subst hkk
    have hij : i = j := Option.some.inj (hk'.symm.trans hk)
    subst hij
    exact hread
  · rw [hpc]
    exact ⟨rfl, rfl, nofun, nofun⟩

-- ======== steps

theorem Inv.settled (h : Inv s) (hset : s.Settled) (u : Nat) :
    (s.threads u).slot = none := by
  rcases Nat.lt_or_ge u s.nthreads with hu | hu
  · exact hset u hu
  · rw [h.range u hu]
    rfl

/-- Every step of a thread keeps the invariant. -/
theorem Inv.threadStep (h : Inv s) (ht : t < s.nthreads)
    (hq : s.MeetsAt (s.threads t))
    (hs : s.threadStep t = some s') : Inv s' := by
  obtain ⟨mid, last, hheld⟩ := h.held
  have hsync : ∀ {q : StreamPc}, s.threads t = q → q ≠ .syncWaiting → q ≠ .syncing →
      q ≠ .flushing none → s.since t ≤ s.flushed.length := by
    rintro q rfl h₁ h₂ h₃
    exact h.synced t h₁ h₂ h₃
  unfold Stream.threadStep at hs
  cases hpc : s.threads t with
  | idle =>
    simp only [hpc] at hs
    cases hs
  | aborted =>
    simp only [hpc] at hs
    cases hs
  | testing i =>
    simp only [hpc] at hs
    have hle := hsync hpc nofun nofun nofun
    split at hs
    · cases hs
      refine h.setThread ht ?_ ⟨rfl, rfl, nofun⟩ ?_ fun _ _ => hle
      all_goals
        rw [hpc]
        first | exact ⟨rfl, rfl⟩ | rfl
    · cases hs
      refine h.setThread ht ?_ ⟨rfl, rfl, nofun⟩ ?_ fun _ _ => hle
      all_goals
        rw [hpc]
        first | exact ⟨rfl, rfl⟩ | rfl
  | switching i =>
    simp only [hpc] at hs
    have hle := hsync hpc nofun nofun nofun
    split at hs
    · next hfull =>
        split at hs
        · next hfree =>
            cases hs
            rw [hpc] at hq
            have hz := h.free hfree
            refine h.exchange ht hfree ?_ ?_ (h.settled (hq hfull hfree)) ?_
              fun _ => ?_
            · show s.tosend.posW ≤ s.capacity
              rw [hz.1]
              exact Nat.zero_le _
            · show s.tosend.posR = s.tosend.posW
              rw [hz.1, hz.2]
            · rw [hpc]
              rfl
            · rw [hpc]
              exact ⟨nofun, nofun⟩
        · cases hs
          refine h.setThread ht ?_ ⟨rfl, rfl, nofun⟩ ?_ fun _ _ => hle
          all_goals
            rw [hpc]
            first | exact ⟨rfl, rfl⟩ | rfl
    · cases hs
      refine h.setThread ht ?_ ⟨rfl, rfl, nofun⟩ ?_ fun _ _ => hle
      all_goals
        rw [hpc]
        first | exact ⟨rfl, rfl⟩ | rfl
  | waiting i =>
    simp only [hpc] at hs
    have hle := hsync hpc nofun nofun nofun
    split at hs
    · cases hs
      refine h.setThread ht ?_ ⟨rfl, rfl, nofun⟩ ?_ fun _ _ => hle
      all_goals
        rw [hpc]
        first | exact ⟨rfl, rfl⟩ | rfl
    · cases hs
  | flushing k =>
    simp only [hpc] at hs
    cases hs
    exact h.flush ht hpc
  | resetting k =>
    simp only [hpc] at hs
    cases k with
    | some i =>
      cases hs
      exact h.reset ht hpc ⟨rfl, rfl, nofun⟩ (by rw [hpc]; rfl)
    | none =>
      cases hs
      exact h.reset ht hpc ⟨rfl, rfl, nofun⟩ (by rw [hpc]; rfl)
  | reserving i =>
    simp only [hpc] at hs
    rw [hpc] at hq
    have hlt : s.posW < s.capacity := hq
    rw [if_pos hlt] at hs
    cases hs
    exact h.reserve ht hpc hlt
  | filling i p =>
    simp only [hpc] at hs
    cases hs
    exact h.fill ht hpc
  | publishing i p =>
    simp only [hpc] at hs
    cases hs
    exact h.publish ht hpc
  | syncWaiting =>
    simp only [hpc] at hs
    split at hs
    · cases hs
      refine h.setThread ht ?_ ⟨rfl, rfl, nofun⟩ ?_ fun _ hc => absurd rfl hc
      all_goals
        rw [hpc]
        first | exact ⟨rfl, rfl⟩ | rfl
    · cases hs
  | syncing =>
    simp only [hpc] at hs
    split at hs
    · next hfree =>
        cases hs
        rw [hpc] at hq
        refine h.exchange ht hfree hheld.posW_le rfl (h.settled (hq hfree)) ?_
          fun hc => absurd rfl hc
        rw [hpc]
        rfl
    · cases hs
      refine h.setThread ht ?_ ⟨rfl, rfl, nofun⟩ ?_ fun hc => absurd rfl hc
      all_goals
        rw [hpc]
        first | exact ⟨rfl, rfl⟩ | rfl

/-- Every step keeps it. -/
theorem Inv.step {a : Act} (h : Inv s) (hq : Meets a s)
    (hs : Stream.step a s = some s') :
    Inv s' := by
  unfold Stream.step at hs
  cases a with
  | insert t i =>
    dsimp only at hs
    split at hs
    · next hg =>
        cases hs
        have hidle := hg.2
        refine h.move hg.1 ?_ ⟨rfl, rfl, nofun⟩ ?_ h.since
          (fun _ _ => rfl) fun _ _ => ?_
        · rw [hidle]
          exact ⟨rfl, rfl⟩
        · intro u
          have hc := h.calls u
          show update s.calls t (s.calls t ++ [i]) u = s.reservedBy u
            ++ (update s.threads t (.testing i) u).pending
          rcases eq_or_ne u t with rfl | hne
          · rw [update_self, update_self, hc, hidle]
            simp [StreamPc.pending]
          · rw [update_of_ne hne, update_of_ne hne]
            exact hc
        · refine h.synced t ?_ ?_ ?_
          all_goals
            rw [hidle]
            exact nofun
    · cases hs
  | sync t =>
    dsimp only at hs
    split at hs
    · next hg =>
        cases hs
        have hidle := hg.2
        refine h.move hg.1 ?_ ⟨rfl, rfl, nofun⟩ ?_ ?_ ?_ fun hc => absurd rfl hc
        · rw [hidle]
          exact ⟨rfl, rfl⟩
        · exact calls_update h.calls (by rw [hidle]; rfl)
        · intro u
          show update s.since t s.reserved.length u ≤ s.reserved.length
          rcases eq_or_ne u t with rfl | hne
          · exact Nat.le_of_eq (update_self ..)
          · rw [update_of_ne hne]
            exact h.since u
        · intro u hne
          exact update_of_ne hne _ _
    · cases hs
  | step t =>
    dsimp only at hs
    split at hs
    · next ht => exact h.threadStep ht hq hs
    · cases hs

/-- The invariant gives the order. -/
theorem Inv.streamOk (h : Inv s) : s.StreamOk where
  flushed := by
    obtain ⟨mid, last, hheld⟩ := h.held
    obtain ⟨done, hdone, hres⟩ := hheld.reserved
    refine ⟨done, hdone, mid ++ last, ?_⟩
    rw [hres, List.append_assoc]
  calls := h.calls
  assertion := h.assertion
  synced := by
    intro t ht
    refine h.synced t ?_ ?_ ?_
    all_goals
      rw [ht]
      exact nofun

-- ======== results

/-- Any number of producers and any order of the steps: when no slot is
reserved in a full buffer and the buffers are exchanged with every
reserved slot published, the stream flushes what was inserted, once and in
order. -/
theorem streamOk_of_meets (n capacity : Nat) {as : List Act}
    (hq : Along step Meets as (init n capacity))
    (hs : run step as (init n capacity) = some s) : s.StreamOk :=
  (hq.run_inv (fun hm h hst => h.step hm hst) (inv_init n capacity) hs).streamOk

/-- A producer fills a buffer of one slot, switches it at its second
insertion, and calls sync. -/
def switchAndSync : List Act :=
  [.insert 0 (.nop ⟨1, 2⟩), .step 0, .step 0, .step 0, .step 0,
    .insert 0 (.am ⟨3, 4, 5⟩ ⟨6, 7⟩), .step 0, .step 0, .step 0, .step 0, .step 0,
    .step 0, .step 0, .sync 0, .step 0, .step 0, .step 0, .step 0]

theorem streamOk_of_meets_one :
    Along step Meets switchAndSync (init 1 1)
      ∧ ∃ s, run step switchAndSync (init 1 1) = some s ∧ s.StreamOk := by
  have hm : Along step Meets switchAndSync (init 1 1) := by decide +kernel
  refine ⟨hm, ?_⟩
  rcases hrun : run step switchAndSync (init 1 1) with _ | s
  · have hsome : (run step switchAndSync (init 1 1)).isSome
      = true := by decide +kernel
    rw [hrun] at hsome
    cases hsome
  · exact ⟨s, rfl, streamOk_of_meets 1 1 hm hrun⟩

/-- Two producers find one free slot, and both increment the position: the
second one is past the end of the buffer. -/
theorem streamOk_fails :
    ∃ s, run step [.insert 0 (.nop ⟨1, 2⟩), .insert 1 (.nop ⟨3, 4⟩), .step 0,
      .step 1,
        .step 0, .step 1] (init 2 1) = some s ∧ ¬ s.StreamOk := by
  have hrun : (run step [.insert 0 (.nop ⟨1, 2⟩), .insert 1 (.nop ⟨3, 4⟩), .step 0,
      .step 1, .step 0, .step 1] (init 2 1)).map (fun s => s.threads 1)
      = some .aborted := by decide +kernel
  obtain ⟨s, hs, habort⟩ := Option.map_eq_some_iff.mp hrun
  exact ⟨s, hs, fun hok => hok.assertion 1 habort⟩

end Stream

end XKaapi.Network
