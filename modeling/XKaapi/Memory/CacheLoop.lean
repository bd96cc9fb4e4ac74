/-
What the eviction loop of a cache does to its blocks, whatever becomes
of the metadata: `removeLoop` again, with the device whose memory
`kaapi_cuda_mem_free_` gives back, and without any assumption on `kmem`.

If the loop comes back at all (`check_host` may fail on a pointer whose
datum is unknown), it has taken the `victims` of its list and nothing
else (`Taken`), counted their sizes, freed the memory of those that are
smaller than the request and kept the last one that is not (`evicted`).
-/
import Mathlib.Algebra.GroupWithZero.Nat
import XKaapi.Memory.Cache

namespace XKaapi.Memory

open LinkedList

variable {U V : Type}

-- ======== the device

/-- The memory of a device: the blocks `cudaMalloc` has given and
`cudaFree` has not taken back, and the calls of `cudaFree` on something
else. -/
structure Device where
  blocks : List (Ptr × BitVec 64)
  badFrees : Nat
deriving DecidableEq

namespace Device

/-- No block yet. -/
def init : Device := ⟨[], 0⟩

/-- The bytes that are allocated. -/
def total (dev : Device) : Nat := (dev.blocks.map fun b => b.2.toNat).sum

/-- `cudaMalloc`, giving the pointer `p`, that must be new; the device
has less than 2^64 bytes. -/
def malloc (p : Ptr) (size : BitVec 64) (dev : Device) : Option Device :=
  if p ≠ 0 ∧ p ∉ dev.blocks.map Prod.fst
      ∧ dev.total + size.toNat < 2 ^ 64 then
    some { dev with blocks := (p, size) :: dev.blocks }
  else none

/-- kaapi_cuda_mem_free_ and kaapi_cuda_mem_free: `cudaFree`, which does
nothing on null and answers with an error when the pointer is not that of
a block. -/
def free (p : Ptr) (dev : Device) : Device :=
  if p = 0 then dev
  else if p ∈ dev.blocks.map Prod.fst then
    { dev with blocks := dev.blocks.filter fun b => b.1 ≠ p }
  else { dev with badFrees := dev.badFrees + 1 }

end Device

-- ======== the loop

/-- `removeLoop`, with the device. -/
def removeLoopDev (k : Lid) (hasAccess : U → Bool) (report : Blk U → Bool)
    (size : BitVec 64) : Nat → Store U V → Device → Ends BlkId →
    Option BlkId → BitVec 64 → Ptr →
    Option ((Store U V × Ends BlkId × BitVec 64 × Ptr) × Device)
  | 0, _, _, _, _, _, _ => none
  | _ + 1, s, dev, e, none, memFree, devptr =>
    some ((s, e, memFree, devptr), dev)
  | turns + 1, s, dev, e, some b, memFree, devptr => do
      let n ← s.heap b
      if hasAccess n.val.u then
        removeLoopDev k hasAccess report size turns s dev e n.next memFree
          devptr
      else do
        let (h, e) ← unlink s.heap e b
        let n ← h b
        let s ← { s with heap := h }.evict k (report n.val) b n.val.ptr
        let fits := size ≤ n.val.size
        let dev := if fits then dev else dev.free n.val.ptr
        let devptr := if fits then n.val.ptr else devptr
        let memFree := memFree + n.val.size
        if size * memFreeFactor ≤ memFree then
          some ((s, e, memFree, devptr), dev)
        else
          removeLoopDev k hasAccess report size turns s dev e n.next memFree
            devptr

/-- A whole `remove` function on one list, with the device. -/
def removeFromDev (k : Lid) (hasAccess : U → Bool) (report : Blk U → Bool)
    (size : BitVec 64) (turns : Nat) (s : Store U V) (dev : Device)
    (e : Ends BlkId) : Option ((Ptr × Store U V × Ends BlkId) × Device) :=
  match e.beg with
  | none => some ((0, s, e), dev)
  | some b => do
      let ((s, e, memFree, devptr), dev) ←
        removeLoopDev k hasAccess report size turns s dev e (some b) 0 0
      return ((devptr, s.decreaseUsed memFree, e), dev)

variable {k : Lid} {hasAccess : U → Bool} {report : Blk U → Bool}
  {size : BitVec 64}

theorem removeLoopDev_fst (turns : Nat) (s : Store U V) (dev : Device)
    (e : Ends BlkId) (x : Option BlkId) (f : BitVec 64) (dp : Ptr) :
    (removeLoopDev k hasAccess report size turns s dev e x f dp).map Prod.fst
      = removeLoop k hasAccess report size turns s e x f dp := by
  induction turns generalizing s dev e x f dp with
  | zero => rfl
  | succ turns ih =>
    cases x with
    | none => rfl
    | some b =>
      unfold removeLoopDev removeLoop
      cases s.heap b with
      | none => rfl
      | some n =>
        simp only [Option.bind_eq_bind, Option.bind_some]
        by_cases hu : hasAccess n.val.u = true
        · rw [if_pos hu, if_pos hu]
          exact ih s dev e n.next f dp
        · rw [if_neg hu, if_neg hu]
          cases unlink s.heap e b with
          | none => rfl
          | some r =>
            simp only [Option.bind_some]
            cases r.1 b with
            | none => rfl
            | some n₁ =>
              simp only [Option.bind_some]
              cases { s with heap := r.1 }.evict k (report n₁.val) b
                n₁.val.ptr with
              | none => rfl
              | some s₁ =>
                simp only [Option.bind_some]
                by_cases hen : size * memFreeFactor ≤ f + n₁.val.size
                · rw [if_pos hen, if_pos hen]
                  rfl
                · rw [if_neg hen, if_neg hen]
                  exact ih ..

theorem removeFromDev_fst (turns : Nat) (s : Store U V) (dev : Device)
    (e : Ends BlkId) :
    (removeFromDev k hasAccess report size turns s dev e).map Prod.fst
      = removeFrom k hasAccess report size turns s e := by
  unfold removeFromDev removeFrom
  cases e.beg with
  | none => rfl
  | some b =>
    dsimp only
    rw [← removeLoopDev_fst turns s dev e (some b) 0 0]
    cases removeLoopDev k hasAccess report size turns s dev e (some b) 0 0
    · rfl
    · rfl

-- ======== the blocks

/-- From `s` to `s'` the blocks of `vs` are gone, and no other block has
changed, but for its links. -/
structure Taken (s s' : Store U V) (vs : List BlkId) : Prop where
  heap_none : ∀ b ∈ vs, s'.heap b = none
  vals : ∀ b, b ∉ vs → (s'.heap b).map Node.val = (s.heap b).map Node.val
  kmem_none : ∀ b ∈ vs, ∀ n, s.heap b = some n → s'.kmem n.val.ptr = none
  kmem_sub : ∀ p b, s'.kmem p = some b → s.kmem p = some b
  kmem_eq : ∀ p, (∀ b ∈ vs, ∀ n, s.heap b = some n → n.val.ptr ≠ p) →
    s'.kmem p = s.kmem p
  used : s'.used = s.used

variable {s s₁ s' : Store U V} {b : BlkId} {vs ws : List BlkId}
  {h : Heap BlkId (Blk U)}

theorem Taken.nil (s : Store U V) : Taken s s [] where
  heap_none := nofun
  vals := fun _ _ => rfl
  kmem_none := nofun
  kmem_sub := fun _ _ hp => hp
  kmem_eq := fun _ _ => rfl
  used := rfl

theorem Taken.exists_iff (ht : Taken s s' vs) (b : BlkId) (P : Blk U → Prop) :
    (∃ n, s'.heap b = some n ∧ P n.val)
      ↔ b ∉ vs ∧ ∃ n, s.heap b = some n ∧ P n.val := by
  by_cases hb : b ∈ vs
  · rw [ht.heap_none b hb]
    simp [hb]
  · have hval := ht.vals b hb
    cases hn : s.heap b with
    | none =>
      rw [hn, Option.map_none, Option.map_eq_none_iff] at hval
      simp [hval]
    | some n =>
      rw [hn, Option.map_some, Option.map_eq_some_iff] at hval
      obtain ⟨n', hn', hval⟩ := hval
      simp [hb, hn', hval]

theorem Taken.append (h₁ : Taken s s₁ vs) (h₂ : Taken s₁ s' ws) :
    Taken s s' (vs ++ ws) where
  heap_none := by
    intro b hb
    by_cases hw : b ∈ ws
    · exact h₂.heap_none b hw
    · have hv := (List.mem_append.mp hb).resolve_right hw
      have hval := h₂.vals b hw
      rw [h₁.heap_none b hv, Option.map_none, Option.map_eq_none_iff] at hval
      exact hval
  vals := by
    intro b hb
    rw [List.mem_append, not_or] at hb
    rw [h₂.vals b hb.2, h₁.vals b hb.1]
  kmem_none := by
    intro b hb n hn
    by_cases hv : b ∈ vs
    · have hnone := h₁.kmem_none b hv n hn
      cases hs : s'.kmem n.val.ptr with
      | none => rfl
      | some c =>
        rw [h₂.kmem_sub _ _ hs] at hnone
        cases hnone
    · have hw := (List.mem_append.mp hb).resolve_left hv
      obtain ⟨n₁, hn₁, hval⟩ := (h₁.exists_iff b fun blk => blk = n.val).mpr
        ⟨hv, n, hn, rfl⟩
      rw [← hval]
      exact h₂.kmem_none b hw n₁ hn₁
  kmem_sub := fun p b hp => h₁.kmem_sub p b (h₂.kmem_sub p b hp)
  kmem_eq := by
    intro p hp
    rw [h₂.kmem_eq p, h₁.kmem_eq p]
    · intro b hb n hn
      exact hp b (List.mem_append_left _ hb) n hn
    · intro b hb n₁ hn₁ hptr
      obtain ⟨-, n, hn, hval⟩ := (h₁.exists_iff b fun blk => blk = n₁.val).mp
        ⟨n₁, hn₁, rfl⟩
      rw [← hval] at hptr
      exact hp b (List.mem_append_right _ hb) n hn hptr
  used := h₂.used.trans h₁.used

/-- One eviction that goes through, of a block whose links may have
changed. -/
theorem Taken.evict {n : Node BlkId (Blk U)} {r : Bool}
    (hv : SameVals s.heap h) (hn : h b = some n)
    (he : { s with heap := h }.evict k r b n.val.ptr = some s') :
    Taken s s' [b] ∧ s'.heap = Function.update h b none := by
  have heq : s'.heap = Function.update h b none
      ∧ s'.kmem = Function.update s.kmem n.val.ptr none
      ∧ s'.used = s.used := by
    unfold Store.evict at he
    cases r with
    | false =>
      cases he
      exact ⟨rfl, rfl, rfl⟩
    | true =>
      simp only [if_pos, Store.checkHost, Option.bind_eq_bind,
        Option.bind_eq_some_iff] at he
      obtain ⟨s₁, ⟨d, -, hs₁⟩, hs'⟩ := he
      cases hs₁
      cases hs'
      exact ⟨rfl, rfl, rfl⟩
  obtain ⟨hheap, hkmem, hused⟩ := heq
  have hval : ∀ n₀, s.heap b = some n₀ → n₀.val = n.val := by
    intro n₀ hn₀
    have hsame := hv b
    rw [hn, hn₀, Option.map_some, Option.map_some, Option.some_inj] at hsame
    exact hsame.symm
  refine ⟨⟨?_, ?_, ?_, ?_, ?_, hused⟩, hheap⟩
  · intro c hc
    rw [List.mem_singleton.mp hc, hheap]
    exact Function.update_self ..
  · intro c hc
    rw [List.mem_singleton] at hc
    rw [hheap, Function.update_of_ne hc]
    exact hv c
  · intro c hc n₀ hn₀
    rw [List.mem_singleton.mp hc] at hn₀
    rw [hkmem, hval n₀ hn₀]
    exact Function.update_self ..
  · intro p c hp
    rw [hkmem, Function.update_apply] at hp
    split at hp
    next => cases hp
    next => exact hp
  · intro p hp
    rw [hkmem]
    refine Function.update_of_ne ?_ ..
    intro heq
    have hsome : ∃ n₀, s.heap b = some n₀ := by
      have hsame := hv b
      rw [hn, Option.map_some, eq_comm, Option.map_eq_some_iff] at hsame
      obtain ⟨n₀, hn₀, -⟩ := hsame
      exact ⟨n₀, hn₀⟩
    obtain ⟨n₀, hn₀⟩ := hsome
    refine hp b (List.mem_singleton_self b) n₀ hn₀ ?_
    rw [hval n₀ hn₀, heq]

/-- What a victim adds to the bytes freed, the pointer that is kept and
the device. -/
def evicted (h : Heap BlkId (Blk U)) (size : BitVec 64)
    (acc : BitVec 64 × Ptr × Device) (b : BlkId) :
    BitVec 64 × Ptr × Device :=
  match h b with
  | none => acc
  | some n =>
    (acc.1 + n.val.size,
      if size ≤ n.val.size then (n.val.ptr, acc.2.2)
      else (acc.2.1, acc.2.2.free n.val.ptr))

theorem foldl_evicted_congr {h' : Heap BlkId (Blk U)}
    (acc : BitVec 64 × Ptr × Device)
    (heq : ∀ b ∈ vs, (h' b).map Node.val = (h b).map Node.val) :
    vs.foldl (evicted h' size) acc = vs.foldl (evicted h size) acc := by
  induction vs generalizing acc with
  | nil => rfl
  | cons b vs ih =>
    have hb := heq b List.mem_cons_self
    have hstep : evicted h' size acc b = evicted h size acc b := by
      unfold evicted
      cases hn : h b with
      | none =>
        rw [hn, Option.map_none, Option.map_eq_none_iff] at hb
        rw [hb]
      | some n =>
        rw [hn, Option.map_some, Option.map_eq_some_iff] at hb
        obtain ⟨n', hn', hval⟩ := hb
        rw [hn']
        simp only [hval]
    rw [List.foldl_cons, List.foldl_cons, hstep]
    exact ih _ fun c hc => heq c (List.mem_cons_of_mem b hc)

/-- The loop, if it comes back, has taken the victims of the rest of the
list. -/
theorem removeLoopDev_spec (kept rest : List BlkId) {e : Ends BlkId}
    {turns : Nat} {dev : Device} {f : BitVec 64} {dp : Ptr}
    {r : (Store U V × Ends BlkId × BitVec 64 × Ptr) × Device}
    (hl : IsList s.heap e (kept ++ rest))
    (hr : removeLoopDev k hasAccess report size turns s dev e rest.head? f dp
      = some r) :
    Taken s r.1.1 (victims hasAccess size s.heap rest f)
      ∧ IsList r.1.1.heap r.1.2.1 (kept ++ rest.filter
        (· ∉ victims hasAccess size s.heap rest f))
      ∧ AgreeOff (kept ++ rest) s.heap r.1.1.heap
      ∧ (r.1.2.2.1, r.1.2.2.2, r.2)
        = (victims hasAccess size s.heap rest f).foldl
          (evicted s.heap size) (f, dp, dev) := by
  induction rest generalizing s e turns dev f dp kept with
  | nil =>
    cases turns with
    | zero => cases hr
    | succ turns =>
      cases hr
      exact ⟨Taken.nil s, hl, fun _ _ => rfl, rfl⟩
  | cons b rest ih =>
    cases turns with
    | zero => cases hr
    | succ turns =>
      obtain ⟨n, hn, -, hnext⟩ := hl.node
      have hnd := (List.perm_middle.nodup_iff).mp hl.nodup
      rw [List.nodup_cons, List.mem_append, not_or] at hnd
      obtain ⟨⟨hbk, hbr⟩, -⟩ := hnd
      have hassoc : kept ++ b :: rest = (kept ++ [b]) ++ rest := by simp
      simp only [List.head?_cons, removeLoopDev, hn, Option.bind_eq_bind,
        Option.bind_some] at hr
      simp only [victims, hn]
      by_cases hu : hasAccess n.val.u = true
      · -- in use: the block stays
        rw [if_pos hu] at hr ⊢
        rw [hnext] at hr
        rw [hassoc] at hl ⊢
        obtain ⟨ht, hl', hag, hacc⟩ := ih (kept ++ [b]) hl hr
        refine ⟨ht, ?_, hag, hacc⟩
        have hb : b ∉ victims hasAccess size s.heap rest f :=
          fun hb => hbr (of_mem_victims hb).1
        rw [List.filter_cons_of_pos (by simpa using hb)]
        simpa using hl'
      · -- evicted: the list goes on around it
        rw [if_neg hu] at hr ⊢
        obtain ⟨h₁, e₁, hun, hl₁, hv₁, hag₁⟩ := unlink_spec hl
        have hb₁ : h₁ b = some n := by
          rw [hag₁ b (by simp [hbk, hbr]), hn]
        simp only [hun, hb₁, Option.bind_some] at hr
        rw [Option.bind_eq_some_iff] at hr
        obtain ⟨s₁, hev, hr⟩ := hr
        obtain ⟨ht₁, hheap⟩ := Taken.evict hv₁ hb₁ hev
        obtain ⟨hl₂, hag₂, hsame⟩ :=
          unlinked_spec (by simp [hbk, hbr]) hl₁ hv₁ hag₁ hheap
        have hacc₁ : evicted s.heap size (f, dp, dev) b
            = (f + n.val.size,
              if size ≤ n.val.size then n.val.ptr else dp,
              if size ≤ n.val.size then dev else dev.free n.val.ptr) := by
          unfold evicted
          rw [hn]
          by_cases hfit : size ≤ n.val.size
          · simp only [if_pos hfit]
          · simp only [if_neg hfit]
        by_cases hen : size * memFreeFactor ≤ f + n.val.size
        · rw [if_pos hen] at hr ⊢
          cases hr
          refine ⟨ht₁, ?_, hag₂, ?_⟩
          · rw [filter_notMem_cons hbr, List.filter_eq_self.mpr (by simp)]
            exact hl₂
          · rw [List.foldl_cons, hacc₁, List.foldl_nil]
        · rw [if_neg hen] at hr ⊢
          rw [hnext] at hr
          obtain ⟨ht, hl', hag, hacc⟩ := ih kept hl₂ hr
          rw [victims_congr _ hsame] at ht hl' hacc
          refine ⟨ht₁.append ht, ?_, ?_, ?_⟩
          · rw [filter_notMem_cons hbr]
            exact hl'
          · refine hag₂.trans (hag.mono fun c hc => ?_)
            simp only [List.mem_append, List.mem_cons] at hc ⊢
            exact hc.imp_right .inr
          · rw [List.foldl_cons, hacc₁, hacc]
            exact foldl_evicted_congr _ fun c hc =>
              hsame c (of_mem_victims hc).1

theorem removeFromDev_spec {l : List BlkId} {e : Ends BlkId} {turns : Nat}
    {dev : Device} {r : (Ptr × Store U V × Ends BlkId) × Device}
    (hl : IsList s.heap e l)
    (hr : removeFromDev k hasAccess report size turns s dev e = some r) :
    ∃ s₁, Taken s s₁ (victims hasAccess size s.heap l 0)
      ∧ r.1.2.1 = s₁.decreaseUsed ((victims hasAccess size s.heap l 0).foldl
        (evicted s.heap size) (0, 0, dev)).1
      ∧ IsList r.1.2.1.heap r.1.2.2
        (l.filter (· ∉ victims hasAccess size s.heap l 0))
      ∧ AgreeOff l s.heap r.1.2.1.heap
      ∧ (r.1.1, r.2) = ((victims hasAccess size s.heap l 0).foldl
        (evicted s.heap size) (0, 0, dev)).2 := by
  cases l with
  | nil =>
    have hbeg : e.beg = none := hl.beg
    unfold removeFromDev at hr
    rw [hbeg] at hr
    cases hr
    refine ⟨s, Taken.nil s, ?_, hl, fun _ _ => rfl, rfl⟩
    show s = { s with used := if s.used < 0 then 0 else s.used - 0 }
    have hnot : ¬ s.used < 0 := by
      rw [BitVec.lt_def]
      exact Nat.not_lt_zero _
    have hzero : s.used - 0 = s.used := BitVec.sub_zero s.used
    rw [if_neg hnot, hzero]
  | cons b l =>
    have hbeg : e.beg = some b := hl.beg
    unfold removeFromDev at hr
    rw [hbeg] at hr
    simp only [Option.bind_eq_bind, Option.bind_eq_some_iff] at hr
    obtain ⟨r₁, hr₁, heq⟩ := hr
    obtain ⟨ht, hl', hag, hacc⟩ := removeLoopDev_spec [] (b :: l) hl hr₁
    cases heq
    rw [List.nil_append] at hl' hag
    rw [← hacc]
    exact ⟨_, ht, rfl, hl', hag, rfl⟩

end XKaapi.Memory
