/-
The account of the memory of a device: each block of `cudaMalloc` is in
one descriptor of the cache, with its size, and `used` is the sum.

`kaapi_cuda_mem_alloc` goes through states where that is not quite so:
between an eviction and the insertion one block is in no descriptor, and
inside the eviction loop the bytes of the victims are still in `used`.
`AccountedBut` is the account up to these two. One victim that is smaller
than the request leaves it by `cudaFree` (`AccountedBut.free`), one that
is not becomes the block in hand (`AccountedBut.take`), and ends the
loop; `AccountedBut.evict` is the whole loop.
-/
import XKaapi.Memory.CacheLoop
import Mathlib.Algebra.BigOperators.Group.List.Basic

namespace XKaapi.Memory

open Dfg LinkedList
open Function (update update_apply update_of_ne update_self)

variable {U V : Type} {s s' : Store U V} {dev : Device} {b : BlkId}
  {n : Node BlkId (Blk U)} {q : Ptr × BitVec 64} {h' : Heap BlkId (Blk U)}
  {size : BitVec 64}

-- ======== devices

theorem Device.perm_filter (hnd : (dev.blocks.map Prod.fst).Nodup) (hq : q ∈ dev.blocks) :
    dev.blocks.Perm (q :: dev.blocks.filter fun r => r.1 ≠ q.1) := by
  generalize dev.blocks = l at hnd hq
  induction l with
  | nil => cases hq
  | cons r l ih =>
    rw [List.map_cons, List.nodup_cons] at hnd
    obtain ⟨hr, hnd⟩ := hnd
    rcases List.mem_cons.mp hq with rfl | hq
    · have hfil : l.filter (fun r => r.1 ≠ q.1) = l := by
        rw [List.filter_eq_self]
        intro r hrl
        rw [decide_eq_true_eq]
        intro heq
        exact hr (heq ▸ List.mem_map_of_mem hrl)
      rw [List.filter_cons_of_neg (by simp), hfil]
    · have hne : r.1 ≠ q.1 := by
        intro heq
        exact hr (heq ▸ List.mem_map_of_mem hq)
      rw [List.filter_cons_of_pos (by simpa using hne)]
      exact ((ih hnd hq).cons r).trans (List.Perm.swap ..)

theorem Device.total_filter (hnd : (dev.blocks.map Prod.fst).Nodup) (hq : q ∈ dev.blocks) :
    dev.total
      = q.2.toNat + Device.total
        { dev with blocks := dev.blocks.filter fun r => r.1 ≠ q.1 } := by
  have hp := (Device.perm_filter hnd hq).map fun r => r.2.toNat
  show (dev.blocks.map fun r => r.2.toNat).sum = _
  rw [hp.sum_eq]
  exact List.sum_cons

-- ======== index

namespace Store

/-- `kmem` leads to the block of each pointer. -/
def Indexed (s : Store U V) : Prop :=
  ∀ p b, s.kmem p = some b ↔ ∃ n, s.heap b = some n ∧ n.val.ptr = p

/-- A descriptor holds a block of this pointer and size. -/
def Holds (s : Store U V) (q : Ptr × BitVec 64) : Prop :=
  ∃ b n, s.heap b = some n ∧ (n.val.ptr, n.val.size) = q

/-- The blocks are the same, but for what they are used for. -/
structure SameBlocks (s s' : Store U V) : Prop where
  vals : ∀ b, (s'.heap b).map (fun n => (n.val.ptr, n.val.size))
    = (s.heap b).map fun n => (n.val.ptr, n.val.size)
  kmem : s'.kmem = s.kmem
  used : s'.used = s.used

theorem SameBlocks.exists_iff (hs : SameBlocks s s') (b : BlkId)
    (P : Ptr × BitVec 64 → Prop) :
    (∃ n, s'.heap b = some n ∧ P (n.val.ptr, n.val.size))
      ↔ ∃ n, s.heap b = some n ∧ P (n.val.ptr, n.val.size) := by
  have hb := hs.vals b
  cases hn : s.heap b with
  | none =>
    rw [hn, Option.map_none, Option.map_eq_none_iff] at hb
    simp [hb]
  | some n =>
    rw [hn, Option.map_some, Option.map_eq_some_iff] at hb
    obtain ⟨n', hn', hval⟩ := hb
    simp only [hn', Option.some.injEq, exists_eq_left', hval]

theorem SameBlocks.refl (s : Store U V) : SameBlocks s s :=
  ⟨fun _ => rfl, rfl, rfl⟩

theorem SameBlocks.setHeap {h' : Heap BlkId (Blk U)}
    (hn : s.heap b = some n) {blk : Blk U}
    (hp : (blk.ptr, blk.size) = (n.val.ptr, n.val.size))
    (hv : SameVals (update s.heap b (some { n with val := blk })) h') :
    SameBlocks s { s with heap := h' } := by
  refine ⟨fun c => ?_, rfl, rfl⟩
  have hmap : ∀ o : Option (Node BlkId (Blk U)),
      o.map (fun n => (n.val.ptr, n.val.size))
        = (o.map Node.val).map fun bl => (bl.ptr, bl.size) := by
    intro o
    rw [Option.map_map]
    rfl
  rw [hmap, hv c, ← hmap]
  by_cases hcb : c = b
  · rw [hcb, update_self, hn, Option.map_some, Option.map_some, hp]
  · rw [update_of_ne hcb]

theorem Indexed.ptr_inj (hs : s.Indexed) {c : BlkId}
    {m : Node BlkId (Blk U)} (hn : s.heap b = some n)
    (hm : s.heap c = some m) (hp : m.val.ptr = n.val.ptr) : c = b := by
  have hb := (hs n.val.ptr b).mpr ⟨n, hn, rfl⟩
  have hc := (hs n.val.ptr c).mpr ⟨m, hm, hp⟩
  exact Option.some.inj (hc.symm.trans hb)

theorem Indexed.sameBlocks (hs : s.Indexed) (hb : SameBlocks s s') :
    s'.Indexed := by
  intro p b
  rw [hb.kmem, hs p b]
  exact (hb.exists_iff b fun q => q.1 = p).symm

theorem SameBlocks.holds_iff (hb : SameBlocks s s') (q : Ptr × BitVec 64) :
    s'.Holds q ↔ s.Holds q :=
  exists_congr fun b => hb.exists_iff b fun r => r = q

/-- A block is taken out of the index. -/
theorem Indexed.forget (hs : s.Indexed) (hn : s.heap b = some n) :
    (s.forget b n.val.ptr).Indexed := by
  intro p c
  show update s.kmem n.val.ptr none p = some c
    ↔ ∃ m, update s.heap b none c = some m ∧ m.val.ptr = p
  by_cases hp : p = n.val.ptr
  · subst hp
    rw [update_self]
    refine iff_of_false nofun ?_
    rintro ⟨m, hm, hptr⟩
    rw [update_apply] at hm
    split at hm
    next => cases hm
    next hcb => exact hcb (hs.ptr_inj hn hm hptr)
  · rw [update_of_ne hp, hs p c]
    by_cases hcb : c = b
    · subst hcb
      rw [update_self, hn]
      refine iff_of_false ?_ fun ⟨_, h, _⟩ => nomatch h
      rintro ⟨m, hm, hptr⟩
      cases hm
      exact hp hptr.symm
    · rw [update_of_ne hcb]

theorem Indexed.holds_forget_iff (hs : s.Indexed) (hn : s.heap b = some n)
    (q : Ptr × BitVec 64) :
    (s.forget b n.val.ptr).Holds q ↔ s.Holds q ∧ q.1 ≠ n.val.ptr := by
  constructor
  · rintro ⟨c, m, hm, rfl⟩
    replace hm : update s.heap b none c = some m := hm
    rw [update_apply] at hm
    split at hm
    next => cases hm
    next hcb =>
      exact ⟨⟨c, m, hm, rfl⟩, fun hptr => hcb (hs.ptr_inj hn hm hptr)⟩
  · rintro ⟨⟨c, m, hm, rfl⟩, hptr⟩
    refine ⟨c, m, ?_, rfl⟩
    show update s.heap b none c = some m
    rw [update_of_ne, hm]
    rintro rfl
    cases hn.symm.trans hm
    exact hptr rfl

end Store

-- ======== account

/-- kaapi_cuda_mem_cache_is_full -/
def Store.isFull (total size : BitVec 64) (s : Store U V) : Bool :=
  total ≤ s.used + size

/-- Every block of the device is in one descriptor, under its pointer and
with its size; no block has been freed twice; the bytes in use are those
of the blocks, and `is_full` does not take them for fewer. -/
structure Accounted (s : Store U V) (dev : Device) : Prop where
  indexed : s.Indexed
  holds_iff : ∀ q, q ∈ dev.blocks ↔ s.Holds q
  nodup : (dev.blocks.map Prod.fst).Nodup
  badFrees : dev.badFrees = 0
  used : s.used.toNat = dev.total
  full : ∀ total size, s.isFull total size = false →
    dev.total + size.toNat < total.toNat ∨ 2 ^ 64 ≤ dev.total + size.toNat

/-- The account, but for the block `hand`, that is in no descriptor, and
for `pending` bytes that are in use no more. -/
structure AccountedBut (hand : Option (Ptr × BitVec 64))
    (pending : BitVec 64) (s : Store U V) (dev : Device) : Prop where
  indexed : s.Indexed
  holds_iff : ∀ q, q ∈ dev.blocks ↔ s.Holds q ∨ hand = some q
  hand_kmem : ∀ q, hand = some q → s.kmem q.1 = none
  nodup : (dev.blocks.map Prod.fst).Nodup
  ptr_ne : ∀ q ∈ dev.blocks, q.1 ≠ 0
  badFrees : dev.badFrees = 0
  lt : dev.total < 2 ^ 64
  used : s.used.toNat + (hand.elim 0 fun q => q.2.toNat)
    = dev.total + pending.toNat

variable {hand : Option (Ptr × BitVec 64)} {f : BitVec 64}

theorem AccountedBut.accounted (ha : AccountedBut none 0 s dev) :
    Accounted s dev := by
  have hused : s.used.toNat = dev.total := by simpa using ha.used
  refine ⟨ha.indexed, fun q => ?_, ha.nodup, ha.badFrees, hused, ?_⟩
  · rw [ha.holds_iff]
    simp
  · intro total size hfull
    unfold Store.isFull at hfull
    rw [decide_eq_false_iff_not, BitVec.le_def, BitVec.toNat_add, hused]
      at hfull
    by_cases hlt : dev.total + size.toNat < 2 ^ 64
    · rw [Nat.mod_eq_of_lt hlt] at hfull
      exact .inl (by omega)
    · exact .inr (by omega)

theorem AccountedBut.congr (ha : AccountedBut hand f s dev)
    (hs : s.SameBlocks s') : AccountedBut hand f s' dev where
  indexed := ha.indexed.sameBlocks hs
  holds_iff := fun q => by rw [ha.holds_iff, hs.holds_iff]
  hand_kmem := fun q hq => by rw [hs.kmem, ha.hand_kmem q hq]
  nodup := ha.nodup
  ptr_ne := ha.ptr_ne
  badFrees := ha.badFrees
  lt := ha.lt
  used := by rw [hs.used, ha.used]

theorem AccountedBut.mem (ha : AccountedBut hand f s dev)
    (hn : s.heap b = some n) : (n.val.ptr, n.val.size) ∈ dev.blocks :=
  (ha.holds_iff _).mpr (.inl ⟨b, n, hn, rfl⟩)

section

variable (ha : AccountedBut none f s dev) (hn : s.heap b = some n)
include ha hn

theorem AccountedBut.toNat_add :
    (f + n.val.size).toNat = f.toNat + n.val.size.toNat
      ∧ n.val.size.toNat ≤ dev.total := by
  have htot := Device.total_filter ha.nodup (ha.mem hn)
  have hused := ha.used
  have hlt := s.used.isLt
  have hle : n.val.size.toNat ≤ dev.total := by
    rw [htot]
    exact Nat.le_add_right ..
  simp only [Option.elim_none, Nat.add_zero] at hused
  refine ⟨?_, hle⟩
  rw [BitVec.toNat_add, Nat.mod_eq_of_lt]
  omega

/-- A block is given back to the device. -/
theorem AccountedBut.free :
    AccountedBut none (f + n.val.size) (s.forget b n.val.ptr)
      (dev.free n.val.ptr) := by
  have hmem := ha.mem hn
  have htot := Device.total_filter ha.nodup hmem
  dsimp only at htot
  obtain ⟨hadd, -⟩ := ha.toNat_add hn
  have hfree : dev.free n.val.ptr
      = { dev with blocks := dev.blocks.filter fun r => r.1 ≠ n.val.ptr } := by
    unfold Device.free
    rw [if_neg (ha.ptr_ne _ hmem), if_pos (List.mem_map_of_mem hmem)]
  rw [hfree]
  refine ⟨ha.indexed.forget hn, fun q => ?_, fun q hq => (nomatch hq), ?_,
    fun q hq => ha.ptr_ne q (List.mem_of_mem_filter hq), ha.badFrees, ?_, ?_⟩
  · rw [List.mem_filter, ha.holds_iff, ha.indexed.holds_forget_iff hn]
    simp
  · exact ha.nodup.sublist (List.filter_sublist.map _)
  · have hlt := ha.lt
    omega
  · have hused := ha.used
    show s.used.toNat + _ = _
    rw [hadd]
    simp only [Option.elim_none, Nat.add_zero] at hused ⊢
    omega

/-- A block is taken in hand. -/
theorem AccountedBut.take :
    AccountedBut (some (n.val.ptr, n.val.size)) (f + n.val.size)
      (s.forget b n.val.ptr) dev := by
  obtain ⟨hadd, -⟩ := ha.toNat_add hn
  refine ⟨ha.indexed.forget hn, fun q => ?_, fun q hq => ?_, ha.nodup,
    ha.ptr_ne, ha.badFrees, ha.lt, ?_⟩
  · rw [ha.holds_iff, ha.indexed.holds_forget_iff hn]
    simp only [reduceCtorEq, or_false, Option.some.injEq]
    constructor
    · intro hq
      by_cases hptr : q.1 = n.val.ptr
      · obtain ⟨c, m, hm, rfl⟩ := hq
        cases ha.indexed.ptr_inj hn hm hptr
        cases hn.symm.trans hm
        exact .inr rfl
      · exact .inl ⟨hq, hptr⟩
    · rintro (hq | rfl)
      · exact hq.1
      · exact ⟨b, n, hn, rfl⟩
  · cases hq
    exact update_self ..
  · have hused := ha.used
    show s.used.toNat + _ = _
    rw [hadd]
    simp only [Option.elim_none, Option.elim_some] at hused ⊢
    omega

end

theorem AccountedBut.decreaseUsed (ha : AccountedBut hand f s dev) :
    AccountedBut hand 0 (s.decreaseUsed f) dev := by
  have hused := ha.used
  have hhand : (hand.elim 0 fun q => q.2.toNat) ≤ dev.total := by
    cases hand with
    | none => exact Nat.zero_le _
    | some q =>
      have htot := Device.total_filter ha.nodup
        ((ha.holds_iff q).mpr (.inr rfl))
      show q.2.toNat ≤ dev.total
      omega
  refine ⟨ha.indexed, ha.holds_iff, ha.hand_kmem, ha.nodup, ha.ptr_ne,
    ha.badFrees, ha.lt, ?_⟩
  show (if s.used < f then (0 : BitVec 64) else s.used - f).toNat + _ = _
  have hle : f ≤ s.used := by
    rw [BitVec.le_def]
    omega
  rw [if_neg (BitVec.not_lt.mpr hle), BitVec.toNat_sub_of_le hle]
  simp only [BitVec.toNat_zero, BitVec.ofNat_eq_ofNat]
  rw [BitVec.le_def] at hle
  omega

-- ======== eviction

theorem Taken.tail {vs : List BlkId} (ht : Taken s s' (b :: vs))
    (hn : s.heap b = some n) : Taken (s.forget b n.val.ptr) s' vs := by
  have hheap : ∀ c m, (s.forget b n.val.ptr).heap c = some m →
      c ≠ b ∧ s.heap c = some m := by
    intro c m hm
    replace hm : update s.heap b none c = some m := hm
    rw [update_apply] at hm
    split at hm
    next => cases hm
    next hcb => exact ⟨hcb, hm⟩
  constructor
  · intro c hc
    exact ht.heap_none c (List.mem_cons_of_mem b hc)
  · intro c hc
    show _ = (update s.heap b none c).map Node.val
    by_cases hcb : c = b
    · rw [hcb, update_self, ht.heap_none b List.mem_cons_self]
    · rw [update_of_ne hcb]
      exact ht.vals c (by simp [hcb, hc])
  · intro c hc m hm
    exact ht.kmem_none c (List.mem_cons_of_mem b hc) m (hheap c m hm).2
  · intro p c hp
    have hne : p ≠ n.val.ptr := by
      rintro rfl
      rw [ht.kmem_none b List.mem_cons_self n hn] at hp
      cases hp
    show update s.kmem n.val.ptr none p = some c
    rw [update_of_ne hne]
    exact ht.kmem_sub p c hp
  · intro p hp
    show _ = update s.kmem n.val.ptr none p
    by_cases hpn : p = n.val.ptr
    · rw [hpn, update_self]
      exact ht.kmem_none b List.mem_cons_self n hn
    · rw [update_of_ne hpn]
      refine ht.kmem_eq p fun c hc m hm => ?_
      by_cases hcb : c = b
      · subst hcb
        cases hn.symm.trans hm
        exact Ne.symm hpn
      · refine hp c ((List.mem_cons.mp hc).resolve_left hcb) m ?_
        show update s.heap b none c = some m
        rw [update_of_ne hcb, hm]
  · exact ht.used

theorem Taken.sameBlocks (ht : Taken s s' []) : s.SameBlocks s' := by
  refine ⟨fun b => ?_, ?_, ht.used⟩
  · have hb := ht.vals b List.not_mem_nil
    cases hn : s.heap b with
    | none =>
      rw [hn, Option.map_none, Option.map_eq_none_iff] at hb
      rw [hb]
    | some n =>
      rw [hn, Option.map_some, Option.map_eq_some_iff] at hb
      obtain ⟨n', hn', hval⟩ := hb
      rw [hn', Option.map_some, Option.map_some, hval]
  · funext p
    exact ht.kmem_eq p nofun

/-- The block in hand after an eviction for `size` bytes, that took the
blocks `vs` and returned `dp`. -/
structure InHand (h : Heap BlkId (Blk U)) (size : BitVec 64)
    (vs : List BlkId) (hand : Option (Ptr × BitVec 64)) (dp : Ptr) : Prop where
  ptr_eq : dp = hand.elim 0 Prod.fst
  le : ∀ q, hand = some q → size ≤ q.2
  none_iff : hand = none ↔ ∀ b ∈ vs, ∀ n, h b = some n → n.val.size < size
  le_iff : (∀ q, hand = some q → q.2 ≤ size)
    ↔ ∀ b ∈ vs, ∀ n, h b = some n → n.val.size ≤ size

theorem InHand.nil (h : Heap BlkId (Blk U)) (size : BitVec 64) :
    InHand h size [] none 0 where
  ptr_eq := rfl
  le := nofun
  none_iff := iff_of_true rfl nofun
  le_iff := iff_of_true nofun nofun

theorem InHand.cons {h : Heap BlkId (Blk U)} {vs : List BlkId} {dp : Ptr}
    (hi : InHand h' size vs hand dp) (heq : ∀ c ∈ vs, h' c = h c) (hn : h b = some n)
    (hlt : n.val.size < size) : InHand h size (b :: vs) hand dp where
  ptr_eq := hi.ptr_eq
  le := hi.le
  none_iff := by
    rw [hi.none_iff, List.forall_mem_cons]
    constructor
    · refine fun hall => ⟨fun m hm => ?_, fun c hc m hm => ?_⟩
      · cases hn.symm.trans hm
        exact hlt
      · exact hall c hc m (by rw [heq c hc, hm])
    · rintro ⟨-, hall⟩ c hc m hm
      exact hall c hc m (by rw [← heq c hc, hm])
  le_iff := by
    rw [hi.le_iff, List.forall_mem_cons]
    constructor
    · refine fun hall => ⟨fun m hm => ?_, fun c hc m hm => ?_⟩
      · cases hn.symm.trans hm
        exact BitVec.le_of_lt hlt
      · exact hall c hc m (by rw [heq c hc, hm])
    · rintro ⟨-, hall⟩ c hc m hm
      exact hall c hc m (by rw [← heq c hc, hm])

/-- The loop keeps the account: what it has freed is `pending`, and it
has one block in hand at most, its last victim. -/
theorem AccountedBut.evict {hasAccess : U → Bool} {rest : List BlkId} (hnd : rest.Nodup)
    (ha : AccountedBut none f s dev)
    (ht : Taken s s' (victims hasAccess size s.heap rest f)) :
    ∃ hand, AccountedBut hand
        ((victims hasAccess size s.heap rest f).foldl
          (evicted s.heap size) (f, 0, dev)).1 s'
        ((victims hasAccess size s.heap rest f).foldl
          (evicted s.heap size) (f, 0, dev)).2.2
      ∧ InHand s.heap size (victims hasAccess size s.heap rest f) hand
        ((victims hasAccess size s.heap rest f).foldl
          (evicted s.heap size) (f, 0, dev)).2.1 := by
  induction rest generalizing s dev f with
  | nil => exact ⟨none, ha.congr ht.sameBlocks, InHand.nil ..⟩
  | cons b rest ih =>
    obtain ⟨hb, hnd⟩ := List.nodup_cons.mp hnd
    cases hn : s.heap b with
    | none =>
      have hvs : victims hasAccess size s.heap (b :: rest) f = [] := by
        unfold victims
        rw [hn]
      rw [hvs] at ht ⊢
      exact ⟨none, ha.congr ht.sameBlocks, InHand.nil ..⟩
    | some n =>
      simp only [victims, hn] at ht ⊢
      by_cases hu : hasAccess n.val.u = true
      · rw [if_pos hu] at ht ⊢
        exact ih hnd ha ht
      rw [if_neg hu] at ht ⊢
      obtain ⟨hadd, hle⟩ := ha.toNat_add hn
      have hfactor : size * memFreeFactor = size := BitVec.mul_one size
      have hsame : ∀ c ∈ rest, (s.forget b n.val.ptr).heap c = s.heap c :=
        fun c hc => update_of_ne (ne_of_mem_of_not_mem hc hb) ..
      by_cases hfit : size ≤ n.val.size
      · -- large enough: it is the last one
        have hen : size * memFreeFactor ≤ f + n.val.size := by
          rw [hfactor, BitVec.le_def, hadd]
          rw [BitVec.le_def] at hfit
          omega
        rw [if_pos hen] at ht ⊢
        have hacc : evicted s.heap size (f, 0, dev) b
            = (f + n.val.size, n.val.ptr, dev) := by
          unfold evicted
          rw [hn]
          simp only [if_pos hfit]
        rw [List.foldl_cons, List.foldl_nil, hacc]
        refine ⟨some (n.val.ptr, n.val.size),
          (ha.take hn).congr (ht.tail hn).sameBlocks, rfl, ?_, ?_, ?_⟩
        · intro q hq
          cases hq
          exact hfit
        · refine iff_of_false (Option.some_ne_none _) fun hall => ?_
          exact BitVec.not_lt.mpr hfit (hall b (List.mem_singleton_self b) n hn)
        · simp only [Option.some.injEq, forall_eq', List.mem_singleton,
            forall_eq, hn]
      · -- too small: it is freed, and the loop may go on
        have hlt : n.val.size < size := BitVec.not_le.mp hfit
        have hacc : evicted s.heap size (f, 0, dev) b
            = (f + n.val.size, 0, dev.free n.val.ptr) := by
          unfold evicted
          rw [hn]
          simp only [if_neg hfit]
        by_cases hen : size * memFreeFactor ≤ f + n.val.size
        · rw [if_pos hen] at ht ⊢
          rw [List.foldl_cons, List.foldl_nil, hacc]
          refine ⟨none, (ha.free hn).congr (ht.tail hn).sameBlocks, ?_⟩
          exact (InHand.nil s.heap size).cons (fun _ _ => rfl) hn hlt
        · rw [if_neg hen] at ht ⊢
          have hvs : victims hasAccess size (s.forget b n.val.ptr).heap rest
              (f + n.val.size)
              = victims hasAccess size s.heap rest (f + n.val.size) :=
            victims_congr _ fun c hc => by rw [hsame c hc]
          have htail := ht.tail hn
          rw [← hvs] at htail
          obtain ⟨hand, ha', hin⟩ := ih hnd (ha.free hn) htail
          rw [hvs] at ha' hin
          have hcongr : (victims hasAccess size s.heap rest
                (f + n.val.size)).foldl
                (evicted (s.forget b n.val.ptr).heap size)
                (f + n.val.size, 0, dev.free n.val.ptr)
              = (victims hasAccess size s.heap rest (f + n.val.size)).foldl
                (evicted s.heap size)
                (f + n.val.size, 0, dev.free n.val.ptr) :=
            foldl_evicted_congr _ fun c hc => by
              rw [hsame c (of_mem_victims hc).1]
          rw [hcongr] at ha' hin
          rw [List.foldl_cons, hacc]
          exact ⟨hand, ha', hin.cons
            (fun c hc => hsame c (of_mem_victims hc).1) hn hlt⟩

/-- The blocks that an eviction removes. -/
theorem AccountedBut.removeFrom {k : Lid} {hasAccess : U → Bool} {report : Blk U → Bool}
    {turns : Nat} {l : List BlkId} {e : Ends BlkId}
    {r : (Ptr × Store U V × Ends BlkId) × Device} (ha : AccountedBut none 0 s dev)
    (hl : IsList s.heap e l)
    (hr : removeFromDev k hasAccess report size turns s dev e = some r) :
    ∃ hand, AccountedBut hand 0 r.1.2.1 r.2
      ∧ InHand s.heap size (victims hasAccess size s.heap l 0) hand r.1.1
      ∧ ∀ b, s.heap b = none → r.1.2.1.heap b = none := by
  obtain ⟨s₁, ht, hs, -, -, hdp⟩ := removeFromDev_spec hl hr
  obtain ⟨hand, ha', hin⟩ := ha.evict hl.nodup ht
  rw [← hdp] at ha' hin
  rw [hs]
  refine ⟨hand, ha'.decreaseUsed, hin, fun b hb => ?_⟩
  have hnone := (ht.exists_iff b fun _ => True).not
  rw [hb] at hnone
  rw [Option.eq_none_iff_forall_ne_some]
  intro n hn
  exact hnone.mpr (by simp) ⟨n, hn, trivial⟩

-- ======== insertion

/-- The block in hand is entered with its size. -/
theorem AccountedBut.insert {blk : Blk U} (ha : AccountedBut (some q) 0 s dev)
    (hb : s.heap b = none) (hblk : (blk.ptr, blk.size) = q)
    (hv : SameVals (update s.heap b (some ⟨blk, none, none⟩)) h')
    (mdi : Ptr → MetadataInfo V) :
    AccountedBut none 0
      ⟨h', update s.kmem blk.ptr (some b), s.used + blk.size, mdi⟩
      dev := by
  subst hblk
  have hnone : s.kmem blk.ptr = none := ha.hand_kmem _ rfl
  have hex : ∀ c (P : Blk U → Prop), (∃ n, h' c = some n ∧ P n.val)
      ↔ (c = b ∧ P blk) ∨ ∃ n, s.heap c = some n ∧ P n.val := by
    intro c P
    rw [hv.exists_iff c P]
    by_cases hcb : c = b
    · rw [hcb, update_self, hb]
      simp
    · rw [update_of_ne hcb]
      simp [hcb]
  refine ⟨fun p c => ?_, fun r => ?_, fun r hr => (nomatch hr), ha.nodup,
    ha.ptr_ne, ha.badFrees, ha.lt, ?_⟩
  · show update s.kmem blk.ptr (some b) p = some c
      ↔ ∃ n, h' c = some n ∧ n.val.ptr = p
    rw [hex c fun bl => bl.ptr = p]
    by_cases hp : p = blk.ptr
    · subst hp
      rw [update_self, ← ha.indexed, hnone, Option.some.injEq]
      simp [eq_comm]
    · rw [update_of_ne hp, ha.indexed]
      simp [Ne.symm hp]
  · rw [ha.holds_iff]
    show s.Holds r ∨ some (blk.ptr, blk.size) = some r
      ↔ (∃ c n, h' c = some n ∧ (n.val.ptr, n.val.size) = r) ∨ none = some r
    simp only [hex _ fun bl => (bl.ptr, bl.size) = r, reduceCtorEq, or_false,
      Option.some.injEq]
    rw [exists_or, exists_eq_left, or_comm]
    rfl
  · have hused := ha.used
    have hlt := ha.lt
    have hzero : (0 : BitVec 64).toNat = 0 := rfl
    simp only [Option.elim_some, Option.elim_none, Nat.add_zero, hzero]
      at hused ⊢
    rw [BitVec.toNat_add, hused, Nat.mod_eq_of_lt hlt]

theorem AccountedBut.not_insert {blk : Blk U} (ha : AccountedBut (some q) 0 s dev)
    (hp : blk.ptr = q.1) (hsize : blk.size ≠ q.2)
    (hv : SameVals (update s.heap b (some ⟨blk, none, none⟩)) h')
    (kmem : Ptr → Option BlkId) (used : BitVec 64) (mdi : Ptr → MetadataInfo V) :
    ¬ Accounted ⟨h', kmem, used, mdi⟩ dev := by
  intro ha'
  have hq : q ∈ dev.blocks := (ha.holds_iff q).mpr (.inr rfl)
  have hmem : (blk.ptr, blk.size) ∈ dev.blocks := by
    refine (ha'.holds_iff _).mpr ⟨b, ?_⟩
    refine (hv.exists_iff b fun bl => (bl.ptr, bl.size) = _).mpr ?_
    exact ⟨_, update_self .., rfl⟩
  have heq := List.inj_on_of_nodup_map ha.nodup hmem hq hp
  exact hsize (congrArg Prod.snd heq)

/-- A block that the device gave. -/
theorem AccountedBut.malloc {p : Ptr} {dev' : Device} (ha : AccountedBut none 0 s dev)
    (hm : dev.malloc p size = some dev') : AccountedBut (some (p, size)) 0 s dev' := by
  unfold Device.malloc at hm
  split at hm
  next hc =>
    obtain ⟨hp, hnew, hlt⟩ := hc
    cases hm
    have htot : Device.total { dev with blocks := (p, size) :: dev.blocks }
        = size.toNat + dev.total := List.sum_cons
    refine ⟨ha.indexed, fun q => ?_, fun q hq => ?_, ?_, fun q hq => ?_,
      ha.badFrees, ?_, ?_⟩
    · rw [List.mem_cons, ha.holds_iff]
      simp [or_comm, eq_comm]
    · cases hq
      rw [Option.eq_none_iff_forall_ne_some]
      intro b hb
      obtain ⟨n, hn, hptr⟩ := (ha.indexed p b).mp hb
      have hmem := ha.mem hn
      rw [hptr] at hmem
      exact hnew (List.mem_map_of_mem hmem)
    · exact List.nodup_cons.mpr ⟨hnew, ha.nodup⟩
    · rcases List.mem_cons.mp hq with rfl | hq
      · exact hp
      · exact ha.ptr_ne q hq
    · omega
    · have hused := ha.used
      simp only [Option.elim_some, Option.elim_none, Nat.add_zero] at hused ⊢
      omega
  next => cases hm

end XKaapi.Memory
