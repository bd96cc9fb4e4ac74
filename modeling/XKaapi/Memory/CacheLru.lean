/-
The policy `lru` (machine/cuda/kaapi_cuda_mem_cache_lru_fifo.c): one list
of blocks, the least recently used first, and one count of users for each
block. The mode of a block is the one it was inserted with; eviction
reports the blocks whose mode is a write.
-/
import XKaapi.Memory.Cache
import XKaapi.Lib.Run

namespace XKaapi.Memory

open Dfg LinkedList MetadataInfo
open Function (update update_of_ne update_self)

/-- `kaapi_cuda_mem_cache_lru_fifo_t` -/
structure Lru (V : Type) where
  store : Store (BitVec 64) V
  fifo : Ends BlkId

namespace Lru

variable {V : Type} (k : Lid)

-- ======== operations

/-- kaapi_cuda_mem_cache_lru_fifo_has_access -/
def hasAccess (count : BitVec 64) : Bool := 0 < count

/-- kaapi_cuda_mem_cache_lru_fifo_init -/
def init : Lru V := ⟨Store.init, ⟨none, none⟩⟩

/-- kaapi_cuda_mem_cache_lru_fifo_insert -/
def insert (b : BlkId) (p : Ptr) (size : BitVec 64) (m : AccessMode)
    (d : MetadataInfo V) (c : Lru V) : Option (Lru V) := do
  let s := c.store
  let h := update s.heap b (some ⟨⟨p, m, size, 1⟩, none, none⟩)
  let (h, fifo) ← insertLast h c.fifo b
  return {
    store := {
      heap := h
      kmem := update s.kmem p (some b)
      used := s.used + size
      mdi := update s.mdi p d }
    fifo := fifo }

/-- kaapi_cuda_mem_cache_lru_fifo_inc_use: the block goes to the end of
the list. Its mode stays the one it was inserted with. -/
def incUse (p : Ptr) (_m : AccessMode) (c : Lru V) : Option (Lru V) :=
  match c.store.kmem p with
  | none => some c
  | some b => do
      let n ← c.store.heap b
      let h := update c.store.heap b
        (some { n with val := { n.val with u := n.val.u + 1 } })
      let (h, fifo) ← unlink h c.fifo b
      let (h, fifo) ← insertLast h fifo b
      return ⟨{ c.store with heap := h }, fifo⟩

/-- kaapi_cuda_mem_cache_lru_fifo_dec_use -/
def decUse (p : Ptr) (_m : AccessMode) (c : Lru V) : Option (Lru V) :=
  match c.store.kmem p with
  | none => some c
  | some b => do
      let n ← c.store.heap b
      let h := update c.store.heap b
        (some { n with val := { n.val with u := n.val.u - 1 } })
      return { c with store := { c.store with heap := h } }

/-- kaapi_cuda_mem_cache_lru_fifo_remove_ro_and_rw. Only a block inserted
for writing is reported. -/
def remove (size : BitVec 64) (turns : Nat) (c : Lru V) :
    Option (Ptr × Lru V) := do
  let (devptr, s, fifo) ←
    removeFrom k hasAccess (fun blk => accessIsWrite blk.m) size turns
      c.store c.fifo
  return (devptr, ⟨s, fifo⟩)

/-- The cache as a machine. -/
def step : CacheOp V → Lru V → Option (Lru V)
  | .insert b p size m d, c =>
    if c.store.CanInsert k b p d then c.insert b p size m d else none
  | .incUse p m, c => c.incUse p m
  | .decUse p m, c => c.decUse p m
  | .remove size turns, c => (c.remove k size turns).map Prod.snd
  | .protocol p d, c =>
    (c.store.protocol k p d).map fun s => { c with store := s }

-- ======== invariant

/-- The list is that of the descriptors there are. -/
structure Listed (c : Lru V) (l : List BlkId) : Prop where
  list : IsList c.store.heap c.fifo l
  mem_iff : ∀ b, b ∈ l ↔ (c.store.heap b).isSome

/-- The same, and the metadata know of the blocks. -/
structure Inv (c : Lru V) (l : List BlkId) : Prop where
  wf : c.store.WF k
  list : IsList c.store.heap c.fifo l
  mem_iff : ∀ b, b ∈ l ↔ (c.store.heap b).isSome

section inv

variable {k} {c c' : Lru V} {l : List BlkId} {p : Ptr} {b : BlkId}
  {n : Node BlkId (Blk (BitVec 64))}

theorem init_inv : Inv k (init : Lru V) [] :=
  ⟨Store.init_wf k, isList_nil _, fun _ =>
    iff_of_false List.not_mem_nil nofun⟩

theorem Inv.node (hi : Inv k c l) (hp : c.store.kmem p = some b) :
    ∃ n, c.store.heap b = some n ∧ n.val.ptr = p ∧ b ∈ l := by
  obtain ⟨n, hn, hptr⟩ := (hi.wf.kmem_iff p b).mp hp
  refine ⟨n, hn, hptr, (hi.mem_iff b).mpr ?_⟩
  rw [hn]
  rfl

theorem Inv.listed (hi : Inv k c l) : Listed c l := ⟨hi.list, hi.mem_iff⟩

theorem Listed.insert (hl : Listed c l) (p : Ptr) (size : BitVec 64) (m : AccessMode)
    (d : MetadataInfo V) (hb : c.store.heap b = none) :
    ∃ c' h', c.insert b p size m d = some c' ∧ Listed c' (l ++ [b])
      ∧ c'.store =
        { heap := h'
          kmem := update c.store.kmem p (some b)
          used := c.store.used + size
          mdi := update c.store.mdi p d }
      ∧ SameVals (update c.store.heap b
        (some ⟨⟨p, m, size, 1⟩, none, none⟩)) h' := by
  have hbl : b ∉ l := by
    rw [hl.mem_iff, hb]
    exact nofun
  have hl₁ : IsList (update c.store.heap b
      (some ⟨⟨p, m, size, 1⟩, none, none⟩)) c.fifo l :=
    hl.list.congr fun i hil =>
      update_of_ne (ne_of_mem_of_not_mem hil hbl) ..
  obtain ⟨h', e', hr, hl', hv, -⟩ := insertLast_spec hl₁ hbl (by simp)
  refine ⟨⟨⟨h', update c.store.kmem p (some b),
    c.store.used + size, update c.store.mdi p d⟩, e'⟩, h', ?_,
    ⟨hl', fun i => ?_⟩, rfl, hv⟩
  · unfold Lru.insert
    simp only [hr, Option.bind_eq_bind, Option.bind_some]
    rfl
  · rw [List.mem_append, List.mem_singleton, hl.mem_iff, hv.isSome_eq]
    by_cases hib : i = b
    · simp [hib]
    · simp [hib]

theorem Inv.insert (hi : Inv k c l) (size : BitVec 64) (m : AccessMode)
    {d : MetadataInfo V} (hc : c.store.CanInsert k b p d) :
    ∃ c', c.insert b p size m d = some c' ∧ Inv k c' (l ++ [b]) := by
  obtain ⟨hb, hp, hd, hback⟩ := hc
  rw [Option.isNone_iff_eq_none] at hb hp
  obtain ⟨c', h', hr, hl', hstore, hv⟩ := hi.listed.insert p size m d hb
  refine ⟨c', hr, ?_, hl'.list, hl'.mem_iff⟩
  have hw := hi.wf.insert ⟨p, m, size, 1⟩ hb hp hd hback (c.store.used + size)
  rw [hstore]
  exact hw.setHeap hv

theorem Listed.setVal (hl : Listed c l) (hn : c.store.heap b = some n)
    (blk : Blk (BitVec 64)) :
    Listed { c with store := { c.store with
      heap := update c.store.heap b (some { n with val := blk }) } }
      l := by
  refine ⟨hl.list.setVal hn, fun i => ?_⟩
  rw [hl.mem_iff]
  show _ ↔ (update c.store.heap b _ i).isSome = true
  by_cases hib : i = b
  · rw [hib, hn, update_self]
    simp
  · rw [update_of_ne hib]

theorem Inv.setVal (hi : Inv k c l) (hn : c.store.heap b = some n) (blk : Blk (BitVec 64))
    (hp : blk.ptr = n.val.ptr) :
    Inv k { c with store := { c.store with
      heap := update c.store.heap b (some { n with val := blk }) } }
      l := by
  obtain ⟨hlist, hmem⟩ := hi.listed.setVal hn blk
  exact ⟨hi.wf.setVal hn blk hp, hlist, hmem⟩

theorem Listed.incUse (hl : Listed c l) (hp : c.store.kmem p = some b)
    (hn : c.store.heap b = some n) (m : AccessMode) :
    ∃ c' l' h', c.incUse p m = some c' ∧ Listed c' l'
      ∧ c'.store = { c.store with heap := h' }
      ∧ SameVals (update c.store.heap b
        (some { n with val := { n.val with u := n.val.u + 1 } })) h' := by
  have hb : b ∈ l := by
    rw [hl.mem_iff, hn]
    rfl
  have hl₁ := hl.setVal hn { n.val with u := n.val.u + 1 }
  obtain ⟨h₁, e₁, h', e', hr₁, hr, hl', hv, -⟩ := moveLast_spec hl₁.list hb
  dsimp only at hr₁
  refine ⟨⟨{ c.store with heap := h' }, e'⟩, l.erase b ++ [b], h', ?_,
    ⟨hl', fun i => ?_⟩, rfl, hv⟩
  · unfold Lru.incUse
    rw [hp]
    simp only [hn, hr₁, hr, Option.bind_eq_bind, Option.bind_some]
    rfl
  · rw [hv.isSome_eq, ← hl₁.mem_iff, List.mem_append, List.mem_singleton]
    by_cases hib : i = b
    · simp [hib, hb]
    · simp [hib, List.mem_erase_of_ne hib]

theorem Inv.incUse (hi : Inv k c l) (p : Ptr) (m : AccessMode) :
    ∃ c' l', c.incUse p m = some c' ∧ Inv k c' l' := by
  cases hp : c.store.kmem p with
  | none =>
    refine ⟨c, l, ?_, hi⟩
    unfold Lru.incUse
    rw [hp]
  | some b =>
    obtain ⟨n, hn, -, -⟩ := hi.node hp
    obtain ⟨c', l', h', hr, hl', hstore, hv⟩ := hi.listed.incUse hp hn m
    refine ⟨c', l', hr, ?_, hl'.list, hl'.mem_iff⟩
    rw [hstore]
    exact (hi.wf.setVal hn { n.val with u := n.val.u + 1 } rfl).setHeap hv

theorem Inv.decUse (hi : Inv k c l) (p : Ptr) (m : AccessMode) :
    ∃ c', c.decUse p m = some c' ∧ Inv k c' l := by
  unfold Lru.decUse
  cases hp : c.store.kmem p with
  | none => exact ⟨c, rfl, hi⟩
  | some b =>
    obtain ⟨n, hn, -⟩ := hi.node hp
    simp only [hn, Option.bind_eq_bind, Option.bind_some]
    exact ⟨_, rfl, hi.setVal hn { n.val with u := n.val.u - 1 } rfl⟩

/-- The report a block gets. -/
def reports (c : Lru V) (b : BlkId) : Bool :=
  match c.store.heap b with
  | some n => accessIsWrite n.val.m
  | none => false

theorem Inv.remove (hk : k ≠ hostLid) (hi : Inv k c l) (size : BitVec 64)
    {turns : Nat} (hturns : l.length < turns) :
    ∃ dp c', c.remove k size turns = some (dp, c')
      ∧ Inv k c' (l.filter (· ∉ victims hasAccess size c.store.heap l 0))
      ∧ Removed k (reports c) c.store c'.store
          (victims hasAccess size c.store.heap l 0) := by
  have hrep : ∀ i ∈ l, ∀ n, c.store.heap i = some n →
      reports c i = accessIsWrite n.val.m := by
    intro i _ n hn
    unfold reports
    rw [hn]
  obtain ⟨dp, s', e', hrun, hl', hr, -, -⟩ :=
    removeFrom_spec hk hasAccess (fun blk => accessIsWrite blk.m)
      (reports c) size hi.list hi.wf hrep hturns
  refine ⟨dp, ⟨s', e'⟩, ?_, ⟨hr.wf hi.wf, hl', fun i => ?_⟩, hr⟩
  · unfold Lru.remove
    rw [hrun]
    rfl
  · rw [List.mem_filter, hi.mem_iff, decide_eq_true_eq, hr.isSome_iff]

theorem remove_mono {size : BitVec 64} {turns turns' : Nat}
    (hle : turns ≤ turns') {r : Ptr × Lru V}
    (hr : c.remove k size turns = some r) :
    c.remove k size turns' = some r := by
  unfold Lru.remove at hr ⊢
  rw [Option.bind_eq_bind, Option.bind_eq_some_iff] at hr ⊢
  obtain ⟨r', hr', hr⟩ := hr
  exact ⟨r', removeFrom_mono hle hr', hr⟩

theorem Inv.step (hk : k ≠ hostLid) {op : CacheOp V} (hi : ∃ l, Inv k c l)
    (hs : step k op c = some c') : ∃ l, Inv k c' l := by
  obtain ⟨l, hi⟩ := hi
  cases op with
  | insert b p size m d =>
    simp only [Lru.step] at hs
    split at hs
    next hc =>
      obtain ⟨c₁, hc₁, hi₁⟩ := hi.insert size m hc
      rw [hc₁] at hs
      exact ⟨_, Option.some.inj hs ▸ hi₁⟩
    next => cases hs
  | incUse p m =>
    obtain ⟨c₁, l₁, hc₁, hi₁⟩ := hi.incUse p m
    simp only [Lru.step, hc₁] at hs
    exact ⟨l₁, Option.some.inj hs ▸ hi₁⟩
  | decUse p m =>
    obtain ⟨c₁, hc₁, hi₁⟩ := hi.decUse p m
    simp only [Lru.step, hc₁] at hs
    exact ⟨l, Option.some.inj hs ▸ hi₁⟩
  | remove size turns =>
    -- a loop that ends takes the turns it would have taken anyway
    obtain ⟨dp, c₁, hc₁, hi₁, -⟩ :=
      hi.remove hk size (Nat.lt_succ_of_le (Nat.le_max_left l.length turns))
    simp only [Lru.step, Option.map_eq_some_iff] at hs
    obtain ⟨⟨dp', c₂⟩, hc₂, rfl⟩ := hs
    have hmax := remove_mono
      (Nat.le_succ_of_le (Nat.le_max_right l.length turns)) hc₂
    rw [hc₁] at hmax
    exact ⟨_, (Prod.mk.inj (Option.some.inj hmax)).2 ▸ hi₁⟩
  | protocol p d =>
    simp only [Lru.step, Option.map_eq_some_iff] at hs
    obtain ⟨s, hs, rfl⟩ := hs
    unfold Store.protocol at hs
    split at hs
    next hd =>
      cases hs
      exact ⟨l, hi.wf.setMdi hd.1 hd.2, hi.list, hi.mem_iff⟩
    next => cases hs

/-- In every state a run leads to, an eviction goes through, and it is
safe exactly when each block it takes was inserted for writing and has a
place on the host if it needs one. -/
theorem remove_safe_iff (hk : k ≠ hostLid) {ops : List (CacheOp V)}
    (hrun : StepMachine.run (step k) ops init = some c) :
    ∃ l, IsList c.store.heap c.fifo l
      ∧ ∀ size turns, l.length < turns →
        ∃ c', step k (.remove size turns) c = some c'
          ∧ (EvictionSafe k hasAccess c.store c'.store
            ↔ ∀ b ∈ victims hasAccess size c.store.heap l 0,
                ∀ n, c.store.heap b = some n →
                  accessIsWrite n.val.m = true
                    ∧ HostReady k (c.store.mdi n.val.ptr)) := by
  obtain ⟨l, hi⟩ := StepMachine.run_preserves
    (P := fun c => ∃ l, Inv k c l) (fun hi hs => Inv.step hk hi hs)
    ⟨[], init_inv⟩ hrun
  refine ⟨l, hi.list, fun size turns hturns => ?_⟩
  obtain ⟨dp, c', hc', -, hr⟩ := hi.remove hk size hturns
  refine ⟨c', by simp only [step, hc']; rfl, ?_⟩
  rw [hr.safe_iff hk hi.wf fun b hb => (of_mem_victims hb).2]
  refine forall_congr' fun b => forall_congr' fun hb => ?_
  obtain ⟨n, hn, -⟩ := (of_mem_victims hb).2
  unfold reports
  simp only [hn, Option.some.injEq, forall_eq']

end inv

end Lru

end XKaapi.Memory
