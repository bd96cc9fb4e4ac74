/-
The software cache of a device: the blocks it has allocated, the memory
map that leads from a block to the metadata of its datum, and the loop
that evicts blocks to make room.

The two policies (kaapi_cuda_mem_cache_lru_fifo.c and
kaapi_cuda_mem_cache_lru_double_fifo.c) keep their blocks in lists whose
heads are evicted first. Their three eviction loops are one loop,
`removeLoop`, which differs in the counters of a block and in whether the
block is reported to the metadata (`check_host`) before its memory is
freed or recycled.

`Removed` is what a loop does to the blocks it takes, `victims`, and
`Removed.safe_iff` is when that is right: every one of them reported, and
with a host block to go to if the device had the only valid copy.
-/
import XKaapi.Memory.Taskdescr
import XKaapi.Lib.LinkedList

namespace XKaapi.Memory

open Dfg LinkedList MetadataInfo
open Function (update update_idem update_of_ne update_self)

/-- A device pointer, `uintptr_t`; 0 is null. -/
abbrev Ptr := Nat

/-- The address of a block descriptor, as `malloc` returns it. -/
abbrev BlkId := Nat

/-- KAAPI_CUDA_MEM_FREE_FACTOR -/
def memFreeFactor : BitVec 64 := 1

/-- A block descriptor, less its links. `u` is its use counters. -/
structure Blk (U : Type) where
  ptr : Ptr
  m : AccessMode
  size : BitVec 64
  u : U
deriving DecidableEq, Repr

/-- What both policies keep beside their lists: the descriptors, `kmem`
from a device pointer to its descriptor, the bytes in use, and the map of
the device from a pointer to the metadata of its datum. -/
structure Store (U V : Type) where
  heap : Heap BlkId (Blk U)
  kmem : Ptr → Option BlkId
  used : BitVec 64
  mdi : Ptr → MetadataInfo V

variable {U V : Type} (k : Lid)

/-- Every address of the datum is that of a block. -/
def MetadataInfo.Backed (d : MetadataInfo V) : Prop :=
  ∀ j, d.hasData j = true → d.data j ≠ .null

/-- No other space has the current value. -/
def MetadataInfo.OnlyValid (d : MetadataInfo V) : Prop :=
  d.isValid k = true ∧ ∀ j, d.isValid j = true → j = k

def Data.isNull : Data V → Bool
  | .null => true
  | .block _ => false

theorem Data.isNull_iff (p : Data V) : p.isNull = true ↔ p = .null := by
  cases p <;> simp [isNull]

instance (p : Data V) : Decidable (p = .null) := decidable_of_iff _ p.isNull_iff

instance (d : MetadataInfo V) : Decidable d.Backed :=
  inferInstanceAs (Decidable (∀ _, _ → _))

instance (d : MetadataInfo V) : Decidable (d.OnlyValid k) :=
  inferInstanceAs (Decidable (_ ∧ ∀ _, _ → _))

-- ======== evict

/-- `check_host`: kaapi_memory_evict_pointer on the datum of the block,
and the wait for its transfer. -/
def Store.checkHost (p : Ptr) (s : Store U V) : Option (Store U V) := do
  let d ← (s.mdi p).evictPointer k
  return { s with mdi := update s.mdi p d }

/-- The descriptor is freed and forgotten. -/
def Store.forget (b : BlkId) (p : Ptr) (s : Store U V) : Store U V :=
  { s with
    heap := update s.heap b none
    kmem := update s.kmem p none }

/-- The memory of the block is freed, or becomes that of another datum. -/
def Store.release (p : Ptr) (s : Store U V) : Store U V :=
  { s with mdi := update s.mdi p ((s.mdi p).dropBlock k) }

/-- One eviction: the block is out of its list, its descriptor freed. -/
def Store.evict (report : Bool) (b : BlkId) (p : Ptr) (s : Store U V) :
    Option (Store U V) := do
  let s := s.forget b p
  let s ← if report then s.checkHost k p else some s
  return s.release k p

/-- The loop of the `remove` functions, from the block `blk` on, with what
it has freed so far and the pointer it will return. `turns` bounds the
turns it can take; `none` also stands for a dangling pointer. -/
def removeLoop (hasAccess : U → Bool) (report : Blk U → Bool)
    (size : BitVec 64) : Nat → Store U V → Ends BlkId → Option BlkId →
    BitVec 64 → Ptr → Option (Store U V × Ends BlkId × BitVec 64 × Ptr)
  | 0, _, _, _, _, _ => none
  | _ + 1, s, e, none, memFree, devptr => some (s, e, memFree, devptr)
  | turns + 1, s, e, some b, memFree, devptr => do
      let n ← s.heap b
      if hasAccess n.val.u then
        removeLoop hasAccess report size turns s e n.next memFree devptr
      else do
        let (h, e) ← unlink s.heap e b
        let n ← h b
        let s ← { s with heap := h }.evict k (report n.val) b n.val.ptr
        let devptr := if size ≤ n.val.size then n.val.ptr else devptr
        let memFree := memFree + n.val.size
        if size * memFreeFactor ≤ memFree then
          some (s, e, memFree, devptr)
        else
          removeLoop hasAccess report size turns s e n.next memFree devptr

/-- The end of the `remove` functions: what is freed is no longer used. -/
def Store.decreaseUsed (memFree : BitVec 64) (s : Store U V) : Store U V :=
  { s with used := if s.used < memFree then 0 else s.used - memFree }

/-- A whole `remove` function, on one list: the pointer it returns, the
cache and the list it leaves. -/
def removeFrom (hasAccess : U → Bool) (report : Blk U → Bool)
    (size : BitVec 64) (turns : Nat) (s : Store U V) (e : Ends BlkId) :
    Option (Ptr × Store U V × Ends BlkId) :=
  match e.beg with
  | none => some (0, s, e)
  | some b => do
      let (s, e, memFree, devptr) ←
        removeLoop k hasAccess report size turns s e (some b) 0 0
      return (devptr, s.decreaseUsed memFree, e)

/-- The blocks such a loop evicts from the list `l`: the ones not in use,
from the front, until there are enough bytes. -/
def victims (hasAccess : U → Bool) (size : BitVec 64)
    (h : Heap BlkId (Blk U)) : List BlkId → BitVec 64 → List BlkId
  | [], _ => []
  | b :: l, memFree =>
    match h b with
    | none => []
    | some n =>
      if hasAccess n.val.u then victims hasAccess size h l memFree
      else if size * memFreeFactor ≤ memFree + n.val.size then [b]
      else b :: victims hasAccess size h l (memFree + n.val.size)

-- ======== well-formedness

/-- `kmem` is the inverse of the pointers of the descriptors, and the
datum of every block knows of it. -/
structure Store.WF (s : Store U V) : Prop where
  kmem_iff : ∀ p b, s.kmem p = some b ↔ ∃ n, s.heap b = some n ∧ n.val.ptr = p
  bound : ∀ p b, s.kmem p = some b → (s.mdi p).hasData k = true
  backed : ∀ p b, s.kmem p = some b → (s.mdi p).Backed

/-- What becomes of the metadata of an evicted block. -/
def evictedMdi (report : Bool) (d : MetadataInfo V) :
    Option (MetadataInfo V) :=
  if report then (d.evictPointer k).map (·.dropBlock k)
  else some (d.dropBlock k)

/-- From `s` to `s'` the blocks of `vs` are evicted, and nothing else
happens. -/
structure Removed (report : BlkId → Bool) (s s' : Store U V)
    (vs : List BlkId) : Prop where
  heap_none : ∀ b ∈ vs, s'.heap b = none
  vals : ∀ b, b ∉ vs → (s'.heap b).map Node.val = (s.heap b).map Node.val
  kmem_none : ∀ p b, b ∈ vs → s.kmem p = some b → s'.kmem p = none
  kmem_eq : ∀ p, (∀ b ∈ vs, s.kmem p ≠ some b) → s'.kmem p = s.kmem p
  evicted : ∀ p b, b ∈ vs → s.kmem p = some b →
    evictedMdi k (report b) (s.mdi p) = some (s'.mdi p)
  mdi_eq : ∀ p, (∀ b ∈ vs, s.kmem p ≠ some b) → s'.mdi p = s.mdi p

section removed

variable {k} {report : BlkId → Bool} {s s₁ s' : Store U V}
variable {vs ws : List BlkId} {h : Heap BlkId (Blk U)} {n : Node BlkId (Blk U)}
  {b : BlkId} {d : MetadataInfo V} {l : List BlkId} {hasAccess : U → Bool}
  {size f : BitVec 64} {turns : Nat} {e : Ends BlkId}

theorem Store.WF.kmem_ptr (hw : s.WF k) (hn : s.heap b = some n) :
    s.kmem n.val.ptr = some b :=
  (hw.kmem_iff _ _).mpr ⟨n, hn, rfl⟩

theorem Store.WF.setHeap (hw : s.WF k) (hv : SameVals s.heap h) :
    { s with heap := h }.WF k where
  kmem_iff := fun p b =>
    (hw.kmem_iff p b).trans (hv.exists_iff b fun blk => blk.ptr = p).symm
  bound := hw.bound
  backed := hw.backed

theorem Removed.nil (report : BlkId → Bool) (hv : SameVals s.heap h) :
    Removed k report s { s with heap := h } [] where
  heap_none := nofun
  vals := fun b _ => hv b
  kmem_none := nofun
  kmem_eq := fun _ _ => rfl
  evicted := nofun
  mdi_eq := fun _ _ => rfl

theorem Removed.exists_iff (hr : Removed k report s s' vs) (b : BlkId)
    (P : Blk U → Prop) :
    (∃ n, s'.heap b = some n ∧ P n.val)
      ↔ b ∉ vs ∧ ∃ n, s.heap b = some n ∧ P n.val := by
  by_cases hb : b ∈ vs
  · rw [hr.heap_none b hb]
    simp [hb]
  · have hval := hr.vals b hb
    cases hn : s.heap b with
    | none =>
      rw [hn, Option.map_none, Option.map_eq_none_iff] at hval
      simp [hval]
    | some n =>
      rw [hn, Option.map_some, Option.map_eq_some_iff] at hval
      obtain ⟨n', hn', hval⟩ := hval
      simp [hb, hn', hval]

theorem Removed.wf (hr : Removed k report s s' vs) (hw : s.WF k) :
    s'.WF k := by
  -- a pointer still in `kmem` is no victim's
  have hlive : ∀ {p b}, s'.kmem p = some b →
      s.kmem p = some b ∧ b ∉ vs ∧ s'.mdi p = s.mdi p := by
    intro p b hp
    have hno : ∀ c ∈ vs, s.kmem p ≠ some c := by
      intro c hc hpc
      rw [hr.kmem_none p c hc hpc] at hp
      cases hp
    have hp' : s.kmem p = some b := (hr.kmem_eq p hno).symm.trans hp
    exact ⟨hp', fun hb => hno b hb hp', hr.mdi_eq p hno⟩
  constructor
  · intro p b
    rw [hr.exists_iff b fun blk => blk.ptr = p, ← hw.kmem_iff p b]
    constructor
    · intro hp
      obtain ⟨hp', hb, -⟩ := hlive hp
      exact ⟨hb, hp'⟩
    · intro ⟨hb, hp⟩
      rw [hr.kmem_eq p, hp]
      intro c hc hpc
      rw [hp] at hpc
      exact hb (Option.some.inj hpc ▸ hc)
  · intro p b hp
    obtain ⟨hp', -, hm⟩ := hlive hp
    rw [hm]
    exact hw.bound p b hp'
  · intro p b hp
    obtain ⟨hp', -, hm⟩ := hlive hp
    rw [hm]
    exact hw.backed p b hp'

theorem Removed.append (h₁ : Removed k report s s₁ vs)
    (h₂ : Removed k report s₁ s' ws) : Removed k report s s' (vs ++ ws) := by
  -- what the second series takes was there in the first place
  have hback : ∀ {p b}, b ∈ ws → b ∉ vs → s.kmem p = some b →
      s₁.kmem p = some b ∧ s₁.mdi p = s.mdi p := by
    intro p b hb hbv hp
    have hno : ∀ c ∈ vs, s.kmem p ≠ some c := by
      intro c hc hpc
      rw [hp] at hpc
      exact hbv (Option.some.inj hpc ▸ hc)
    exact ⟨(h₁.kmem_eq p hno).trans hp, h₁.mdi_eq p hno⟩
  -- a block of the first series is no longer there for the second
  have hgone : ∀ {p b}, b ∈ vs → s.kmem p = some b →
      ∀ c ∈ ws, s₁.kmem p ≠ some c := by
    intro p b hb hp c _ hpc
    rw [h₁.kmem_none p b hb hp] at hpc
    cases hpc
  have hkeep : ∀ {p}, (∀ b ∈ vs ++ ws, s.kmem p ≠ some b) →
      (∀ b ∈ vs, s.kmem p ≠ some b) ∧ ∀ b ∈ ws, s₁.kmem p ≠ some b := by
    intro p hno
    have hv : ∀ b ∈ vs, s.kmem p ≠ some b :=
      fun b hb => hno b (List.mem_append_left ws hb)
    refine ⟨hv, fun b hb => ?_⟩
    rw [h₁.kmem_eq p hv]
    exact hno b (List.mem_append_right vs hb)
  constructor
  · intro b hb
    by_cases hbw : b ∈ ws
    · exact h₂.heap_none b hbw
    · have hbv : b ∈ vs := (List.mem_append.mp hb).resolve_right hbw
      have hval := h₂.vals b hbw
      rw [h₁.heap_none b hbv, Option.map_none, Option.map_eq_none_iff] at hval
      exact hval
  · intro b hb
    rw [List.mem_append, not_or] at hb
    exact (h₂.vals b hb.2).trans (h₁.vals b hb.1)
  · intro p b hb hp
    by_cases hbv : b ∈ vs
    · rw [h₂.kmem_eq p (hgone hbv hp)]
      exact h₁.kmem_none p b hbv hp
    · have hbw : b ∈ ws := (List.mem_append.mp hb).resolve_left hbv
      exact h₂.kmem_none p b hbw (hback hbw hbv hp).1
  · intro p hno
    obtain ⟨hv, hw⟩ := hkeep hno
    exact (h₂.kmem_eq p hw).trans (h₁.kmem_eq p hv)
  · intro p b hb hp
    by_cases hbv : b ∈ vs
    · rw [h₂.mdi_eq p (hgone hbv hp)]
      exact h₁.evicted p b hbv hp
    · have hbw : b ∈ ws := (List.mem_append.mp hb).resolve_left hbv
      obtain ⟨hp₁, hm⟩ := hback hbw hbv hp
      rw [← hm]
      exact h₂.evicted p b hbw hp₁
  · intro p hno
    obtain ⟨hv, hw⟩ := hkeep hno
    exact (h₂.mdi_eq p hw).trans (h₁.mdi_eq p hv)

theorem Removed.isSome_iff (hr : Removed k report s s' vs) (b : BlkId) :
    (s'.heap b).isSome ↔ (s.heap b).isSome ∧ b ∉ vs := by
  have := hr.exists_iff b fun _ => True
  simpa [Option.isSome_iff_exists, and_comm] using this

theorem Removed.congr {report' : BlkId → Bool}
    (hr : Removed k report s s' vs) (heq : ∀ b ∈ vs, report' b = report b) :
    Removed k report' s s' vs :=
  { hr with
    evicted := fun p b hb hp => by
      rw [heq b hb]
      exact hr.evicted p b hb hp }

-- ======== one block

/-- The metadata of a datum the device holds, after `evictPointer`: the
device is off, and the only valid copy is on the host if the host has a
block. -/
theorem evictPointer_spec (hk : k ≠ hostLid) (hd : d.hasData k = true) (hb : d.Backed) :
    ∃ d', d.evictPointer k = some d' ∧ d'.hasData k = false
      ∧ (d.OnlyValid k → d.hasData hostLid = true →
          d'.data hostLid = d.data k ∧ d'.isValid hostLid = true)
      ∧ (d.OnlyValid k → d.hasData hostLid = false →
          d'.isValid hostLid = false) := by
  have honly : d.OnlyValid k → d.isValid hostLid = false := by
    intro ho
    rw [Bool.eq_false_iff]
    exact fun hv => hk (ho.2 hostLid hv).symm
  unfold evictPointer
  by_cases hv : d.isValid k = true
  · rw [if_neg (by simp [hd, hv])]
    by_cases hskip : d.hasData hostLid = false ∨ d.isValid hostLid = true
    · rw [if_pos hskip]
      refine ⟨_, rfl, by simp, fun ho hh => ?_, fun ho _ => honly ho⟩
      rcases hskip with hn | hn
      · rw [hh] at hn
        cases hn
      · rw [honly ho] at hn
        cases hn
    · rw [if_neg hskip]
      rw [not_or, Bool.not_eq_false, Bool.not_eq_true] at hskip
      obtain ⟨c, hc⟩ : ∃ c, d.data k = .block c := by
        cases hdk : d.data k with
        | null => exact absurd hdk (hb k hd)
        | block c => exact ⟨c, rfl⟩
      obtain ⟨c', hc'⟩ : ∃ c, d.data hostLid = .block c := by
        cases hdh : d.data hostLid with
        | null => exact absurd hdh (hb hostLid hskip.1)
        | block c => exact ⟨c, rfl⟩
      have hcopy : d.memoryCopy hostLid k = some (d.setContent hostLid c) := by
        unfold memoryCopy
        rw [isCuda_hostLid, isCuda_eq_true_iff.mpr hk]
        simp only [MetadataInfo.cudaMemcpy, hc, hc']
      rw [hcopy]
      refine ⟨_, rfl, by simp, fun _ _ => ⟨by simp [hc], by simp⟩,
        fun _ hh => ?_⟩
      rw [hskip.1] at hh
      cases hh
  · rw [if_pos (.inr (Bool.eq_false_iff.mpr hv))]
    exact ⟨_, rfl, by simp, fun ho => absurd ho.1 hv, fun ho => absurd ho.1 hv⟩

theorem Store.WF.evict (hk : k ≠ hostLid) (hw : s.WF k) (hn : s.heap b = some n)
    (r : Bool) :
    ∃ s₁, s.evict k r b n.val.ptr = some s₁
      ∧ Removed k (fun _ => r) s s₁ [b]
      ∧ s₁.heap = update s.heap b none ∧ s₁.used = s.used := by
  have hp : s.kmem n.val.ptr = some b := hw.kmem_ptr hn
  have hptr : ∀ {p}, s.kmem p = some b → p = n.val.ptr := by
    intro p hpb
    obtain ⟨n', hn', hp'⟩ := (hw.kmem_iff p b).mp hpb
    rw [hn] at hn'
    rw [← hp', Option.some.inj hn']
  obtain ⟨d', hd'⟩ : ∃ d', evictedMdi k r (s.mdi n.val.ptr) = some d' := by
    unfold evictedMdi
    cases r with
    | false => exact ⟨_, rfl⟩
    | true =>
      obtain ⟨d', hd', -⟩ :=
        evictPointer_spec hk (hw.bound _ b hp) (hw.backed _ b hp)
      rw [if_pos rfl, hd']
      exact ⟨_, rfl⟩
  have heff : s.evict k r b n.val.ptr = some
      { s with
        heap := update s.heap b none
        kmem := update s.kmem n.val.ptr none
        mdi := update s.mdi n.val.ptr d' } := by
    unfold Store.evict
    cases r with
    | false =>
      have hd : d' = (s.mdi n.val.ptr).dropBlock k :=
        (Option.some.inj hd').symm
      rw [hd]
      rfl
    | true =>
      rw [evictedMdi, if_pos rfl, Option.map_eq_some_iff] at hd'
      obtain ⟨d, hd, rfl⟩ := hd'
      simp only [if_pos, Store.checkHost, Store.forget, hd,
        Option.bind_eq_bind, Option.bind_some, Store.release,
        Option.pure_def]
      rw [update_self, update_idem]
  refine ⟨_, heff, ?_, rfl, rfl⟩
  constructor
  · intro c hc
    rw [List.mem_singleton] at hc
    rw [hc]
    exact update_self ..
  · intro c hc
    rw [List.mem_singleton] at hc
    show (update s.heap b none c).map Node.val = _
    rw [update_of_ne hc]
  · intro p c hc hpc
    rw [List.mem_singleton] at hc
    have hpp : p = n.val.ptr := hptr (hc ▸ hpc)
    rw [hpp]
    exact update_self ..
  · intro p hno
    refine update_of_ne (fun hpp => ?_) ..
    exact hno b (List.mem_singleton_self b) (hpp ▸ hp)
  · intro p c hc hpc
    rw [List.mem_singleton] at hc
    have hpp : p = n.val.ptr := hptr (hc ▸ hpc)
    rw [hpp, hd']
    show some d' = some (update s.mdi n.val.ptr d' n.val.ptr)
    rw [update_self]
  · intro p hno
    refine update_of_ne (fun hpp => ?_) ..
    exact hno b (List.mem_singleton_self b) (hpp ▸ hp)

-- ======== the loop

theorem victims_congr {h' : Heap BlkId (Blk U)} (f : BitVec 64)
    (heq : ∀ b ∈ l, (h' b).map Node.val = (h b).map Node.val) :
    victims hasAccess size h' l f = victims hasAccess size h l f := by
  induction l generalizing f with
  | nil => rfl
  | cons b l ih =>
    have hb := heq b List.mem_cons_self
    have ih' := fun f => ih f fun c hc => heq c (List.mem_cons_of_mem b hc)
    unfold victims
    cases hn : h b with
    | none =>
      rw [hn, Option.map_none, Option.map_eq_none_iff] at hb
      rw [hb]
    | some n =>
      rw [hn, Option.map_some, Option.map_eq_some_iff] at hb
      obtain ⟨n', hn', hval⟩ := hb
      rw [hn']
      simp only [hval, ih']

theorem of_mem_victims (hb : b ∈ victims hasAccess size h l f) :
    b ∈ l ∧ ∃ n, h b = some n ∧ hasAccess n.val.u = false := by
  induction l generalizing f with
  | nil => exact absurd hb List.not_mem_nil
  | cons c l ih =>
    unfold victims at hb
    split at hb
    · exact absurd hb List.not_mem_nil
    next n hn =>
      split at hb
      · exact (ih hb).imp_left (List.mem_cons_of_mem c)
      next hu =>
        have hc : c ∈ c :: l ∧ ∃ n, h c = some n ∧ hasAccess n.val.u = false :=
          ⟨List.mem_cons_self, n, hn, Bool.eq_false_iff.mpr hu⟩
        split at hb
        · rw [List.mem_singleton] at hb
          exact hb ▸ hc
        · rcases List.mem_cons.mp hb with rfl | hb
          · exact hc
          · exact (ih hb).imp_left (List.mem_cons_of_mem c)

theorem victims_eq_nil_iff (hl : ∀ b ∈ l, (h b).isSome) :
    victims hasAccess size h l f = []
      ↔ ∀ b ∈ l, ∀ n, h b = some n → hasAccess n.val.u = true := by
  induction l with
  | nil => simp [victims]
  | cons b l ih =>
    obtain ⟨n, hn⟩ := Option.isSome_iff_exists.mp (hl b List.mem_cons_self)
    have ih' := ih fun c hc => hl c (List.mem_cons_of_mem b hc)
    unfold victims
    simp only [hn, List.forall_mem_cons]
    by_cases hu : hasAccess n.val.u = true
    · rw [if_pos hu, ih']
      refine ⟨fun h => ⟨fun n' hn' => ?_, h⟩, fun h => h.2⟩
      rw [← Option.some.inj hn']
      exact hu
    · rw [if_neg hu]
      refine iff_of_false ?_ fun h => hu (h.1 n rfl)
      split <;> exact List.cons_ne_nil _ _

/-- What is left of the list once its block `b` is unlinked and freed. -/
theorem unlinked_spec {h₁ h' : Heap BlkId (Blk U)} {e₁ : Ends BlkId}
    {kept rest : List BlkId} (hb : b ∉ kept ++ rest) (hl : IsList h₁ e₁ (kept ++ rest))
    (hv : SameVals h h₁) (hag : AgreeOff (kept ++ rest) h h₁)
    (hheap : h' = update h₁ b none) :
    IsList h' e₁ (kept ++ rest) ∧ AgreeOff (kept ++ b :: rest) h h'
      ∧ ∀ c ∈ rest, (h' c).map Node.val = (h c).map Node.val := by
  subst hheap
  have hne : ∀ c ∈ kept ++ rest, c ≠ b := fun c hc hcb => hb (hcb ▸ hc)
  refine ⟨hl.congr fun c hc => update_of_ne (hne c hc) .., ?_, ?_⟩
  · intro c hc
    simp only [List.mem_append, List.mem_cons, not_or] at hc
    rw [update_of_ne hc.2.1]
    exact hag c (by simp [hc.1, hc.2.2])
  · intro c hc
    rw [update_of_ne (hne c (List.mem_append_right kept hc))]
    exact hv c

theorem filter_notMem_cons (hb : b ∉ l) (vs : List BlkId) :
    (b :: l).filter (· ∉ b :: vs) = l.filter (· ∉ vs) := by
  rw [List.filter_cons_of_neg (by simp)]
  refine List.filter_congr fun c hc => ?_
  have hcb : c ≠ b := fun hcb => hb (hcb ▸ hc)
  simp [hcb]

/-- The loop takes the victims of the rest of the list, and ends. -/
theorem removeLoop_spec (hk : k ≠ hostLid) (hasAccess : U → Bool)
    (reportBlk : Blk U → Bool) (size f : BitVec 64) (dp : Ptr) (kept : List BlkId)
    {rest : List BlkId} (hl : IsList s.heap e (kept ++ rest)) (hw : s.WF k)
    (hrep : ∀ b ∈ rest, ∀ n, s.heap b = some n → report b = reportBlk n.val)
    (hturns : rest.length < turns) :
    ∃ s' e' f' dp',
      removeLoop k hasAccess reportBlk size turns s e rest.head? f dp
        = some (s', e', f', dp')
      ∧ IsList s'.heap e' (kept ++ rest.filter
          (· ∉ victims hasAccess size s.heap rest f))
      ∧ Removed k report s s' (victims hasAccess size s.heap rest f)
      ∧ AgreeOff (kept ++ rest) s.heap s'.heap
      ∧ (victims hasAccess size s.heap rest f = [] → dp' = dp) := by
  induction rest generalizing s e f dp turns kept with
  | nil =>
    obtain ⟨turns, rfl⟩ := Nat.exists_eq_succ_of_ne_zero
      (Nat.ne_of_gt (Nat.lt_of_le_of_lt (Nat.zero_le _) hturns))
    refine ⟨s, e, f, dp, by rfl, hl, ?_, fun _ _ => rfl, fun _ => rfl⟩
    exact Removed.nil report (SameVals.refl s.heap)
  | cons b rest ih =>
    obtain ⟨turns, rfl⟩ := Nat.exists_eq_succ_of_ne_zero
      (Nat.ne_of_gt (Nat.lt_of_le_of_lt (Nat.zero_le _) hturns))
    rw [List.length_cons, Nat.succ_lt_succ_iff] at hturns
    obtain ⟨n, hn, -, hnext⟩ := hl.node
    have hnd := (List.perm_middle.nodup_iff).mp hl.nodup
    rw [List.nodup_cons, List.mem_append, not_or] at hnd
    obtain ⟨⟨hbk, hbr⟩, -⟩ := hnd
    have hassoc : kept ++ b :: rest = (kept ++ [b]) ++ rest := by simp
    simp only [List.head?_cons, removeLoop, hn, Option.bind_eq_bind,
      Option.bind_some, victims]
    by_cases hu : hasAccess n.val.u = true
    · -- in use: the block stays
      rw [if_pos hu, if_pos hu]
      rw [hassoc] at hl
      obtain ⟨s', e', f', dp', hrun, hl', hr, hag, hdp⟩ :=
        ih f dp (kept ++ [b]) hl hw
          (fun c hc => hrep c (List.mem_cons_of_mem b hc)) hturns
      rw [hnext]
      refine ⟨s', e', f', dp', hrun, ?_, hr, by rwa [hassoc], hdp⟩
      have hb : b ∉ victims hasAccess size s.heap rest f :=
        fun hb => hbr (of_mem_victims hb).1
      rw [List.filter_cons_of_pos (by simpa using hb)]
      simpa using hl'
    · -- evicted: the list goes on around it
      rw [if_neg hu, if_neg hu]
      obtain ⟨h₁, e₁, hun, hl₁, hv₁, hag₁⟩ := unlink_spec hl
      have hb₁ : h₁ b = some n := by
        rw [hag₁ b (by simp [hbk, hbr]), hn]
      obtain ⟨s₁, hev, hr₁, hheap, -⟩ :=
        (hw.setHeap hv₁).evict hk hb₁ (reportBlk n.val)
      have hr₁' : Removed k report s s₁ [b] := by
        refine (Removed.nil report hv₁).append (hr₁.congr fun c hc => ?_)
        rw [List.mem_singleton] at hc
        rw [hc]
        exact hrep b List.mem_cons_self n hn
      obtain ⟨hl₂, hag₂, hsame⟩ :=
        unlinked_spec (by simp [hbk, hbr]) hl₁ hv₁ hag₁ hheap
      simp only [hun, hb₁, hev, Option.bind_some]
      by_cases hen : size * memFreeFactor ≤ f + n.val.size
      · rw [if_pos hen, if_pos hen]
        refine ⟨s₁, e₁, _, _, rfl, ?_, hr₁', hag₂,
          fun hnil => absurd hnil (List.cons_ne_nil _ _)⟩
        rw [filter_notMem_cons hbr, List.filter_eq_self.mpr (by simp)]
        exact hl₂
      · rw [if_neg hen, if_neg hen]
        have hrep₁ : ∀ c ∈ rest, ∀ m, s₁.heap c = some m →
            report c = reportBlk m.val := by
          intro c hc m hm
          have hval := hsame c hc
          rw [hm, Option.map_some, eq_comm, Option.map_eq_some_iff] at hval
          obtain ⟨m', hm', hval⟩ := hval
          rw [← hval]
          exact hrep c (List.mem_cons_of_mem b hc) m' hm'
        obtain ⟨s', e', f', dp', hrun, hl', hr, hag, -⟩ :=
          ih (f + n.val.size)
            (if size ≤ n.val.size then n.val.ptr else dp) kept hl₂
            (hr₁'.wf hw) hrep₁ hturns
        rw [victims_congr _ hsame] at hl' hr
        rw [hnext]
        refine ⟨s', e', f', dp', hrun, ?_, hr₁'.append hr, ?_,
          fun hnil => absurd hnil (List.cons_ne_nil _ _)⟩
        · rw [filter_notMem_cons hbr]
          exact hl'
        · refine hag₂.trans (hag.mono fun c hc => ?_)
          simp only [List.mem_append, List.mem_cons] at hc ⊢
          exact hc.imp_right .inr

theorem removeLoop_mono {reportBlk : Blk U → Bool} {turns' : Nat} (hle : turns ≤ turns')
    {x : Option BlkId} {dp : Ptr} {r : Store U V × Ends BlkId × BitVec 64 × Ptr}
    (hr : removeLoop k hasAccess reportBlk size turns s e x f dp = some r) :
    removeLoop k hasAccess reportBlk size turns' s e x f dp = some r := by
  induction turns generalizing turns' s e x f dp with
  | zero => cases hr
  | succ turns ih =>
    obtain ⟨turns', rfl⟩ : ∃ t, turns' = t + 1 :=
      ⟨turns' - 1, by omega⟩
    have hle' : turns ≤ turns' := Nat.le_of_succ_le_succ hle
    cases x with
    | none => exact hr
    | some b =>
      simp only [removeLoop, Option.bind_eq_bind,
        Option.bind_eq_some_iff] at hr ⊢
      obtain ⟨n, hn, hr⟩ := hr
      refine ⟨n, hn, ?_⟩
      by_cases hu : hasAccess n.val.u = true
      · rw [if_pos hu] at hr ⊢
        exact ih hle' hr
      · rw [if_neg hu, Option.bind_eq_some_iff] at hr ⊢
        obtain ⟨⟨h₁, e₁⟩, hun, hr⟩ := hr
        refine ⟨⟨h₁, e₁⟩, hun, ?_⟩
        rw [Option.bind_eq_some_iff] at hr ⊢
        obtain ⟨n₁, hn₁, hr⟩ := hr
        refine ⟨n₁, hn₁, ?_⟩
        rw [Option.bind_eq_some_iff] at hr ⊢
        obtain ⟨s₁, hev, hr⟩ := hr
        refine ⟨s₁, hev, ?_⟩
        split at hr
        next hen =>
          rw [if_pos hen]
          exact hr
        next hen =>
          rw [if_neg hen]
          exact ih hle' hr

theorem removeFrom_spec (hk : k ≠ hostLid) (hasAccess : U → Bool)
    (reportBlk : Blk U → Bool) (report : BlkId → Bool) (size : BitVec 64)
    (hl : IsList s.heap e l) (hw : s.WF k)
    (hrep : ∀ b ∈ l, ∀ n, s.heap b = some n → report b = reportBlk n.val)
    (hturns : l.length < turns) :
    ∃ dp s' e', removeFrom k hasAccess reportBlk size turns s e
        = some (dp, s', e')
      ∧ IsList s'.heap e' (l.filter (· ∉ victims hasAccess size s.heap l 0))
      ∧ Removed k report s s' (victims hasAccess size s.heap l 0)
      ∧ AgreeOff l s.heap s'.heap
      ∧ (victims hasAccess size s.heap l 0 = [] → dp = 0) := by
  cases l with
  | nil =>
    have hbeg : e.beg = none := hl.beg
    refine ⟨0, s, e, ?_, hl, Removed.nil report (SameVals.refl s.heap),
      fun _ _ => rfl, fun _ => rfl⟩
    unfold removeFrom
    rw [hbeg]
  | cons b l =>
    have hbeg : e.beg = some b := hl.beg
    obtain ⟨s', e', f', dp, hrun, hl', hr, hag, hdp⟩ :=
      removeLoop_spec hk hasAccess reportBlk size 0 0 [] hl hw hrep hturns
    refine ⟨dp, s'.decreaseUsed f', e', ?_, hl', ?_, hag, hdp⟩
    · unfold removeFrom
      rw [List.head?_cons] at hrun
      simp only [hbeg, hrun, Option.bind_eq_bind, Option.bind_some]
      rfl
    · exact ⟨hr.heap_none, hr.vals, hr.kmem_none, hr.kmem_eq, hr.evicted,
        hr.mdi_eq⟩

theorem removeFrom_mono {reportBlk : Blk U → Bool} {turns' : Nat} (hle : turns ≤ turns')
    {r : Ptr × Store U V × Ends BlkId}
    (hr : removeFrom k hasAccess reportBlk size turns s e = some r) :
    removeFrom k hasAccess reportBlk size turns' s e = some r := by
  unfold removeFrom at hr ⊢
  split at hr
  next hbeg => exact hr
  next b hbeg =>
    rw [Option.bind_eq_bind, Option.bind_eq_some_iff] at hr ⊢
    obtain ⟨r', hr', hr⟩ := hr
    exact ⟨r', removeLoop_mono hle hr', hr⟩

-- ======== safety

/-- The metadata no longer say that the device holds the datum: the next
task there allocates a block, and does not take it for valid. -/
def Unheld (k : Lid) (d : MetadataInfo V) : Prop :=
  d.hasData k = false ∧ d.prologueBlock k = d.prologueAlloc k
    ∧ (d.prologueBlock k).isValid k = false

/-- From `s` to `s'` every block that is evicted was not in use, its
content is on the host if it was the only valid copy, and its datum knows
that the device no longer holds it. -/
def EvictionSafe (k : Lid) (hasAccess : U → Bool) (s s' : Store U V) :
    Prop :=
  ∀ p b n, s.kmem p = some b → s.heap b = some n → s'.kmem p = none →
    hasAccess n.val.u = false
      ∧ ((s.mdi p).OnlyValid k →
          (s'.mdi p).data hostLid = (s.mdi p).data k
            ∧ (s'.mdi p).isValid hostLid = true)
      ∧ Unheld k (s'.mdi p)

/-- The content of a block that is only valid on the device has a place
on the host. -/
def HostReady (k : Lid) (d : MetadataInfo V) : Prop :=
  d.OnlyValid k → d.hasData hostLid = true

theorem unheld_iff (d : MetadataInfo V) :
    Unheld k d ↔ d.hasData k = false := by
  refine ⟨fun h => h.1, fun h => ?_⟩
  have hb : d.prologueBlock k = d.prologueAlloc k := by
    unfold prologueBlock
    rw [if_neg (by simp [h])]
  refine ⟨h, hb, ?_⟩
  rw [hb]
  simp [prologueAlloc]

/-- A series of evictions of idle blocks is safe exactly when each was
reported and had a place to go to. -/
theorem Removed.safe_iff (hk : k ≠ hostLid) (hr : Removed k report s s' vs) (hw : s.WF k)
    (hidle : ∀ b ∈ vs, ∃ n, s.heap b = some n ∧ hasAccess n.val.u = false) :
    EvictionSafe k hasAccess s s'
      ↔ ∀ b ∈ vs, report b = true
          ∧ ∀ n, s.heap b = some n → HostReady k (s.mdi n.val.ptr) := by
  constructor
  · intro hsafe b hb
    obtain ⟨n, hn, hu⟩ := hidle b hb
    have hp : s.kmem n.val.ptr = some b := hw.kmem_ptr hn
    obtain ⟨-, hcopy, hunheld⟩ :=
      hsafe _ b n hp hn (hr.kmem_none _ b hb hp)
    have hev := hr.evicted _ b hb hp
    have hrep : report b = true := by
      by_contra hno
      rw [Bool.not_eq_true] at hno
      rw [hno] at hev
      have hd : (s.mdi n.val.ptr).dropBlock k = s'.mdi n.val.ptr :=
        Option.some.inj hev
      have h0 := hunheld.1
      rw [← hd, hasData_dropBlock, hw.bound _ b hp] at h0
      cases h0
    refine ⟨hrep, fun n' hn' ho => ?_⟩
    rw [hn] at hn'
    rw [← Option.some.inj hn'] at ho ⊢
    by_contra hno
    rw [Bool.not_eq_true] at hno
    obtain ⟨d', hd', -, -, hinv⟩ :=
      evictPointer_spec hk (hw.bound _ b hp) (hw.backed _ b hp)
    rw [hrep, evictedMdi, if_pos rfl, hd'] at hev
    have hd : d'.dropBlock k = s'.mdi n.val.ptr := Option.some.inj hev
    have h1 := (hcopy ho).2
    rw [← hd, isValid_dropBlock, hinv ho hno] at h1
    cases h1
  · intro hall p b n hp hn hgone
    have hb : b ∈ vs := by
      by_contra hb
      rw [hr.kmem_eq p, hp] at hgone
      · cases hgone
      · intro c hc hpc
        rw [hp] at hpc
        exact hb (Option.some.inj hpc ▸ hc)
    obtain ⟨hrep, hready⟩ := hall b hb
    obtain ⟨n', hn', hu⟩ := hidle b hb
    rw [hn] at hn'
    rw [← Option.some.inj hn'] at hu
    have hpn : n.val.ptr = p := by
      obtain ⟨n'', hn'', hp'⟩ := (hw.kmem_iff p b).mp hp
      rw [hn] at hn''
      rw [Option.some.inj hn'', hp']
    have hready' := hready n hn
    rw [hpn] at hready'
    obtain ⟨d', hd', hoff, hcopy, -⟩ :=
      evictPointer_spec hk (hw.bound p b hp) (hw.backed p b hp)
    have hev := hr.evicted p b hb hp
    rw [hrep, evictedMdi, if_pos rfl, hd'] at hev
    have hd : d'.dropBlock k = s'.mdi p := Option.some.inj hev
    refine ⟨hu, fun ho => ?_, ?_⟩
    · obtain ⟨hdata, hvalid⟩ := hcopy ho (hready' ho)
      rw [← hd]
      refine ⟨?_, hvalid⟩
      rw [data_dropBlock, update_of_ne hk.symm]
      exact hdata
    · rw [unheld_iff, ← hd]
      exact hoff

-- ======== other operations

/-- A new block, bound to the datum `d`. -/
theorem Store.WF.insert (hw : s.WF k) (blk : Blk U) (hb : s.heap b = none)
    (hp : s.kmem blk.ptr = none) (hd : d.hasData k = true) (hback : d.Backed)
    (n : BitVec 64) :
    Store.WF k
      { heap := update s.heap b (some ⟨blk, none, none⟩)
        kmem := update s.kmem blk.ptr (some b)
        used := n
        mdi := update s.mdi blk.ptr d } where
  kmem_iff := by
    intro p c
    dsimp only
    by_cases hpp : p = blk.ptr
    · rw [hpp, update_self, Option.some.injEq]
      constructor
      · intro heq
        subst heq
        exact ⟨_, update_self .., rfl⟩
      · intro ⟨n, hn, hptr⟩
        by_contra hbc
        rw [update_of_ne (Ne.symm hbc)] at hn
        rw [← hptr, hw.kmem_ptr hn] at hp
        cases hp
    · rw [update_of_ne hpp, hw.kmem_iff p c]
      by_cases hcb : c = b
      · rw [hcb, hb, update_self]
        refine iff_of_false (fun ⟨_, hn, _⟩ => nomatch hn) ?_
        intro ⟨n, hn, hptr⟩
        rw [← Option.some.inj hn] at hptr
        exact hpp hptr.symm
      · rw [update_of_ne hcb]
  bound := by
    intro p c hpc
    dsimp only at hpc ⊢
    by_cases hpp : p = blk.ptr
    · rw [hpp, update_self]
      exact hd
    · rw [update_of_ne hpp] at hpc ⊢
      exact hw.bound p c hpc
  backed := by
    intro p c hpc
    dsimp only at hpc ⊢
    by_cases hpp : p = blk.ptr
    · rw [hpp, update_self]
      exact hback
    · rw [update_of_ne hpp] at hpc ⊢
      exact hw.backed p c hpc

theorem Store.WF.setVal (hw : s.WF k) (hn : s.heap b = some n) (blk : Blk U)
    (hp : blk.ptr = n.val.ptr) :
    { s with
      heap := update s.heap b (some { n with val := blk }) }.WF k where
  kmem_iff := by
    intro p c
    rw [hw.kmem_iff p c]
    dsimp only
    by_cases hcb : c = b
    · rw [hcb, hn, update_self]
      constructor
      · intro ⟨m, hm, hmp⟩
        exact ⟨_, rfl, by rw [← hmp, ← Option.some.inj hm, ← hp]⟩
      · intro ⟨m, hm, hmp⟩
        exact ⟨n, rfl, by rw [← hmp, ← Option.some.inj hm, ← hp]⟩
    · rw [update_of_ne hcb]
  bound := hw.bound
  backed := hw.backed

theorem Store.WF.setMdi (hw : s.WF k) {p : Ptr} (hd : d.hasData k = true)
    (hback : d.Backed) : { s with mdi := update s.mdi p d }.WF k where
  kmem_iff := hw.kmem_iff
  bound := by
    intro q c hq
    by_cases hqp : q = p
    · rw [hqp]
      show (update s.mdi p d p).hasData k = true
      rw [update_self]
      exact hd
    · show (update s.mdi p d q).hasData k = true
      rw [update_of_ne hqp]
      exact hw.bound q c hq
  backed := by
    intro q c hq
    by_cases hqp : q = p
    · rw [hqp]
      show (update s.mdi p d p).Backed
      rw [update_self]
      exact hback
    · show (update s.mdi p d q).Backed
      rw [update_of_ne hqp]
      exact hw.backed q c hq

end removed

/-- The empty cache: the `init` functions. -/
def Store.init : Store U V where
  heap := fun _ => none
  kmem := fun _ => none
  used := 0
  mdi := fun _ => alloc

theorem Store.init_wf : (Store.init : Store U V).WF k where
  kmem_iff := fun _ _ =>
    ⟨fun h => (nomatch h), fun ⟨_, h, _⟩ => (nomatch h)⟩
  bound := nofun
  backed := nofun

-- ======== operations

/-- What happens to a cache. -/
inductive CacheOp (V : Type) where
  /-- A new block `p`, in a descriptor `b` that `malloc` returns, for the
  datum `d` that the caller binds to it. -/
  | insert (b : BlkId) (p : Ptr) (size : BitVec 64) (m : AccessMode)
      (d : MetadataInfo V)
  | incUse (p : Ptr) (m : AccessMode)
  | decUse (p : Ptr) (m : AccessMode)
  /-- Blocks are evicted; `turns` bounds the turns of the loops. -/
  | remove (size : BitVec 64) (turns : Nat)
  /-- The other steps of the coherence protocol: anything may happen to
  the metadata of a datum the device holds, but that it loses its block. -/
  | protocol (p : Ptr) (d : MetadataInfo V)

/-- The pointer is new, and so is the descriptor; the datum has been
bound to it. -/
def Store.CanInsert (b : BlkId) (p : Ptr) (d : MetadataInfo V)
    (s : Store U V) : Prop :=
  (s.heap b).isNone ∧ (s.kmem p).isNone ∧ d.hasData k = true ∧ d.Backed

instance (b : BlkId) (p : Ptr) (d : MetadataInfo V) (s : Store U V) :
    Decidable (s.CanInsert k b p d) :=
  inferInstanceAs (Decidable (_ ∧ _ ∧ _ ∧ _))

/-- `CacheOp.protocol` -/
def Store.protocol (p : Ptr) (d : MetadataInfo V) (s : Store U V) :
    Option (Store U V) :=
  if d.hasData k = true ∧ d.Backed then
    some { s with mdi := update s.mdi p d }
  else none

end XKaapi.Memory
