/-
The block allocator (`kaapi_allocator.h`, `kaapi_allocator_allocate.c`):
regions are cut one after the other from the current block of an
allocator, a block of 128 pages that comes from a list of released
blocks common to all allocators, or from malloc. All regions of an
allocator go at once, when it is destroyed.

Sizes are rounded to double-words, of which a block has 65534. The fast
path compares double-words with a bound in bytes that happens to be
smaller than that, but so does the assertion of the slow path, with a
bound that is larger: a request of more than 524272 bytes is given a
block that is too small for it. So the regions of a run are disjoint and
inside their blocks iff no request is larger (`allocator_sound_iff`).
-/
import Mathlib.Algebra.Group.Nat.Defs
import Mathlib.Data.List.Nodup
import XKaapi.Lib.Run

namespace XKaapi.Allocator

open StepMachine
open Function (update update_apply update_of_ne update_self)

variable {ι : Type} [DecidableEq ι]

-- ======== the blocks

abbrev BlocId := Nat

/-- sizeof(double) -/
def sizeofDouble : Nat := 8

/-- offsetof(kaapi_allocator_bloc_t, data) -/
def dataOffset : Nat := 16

/-- KAAPI_BLOCALLOCATOR_SIZE -/
def blocallocatorSize : Nat := 16 * 4096 - dataOffset

/-- KAAPI_ALLOCATED_BLOCSIZE, in bytes. -/
def allocatedBlocsize : Nat := 128 * 4096

/-- The bytes of a block after its header. -/
def blocData : Nat := allocatedBlocsize - dataOffset

/-- The double-words of a block after its header. -/
def blocCapacity : Nat := blocData / sizeofDouble

/-- The length of `_kaapi_allocator_blocfreelist`. -/
def freelistSize : Nat := 64

/-- A size_t or a uintptr_t. -/
def uptr (x : Nat) : Nat := x % 2 ^ 64

/-- The size in double-words. -/
def roundSize (size : Nat) : Nat :=
  uptr (size + sizeofDouble - 1) / sizeofDouble

/-- kaapi_allocator_t; the blocks are linked by their `next`, the last
one allocated first. -/
structure KaapiAllocator where
  currentbloc : Option BlocId
  allocatedbloc : List BlocId

/-- kaapi_allocator_init -/
def KaapiAllocator.init : KaapiAllocator where
  currentbloc := none
  allocatedbloc := []

/-- A region handed out: its block, the byte of the data it starts at,
and the size asked for. -/
structure Region where
  bloc : BlocId
  off : Nat
  size : Nat
  deriving DecidableEq

/-- Two regions share no byte. -/
def Region.Apart (r r' : Region) : Prop :=
  r.bloc = r'.bloc → r.off + r.size ≤ r'.off ∨ r'.off + r'.size ≤ r.off

/-- The allocators of a process, the list of released blocks, what
malloc has given, and the regions of each allocator since it was last
destroyed. -/
structure State (ι : Type) where
  live : BlocId → Bool
  pos : BlocId → Nat
  blocfreelist : List BlocId
  va : ι → KaapiAllocator
  returned : ι → List Region

/-- No block yet. -/
def State.init : State ι where
  live := fun _ => false
  pos := fun _ => 0
  blocfreelist := []
  va := fun _ => .init
  returned := fun _ => []

namespace State

/-- The blocks of allocator `a`. -/
def blocs (s : State ι) (a : ι) : List BlocId := (s.va a).allocatedbloc

-- ======== allocating

/-- `n` double-words at the position of the block `b`. -/
def place (s : State ι) (a : ι) (b : BlocId) (n size : Nat) : State ι :=
  { s with
    pos := update s.pos b (uptr (s.pos b + n))
    returned := update s.returned a
      (⟨b, sizeofDouble * s.pos b, size⟩ :: s.returned a) }

/-- The block becomes the first one of the allocator, empty. -/
def setCurrent (s : State ι) (a : ι) (b : BlocId) : State ι :=
  { s with
    pos := update s.pos b 0
    va := update s.va a
      { currentbloc := some b
        allocatedbloc := b :: s.blocs a } }

/-- A released block, or `fresh` from malloc, that must be new. -/
def takeBloc (s : State ι) (fresh : BlocId) : Option (BlocId × State ι) :=
  match s.blocfreelist with
  | b :: l => some (b, { s with blocfreelist := l })
  | [] =>
    if s.live fresh = true then none
    else some (fresh, { s with live := update s.live fresh true })

/-- _kaapi_allocator_allocate_slowpart; none for the failed assertion. -/
def allocateSlowpart (s : State ι) (a : ι) (n size : Nat) (fresh : BlocId) :
    Option (State ι) :=
  if allocatedBlocsize > n then
    match s.takeBloc fresh with
    | some (b, s') => some ((s'.setCurrent a b).place a b n size)
    | none => none
  else none

/-- kaapi_allocator_allocate -/
def allocate (s : State ι) (a : ι) (size : Nat) (fresh : BlocId) :
    Option (State ι) :=
  let n := roundSize size
  match (s.va a).currentbloc with
  | some b =>
    if uptr (s.pos b + n) < blocallocatorSize then
      some (s.place a b n size)
    else s.allocateSlowpart a n size fresh
  | none => s.allocateSlowpart a n size fresh

-- ======== destroying

/-- One block goes to the list of released blocks, or is freed. -/
def release (s : State ι) (b : BlocId) : State ι :=
  if s.blocfreelist.length = freelistSize then
    { s with live := update s.live b false }
  else { s with blocfreelist := b :: s.blocfreelist }

/-- kaapi_allocator_destroy -/
def destroy (s : State ι) (a : ι) : State ι :=
  let s' := (s.blocs a).foldl release s
  { s' with
    va := update s'.va a .init
    returned := update s'.returned a [] }

end State

/-- A call; `fresh` is the block malloc gives if it is called. -/
inductive Op (ι : Type) where
  | allocate (a : ι) (size : Nat) (fresh : BlocId)
  | destroy (a : ι)

def step : Op ι → State ι → Option (State ι)
  | .allocate a size fresh, s =>
    if size < 2 ^ 64 then s.allocate a size fresh else none
  | .destroy a, s => some (s.destroy a)

-- ======== what is wanted

/-- The regions lie in their blocks, whose positions are in range, and
no two of them overlap. -/
structure Sound (s : State ι) : Prop where
  inside : ∀ a, ∀ r ∈ s.returned a, r.bloc ∈ s.blocs a
    ∧ s.live r.bloc = true ∧ r.off + r.size ≤ blocData
  apart : ∀ a, (s.returned a).Pairwise Region.Apart
  others : ∀ a a', a ≠ a' → ∀ r ∈ s.returned a, ∀ r' ∈ s.returned a', r.Apart r'
  pos_le : ∀ a, ∀ b ∈ s.blocs a, s.pos b ≤ blocCapacity

/-- The request fits a block. -/
def Op.Fits : Op ι → Prop
  | .allocate _ size _ => size ≤ blocData
  | .destroy _ => True

-- ======== the invariant

/-- Every block has one owner: an allocator or the list of released
blocks. -/
structure Owned (s : State ι) : Prop where
  live : ∀ a, ∀ b ∈ s.blocs a, s.live b = true
  live_free : ∀ b ∈ s.blocfreelist, s.live b = true
  nodup : ∀ a, (s.blocs a).Nodup
  nodup_free : s.blocfreelist.Nodup
  not_free : ∀ a, ∀ b ∈ s.blocs a, b ∉ s.blocfreelist
  owner : ∀ a a' b, b ∈ s.blocs a → b ∈ s.blocs a' → a = a'
  current : ∀ a b, (s.va a).currentbloc = some b → b ∈ s.blocs a

/-- The regions lie below the position of their block. -/
structure Placed (s : State ι) : Prop where
  pos_le : ∀ a, ∀ b ∈ s.blocs a, s.pos b ≤ blocCapacity
  below : ∀ a, ∀ r ∈ s.returned a, r.bloc ∈ s.blocs a
    ∧ r.off + r.size ≤ sizeofDouble * s.pos r.bloc
  apart : ∀ a, (s.returned a).Pairwise Region.Apart

structure Inv (s : State ι) : Prop where
  owned : Owned s
  placed : Placed s

omit [DecidableEq ι] in
theorem Inv.sound {s : State ι} (h : Inv s) : Sound s where
  inside := by
    intro a r hr
    obtain ⟨hb, hle⟩ := h.placed.below a r hr
    have hpos := h.placed.pos_le a _ hb
    refine ⟨hb, h.owned.live a _ hb, ?_⟩
    unfold blocCapacity sizeofDouble at *
    omega
  apart := h.placed.apart
  others := by
    intro a a' hne r hr r' hr' heq
    obtain ⟨hb, -⟩ := h.placed.below a r hr
    obtain ⟨hb', -⟩ := h.placed.below a' r' hr'
    rw [← heq] at hb'
    exact absurd (h.owned.owner a a' _ hb hb') hne
  pos_le := h.placed.pos_le

omit [DecidableEq ι] in
theorem inv_init : Inv (State.init : State ι) where
  owned :=
    { live := by
        intro a b hb
        cases hb
      live_free := by
        intro b hb
        cases hb
      nodup := fun _ => List.nodup_nil
      nodup_free := List.nodup_nil
      not_free := by
        intro a b hb
        cases hb
      owner := by
        intro a a' b hb
        cases hb
      current := by
        intro a b hb
        cases hb }
  placed :=
    { pos_le := by
        intro a b hb
        cases hb
      below := by
        intro a r hr
        cases hr
      apart := fun _ => List.Pairwise.nil }

-- ======== one region more

variable {s s' : State ι} {a : ι} {b : BlocId} {n size : Nat} {fresh : BlocId}

theorem Owned.place (h : Owned s) (a : ι) (b : BlocId) (n size : Nat) :
    Owned (s.place a b n size) :=
  ⟨h.live, h.live_free, h.nodup, h.nodup_free, h.not_free, h.owner, h.current⟩

/-- A region at the position of a block with room for it. -/
theorem Placed.place (h : Placed s) (hb : b ∈ s.blocs a)
    (hfit : s.pos b + n ≤ blocCapacity) (hsize : size ≤ sizeofDouble * n) :
    Placed (s.place a b n size) := by
  have hpos : uptr (s.pos b + n) = s.pos b + n :=
    Nat.mod_eq_of_lt (Nat.lt_of_le_of_lt hfit (by decide))
  -- positions only grow
  have hgrow : ∀ c, s.pos c ≤ (s.place a b n size).pos c := by
    intro c
    show s.pos c ≤ update s.pos b _ c
    rw [update_apply, hpos]
    split
    next heq =>
      rw [heq]
      exact Nat.le_add_right _ _
    next => exact Nat.le_refl _
  have hnew : (s.place a b n size).pos b = s.pos b + n := by
    show update s.pos b _ b = _
    rw [update_self, hpos]
  have hold : ∀ a', ∀ r ∈ s.returned a', r.bloc ∈ s.blocs a'
      ∧ r.off + r.size ≤ sizeofDouble * (s.place a b n size).pos r.bloc := by
    intro a' r hr
    obtain ⟨hrb, hle⟩ := h.below a' r hr
    exact ⟨hrb, Nat.le_trans hle (Nat.mul_le_mul_left _ (hgrow _))⟩
  have hret : (s.place a b n size).returned a
      = ⟨b, sizeofDouble * s.pos b, size⟩ :: s.returned a :=
    update_self ..
  have hret' : ∀ a', a' ≠ a →
      (s.place a b n size).returned a' = s.returned a' := by
    intro a' hne
    exact update_of_ne hne ..
  refine ⟨?pos_le, ?below, ?apart⟩
  case pos_le =>
    intro a' c hc
    show update s.pos b _ c ≤ _
    rw [update_apply, hpos]
    split
    next => exact hfit
    next => exact h.pos_le a' c hc
  case below =>
    intro a' r hr
    by_cases ha : a' = a
    · subst ha
      rw [hret] at hr
      rcases List.mem_cons.mp hr with rfl | hr
      · refine ⟨hb, ?_⟩
        show sizeofDouble * s.pos b + size ≤ _
        rw [hnew, Nat.mul_add]
        exact Nat.add_le_add_left hsize _
      · exact hold a' r hr
    · rw [hret' a' ha] at hr
      exact hold a' r hr
  case apart =>
    intro a'
    by_cases ha : a' = a
    · subst ha
      rw [hret]
      refine List.pairwise_cons.mpr ⟨?_, h.apart a'⟩
      intro r hr heq
      refine .inr ?_
      show r.off + r.size ≤ sizeofDouble * s.pos b
      have heq' : b = r.bloc := heq
      rw [heq']
      exact (h.below a' r hr).2
    · rw [hret' a' ha]
      exact h.apart a'

-- ======== one block more

/-- The block that is taken belongs to nobody. -/
structure Taken (s : State ι) (b : BlocId) (s' : State ι) : Prop where
  va : s'.va = s.va
  pos : s'.pos = s.pos
  returned : s'.returned = s.returned
  owned : Owned s'
  live : s'.live b = true
  not_owned : ∀ a, b ∉ s.blocs a
  not_free : b ∉ s'.blocfreelist

omit [DecidableEq ι] in
theorem Owned.takeBloc (h : Owned s) (hr : s.takeBloc fresh = some (b, s')) :
    Taken s b s' := by
  unfold State.takeBloc at hr
  split at hr
  next c l hl =>
    cases hr
    have hnodup := h.nodup_free
    rw [hl, List.nodup_cons] at hnodup
    have hmem : ∀ c' ∈ l, c' ∈ s.blocfreelist := by
      intro c' hc'
      rw [hl]
      exact List.mem_cons_of_mem _ hc'
    have hb : b ∈ s.blocfreelist := by
      rw [hl]
      exact List.mem_cons_self
    refine ⟨rfl, rfl, rfl, ?_, h.live_free b hb, ?_, hnodup.1⟩
    · exact ⟨h.live, fun c hc => h.live_free c (hmem c hc), h.nodup, hnodup.2,
        fun a c hc hc' => h.not_free a c hc (hmem c hc'), h.owner, h.current⟩
    · intro a hba
      exact h.not_free a b hba hb
  next hl =>
    split at hr
    next => cases hr
    next hfresh =>
      cases hr
      have hne : ∀ c, s.live c = true → c ≠ b := by
        intro c hc heq
        rw [heq] at hc
        exact hfresh hc
      have hold : ∀ c, s.live c = true →
          update s.live b true c = true := by
        intro c hc
        rw [update_of_ne (hne c hc)]
        exact hc
      refine ⟨rfl, rfl, rfl, ?_, update_self .., ?_, ?_⟩
      · exact ⟨fun a c hc => hold c (h.live a c hc),
          fun c hc => hold c (h.live_free c hc), h.nodup, h.nodup_free,
          h.not_free, h.owner, h.current⟩
      · intro a hba
        exact hne b (h.live a b hba) rfl
      · show b ∉ s.blocfreelist
        rw [hl]
        exact List.not_mem_nil

theorem blocs_setCurrent (s : State ι) (a a' : ι) (b : BlocId) :
    (s.setCurrent a b).blocs a'
      = if a' = a then b :: s.blocs a else s.blocs a' := by
  show (update s.va a _ a').allocatedbloc = _
  rw [update_apply]
  split
  next => rfl
  next => rfl

theorem mem_blocs_setCurrent {a' : ι} {c : BlocId} :
    c ∈ (s.setCurrent a b).blocs a'
      ↔ (a' = a ∧ c = b) ∨ c ∈ s.blocs a' := by
  rw [blocs_setCurrent]
  split
  next heq =>
    rw [heq, List.mem_cons]
    simp
  next hne => simp [hne]

theorem Owned.setCurrent
    (h : Owned s) (hlive : s.live b = true) (hown : ∀ a, b ∉ s.blocs a)
    (hfree : b ∉ s.blocfreelist) (a : ι) : Owned (s.setCurrent a b) := by
  refine ⟨?live, h.live_free, ?nodup, h.nodup_free, ?not_free, ?owner, ?current⟩
  case live =>
    intro a' c hc
    rcases mem_blocs_setCurrent.mp hc with ⟨-, rfl⟩ | hc
    · exact hlive
    · exact h.live a' c hc
  case nodup =>
    intro a'
    rw [blocs_setCurrent]
    split
    next => exact List.nodup_cons.mpr ⟨hown a, h.nodup a⟩
    next => exact h.nodup a'
  case not_free =>
    intro a' c hc
    rcases mem_blocs_setCurrent.mp hc with ⟨-, rfl⟩ | hc
    · exact hfree
    · exact h.not_free a' c hc
  case owner =>
    intro a₁ a₂ c h₁ h₂
    rcases mem_blocs_setCurrent.mp h₁ with ⟨e₁, hc⟩ | h₁
    · rcases mem_blocs_setCurrent.mp h₂ with ⟨e₂, -⟩ | h₂
      · rw [e₁, e₂]
      · exact absurd (hc ▸ h₂) (hown a₂)
    · rcases mem_blocs_setCurrent.mp h₂ with ⟨-, hc⟩ | h₂
      · exact absurd (hc ▸ h₁) (hown a₁)
      · exact h.owner a₁ a₂ c h₁ h₂
  case current =>
    intro a' c hc
    change (update s.va a _ a').currentbloc = _ at hc
    rw [update_apply] at hc
    split at hc
    next heq =>
      cases hc
      exact mem_blocs_setCurrent.mpr (.inl ⟨heq, rfl⟩)
    next => exact mem_blocs_setCurrent.mpr (.inr (h.current a' c hc))

theorem Placed.setCurrent (h : Placed s) (hown : ∀ a, b ∉ s.blocs a) (a : ι) :
    Placed (s.setCurrent a b) := by
  have hpos : ∀ a', ∀ c ∈ s.blocs a',
      (s.setCurrent a b).pos c = s.pos c := by
    intro a' c hc
    refine update_of_ne ?_ ..
    intro heq
    rw [heq] at hc
    exact hown a' hc
  refine ⟨?pos_le, ?below, h.apart⟩
  case pos_le =>
    intro a' c hc
    rcases mem_blocs_setCurrent.mp hc with ⟨-, rfl⟩ | hc
    · show update s.pos c 0 c ≤ _
      rw [update_self]
      exact Nat.zero_le _
    · rw [hpos a' c hc]
      exact h.pos_le a' c hc
  case below =>
    intro a' r hr
    obtain ⟨hrb, hle⟩ := h.below a' r hr
    refine ⟨mem_blocs_setCurrent.mpr (.inr hrb), ?_⟩
    rw [hpos a' _ hrb]
    exact hle

-- ======== allocating

/-- What an allocation does: a region is placed in a block of the
allocator, whose position leaves room for it in the first 65520
double-words or is zero. -/
theorem allocate_spec (h : Inv s) (hr : s.allocate a size fresh = some s') :
    ∃ s₁ b, Inv s₁ ∧ b ∈ s₁.blocs a
      ∧ s' = s₁.place a b (roundSize size) size
      ∧ (uptr (s₁.pos b + roundSize size) < blocallocatorSize
        ∨ s₁.pos b = 0) := by
  have hslow : ∀ {s'}, s.allocateSlowpart a (roundSize size) size fresh
      = some s' → ∃ s₁ b, Inv s₁ ∧ b ∈ s₁.blocs a
        ∧ s' = s₁.place a b (roundSize size) size
        ∧ (uptr (s₁.pos b + roundSize size) < blocallocatorSize
          ∨ s₁.pos b = 0) := by
    intro s' hr
    unfold State.allocateSlowpart at hr
    split at hr
    next =>
      split at hr
      next b s₁ htake =>
        cases hr
        have ht := h.owned.takeBloc htake
        have hown : ∀ a, b ∉ s₁.blocs a := by
          intro a
          unfold State.blocs
          rw [ht.va]
          exact ht.not_owned a
        have hplaced : Placed s₁ := by
          refine ⟨?_, ?_, ?_⟩
          · intro a' c hc
            unfold State.blocs at hc
            rw [ht.va] at hc
            rw [ht.pos]
            exact h.placed.pos_le a' c hc
          · intro a' r hr
            rw [ht.returned] at hr
            unfold State.blocs
            rw [ht.va, ht.pos]
            exact h.placed.below a' r hr
          · rw [ht.returned]
            exact h.placed.apart
        refine ⟨s₁.setCurrent a b, b, ⟨?_, ?_⟩, ?_, rfl, .inr ?_⟩
        · exact ht.owned.setCurrent ht.live hown ht.not_free a
        · exact hplaced.setCurrent hown a
        · exact mem_blocs_setCurrent.mpr (.inl ⟨rfl, rfl⟩)
        · exact update_self ..
      next => cases hr
    next => cases hr
  unfold State.allocate at hr
  split at hr
  next b hb =>
    change (if _ then _ else _) = _ at hr
    split at hr
    next hfit =>
      cases hr
      exact ⟨s, b, h, h.owned.current a b hb, rfl, .inl hfit⟩
    next => exact hslow hr
  next => exact hslow hr

theorem roundSize_of_fits (h : size ≤ blocData) :
    size ≤ sizeofDouble * roundSize size ∧ roundSize size ≤ blocCapacity := by
  have hlt : uptr (size + sizeofDouble - 1) = size + sizeofDouble - 1 :=
    Nat.mod_eq_of_lt (by
      unfold blocData allocatedBlocsize dataOffset at h
      unfold sizeofDouble
      omega)
  unfold roundSize
  rw [hlt]
  unfold blocCapacity blocData allocatedBlocsize dataOffset sizeofDouble at *
  omega

theorem Inv.allocate (h : Inv s) (hfits : size ≤ blocData)
    (hr : s.allocate a size fresh = some s') : Inv s' := by
  obtain ⟨s₁, b, h₁, hb, rfl, hroom⟩ := allocate_spec h hr
  obtain ⟨hsize, hn⟩ := roundSize_of_fits hfits
  refine ⟨h₁.owned.place a b _ size, h₁.placed.place hb ?_ hsize⟩
  have hpos := h₁.placed.pos_le a b hb
  rcases hroom with hlt | h0
  · rw [uptr, Nat.mod_eq_of_lt (by
      unfold blocCapacity blocData allocatedBlocsize dataOffset
        sizeofDouble at *
      omega)] at hlt
    unfold blocallocatorSize dataOffset at hlt
    unfold blocCapacity blocData allocatedBlocsize dataOffset sizeofDouble
    omega
  · rw [h0, Nat.zero_add]
    exact hn

theorem not_sound_allocate (h : Inv s) (hbig : ¬ size ≤ blocData)
    (hr : s.allocate a size fresh = some s') : ¬ Sound s' := by
  obtain ⟨s₁, b, h₁, hb, rfl, -⟩ := allocate_spec h hr
  intro hs
  have hin := (hs.inside a ⟨b, sizeofDouble * s₁.pos b, size⟩ (by
    show _ ∈ update s₁.returned a _ a
    rw [update_self]
    exact List.mem_cons_self)).2.2
  have hin' : sizeofDouble * s₁.pos b + size ≤ blocData := hin
  omega

-- ======== destroying

/-- What the loop over released blocks does. -/
structure Released (s : State ι) (l : List BlocId) (s' : State ι) : Prop where
  va : s'.va = s.va
  pos : s'.pos = s.pos
  returned : s'.returned = s.returned
  free : ∀ c ∈ s'.blocfreelist, c ∈ l ∨ c ∈ s.blocfreelist
  nodup : s'.blocfreelist.Nodup
  live_free : ∀ c ∈ s'.blocfreelist, s'.live c = true
  live : ∀ c, c ∉ l → s'.live c = s.live c

omit [DecidableEq ι] in
theorem released_foldl (l : List BlocId) (s : State ι) (hl : l.Nodup)
    (hfree : ∀ c ∈ l, c ∉ s.blocfreelist) (hnodup : s.blocfreelist.Nodup)
    (hlive : ∀ c ∈ l, s.live c = true)
    (hlive_free : ∀ c ∈ s.blocfreelist, s.live c = true) :
    Released s l (l.foldl State.release s) := by
  induction l generalizing s with
  | nil =>
    exact ⟨rfl, rfl, rfl, fun c hc => .inr hc, hnodup, hlive_free,
      fun c _ => rfl⟩
  | cons b l ih =>
    obtain ⟨hbl, hl⟩ := List.nodup_cons.mp hl
    have hbfree := hfree b List.mem_cons_self
    have hblive := hlive b List.mem_cons_self
    rw [List.foldl_cons]
    by_cases hfull : s.blocfreelist.length = freelistSize
    · have hrel : s.release b
          = { s with live := update s.live b false } := if_pos hfull
      have hkeep : ∀ c, c ≠ b →
          update s.live b false c = s.live c :=
        fun c hc => update_of_ne hc ..
      have hne : ∀ c ∈ l, c ≠ b := by
        intro c hc heq
        rw [heq] at hc
        exact hbl hc
      have hne' : ∀ c ∈ s.blocfreelist, c ≠ b := by
        intro c hc heq
        rw [heq] at hc
        exact hbfree hc
      rw [hrel]
      have h := ih { s with live := update s.live b false } hl
        (fun c hc => hfree c (List.mem_cons_of_mem _ hc)) hnodup
        (fun c hc => (hkeep c (hne c hc)).trans
          (hlive c (List.mem_cons_of_mem _ hc)))
        (fun c hc => (hkeep c (hne' c hc)).trans (hlive_free c hc))
      refine ⟨h.va, h.pos, h.returned, ?_, h.nodup, h.live_free, ?_⟩
      · intro c hc
        rcases h.free c hc with hc | hc
        · exact .inl (List.mem_cons_of_mem _ hc)
        · exact .inr hc
      · intro c hc
        rw [List.mem_cons, not_or] at hc
        rw [h.live c hc.2]
        exact hkeep c hc.1
    · have hrel : s.release b
          = { s with blocfreelist := b :: s.blocfreelist } := if_neg hfull
      rw [hrel]
      have h := ih { s with blocfreelist := b :: s.blocfreelist } hl
        (by
          intro c hc hc'
          rcases List.mem_cons.mp hc' with rfl | hc'
          · exact hbl hc
          · exact hfree c (List.mem_cons_of_mem _ hc) hc')
        (List.nodup_cons.mpr ⟨hbfree, hnodup⟩)
        (fun c hc => hlive c (List.mem_cons_of_mem _ hc))
        (by
          intro c hc
          rcases List.mem_cons.mp hc with rfl | hc
          · exact hblive
          · exact hlive_free c hc)
      refine ⟨h.va, h.pos, h.returned, ?_, h.nodup, h.live_free, ?_⟩
      · intro c hc
        rcases h.free c hc with hc | hc
        · exact .inl (List.mem_cons_of_mem _ hc)
        · rcases List.mem_cons.mp hc with rfl | hc
          · exact .inl List.mem_cons_self
          · exact .inr hc
      · intro c hc
        exact h.live c fun hc' => hc (List.mem_cons_of_mem _ hc')

theorem blocs_destroy (h : Owned s) (a a' : ι) :
    (s.destroy a).blocs a' = (if a' = a then [] else s.blocs a')
      ∧ (s.destroy a).returned a' = (if a' = a then [] else s.returned a')
      ∧ (s.destroy a).pos = s.pos
      ∧ Released s (s.blocs a) ((s.blocs a).foldl State.release s) := by
  have hrel := released_foldl (s.blocs a) s (h.nodup a) (h.not_free a)
    h.nodup_free (h.live a) h.live_free
  refine ⟨?_, ?_, hrel.pos, hrel⟩
  · show (update ((s.blocs a).foldl State.release s).va a .init
      a').allocatedbloc = _
    rw [hrel.va, update_apply]
    split
    next => rfl
    next => rfl
  · show update ((s.blocs a).foldl State.release s).returned a []
      a' = _
    rw [hrel.returned, update_apply]

theorem Inv.destroy (h : Inv s) (a : ι) : Inv (s.destroy a) := by
  have hblocs := fun a' => (blocs_destroy h.owned a a').1
  have hret := fun a' => (blocs_destroy h.owned a a').2.1
  have hpos := (blocs_destroy h.owned a a).2.2.1
  have hrel := (blocs_destroy h.owned a a).2.2.2
  -- a block that is still owned has another owner
  have hmem : ∀ a' c, c ∈ (s.destroy a).blocs a' →
      a' ≠ a ∧ c ∈ s.blocs a' := by
    intro a' c hc
    rw [hblocs] at hc
    split at hc
    next => cases hc
    next hne => exact ⟨hne, hc⟩
  have hother : ∀ a' c, c ∈ (s.destroy a).blocs a' → c ∉ s.blocs a := by
    intro a' c hc hca
    obtain ⟨hne, hc⟩ := hmem a' c hc
    exact hne (h.owned.owner a' a c hc hca)
  refine ⟨⟨?live, hrel.live_free, ?nodup, hrel.nodup, ?not_free, ?owner,
    ?current⟩, ⟨?pos_le, ?below, ?apart⟩⟩
  case live =>
    intro a' c hc
    have hlive := h.owned.live a' c (hmem a' c hc).2
    exact (hrel.live c (hother a' c hc)).trans hlive
  case nodup =>
    intro a'
    rw [hblocs]
    split
    next => exact List.nodup_nil
    next => exact h.owned.nodup a'
  case not_free =>
    intro a' c hc hfree
    rcases hrel.free c hfree with hca | hfree
    · exact hother a' c hc hca
    · exact h.owned.not_free a' c (hmem a' c hc).2 hfree
  case owner =>
    intro a₁ a₂ c h₁ h₂
    exact h.owned.owner a₁ a₂ c (hmem a₁ c h₁).2 (hmem a₂ c h₂).2
  case current =>
    intro a' c hc
    rw [hblocs]
    change (update ((s.blocs a).foldl State.release s).va a .init
      a').currentbloc = some c at hc
    rw [hrel.va, update_apply] at hc
    split at hc
    next => cases hc
    next hne =>
      rw [if_neg hne]
      exact h.owned.current a' c hc
  case pos_le =>
    intro a' c hc
    rw [hpos]
    exact h.placed.pos_le a' c (hmem a' c hc).2
  case below =>
    intro a' r hr
    rw [hret] at hr
    split at hr
    next => cases hr
    next hne =>
      rw [hblocs, if_neg hne, hpos]
      exact h.placed.below a' r hr
  case apart =>
    intro a'
    rw [hret]
    split
    next => exact List.Pairwise.nil
    next => exact h.placed.apart a'

-- ======== runs

theorem Inv.step
    {o : Op ι} (hfits : o.Fits) (h : Inv s) (hr : step o s = some s') :
    Inv s' := by
  cases o with
  | allocate a size fresh =>
    change (if size < 2 ^ 64 then s.allocate a size fresh else none) = _ at hr
    split at hr
    next => exact h.allocate hfits hr
    next => cases hr
  | destroy a =>
    cases hr
    exact h.destroy a

theorem not_sound_step
    {o : Op ι} (hfits : ¬ o.Fits) (h : Inv s) (hr : step o s = some s') :
    ¬ Sound s' := by
  cases o with
  | allocate a size fresh =>
    change (if size < 2 ^ 64 then s.allocate a size fresh else none) = _ at hr
    split at hr
    next => exact not_sound_allocate h hfits hr
    next => cases hr
  | destroy a => exact absurd trivial hfits

/-- In a run whose calls pass the checks, every state is sound iff every
request fits a block. -/
theorem allocator_sound_iff (os : List (Op ι)) (s : State ι)
    (hrun : run step os State.init = some s) :
    (∀ os', os' <+: os → ∀ t, run step os' State.init = some t → Sound t)
      ↔ ∀ o ∈ os, o.Fits := by
  rw [Along.iff_good (P := Inv) (Q := fun o _ => o.Fits) Inv.sound
    (fun hq h hr => h.step hq hr) (fun hq h hr => not_sound_step hq h hr)
    inv_init hrun]
  exact along_const_iff hrun

/-- Three regions in two blocks, then all released, and one more region
in a block that is used again. -/
theorem allocator_sound_reused :
    ∃ t, run step [.allocate () 100 0, .allocate () 524272 1,
        .allocate () 8 2, .destroy (), .allocate () 524272 3]
        (State.init : State Unit) = some t
      ∧ Sound t := by
  refine ⟨_, rfl, (allocator_sound_iff [.allocate () 100 0,
    .allocate () 524272 1, .allocate () 8 2, .destroy (),
    .allocate () 524272 3] _ rfl).mpr ?_ _ (List.prefix_refl _) _ rfl⟩
  simp [Op.Fits, blocData, allocatedBlocsize, dataOffset]

/-- The smallest request that passes the assertion without fitting its
block. -/
theorem not_sound_of_bytes_as_words :
    ∃ t, run step [.allocate () 524273 0] (State.init : State Unit) = some t
      ∧ ¬ Sound t := by
  refine ⟨_, rfl, ?_⟩
  intro h
  have hin := (h.inside () ⟨0, 0, 524273⟩ (by decide)).2.2
  revert hin
  decide

end XKaapi.Allocator
