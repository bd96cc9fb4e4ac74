/-
The policy `lru_double`, the default one
(machine/cuda/kaapi_cuda_mem_cache_lru_double_fifo.c): the blocks last
used for reading in one list, `ro`, those last used for writing in
another, `rw`, and a count of users for each kind of use. A block changes
list when a use is recorded with a mode different from its own; the list
it is taken from is then the other one, whatever the two modes are.
Eviction empties `ro` first, and reports nothing about its blocks.

The `_ro` and `_rw` functions of the source are the same up to the list
and the counter; here they are one definition each, at a Boolean that is
true for `rw`.
-/
import XKaapi.Memory.CacheLoop
import XKaapi.Lib.Run

namespace XKaapi.Memory

open Dfg LinkedList MetadataInfo
open Function (update update_of_ne update_self)

/-- The use counters of a block: tasks that write it, and that read it. -/
structure Uses where
  wc : BitVec 64
  rc : BitVec 64
deriving DecidableEq, Repr

/-- `kaapi_cuda_mem_cache_lru_double_fifo_t` -/
structure LruDouble (V : Type) where
  store : Store Uses V
  ro : Ends BlkId
  rw : Ends BlkId

namespace LruDouble

variable {V : Type} (k : Lid)

-- ======== operations

/-- kaapi_cuda_mem_cache_lru_double_fifo_has_access -/
def hasAccess (u : Uses) : Bool := 0 < u.rc || 0 < u.wc

/-- kaapi_cuda_mem_cache_lru_double_fifo_init -/
def init : LruDouble V := ⟨Store.init, ⟨none, none⟩, ⟨none, none⟩⟩

/-- The list of the blocks used for writing, or of the others. -/
def ends (c : LruDouble V) : Bool → Ends BlkId
  | true => c.rw
  | false => c.ro

/-- The two lists, that of `w` and the other one. -/
def withLists (w : Bool) (s : Store Uses V) (mine other : Ends BlkId) :
    LruDouble V :=
  match w with
  | true => ⟨s, other, mine⟩
  | false => ⟨s, mine, other⟩

/-- The insertion of a block in a list, with the counters `u`. -/
def insertIn (w : Bool) (u : Uses) (b : BlkId) (p : Ptr)
    (size : BitVec 64) (m : AccessMode) (d : MetadataInfo V)
    (c : LruDouble V) : Option (LruDouble V) := do
  let s := c.store
  let h := update s.heap b (some ⟨⟨p, m, size, u⟩, none, none⟩)
  let (h, mine) ← insertLast h (c.ends w) b
  let s : Store Uses V :=
    { heap := h
      kmem := update s.kmem p (some b)
      used := s.used + size
      mdi := update s.mdi p d }
  return withLists w s mine (c.ends !w)

/-- kaapi_cuda_mem_cache_lru_double_fifo_insert, by `insert_rw` or
`insert_ro`. -/
def insert (b : BlkId) (p : Ptr) (size : BitVec 64) (m : AccessMode)
    (d : MetadataInfo V) (c : LruDouble V) : Option (LruDouble V) :=
  if accessIsWrite m then c.insertIn true ⟨1, 0⟩ b p size m d
  else c.insertIn false ⟨0, 1⟩ b p size m d

/-- A use of the block `b`, in the mode `m`, of the kind of the list `w`:
from the other list if the mode is not the one of the block, else to the
end of its list. -/
def incUseIn (w : Bool) (bump : Uses → Uses) (b : BlkId) (m : AccessMode)
    (c : LruDouble V) : Option (LruDouble V) := do
  let n ← c.store.heap b
  let h := update c.store.heap b
    (some { n with val := { n.val with u := bump n.val.u } })
  if n.val.m ≠ m then
    let (h, other) ← unlink h (c.ends !w) b
    let (h, mine) ← insertLast h (c.ends w) b
    let n ← h b
    let h := update h b (some { n with val := { n.val with m := m } })
    return withLists w { c.store with heap := h } mine other
  else if n.next = none then
    return withLists w { c.store with heap := h } (c.ends w) (c.ends !w)
  else
    let (h, mine) ← unlink h (c.ends w) b
    let (h, mine) ← insertLast h mine b
    return withLists w { c.store with heap := h } mine (c.ends !w)

/-- kaapi_cuda_mem_cache_lru_double_fifo_inc_use_ro -/
def incUseRo (b : BlkId) (m : AccessMode) (c : LruDouble V) :
    Option (LruDouble V) :=
  c.incUseIn false (fun u => { u with rc := u.rc + 1 }) b m

/-- kaapi_cuda_mem_cache_lru_double_fifo_inc_use_rw -/
def incUseRw (b : BlkId) (m : AccessMode) (c : LruDouble V) :
    Option (LruDouble V) :=
  c.incUseIn true (fun u => { u with wc := u.wc + 1 }) b m

/-- kaapi_cuda_mem_cache_lru_double_fifo_inc_use -/
def incUse (p : Ptr) (m : AccessMode) (c : LruDouble V) :
    Option (LruDouble V) :=
  match c.store.kmem p with
  | none => some c
  | some b => if accessIsWrite m then c.incUseRw b m else c.incUseRo b m

/-- kaapi_cuda_mem_cache_lru_double_fifo_dec_use: `dec_use_rw` or
`dec_use_ro`, by the mode of the task that ends. -/
def decUse (p : Ptr) (m : AccessMode) (c : LruDouble V) :
    Option (LruDouble V) :=
  match c.store.kmem p with
  | none => some c
  | some b => do
      let n ← c.store.heap b
      let u := if accessIsWrite m then { n.val.u with wc := n.val.u.wc - 1 }
        else { n.val.u with rc := n.val.u.rc - 1 }
      let h := update c.store.heap b
        (some { n with val := { n.val with u := u } })
      return { c with store := { c.store with heap := h } }

/-- kaapi_cuda_mem_cache_lru_double_fifo_remove_ro: no block is reported. -/
def removeRo (size : BitVec 64) (turns : Nat) (c : LruDouble V) :
    Option (Ptr × LruDouble V) := do
  let (devptr, s, ro) ←
    removeFrom k hasAccess (fun _ => false) size turns c.store c.ro
  return (devptr, ⟨s, ro, c.rw⟩)

/-- kaapi_cuda_mem_cache_lru_double_fifo_remove_rw: every block is. -/
def removeRw (size : BitVec 64) (turns : Nat) (c : LruDouble V) :
    Option (Ptr × LruDouble V) := do
  let (devptr, s, rw) ←
    removeFrom k hasAccess (fun _ => true) size turns c.store c.rw
  return (devptr, ⟨s, c.ro, rw⟩)

/-- kaapi_cuda_mem_cache_lru_double_fifo_remove -/
def remove (size : BitVec 64) (turns : Nat) (c : LruDouble V) :
    Option (Ptr × LruDouble V) := do
  let (devptr, c) ← c.removeRo k size turns
  if devptr = 0 then c.removeRw k size turns else return (devptr, c)

/-- The cache as a machine. -/
def step : CacheOp V → LruDouble V → Option (LruDouble V)
  | .insert b p size m d, c =>
    if c.store.CanInsert k b p d then c.insert b p size m d else none
  | .incUse p m, c => c.incUse p m
  | .decUse p m, c => c.decUse p m
  | .remove size turns, c => (c.remove k size turns).map Prod.snd
  | .protocol p d, c =>
    (c.store.protocol k p d).map fun s => { c with store := s }

-- ======== invariant

/-- The two lists are well linked, and each block is in the one of its
mode. -/
structure Lists (c : LruDouble V) (l : Bool → List BlkId) : Prop where
  list : ∀ w, IsList c.store.heap (c.ends w) (l w)
  mem_iff : ∀ w b,
    b ∈ l w ↔ ∃ n, c.store.heap b = some n ∧ accessIsWrite n.val.m = w

/-- The block `n` may be used in the mode `m`: it has that mode, or it
changes list, or the wrong list is not looked at because the block has
two neighbours. -/
def CanUse (n : Node BlkId (Blk Uses)) (m : AccessMode) : Prop :=
  n.val.m = m ∨ accessIsWrite n.val.m ≠ accessIsWrite m
    ∨ (n.prev.isSome ∧ n.next.isSome)

/-- A block is in the list of its mode. -/
structure Inv (c : LruDouble V) (l : Bool → List BlkId) : Prop where
  wf : c.store.WF k
  list : ∀ w, IsList c.store.heap (c.ends w) (l w)
  mem_iff : ∀ w b,
    b ∈ l w ↔ ∃ n, c.store.heap b = some n ∧ accessIsWrite n.val.m = w

/-- What a use has to respect for a block to stay in the list of its
mode: if the mode of the block changes, then from a write to a mode that
is none, or back. -/
def Meets : CacheOp V → LruDouble V → Prop
  | .incUse p m, c => ∀ b, c.store.kmem p = some b →
      ∀ n, c.store.heap b = some n →
        n.val.m = m ∨ accessIsWrite n.val.m ≠ accessIsWrite m
  | _, _ => True

section inv

variable {k} {c c' : LruDouble V} {l : Bool → List BlkId} {w : Bool} {b : BlkId}
  {m : AccessMode} {n : Node BlkId (Blk Uses)} {p : Ptr} {turns : Nat}

@[simp] theorem ends_withLists_self (w : Bool) (s : Store Uses V)
    (mine other : Ends BlkId) : (withLists w s mine other).ends w = mine := by
  cases w <;> rfl

@[simp] theorem ends_withLists_not (w : Bool) (s : Store Uses V)
    (mine other : Ends BlkId) :
    (withLists w s mine other).ends (!w) = other := by
  cases w <;> rfl

@[simp] theorem store_withLists (w : Bool) (s : Store Uses V)
    (mine other : Ends BlkId) : (withLists w s mine other).store = s := by
  cases w <;> rfl

theorem forall_bool_iff (w : Bool) {P : Bool → Prop} :
    (∀ v, P v) ↔ P w ∧ P !w := by
  cases w <;> simp [and_comm]

theorem init_inv : Inv k (init : LruDouble V) fun _ => [] := by
  refine ⟨Store.init_wf k, fun w => ?_, fun _ _ =>
    iff_of_false List.not_mem_nil fun ⟨_, h, _⟩ => nomatch h⟩
  cases w
  · exact isList_nil _
  · exact isList_nil _

theorem Lists.disjoint (hi : Lists c l) (hb : b ∈ l w) : b ∉ l !w := by
  intro hb'
  obtain ⟨n, hn, hm⟩ := (hi.mem_iff w b).mp hb
  obtain ⟨n', hn', hm'⟩ := (hi.mem_iff _ b).mp hb'
  rw [hn] at hn'
  rw [← Option.some.inj hn', hm] at hm'
  cases w <;> cases hm'

theorem Inv.lists (hi : Inv k c l) : Lists c l := ⟨hi.list, hi.mem_iff⟩

/-- The lists after the one of `w` has changed to `mine`, the other one
to `other`. -/
def lists (w : Bool) (mine other : List BlkId) (v : Bool) : List BlkId :=
  if v = w then mine else other

@[simp] theorem lists_self (w : Bool) (mine other : List BlkId) :
    lists w mine other w = mine :=
  if_pos rfl

@[simp] theorem lists_not (w : Bool) (mine other : List BlkId) :
    lists w mine other (!w) = other :=
  if_neg (by cases w <;> decide)

theorem lists_withLists {s : Store Uses V} {mine other : Ends BlkId} {lm lo : List BlkId}
    (hm : IsList s.heap mine lm) (ho : IsList s.heap other lo)
    (hmm : ∀ b, b ∈ lm ↔ ∃ n, s.heap b = some n ∧ accessIsWrite n.val.m = w)
    (hmo : ∀ b, b ∈ lo ↔ ∃ n, s.heap b = some n ∧ accessIsWrite n.val.m = !w) :
    Lists (withLists w s mine other) (lists w lm lo) := by
  constructor
  · rw [forall_bool_iff w]
    simpa using ⟨hm, ho⟩
  · rw [forall_bool_iff w]
    simpa using ⟨hmm, hmo⟩

theorem Lists.insertIn (hi : Lists c l) {u : Uses} (p : Ptr) (size : BitVec 64)
    (d : MetadataInfo V) (hb : c.store.heap b = none) (hw : accessIsWrite m = w) :
    ∃ c' h', c.insertIn w u b p size m d = some c'
      ∧ Lists c' (lists w (l w ++ [b]) (l !w))
      ∧ c'.store =
        { heap := h'
          kmem := update c.store.kmem p (some b)
          used := c.store.used + size
          mdi := update c.store.mdi p d }
      ∧ SameVals (update c.store.heap b
        (some ⟨⟨p, m, size, u⟩, none, none⟩)) h' := by
  have hbl : ∀ v, b ∉ l v := by
    intro v
    rw [hi.mem_iff, hb]
    intro ⟨n, hn, _⟩
    cases hn
  have hl : ∀ v, IsList (update c.store.heap b
      (some ⟨⟨p, m, size, u⟩, none, none⟩)) (c.ends v) (l v) :=
    fun v => (hi.list v).congr fun i hil =>
      update_of_ne (ne_of_mem_of_not_mem hil (hbl v)) ..
  obtain ⟨h', e', hr, hl', hv, hag⟩ := insertLast_spec (hl w) (hbl w) (by simp)
  have hlo : IsList h' (c.ends !w) (l !w) := by
    refine (hl !w).congr fun i hio => hag i fun him => ?_
    rw [List.mem_append, List.mem_singleton] at him
    rcases him with him | rfl
    · exact hi.disjoint him hio
    · exact hbl _ hio
  have hval : ∀ v i, (∃ n, h' i = some n ∧ accessIsWrite n.val.m = v)
      ↔ (i = b ∧ w = v) ∨ i ∈ l v := by
    intro v i
    rw [hv.exists_iff i fun blk => accessIsWrite blk.m = v, hi.mem_iff]
    by_cases hib : i = b
    · rw [hib, update_self, hb]
      simp [hw]
    · rw [update_of_ne hib]
      simp [hib]
  refine ⟨_, h', ?_, lists_withLists (w := w) (s :=
    { heap := h'
      kmem := update c.store.kmem p (some b)
      used := c.store.used + size
      mdi := update c.store.mdi p d }) hl' hlo
    (fun i => ?_) fun i => ?_, store_withLists .., hv⟩
  · unfold LruDouble.insertIn
    simp only [hr, Option.bind_eq_bind, Option.bind_some]
    rfl
  · rw [hval, List.mem_append, List.mem_singleton]
    simp [or_comm]
  · rw [hval]
    have : ¬ w = !w := by cases w <;> decide
    simp [this]

/-- A use that respects the lists. -/
theorem Lists.incUseIn (hi : Lists c l) (bump : Uses → Uses) (hw : accessIsWrite m = w)
    (hn : c.store.heap b = some n) (hm : CanUse n m) :
    ∃ c' l' h', c.incUseIn w bump b m = some c' ∧ Lists c' l'
      ∧ c'.store = { c.store with heap := h' }
      ∧ SameVals (update c.store.heap b
        (some { n with val := { n.val with m := m, u := bump n.val.u } }))
        h' := by
  generalize hh₁ : update c.store.heap b
    (some { n with val := { n.val with u := bump n.val.u } }) = h₁
  have hb₁ : h₁ b
      = some { n with val := { n.val with u := bump n.val.u } } := by
    rw [← hh₁, update_self]
  have hlist : ∀ v, IsList h₁ (c.ends v) (l v) := by
    intro v
    rw [← hh₁]
    exact (hi.list v).setVal hn
  have hclass₁ : ∀ v i, (∃ n', h₁ i = some n' ∧ accessIsWrite n'.val.m = v)
      ↔ i ∈ l v := by
    intro v i
    rw [hi.mem_iff, ← hh₁]
    by_cases hib : i = b
    · rw [hib, hn, update_self]
      simp
    · rw [update_of_ne hib]
  unfold LruDouble.incUseIn
  simp only [hn, hh₁, Option.bind_eq_bind, Option.bind_some]
  by_cases hne : n.val.m ≠ m
  · rw [if_pos hne]
    -- after the move the mode of the block is the one of the use
    have hmode : ∀ {h₃ : Heap BlkId (Blk Uses)}, SameVals h₁ h₃ →
        ∃ n₃, h₃ b = some n₃ ∧ SameVals (update c.store.heap b
          (some { n with val := { n.val with m := m, u := bump n.val.u } }))
          (update h₃ b
            (some { n₃ with val := { n₃.val with m := m } })) := by
      intro h₃ hv
      obtain ⟨n₃, hn₃, hval₃⟩ :=
        (hv.exists_iff b fun blk => blk = { n.val with u := bump n.val.u }).mpr
          ⟨_, hb₁, rfl⟩
      refine ⟨n₃, hn₃, ?_⟩
      intro i
      by_cases hib : i = b
      · rw [hib, update_self, update_self]
        simp [hval₃]
      · rw [update_of_ne hib, update_of_ne hib, hv i, ← hh₁,
          update_of_ne hib]
    have hclass : ∀ {h' : Heap BlkId (Blk Uses)},
        SameVals (update c.store.heap b
          (some { n with val := { n.val with m := m, u := bump n.val.u } }))
          h' → ∀ v i, (∃ n', h' i = some n' ∧ accessIsWrite n'.val.m = v)
            ↔ (i = b ∧ w = v) ∨ (i ≠ b ∧ i ∈ l v) := by
      intro h' hv v i
      rw [hv.exists_iff i fun blk => accessIsWrite blk.m = v]
      by_cases hib : i = b
      · rw [hib, update_self]
        simp [hw]
      · rw [update_of_ne hib, hi.mem_iff]
        simp [hib]
    by_cases hcl : accessIsWrite n.val.m = w
    · -- a block of this list, taken out of it as if it were in the other
      have hb : b ∈ l w := (hi.mem_iff _ _).mpr ⟨n, hn, hcl⟩
      obtain ⟨hp, hx⟩ : n.prev.isSome ∧ n.next.isSome := by
        rcases hm with hm | hm | hm
        · exact absurd hm hne
        · rw [hcl, hw] at hm
          exact absurd rfl hm
        · exact hm
      obtain ⟨a, hp⟩ := Option.isSome_iff_exists.mp hp
      obtain ⟨x, hx⟩ := Option.isSome_iff_exists.mp hx
      obtain ⟨h₂, e₂, h₃, e₃, hr₂, hr₃, hlm, hv, hag⟩ :=
        moveLast_spec (hlist w) hb
      obtain ⟨rfl, hr₂'⟩ := unlink_of_links hb₁ hp hx hr₂ (c.ends !w)
      obtain ⟨n₃, hn₃, hsame⟩ := hmode hv
      simp only [hr₂', hr₃, hn₃, Option.bind_some]
      have hlo : IsList h₃ (c.ends !w) (l !w) :=
        (hlist !w).congr fun i hio =>
          hag i fun him => hi.disjoint him hio
      refine ⟨_, lists w ((l w).erase b ++ [b]) (l !w), _, rfl,
        lists_withLists (hlm.setVal hn₃) (hlo.setVal hn₃)
        (fun i => ?_) fun i => ?_, store_withLists .., hsame⟩
      · rw [hclass hsame, List.mem_append, List.mem_singleton]
        by_cases hib : i = b
        · simp [hib]
        · simp [hib, List.mem_erase_of_ne hib]
      · rw [hclass hsame]
        have hself : ¬ w = !w := by cases w <;> decide
        have hbo : b ∉ l !w := hi.disjoint hb
        by_cases hib : i = b
        · simp [hib, hself, hbo]
        · simp [hib]
    · -- the block comes from the list of the other kind
      have hcl' : accessIsWrite n.val.m = !w := Bool.eq_not_iff.mpr hcl
      have hb : b ∈ l !w := (hi.mem_iff _ _).mpr ⟨n, hn, hcl'⟩
      have hbw : b ∉ l w := by
        have := hi.disjoint hb
        rwa [Bool.not_not] at this
      obtain ⟨h₂, e₂, h₃, e₃, hr₂, hr₃, hlo, hlm, hv⟩ :=
        moveBetween_spec (hlist !w) (hlist w)
          (fun i hio him => hi.disjoint him hio) hb
      obtain ⟨n₃, hn₃, hsame⟩ := hmode hv
      simp only [hr₂, hr₃, hn₃, Option.bind_some]
      refine ⟨_, lists w (l w ++ [b]) ((l !w).erase b), _, rfl,
        lists_withLists (hlm.setVal hn₃) (hlo.setVal hn₃)
        (fun i => ?_) fun i => ?_, store_withLists .., hsame⟩
      · rw [hclass hsame, List.mem_append, List.mem_singleton]
        by_cases hib : i = b
        · simp [hib]
        · simp [hib]
      · rw [hclass hsame]
        by_cases hib : i = b
        · have hself : ¬ w = !w := by cases w <;> decide
          rw [hib]
          simp [hself, (hlist !w).nodup.not_mem_erase]
        · rw [List.mem_erase_of_ne hib]
          simp [hib]
  · -- the block stays in its list
    rw [if_neg hne]
    rw [not_not] at hne
    have hcl : accessIsWrite n.val.m = w := by rw [hne, hw]
    have hb : b ∈ l w := (hi.mem_iff _ _).mpr ⟨n, hn, hcl⟩
    have hsame₁ : SameVals (update c.store.heap b
        (some { n with val := { n.val with m := m, u := bump n.val.u } }))
        h₁ := by
      rw [← hh₁, ← hne]
      exact SameVals.refl _
    by_cases hlast : n.next = none
    · rw [if_pos hlast]
      exact ⟨_, lists w (l w) (l !w), _, rfl,
        lists_withLists (hlist w) (hlist !w)
          (fun i => (hclass₁ w i).symm) (fun i => (hclass₁ _ i).symm),
        store_withLists .., hsame₁⟩
    · rw [if_neg hlast]
      obtain ⟨h₂, e₂, h₃, e₃, hr₂, hr₃, hlm, hv, hag⟩ :=
        moveLast_spec (hlist w) hb
      simp only [hr₂, hr₃, Option.bind_some]
      have hlo : IsList h₃ (c.ends !w) (l !w) :=
        (hlist !w).congr fun i hio =>
          hag i fun him => hi.disjoint him hio
      have hclass : ∀ v i, (∃ n', h₃ i = some n'
          ∧ accessIsWrite n'.val.m = v) ↔ i ∈ l v := by
        intro v i
        rw [hv.exists_iff i fun blk => accessIsWrite blk.m = v]
        exact hclass₁ v i
      refine ⟨_, lists w ((l w).erase b ++ [b]) (l !w), _, rfl,
        lists_withLists hlm hlo (fun i => ?_) fun i => ?_,
        store_withLists .., hsame₁.trans hv⟩
      · rw [hclass, List.mem_append, List.mem_singleton]
        by_cases hib : i = b
        · simp [hib, hb]
        · simp [hib, List.mem_erase_of_ne hib]
      · rw [hclass]

section

variable (hi : Inv k c l)
include hi

theorem Inv.setVal (hn : c.store.heap b = some n) (blk : Blk Uses)
    (hp : blk.ptr = n.val.ptr) (hm : blk.m = n.val.m) :
    Inv k { c with store := { c.store with
      heap := update c.store.heap b (some { n with val := blk }) } }
      l := by
  refine ⟨hi.wf.setVal hn blk hp, fun w => ?_, fun w i => ?_⟩
  · have := (hi.list w).setVal hn (v := blk)
    cases w
    · exact this
    · exact this
  · rw [hi.mem_iff]
    dsimp only
    by_cases hib : i = b
    · rw [hib, hn, update_self]
      simp [hm]
    · rw [update_of_ne hib]

theorem Inv.insertIn {u : Uses} {size : BitVec 64} {d : MetadataInfo V}
    (hc : c.store.CanInsert k b p d) (hw : accessIsWrite m = w) :
    ∃ c' l', c.insertIn w u b p size m d = some c' ∧ Inv k c' l' := by
  obtain ⟨hb, hp, hd, hback⟩ := hc
  rw [Option.isNone_iff_eq_none] at hb hp
  obtain ⟨c', h', hrun, hl', hstore, hv⟩ := hi.lists.insertIn p size d hb hw
  refine ⟨c', _, hrun, ?_, hl'.list, hl'.mem_iff⟩
  have hwf := hi.wf.insert ⟨p, m, size, u⟩ hb hp hd hback (c.store.used + size)
  rw [hstore]
  exact hwf.setHeap hv

theorem Inv.insert (size : BitVec 64) (m : AccessMode) {d : MetadataInfo V}
    (hc : c.store.CanInsert k b p d) :
    ∃ c' l', c.insert b p size m d = some c' ∧ Inv k c' l' := by
  unfold LruDouble.insert
  split
  next hm => exact hi.insertIn hc hm
  next hm => exact hi.insertIn hc (Bool.eq_false_iff.mpr hm)

theorem Inv.incUseIn {bump : Uses → Uses} (hw : accessIsWrite m = w)
    (hn : c.store.heap b = some n)
    (hm : n.val.m = m ∨ accessIsWrite n.val.m ≠ accessIsWrite m) :
    ∃ c' l', c.incUseIn w bump b m = some c' ∧ Inv k c' l' := by
  obtain ⟨c', l', h', hrun, hl', hstore, hv⟩ :=
    hi.lists.incUseIn bump hw hn (hm.imp_right .inl)
  refine ⟨c', l', hrun, ?_, hl'.list, hl'.mem_iff⟩
  rw [hstore]
  exact (hi.wf.setVal hn { n.val with
    m := m
    u := bump n.val.u } rfl).setHeap hv

theorem Inv.incUse (hm : Meets (.incUse p m) c) :
    ∃ c' l', c.incUse p m = some c' ∧ Inv k c' l' := by
  unfold LruDouble.incUse
  cases hp : c.store.kmem p with
  | none => exact ⟨c, l, rfl, hi⟩
  | some b =>
    obtain ⟨n, hn, -⟩ := (hi.wf.kmem_iff p b).mp hp
    have hmn := hm b hp n hn
    dsimp only
    split
    next hw => exact hi.incUseIn hw hn hmn
    next hw => exact hi.incUseIn (Bool.eq_false_iff.mpr hw) hn hmn

theorem Inv.decUse (p : Ptr) (m : AccessMode) :
    ∃ c', c.decUse p m = some c' ∧ Inv k c' l := by
  unfold LruDouble.decUse
  cases hp : c.store.kmem p with
  | none => exact ⟨c, rfl, hi⟩
  | some b =>
    obtain ⟨n, hn, -⟩ := (hi.wf.kmem_iff p b).mp hp
    simp only [hn, Option.bind_eq_bind, Option.bind_some]
    exact ⟨_, rfl, hi.setVal hn { n.val with u := _ } rfl rfl⟩

end

-- ======== evictions

/-- The report a block gets: that of its list. -/
def reports (c : LruDouble V) (b : BlkId) : Bool :=
  match c.store.heap b with
  | some n => accessIsWrite n.val.m
  | none => false

theorem reports_eq (hn : c.store.heap b = some n) :
    reports c b = accessIsWrite n.val.m := by
  unfold reports
  rw [hn]

/-- The victims in the list `w`. -/
def victimsIn (c : LruDouble V) (size : BitVec 64) (l : Bool → List BlkId)
    (w : Bool) : List BlkId :=
  victims hasAccess size c.store.heap (l w) 0

theorem Inv.removeIn (hk : k ≠ hostLid) (hi : Inv k c l) (w : Bool)
    (reportBlk : BlkId → Bool) (size : BitVec 64) (hrep : ∀ b ∈ l w, reportBlk b = w)
    (hturns : (l w).length < turns) :
    ∃ dp s' e' l', removeFrom k hasAccess (fun _ => w) size turns c.store
        (c.ends w) = some (dp, s', e')
      ∧ Inv k (withLists w s' e' (c.ends !w)) l' ∧ l' (!w) = l (!w)
      ∧ (∀ b ∈ l !w, s'.heap b = c.store.heap b)
      ∧ Removed k reportBlk c.store s' (c.victimsIn size l w)
      ∧ (c.victimsIn size l w = [] → dp = 0) := by
  obtain ⟨dp, s', e', hrun, hl', hr, hag, hdp⟩ :=
    removeFrom_spec hk hasAccess (fun _ => w) reportBlk size (hi.list w)
      hi.wf (fun b hb _ _ => hrep b hb) hturns
  have hother : ∀ b ∈ l !w, s'.heap b = c.store.heap b :=
    fun b hb => hag b fun hbw => hi.lists.disjoint hbw hb
  have hmine : ∀ b, b ∈ (l w).filter (· ∉ c.victimsIn size l w)
      ↔ ∃ n, s'.heap b = some n ∧ accessIsWrite n.val.m = w := fun b => by
    rw [hr.exists_iff b fun blk => accessIsWrite blk.m = w, ← hi.mem_iff,
      List.mem_filter, decide_eq_true_eq, and_comm]
    exact Iff.rfl
  have hlists := lists_withLists hl' ((hi.list !w).congr hother) hmine fun b => by
    rw [hr.exists_iff b fun blk => accessIsWrite blk.m = !w, ← hi.mem_iff]
    refine (and_iff_right_of_imp fun hb hv => ?_).symm
    exact hi.lists.disjoint (of_mem_victims hv).1 hb
  refine ⟨dp, s', e', _, hrun, ⟨?_, hlists.list, hlists.mem_iff⟩, by simp, hother,
    hr, hdp⟩
  rw [store_withLists]
  exact hr.wf hi.wf

/-- `remove` takes the victims of `ro`, and those of `rw` unless it has
found a block that is large enough. -/
theorem Inv.remove (hk : k ≠ hostLid) (hi : Inv k c l) (size : BitVec 64)
    (hturns : ∀ w, (l w).length < turns) :
    ∃ dp c' l' vs, c.remove k size turns = some (dp, c') ∧ Inv k c' l'
      ∧ Removed k (reports c) c.store c'.store (c.victimsIn size l false ++ vs)
      ∧ (∀ b ∈ vs, b ∈ c.victimsIn size l true)
      ∧ (c.victimsIn size l false = [] → vs = c.victimsIn size l true) := by
  have hrep : ∀ w, ∀ b ∈ l w, reports c b = w := by
    intro w b hb
    obtain ⟨n, hn, hm⟩ := (hi.mem_iff w b).mp hb
    rw [reports_eq hn, hm]
  obtain ⟨dp, s₁, e₁, l₁, hrun, hi₁, hl₁, hother, hr, hdp⟩ :=
    hi.removeIn hk false (reports c) size (hrep false) (hturns false)
  have hrun' : c.removeRo k size turns = some (dp, ⟨s₁, e₁, c.rw⟩) := by
    unfold LruDouble.removeRo
    rw [show c.ro = c.ends false from rfl, hrun]
    rfl
  unfold LruDouble.remove
  rw [hrun', Option.bind_eq_bind, Option.bind_some]
  dsimp only
  by_cases h0 : dp = 0
  · rw [if_pos h0]
    have hi₁' : Inv k (⟨s₁, e₁, c.rw⟩ : LruDouble V) l₁ := hi₁
    have hl₁' : l₁ true = l true := hl₁
    obtain ⟨dp₂, s₂, e₂, l₂, hrun₂, hi₂, -, -, hr₂, -⟩ :=
      hi₁'.removeIn hk true (reports c) size
        (fun b hb => hrep true b (hl₁' ▸ hb)) (hl₁' ▸ hturns true)
    have hvs : (⟨s₁, e₁, c.rw⟩ : LruDouble V).victimsIn size l₁ true
        = c.victimsIn size l true := by
      unfold victimsIn
      rw [hl₁']
      refine victims_congr 0 fun b hb => ?_
      rw [hother b hb]
    refine ⟨dp₂, ⟨s₂, e₁, e₂⟩, l₂, _, ?_, hi₂, hr.append hr₂,
      fun b hb => hvs ▸ hb, fun _ => hvs⟩
    unfold LruDouble.removeRw
    rw [show (⟨s₁, e₁, c.rw⟩ : LruDouble V).rw
      = (⟨s₁, e₁, c.rw⟩ : LruDouble V).ends true from rfl, hrun₂]
    rfl
  · rw [if_neg h0]
    refine ⟨dp, _, l₁, [], rfl, hi₁, by rwa [List.append_nil],
      fun b hb => absurd hb List.not_mem_nil, fun hnil => ?_⟩
    exact absurd (hdp hnil) h0

theorem remove_mono {size : BitVec 64} {turns' : Nat} (hle : turns ≤ turns')
    {r : Ptr × LruDouble V} (hr : c.remove k size turns = some r) :
    c.remove k size turns' = some r := by
  unfold LruDouble.remove LruDouble.removeRo at hr ⊢
  simp only [Option.bind_eq_bind, Option.bind_eq_some_iff] at hr ⊢
  obtain ⟨⟨dp, c₁⟩, ⟨r₁, hr₁, hc₁⟩, hr⟩ := hr
  refine ⟨⟨dp, c₁⟩, ⟨r₁, removeFrom_mono hle hr₁, hc₁⟩, ?_⟩
  dsimp only at hr ⊢
  split
  next h0 =>
    rw [if_pos h0] at hr
    unfold LruDouble.removeRw at hr ⊢
    rw [Option.bind_eq_bind, Option.bind_eq_some_iff] at hr ⊢
    obtain ⟨r₂, hr₂, hr⟩ := hr
    exact ⟨r₂, removeFrom_mono hle hr₂, hr⟩
  next h0 =>
    rw [if_neg h0] at hr
    exact hr

theorem Inv.step (hk : k ≠ hostLid) {op : CacheOp V} (hm : Meets op c)
    (hi : ∃ l, Inv k c l) (hs : step k op c = some c') :
    ∃ l, Inv k c' l := by
  obtain ⟨l, hi⟩ := hi
  cases op with
  | insert b p size m d =>
    simp only [LruDouble.step] at hs
    split at hs
    next hc =>
      obtain ⟨c₁, l₁, hc₁, hi₁⟩ := hi.insert size m hc
      rw [hc₁] at hs
      exact ⟨l₁, Option.some.inj hs ▸ hi₁⟩
    next => cases hs
  | incUse p m =>
    obtain ⟨c₁, l₁, hc₁, hi₁⟩ := hi.incUse hm
    simp only [LruDouble.step, hc₁] at hs
    exact ⟨l₁, Option.some.inj hs ▸ hi₁⟩
  | decUse p m =>
    obtain ⟨c₁, hc₁, hi₁⟩ := hi.decUse p m
    simp only [LruDouble.step, hc₁] at hs
    exact ⟨l, Option.some.inj hs ▸ hi₁⟩
  | remove size turns =>
    have hbig : ∀ w, (l w).length
        < (l true).length + (l false).length + turns + 1 := by
      intro w
      cases w <;> omega
    obtain ⟨dp, c₁, l₁, vs, hc₁, hi₁, -⟩ := hi.remove hk size hbig
    simp only [LruDouble.step, Option.map_eq_some_iff] at hs
    obtain ⟨⟨dp', c₂⟩, hc₂, rfl⟩ := hs
    have hmax := remove_mono (show turns ≤ (l true).length
      + (l false).length + turns + 1 by omega) hc₂
    rw [hc₁] at hmax
    exact ⟨l₁, (Prod.mk.inj (Option.some.inj hmax)).2 ▸ hi₁⟩
  | protocol p d =>
    simp only [LruDouble.step, Option.map_eq_some_iff] at hs
    obtain ⟨s, hs, rfl⟩ := hs
    unfold Store.protocol at hs
    split at hs
    next hd =>
      cases hs
      refine ⟨l, hi.wf.setMdi hd.1 hd.2, fun w => ?_, hi.mem_iff⟩
      have := hi.list w
      cases w
      · exact this
      · exact this
    next => cases hs

/-- In every state a run leads to whose uses respect the lists, an
eviction goes through, and it is safe exactly when every block of `ro` is
in use, and each block it takes from `rw` has a place on the host if it
needs one. -/
theorem remove_safe_iff (hk : k ≠ hostLid) {ops : List (CacheOp V)}
    (hmeets : StepMachine.Along (step k) Meets ops init)
    (hrun : StepMachine.run (step k) ops init = some c) :
    ∃ l : Bool → List BlkId, (∀ w, IsList c.store.heap (c.ends w) (l w))
      ∧ ∀ size turns, (∀ w, (l w).length < turns) →
        ∃ c', step k (.remove size turns) c = some c'
          ∧ (EvictionSafe k hasAccess c.store c'.store
            ↔ (∀ b ∈ l false, ∀ n, c.store.heap b = some n →
                hasAccess n.val.u = true)
              ∧ ∀ b ∈ c.victimsIn size l true, ∀ n,
                c.store.heap b = some n →
                  HostReady k (c.store.mdi n.val.ptr)) := by
  obtain ⟨l, hi⟩ := hmeets.run_inv (P := fun c => ∃ l, Inv k c l)
    (fun hm hi hs => Inv.step hk hm hi hs) ⟨_, init_inv⟩ hrun
  refine ⟨l, hi.list, fun size turns hturns => ?_⟩
  obtain ⟨dp, c', l', vs, hc', -, hr, hsub, hall⟩ := hi.remove hk size hturns
  refine ⟨c', by simp only [step, hc']; rfl, ?_⟩
  have hidle : ∀ b ∈ c.victimsIn size l false ++ vs,
      ∃ n, c.store.heap b = some n ∧ hasAccess n.val.u = false := by
    intro b hb
    rcases List.mem_append.mp hb with hb | hb
    · exact (of_mem_victims hb).2
    · exact (of_mem_victims (hsub b hb)).2
  have hnil : c.victimsIn size l false = [] ↔ ∀ b ∈ l false, ∀ n,
      c.store.heap b = some n → hasAccess n.val.u = true := by
    refine victims_eq_nil_iff fun b hb => ?_
    obtain ⟨n, hn, -⟩ := (hi.mem_iff false b).mp hb
    rw [hn]
    rfl
  rw [hr.safe_iff hk hi.wf hidle, ← hnil]
  constructor
  · intro hsafe
    have hro : c.victimsIn size l false = [] := by
      rw [List.eq_nil_iff_forall_not_mem]
      intro b hb
      obtain ⟨n, hn, hm⟩ := (hi.mem_iff false b).mp (of_mem_victims hb).1
      have := (hsafe b (List.mem_append_left vs hb)).1
      rw [reports_eq hn, hm] at this
      cases this
    refine ⟨hro, fun b hb => (hsafe b ?_).2⟩
    rw [hall hro]
    exact List.mem_append_right _ hb
  · rintro ⟨hro, hready⟩ b hb
    rw [hro, List.nil_append] at hb
    have hb' := hsub b hb
    obtain ⟨n, hn, hm⟩ := (hi.mem_iff true b).mp (of_mem_victims hb').1
    exact ⟨by rw [reports_eq hn, hm], hready b hb'⟩

end inv

end LruDouble

end XKaapi.Memory
