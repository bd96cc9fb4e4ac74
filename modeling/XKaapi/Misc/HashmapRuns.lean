/-
What a run of calls does to a hash map, whatever blocks it is given and
whatever is in them.

The invariant says of each bucket that its chain is the sublist of the
finite map with the keys of the bucket (`Inv.chain`), and of the current
block that the entries in it lie before its first free cell
(`Inv.frontier`). It holds without any assumption on the bits of the
heads that are not in use or on the cells that are used again: a head is
read only where it was set, and a cell is written whole before it is
linked, up to the value.

So the maps are the finite map in every state, and the values are right to
the last byte iff `findinsert` never creates an entry in a cell whose tail
is not zero (`hashmaps_run`).
-/
import XKaapi.Misc.Hashmap

namespace XKaapi.Hashmaps

open StepMachine Chains
open Function (update update_apply update_of_ne update_self)

-- ======== memory

section memory

variable (m : Mem)

theorem Mem.entry_setEntry (e : EntryId) (x : Entry) (e' : EntryId) :
    (m.setEntry e x).entry e' = if e' = e then x else m.entry e' := by
  unfold Mem.setEntry Mem.entry
  by_cases hb : e'.bloc = e.bloc
  · rw [hb, update_self]
    dsimp only
    by_cases hi : e'.i = e.i
    · have he : e' = e := by
        cases e'
        cases e
        cases hb
        cases hi
        rfl
      rw [if_pos he, hi, update_self]
    · rw [if_neg fun he => hi (congrArg EntryId.i he),
        update_of_ne hi]
  · rw [if_neg fun he => hb (congrArg EntryId.bloc he),
      update_of_ne hb]

@[simp] theorem Mem.pos_setEntry (e : EntryId) (x : Entry) (b : Nat) :
    (m.setEntry e x b).pos = (m b).pos := by
  unfold Mem.setEntry
  by_cases hb : b = e.bloc
  · rw [hb, update_self]
  · rw [update_of_ne hb]

@[simp] theorem Mem.entry_setPos (b pos : Nat) (e : EntryId) :
    (m.setPos b pos).entry e = m.entry e := by
  unfold Mem.setPos Mem.entry
  by_cases hb : e.bloc = b
  · rw [hb, update_self]
  · rw [update_of_ne hb]

@[simp] theorem Mem.pos_setPos_self (b pos : Nat) :
    (m.setPos b pos b).pos = pos := by
  unfold Mem.setPos
  rw [update_self]

@[simp] theorem Mem.entry_linkBloc (b : Nat) (x : Option Nat) (e : EntryId) :
    (m.linkBloc b x).entry e = m.entry e := by
  unfold Mem.linkBloc Mem.entry
  by_cases hb : e.bloc = b
  · rw [hb, update_self]
  · rw [update_of_ne hb]

@[simp] theorem Mem.pos_linkBloc_self (b : Nat) (x : Option Nat) :
    (m.linkBloc b x b).pos = 0 := by
  unfold Mem.linkBloc
  rw [update_self]

end memory

variable {H : Type} {B : Buckets H} {s s' : State H} {ptr : BitVec 64} {b : Nat}
  {r : EntryId × Hashmap H × Mem} {memset : Value → Value} {a : Action}

-- ======== the invariant

/-- The entries of the bucket `k`, the most recent one first. -/
def bucket (B : Buckets H) (live : List Live) (k : Fin B.size) : List Live :=
  live.filter fun l => decide (B.hkey l.key = k)

/-- The invariant of every run. -/
structure Inv (B : Buckets H) (s : State H) : Prop where
  chain : ∀ k, Chain (fun e => (s.mem.entry e).next) (B.get s.khm.heads k)
    ((bucket B s.live k).map Live.addr)
  distinct : (s.live.map Live.addr).Nodup
  place : ∀ e ∈ s.live, e.addr.bloc ∈ s.handed ∧ e.addr.i < blocentriesSize
  key : ∀ e ∈ s.live, (s.mem.entry e.addr).key = e.key
  value : ∀ e ∈ s.live, ∀ i : Fin sizeofU, i.val < sizeofGd →
    (s.mem.entry e.addr).u i = e.u i
  frontier : ∀ c, s.khm.currentbloc = some c →
    c ∈ s.handed ∧ (s.mem c).pos < blocentriesSize
      ∧ ∀ e ∈ s.live, e.addr.bloc = c → e.addr.i < (s.mem c).pos

/-- The search in a bucket finds the live entry of a pointer. -/
theorem Inv.findFrom (h : Inv B s) (ptr : BitVec 64) :
    findFrom s.mem ptr s.live.length (B.get s.khm.heads (B.hkey ptr))
      = some ((lookup s.live ptr).map Live.addr) := by
  unfold Hashmaps.findFrom
  rw [(h.chain (B.hkey ptr)).search, List.find?_map]
  · have htest : ∀ l ∈ s.live,
        ((fun e => decide ((s.mem.entry e).key = ptr)) ∘ Live.addr) l
          = decide (l.key = ptr) := by
      intro l hl
      show decide ((s.mem.entry l.addr).key = ptr) = _
      rw [h.key l hl]
    unfold bucket lookup
    rw [find?_bucket, List.find?_congr htest]
    intro l hl ht
    rw [htest l hl] at ht
    exact decide_eq_true (congrArg B.hkey (of_decide_eq_true ht))
  · rw [List.length_map]
    exact List.length_filter_le _ _

/-- kaapi_hashmap_findinsert finds that entry, or makes one. -/
theorem Inv.findinsert (h : Inv B s) (ptr : BitVec 64) (b : Nat) :
    findinsert B s.live.length s.khm s.mem ptr b
      = some (match lookup s.live ptr with
        | some e => (e.addr, s.khm, s.mem)
        | none => newEntry B zeroGd s.khm s.mem ptr b) := by
  unfold Hashmaps.findinsert
  rw [h.findFrom ptr]
  cases lookup s.live ptr with
  | none => rfl
  | some e => rfl

/-- The same as a step. -/
theorem Inv.step_findinsert (h : Inv B s) (ptr : BitVec 64) (b : Nat) :
    step B (.findinsert ptr b) s = match lookup s.live ptr with
      | some _ => some s
      | none => s.created ptr b (newEntry B zeroGd s.khm s.mem ptr b) := by
  rw [step, h.findinsert ptr b]
  cases lookup s.live ptr with
  | none => rfl
  | some e => rfl

theorem created_eq_some (h : s.created ptr b r = some s') :
    s.MallocOk b ∧ s' =
      { khm := r.2.1
        mem := r.2.2
        handed := if s.khm.currentbloc = none then b :: s.handed else s.handed
        live := ⟨ptr, r.1, fun _ => 0⟩ :: s.live } := by
  unfold State.created at h
  split at h
  next hb =>
    cases h
    exact ⟨hb, rfl⟩
  next => cases h

theorem created_isSome (r : EntryId × Hashmap H × Mem) (hb : s.MallocOk b) :
    (s.created ptr b r).isSome := by
  unfold State.created
  rw [if_pos hb]
  rfl

/-- The maps show the live entries. -/
theorem Inv.refines (h : Inv B s) : Refines B s where
  find := h.findFrom
  found ptr b e he := by rw [h.findinsert ptr b, he]
  enabled ptr b hb := by
    refine ⟨created_isSome _ hb, ?_⟩
    rw [h.step_findinsert ptr b]
    cases lookup s.live ptr with
    | none => exact created_isSome _ hb
    | some e => rfl
  distinct := h.distinct
  place := h.place
  key := h.key
  value := h.value

-- ======== a new entry

/-- What the creation of an entry does to the map and the memory. -/
structure Carved (B : Buckets H) (memset : Value → Value) (s : State H)
    (ptr : BitVec 64) (b : Nat) (r : EntryId × Hashmap H × Mem) : Prop where
  addr : r.1 = s.nextCell b
  heads : r.2.1.heads = B.set s.khm.heads (B.hkey ptr) (some (s.nextCell b))
  entry : ∀ e, r.2.2.entry e = if e = s.nextCell b then
      { u := memset (s.mem.entry (s.nextCell b)).u
        key := ptr
        next := B.get s.khm.heads (B.hkey ptr) }
    else s.mem.entry e
  current : ∀ c, r.2.1.currentbloc = some c →
    c = (s.nextCell b).bloc ∧ (r.2.2 c).pos = (s.nextCell b).i + 1
      ∧ (s.nextCell b).i + 1 ≠ blocentriesSize

/-- What a new entry changes. -/
theorem newEntry_spec (memset : Value → Value) (s : State H)
    (ptr : BitVec 64) (b : Nat) :
    Carved B memset s ptr b (newEntry B memset s.khm s.mem ptr b) := by
  unfold newEntry takeBloc
  cases hc : s.khm.currentbloc with
  | some c =>
    have hcell : s.nextCell b = ⟨c, (s.mem c).pos⟩ := by
      unfold State.nextCell
      rw [hc]
    dsimp only
    refine ⟨hcell.symm, by rw [hcell], fun e => ?_, fun c' hc' => ?_⟩
    · rw [Mem.entry_setPos, Mem.entry_setEntry, hcell]
    · dsimp only at hc'
      rw [Mem.pos_setPos_self, Mem.pos_setEntry] at hc'
      split at hc'
      next => cases hc'
      next hne =>
        cases hc.symm.trans hc'
        rw [hcell]
        refine ⟨rfl, ?_, hne⟩
        rw [Mem.pos_setPos_self, Mem.pos_setEntry]
  | none =>
    have hcell : s.nextCell b = ⟨b, 0⟩ := by
      unfold State.nextCell
      rw [hc]
    dsimp only
    rw [Mem.pos_linkBloc_self]
    refine ⟨hcell.symm, by rw [hcell], fun e => ?_, fun c' hc' => ?_⟩
    · rw [Mem.entry_setPos, Mem.entry_setEntry, hcell, Mem.entry_linkBloc,
        Mem.entry_linkBloc]
    · dsimp only at hc'
      rw [Mem.pos_setPos_self, Mem.pos_setEntry, Mem.pos_linkBloc_self] at hc'
      split at hc'
      next => cases hc'
      next hne =>
        cases hc'
        rw [hcell]
        refine ⟨rfl, ?_, hne⟩
        rw [Mem.pos_setPos_self, Mem.pos_setEntry, Mem.pos_linkBloc_self]

/-- The cell that it takes is in a block of the map. -/
theorem Inv.nextCell (h : Inv B s) (hb : s.MallocOk b) :
    (s.nextCell b).i < blocentriesSize
      ∧ (s.nextCell b).bloc
        ∈ (if s.khm.currentbloc = none then b :: s.handed else s.handed)
      ∧ ∀ e ∈ s.live, e.addr.bloc = (s.nextCell b).bloc →
        e.addr.i < (s.nextCell b).i := by
  unfold State.nextCell
  cases hc : s.khm.currentbloc with
  | some c =>
    obtain ⟨hmem, hpos, hlt⟩ := h.frontier c hc
    exact ⟨hpos, by simpa using hmem, hlt⟩
  | none =>
    refine ⟨Nat.zero_lt_succ _, by simp, fun e he heb => ?_⟩
    have heb : e.addr.bloc = b := heb
    exact absurd (heb ▸ (h.place e he).1) (hb hc)

/-- Nobody has that cell. -/
theorem Inv.nextCell_notMem (h : Inv B s) (hb : s.MallocOk b) :
    s.nextCell b ∉ s.live.map Live.addr := by
  intro hmem
  obtain ⟨e, he, hadd⟩ := List.mem_map.mp hmem
  have hlt := (h.nextCell hb).2.2 e he (congrArg EntryId.bloc hadd)
  rw [hadd] at hlt
  exact Nat.lt_irrefl _ hlt

/-- The new entry is first in its bucket. -/
theorem Inv.chain_created (h : Inv B s) (hr : Carved B memset s ptr b r)
    (hb : s.MallocOk b) (u : Value) (k : Fin B.size) :
    Chain (fun e => (r.2.2.entry e).next) (B.get r.2.1.heads k)
      ((bucket B (⟨ptr, r.1, u⟩ :: s.live) k).map Live.addr) := by
  have hnext : (fun e => (r.2.2.entry e).next)
      = update (fun e => (s.mem.entry e).next) (s.nextCell b)
          (B.get s.khm.heads (B.hkey ptr)) := by
    funext e
    rw [hr.entry, update_apply]
    split
    next => rfl
    next => rfl
  have hnot : s.nextCell b ∉ (bucket B s.live k).map Live.addr := by
    intro hmem
    obtain ⟨e, he, hadd⟩ := List.mem_map.mp hmem
    refine h.nextCell_notMem hb (List.mem_map.mpr ⟨e, ?_, hadd⟩)
    exact (List.mem_filter.mp he).1
  rw [hnext, hr.heads, B.get_set]
  by_cases hk : k = B.hkey ptr
  · have hcons : bucket B (⟨ptr, r.1, u⟩ :: s.live) k
        = ⟨ptr, r.1, u⟩ :: bucket B s.live k :=
      List.filter_cons_of_pos (decide_eq_true hk.symm)
    rw [if_pos hk, hcons, List.map_cons, ← hk]
    dsimp only
    rw [hr.addr]
    exact (h.chain k).push hnot
  · have hcons : bucket B (⟨ptr, r.1, u⟩ :: s.live) k = bucket B s.live k :=
      List.filter_cons_of_neg fun ht => hk (of_decide_eq_true ht).symm
    rw [if_neg hk, hcons]
    refine (h.chain k).congr fun e he => ?_
    exact update_of_ne (ne_of_mem_of_not_mem he hnot) _ _

/-- The creation of an entry that wipes at least `u.value`. -/
theorem Inv.created (h : Inv B s) (hr : Carved B memset s ptr b r)
    (hz : ∀ u (i : Fin sizeofU), i.val < sizeofGd → memset u i = 0)
    (hs : s.created ptr b r = some s') : Inv B s' := by
  obtain ⟨hb, rfl⟩ := created_eq_some hs
  have hnot : s.nextCell b ∉ s.live.map Live.addr := h.nextCell_notMem hb
  obtain ⟨hi, hmem, hlt⟩ := h.nextCell hb
  have hother : ∀ e ∈ s.live, r.2.2.entry e.addr = s.mem.entry e.addr := by
    intro e he
    rw [hr.entry, if_neg]
    exact fun heq => hnot (heq ▸ List.mem_map_of_mem he)
  have hnew : r.2.2.entry r.1
      = { u := memset (s.mem.entry (s.nextCell b)).u
          key := ptr
          next := B.get s.khm.heads (B.hkey ptr) } := by
    rw [hr.entry, if_pos hr.addr]
  refine ⟨h.chain_created hr hb _, ?_, ?_, ?_, ?_, ?_⟩
  · exact List.nodup_cons.mpr ⟨hr.addr ▸ hnot, h.distinct⟩
  · refine List.forall_mem_cons.mpr ⟨?_, fun e he => ?_⟩
    · rw [hr.addr]
      exact ⟨hmem, hi⟩
    · refine ⟨?_, (h.place e he).2⟩
      dsimp only
      split
      next => exact List.mem_cons_of_mem b (h.place e he).1
      next => exact (h.place e he).1
  · refine List.forall_mem_cons.mpr ⟨?_, fun e he => ?_⟩
    · dsimp only
      rw [hnew]
    · dsimp only
      rw [hother e he, h.key e he]
  · refine List.forall_mem_cons.mpr ⟨fun i hi => ?_, fun e he => ?_⟩
    · dsimp only
      rw [hnew]
      exact hz _ i hi
    · dsimp only
      rw [hother e he]
      exact h.value e he
  · intro c hc
    obtain ⟨rfl, hpos, hne⟩ := hr.current c hc
    dsimp only
    rw [hpos]
    refine ⟨hmem, Nat.lt_of_le_of_ne hi hne, ?_⟩
    refine List.forall_mem_cons.mpr ⟨fun _ => ?_, fun e he heb => ?_⟩
    · rw [hr.addr]
      exact Nat.lt_succ_self _
    · exact Nat.lt_succ_of_lt (hlt e he heb)

/-- A new value is all 0 iff memset wipes what was there. -/
theorem created_valuesOk (h : Inv B s) (hv : ValuesOk s) (hr : Carved B memset s ptr b r)
    (hs : s.created ptr b r = some s') :
    ValuesOk s' ↔ memset (s.mem.entry (s.nextCell b)).u = fun _ => 0 := by
  obtain ⟨hb, rfl⟩ := created_eq_some hs
  unfold ValuesOk
  rw [List.forall_mem_cons]
  dsimp only
  rw [hr.entry, if_pos hr.addr]
  refine and_iff_left fun e he => ?_
  rw [hr.entry, if_neg, hv e he]
  exact fun heq => h.nextCell_notMem hb (heq ▸ List.mem_map_of_mem he)

/-- What memset leaves is 0 iff the rest was. -/
theorem zeroGd_eq_zero (u : Value) :
    zeroGd u = (fun _ => 0) ↔ ∀ i : Fin sizeofU, sizeofGd ≤ i.val → u i = 0 := by
  constructor
  · intro h i hi
    have hz := congrFun h i
    unfold zeroGd at hz
    rwa [if_neg (Nat.not_lt.mpr hi)] at hz
  · intro h
    funext i
    unfold zeroGd
    split
    next => rfl
    next hi => exact h i (Nat.not_lt.mp hi)

theorem zeroGd_of_lt (u : Value) (i : Fin sizeofU) (hi : i.val < sizeofGd) :
    zeroGd u i = 0 := by
  unfold zeroGd
  rw [if_pos hi]

-- ======== the other steps

theorem Inv.empty (hlive : s.live = []) (hget : ∀ k, B.get s.khm.heads k = none)
    (hcur : ∀ c, s.khm.currentbloc = some c → c ∈ s.handed ∧ (s.mem c).pos = 0) :
    Inv B s := by
  have hno : ∀ e, e ∉ s.live := fun e he => by
    rw [hlive] at he
    cases he
  refine ⟨fun k => ?_, ?_, fun e he => absurd he (hno e),
    fun e he => absurd he (hno e), fun e he => absurd he (hno e),
    fun c hc => ?_⟩
  · rw [hlive]
    exact hget k
  · rw [hlive]
    exact List.nodup_nil
  · obtain ⟨hmem, hpos⟩ := hcur c hc
    refine ⟨hmem, ?_, fun e he => absurd he (hno e)⟩
    rw [hpos]
    exact Nat.zero_lt_succ _

/-- The map after its initialisation. -/
theorem Inv.init (B : Buckets H) (s : State H) (initbloc : Option Nat) :
    Inv B (s.init B initbloc) := by
  refine Inv.empty rfl (B.get_reset _) fun c hc => ?_
  cases hc
  exact ⟨List.mem_singleton_self c, Mem.pos_setPos_self _ _ _⟩

/-- The map after kaapi_hashmap_clear. -/
theorem Inv.clear (h : Inv B s) {r : Hashmap H × Mem}
    (hr : clear B s.khm s.mem = r) :
    Inv B { s with
      khm := r.1
      mem := r.2
      live := [] } := by
  subst hr
  refine Inv.empty rfl (B.get_reset _) fun c hc => ?_
  have hc : s.khm.currentbloc = some c := hc
  refine ⟨(h.frontier c hc).1, ?_⟩
  unfold Hashmaps.clear
  rw [hc]
  exact Mem.pos_setPos_self _ _ _

theorem bucket_store (s : State H) (e : EntryId) (u : Value) (k : Fin B.size) :
    (bucket B (s.store e u).live k).map Live.addr
      = (bucket B s.live k).map Live.addr := by
  unfold bucket State.store
  dsimp only
  rw [List.filter_map, List.map_map]
  rfl

theorem entry_store (s : State H) (e : EntryId) (u : Value) (e' : EntryId) :
    (s.store e u).mem.entry e' = { s.mem.entry e' with
      u := if e' = e then u else (s.mem.entry e').u } := by
  unfold State.store
  rw [Mem.entry_setEntry]
  split
  next he => rw [he]
  next => rfl

/-- A store in an entry keeps the invariant. -/
theorem Inv.store (h : Inv B s) (e : EntryId) (u : Value) :
    Inv B (s.store e u) := by
  refine ⟨fun k => ?_, ?_, ?_, ?_, ?_, fun c hc => ?_⟩
  · rw [bucket_store]
    refine (h.chain k).congr fun e' _ => ?_
    rw [entry_store]
  · unfold State.store
    rw [List.map_map]
    exact h.distinct
  · exact List.forall_mem_map.mpr h.place
  · refine List.forall_mem_map.mpr fun l hl => ?_
    rw [entry_store]
    exact h.key l hl
  · refine List.forall_mem_map.mpr fun l hl i hi => ?_
    rw [entry_store]
    unfold Live.write
    dsimp only
    split
    next => rfl
    next => exact h.value l hl i hi
  · obtain ⟨hmem, hpos, hlt⟩ := h.frontier c hc
    have hsame : ((s.store e u).mem c).pos = (s.mem c).pos :=
      Mem.pos_setEntry _ _ _ _
    rw [hsame]
    exact ⟨hmem, hpos, List.forall_mem_map.mpr hlt⟩

theorem store_valuesOk (hv : ValuesOk s) (e : EntryId) (u : Value) :
    ValuesOk (s.store e u) := by
  refine List.forall_mem_map.mpr fun l hl => ?_
  rw [entry_store]
  unfold Live.write
  dsimp only
  rw [hv l hl]

theorem Inv.entry_scribble (h : Inv B s) (hb : b ∉ s.handed) (c : Bloc) {l : Live}
    (hl : l ∈ s.live) : Mem.entry (update s.mem b c) l.addr = s.mem.entry l.addr := by
  unfold Mem.entry
  rw [update_of_ne]
  exact ne_of_mem_of_not_mem (h.place l hl).1 hb

/-- So does a write in a block that the map does not have. -/
theorem Inv.scribble (h : Inv B s) (hb : b ∉ s.handed) (c : Bloc) :
    Inv B { s with mem := update s.mem b c } := by
  have hent := fun l hl => h.entry_scribble hb c (l := l) hl
  refine ⟨fun k => ?_, h.distinct, h.place, fun l hl => ?_, fun l hl => ?_,
    fun c' hc' => ?_⟩
  · refine (h.chain k).congr fun e he => ?_
    obtain ⟨l, hl, rfl⟩ := List.mem_map.mp he
    rw [hent l (List.mem_filter.mp hl).1]
  · rw [hent l hl]
    exact h.key l hl
  · rw [hent l hl]
    exact h.value l hl
  · obtain ⟨hmem, hlt⟩ := h.frontier c' hc'
    dsimp only
    rw [update_of_ne (ne_of_mem_of_not_mem hmem hb)]
    exact ⟨hmem, hlt⟩

-- ======== the runs

/-- What a step can do, once the loops of the searches are gone. -/
inductive Effect (B : Buckets H) (s : State H) : Action → State H → Prop
  | init (initbloc : Option Nat) : Effect B s (.init initbloc) (s.init B initbloc)
  | clear : Effect B s .clear
      { s with
        khm := (clear B s.khm s.mem).1
        mem := (clear B s.khm s.mem).2
        live := [] }
  | find (ptr : BitVec 64) : Effect B s (.find ptr) s
  | insert (ptr : BitVec 64) (b : Nat) (t : State H)
      (ht : s.created ptr b (insert B s.khm s.mem ptr b) = some t) :
      Effect B s (.insert ptr b) t
  | found (ptr : BitVec 64) (b : Nat) (e : Live)
      (he : lookup s.live ptr = some e) : Effect B s (.findinsert ptr b) s
  | findinsert (ptr : BitVec 64) (b : Nat) (t : State H)
      (he : lookup s.live ptr = none)
      (ht : s.created ptr b (newEntry B zeroGd s.khm s.mem ptr b) = some t) :
      Effect B s (.findinsert ptr b) t
  | store (e : EntryId) (u : Value) : Effect B s (.store e u) (s.store e u)
  | scribble (b : Nat) (c : Bloc) (hb : b ∉ s.handed) :
      Effect B s (.scribble b c) { s with mem := update s.mem b c }

/-- What each step does. -/
theorem Inv.effect (h : Inv B s) (hs : step B a s = some s') : Effect B s a s' := by
  cases a with
  | init initbloc =>
    cases hs
    exact .init initbloc
  | clear =>
    obtain ⟨-, hs⟩ := Option.ite_none_right_eq_some.mp hs
    cases hs
    exact .clear
  | find ptr =>
    obtain ⟨-, -, rfl⟩ := Option.map_eq_some_iff.mp hs
    exact .find ptr
  | insert ptr b => exact .insert ptr b s' hs
  | findinsert ptr b =>
    rw [h.step_findinsert ptr b] at hs
    cases he : lookup s.live ptr with
    | some e =>
      rw [he] at hs
      cases hs
      exact .found ptr b e he
    | none =>
      rw [he] at hs
      exact .findinsert ptr b s' he hs
  | store e u =>
    obtain ⟨-, hs⟩ := Option.ite_none_right_eq_some.mp hs
    cases hs
    exact .store e u
  | scribble b c =>
    obtain ⟨hb, hs⟩ := Option.ite_none_left_eq_some.mp hs
    cases hs
    exact .scribble b c hb

/-- Every step keeps the invariant. -/
theorem Inv.step (h : Inv B s) (hs : step B a s = some s') : Inv B s' := by
  cases h.effect hs with
  | init initbloc => exact Inv.init B s initbloc
  | clear => exact h.clear rfl
  | find ptr => exact h
  | insert ptr b _ ht =>
    exact h.created (newEntry_spec zeroU s ptr b) (fun _ _ _ => rfl) ht
  | found ptr b e he => exact h
  | findinsert ptr b _ _ ht =>
    exact h.created (newEntry_spec zeroGd s ptr b) zeroGd_of_lt ht
  | store e u => exact h.store e u
  | scribble b c hb => exact h.scribble hb c

/-- A step keeps the values right iff its new cell is 0 in the tail. -/
theorem Inv.step_valuesOk (h : Inv B s) (hv : ValuesOk s)
    (hs : Hashmaps.step B a s = some s') : ValuesOk s' ↔ TailZero a s := by
  cases h.effect hs with
  | init initbloc => exact iff_of_true (fun e he => by cases he) trivial
  | clear => exact iff_of_true (fun e he => by cases he) trivial
  | find ptr => exact iff_of_true hv trivial
  | insert ptr b _ ht =>
    rw [created_valuesOk h hv (newEntry_spec zeroU s ptr b) ht]
    exact iff_of_true rfl trivial
  | found ptr b e he =>
    refine iff_of_true hv fun hnone => ?_
    cases he.symm.trans hnone
  | findinsert ptr b _ he ht =>
    rw [created_valuesOk h hv (newEntry_spec zeroGd s ptr b) ht, zeroGd_eq_zero]
    exact ⟨fun hz _ => hz, fun hz => hz he⟩
  | store e u => exact iff_of_true (store_valuesOk hv e u) trivial
  | scribble b c hb =>
    refine iff_of_true (fun l hl => ?_) trivial
    rw [h.entry_scribble hb c hl]
    exact hv l hl

theorem State.Stays.refl (s : State H) : s.Stays s :=
  fun e he => ⟨e, he, rfl, rfl⟩

/-- Steps other than clear keep the entries. -/
theorem Inv.stays_step (h : Inv B s) (ha : a.keeps = true)
    (hs : Hashmaps.step B a s = some s') : s.Stays s' := by
  cases h.effect hs with
  | init initbloc => cases ha
  | clear => cases ha
  | find ptr => exact State.Stays.refl s
  | insert ptr b _ ht =>
    obtain ⟨-, rfl⟩ := created_eq_some ht
    exact fun e he => ⟨e, List.mem_cons_of_mem _ he, rfl, rfl⟩
  | found ptr b e he => exact State.Stays.refl s
  | findinsert ptr b _ _ ht =>
    obtain ⟨-, rfl⟩ := created_eq_some ht
    exact fun e he => ⟨e, List.mem_cons_of_mem _ he, rfl, rfl⟩
  | store e u =>
    exact fun l hl => ⟨l.write e u, List.mem_map_of_mem hl, rfl, rfl⟩
  | scribble b c hb => exact State.Stays.refl s

/-- So do runs of them. -/
theorem Inv.stays_run {acts : List Action} (h : Inv B s)
    (ha : ∀ a ∈ acts, a.keeps = true)
    (hrun : run (Hashmaps.step B) acts s = some s') : s.Stays s' := by
  induction acts generalizing s with
  | nil =>
    exact Option.some.inj hrun ▸ State.Stays.refl s
  | cons a acts ih =>
    obtain ⟨s₁, h₁, h₂⟩ := run_cons_eq_some.mp hrun
    intro e he
    obtain ⟨e₁, he₁, hadd, hkey⟩ :=
      h.stays_step (ha a List.mem_cons_self) h₁ e he
    obtain ⟨e₂, he₂, hadd', hkey'⟩ := ih (h.step h₁)
      (fun a' ha' => ha a' (List.mem_cons_of_mem a ha')) h₂ e₁ he₁
    exact ⟨e₂, he₂, hadd'.trans hadd, hkey'.trans hkey⟩

theorem clear_find (hs : step B .clear s = some s') :
    find B 0 s'.khm s'.mem ptr = some none := by
  obtain ⟨-, hs⟩ := Option.ite_none_right_eq_some.mp hs
  cases hs
  unfold find findFrom
  show Chains.search _ _ 0 (B.get (B.reset s.khm.heads) _) = _
  rw [B.get_reset]
  rfl

-- ======== the statement

/-- In every run of either map, from its `init` on, whatever blocks it is
given and with whatever content: the map is the finite map, an entry stays
at its address until the next `init` or `clear`, and a cleared map finds
nothing. The values are right to the last byte in every state of the run
iff every `findinsert` that creates an entry finds zero in its cell past
`u.value`. -/
theorem hashmaps_run (k : Kind) (s₀ : State k.Heads) (initbloc : Option Nat)
    (acts : List Action) (s : State k.Heads)
    (hrun : run (step k.buckets) acts (s₀.init k.buckets initbloc) = some s) :
    Refines k.buckets s
    ∧ (∀ acts' t, (∀ a ∈ acts', a.keeps = true) →
        run (step k.buckets) acts' s = some t → s.Stays t)
    ∧ (∀ t, step k.buckets .clear s = some t →
        ∀ ptr, find k.buckets 0 t.khm t.mem ptr = some none)
    ∧ ((∀ bs, bs <+: acts → ∀ t,
          run (step k.buckets) bs (s₀.init k.buckets initbloc) = some t →
          ValuesOk t)
        ↔ Along (step k.buckets) TailZero acts (s₀.init k.buckets initbloc)) := by
  have h₀ : Inv k.buckets (s₀.init k.buckets initbloc) := Inv.init _ s₀ initbloc
  have h : Inv k.buckets s := run_preserves Inv.step h₀ hrun
  refine ⟨h.refines, fun acts' t ha ht => h.stays_run ha ht,
    fun t ht ptr => clear_find ht, ?_⟩
  refine Along.iff_good (P := fun s => Inv k.buckets s ∧ ValuesOk s)
    (fun hP => hP.2) (fun hQ hP hs => ?_) (fun hQ hP hs hG => ?_)
    ⟨h₀, fun e he => ?_⟩ hrun
  · exact ⟨hP.1.step hs, (hP.1.step_valuesOk hP.2 hs).mpr hQ⟩
  · exact hQ ((hP.1.step_valuesOk hP.2 hs).mp hG)
  · cases he

/-- A map that was never initialised, and memory full of ones. -/
def garbage {H : Type} (heads : H) : State H where
  khm :=
    { heads := heads
      currentbloc := some 7
      allallocatedbloc := some 7 }
  mem _ :=
    { data := fun _ =>
        { u := fun _ => 0xFF
          key := 5
          next := some ⟨7, 7⟩ }
      pos := 9
      next := some 7 }
  handed := []
  live := []

/-- All heads in use, and dangling. -/
def staleHeads : Kind.small.Heads :=
  { entries := fun _ => some ⟨7, 7⟩
    entry_map := BitVec.allOnes 64 }

/-- Two keys of one bucket, a clear, and the block used again. -/
theorem hashmaps_run_recycled : ∃ s,
    run (step Kind.small.buckets)
      [.insert 0 0, .insert 64 0, .find 0, .clear, .insert 64 0, .insert 64 0]
      ((garbage staleHeads).init Kind.small.buckets (some 7)) = some s
    ∧ s.live.map Live.addr = [⟨7, 1⟩, ⟨7, 0⟩]
    ∧ Refines Kind.small.buckets s := by
  refine ⟨_, rfl, rfl, ?_⟩
  exact (hashmaps_run .small (garbage staleHeads) (some 7)
    [.insert 0 0, .insert 64 0, .find 0, .clear, .insert 64 0, .insert 64 0]
    _ rfl).1

/-- In either map, the first `findinsert` leaves the last 8 bytes of the
union as they were. -/
theorem findinsert_leaves_tail :
    (∃ s, run (step Kind.small.buckets) [.findinsert 0 0]
        ((garbage staleHeads).init Kind.small.buckets (some 7))
          = some s ∧ ¬ ValuesOk s)
    ∧ ∃ s, run (step Kind.big.buckets) [.findinsert 0 0]
        ((garbage (H := Kind.big.Heads) fun _ => none).init
          Kind.big.buckets (some 7))
          = some s ∧ ¬ ValuesOk s := by
  constructor
  · refine ⟨_, rfl, fun h => ?_⟩
    exact absurd (congrFun (h _ List.mem_cons_self) 16) (by decide)
  · refine ⟨_, rfl, fun h => ?_⟩
    exact absurd (congrFun (h _ List.mem_cons_self) 16) (by decide)

end XKaapi.Hashmaps
