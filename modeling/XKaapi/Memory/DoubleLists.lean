/-
The two lists of the policy `lru_double`, over any calls: pointers may be
inserted twice, and nothing is assumed on the metadata (a run ends where
`check_host` fails on them).

`inc_use_rw` and `inc_use_ro` take a block whose mode is not that of the
use out of the other list, but a write may differ from the mode of the
block, W and RW being two, without the block being in `ro`. Taken out of
the wrong list, a block with two neighbours leaves it by their links
alone, and nothing is lost; the first or the last block of `rw` moves an
end of `ro` instead of its own. So the lists stay well linked iff no use
does that (`doubleLists_iff`).
-/
import XKaapi.Memory.CacheDouble
import XKaapi.Memory.Coherence

namespace XKaapi.Memory

open Dfg LinkedList MetadataInfo StepMachine
open Function (update update_apply update_of_ne update_self)

-- ======== what kmem leads to

namespace Store

variable {U V : Type} {s s' : Store U V} {vs : List BlkId} {b : BlkId}
  {h' : Heap BlkId (Blk U)}

/-- What `kmem` leads to is a block of that pointer. -/
def Named (s : Store U V) : Prop :=
  ∀ p b, s.kmem p = some b → ∃ n, s.heap b = some n ∧ n.val.ptr = p

theorem Named.insert (hs : s.Named) (blk : Blk U) (hb : s.heap b = none)
    (hv : SameVals (update s.heap b (some ⟨blk, none, none⟩)) h')
    (used : BitVec 64) (mdi : Ptr → MetadataInfo V) :
    Named ⟨h', update s.kmem blk.ptr (some b), used, mdi⟩ := by
  intro q c hq
  dsimp only at hq ⊢
  rw [hv.exists_iff c fun bl => bl.ptr = q]
  rw [update_apply] at hq
  split at hq
  next hqp =>
    cases hq
    exact ⟨_, update_self .., hqp.symm⟩
  next =>
    obtain ⟨n, hn, hptr⟩ := hs q c hq
    have hcb : c ≠ b := by
      rintro rfl
      cases hb.symm.trans hn
    rw [update_of_ne hcb]
    exact ⟨n, hn, hptr⟩

theorem Named.setHeap (hs : s.Named) {n : Node BlkId (Blk U)}
    (hn : s.heap b = some n) {blk : Blk U} (hp : blk.ptr = n.val.ptr)
    (hv : SameVals (update s.heap b (some { n with val := blk })) h') :
    Named { s with heap := h' } := by
  intro q c hq
  obtain ⟨n₁, hn₁, hptr⟩ := hs q c hq
  show ∃ n, h' c = some n ∧ n.val.ptr = q
  rw [hv.exists_iff c fun bl => bl.ptr = q]
  by_cases hcb : c = b
  · subst hcb
    cases hn.symm.trans hn₁
    rw [update_self]
    exact ⟨_, rfl, hp.trans hptr⟩
  · rw [update_of_ne hcb]
    exact ⟨n₁, hn₁, hptr⟩

theorem Named.taken (hs : s.Named) (ht : Taken s s' vs) : s'.Named := by
  intro q c hq
  obtain ⟨n, hn, hptr⟩ := hs q c (ht.kmem_sub q c hq)
  rw [ht.exists_iff c fun bl => bl.ptr = q]
  refine ⟨fun hc => ?_, n, hn, hptr⟩
  have hnone := ht.kmem_none c hc n hn
  rw [hptr, hq] at hnone
  cases hnone

end Store

namespace LruDouble

variable {V : Type} {k : Lid} {c c' : LruDouble V} {l : Bool → List BlkId} {b : BlkId}
  {p : Ptr} {m : AccessMode} {n : Node BlkId (Blk Uses)} {turns : Nat} {w : Bool}
  {size : BitVec 64}

-- ======== any calls

/-- The cache under any calls: `malloc` gives a descriptor that is not in
use, and that is all. -/
def stepAny (k : Lid) : CacheOp V → LruDouble V → Option (LruDouble V)
  | .insert b p size m d, c =>
    if (c.store.heap b).isNone then c.insert b p size m d else none
  | .incUse p m, c => c.incUse p m
  | .decUse p m, c => c.decUse p m
  | .remove size turns, c => (c.remove k size turns).map Prod.snd
  | .protocol p d, c =>
    some { c with store := { c.store with
      mdi := update c.store.mdi p d } }

/-- Both lists are well linked, each block is in the one of its mode, and
`kmem` leads to the block of a pointer or to none. -/
def WellLinked (c : LruDouble V) : Prop :=
  (∃ l, Lists c l) ∧ c.store.Named

/-- A use that is not of the first or the last block of a list, in
another mode of the same kind. -/
def CanMigrate : CacheOp V → LruDouble V → Prop
  | .incUse p m, c => ∀ b, c.store.kmem p = some b →
      ∀ n, c.store.heap b = some n → CanUse n m
  | _, _ => True

theorem init_wellLinked : WellLinked (init : LruDouble V) :=
  ⟨⟨_, (init_inv (k := hostLid)).lists⟩, nofun⟩

-- ======== good steps

theorem Lists.insert (hl : Lists c l) (p : Ptr) (size : BitVec 64)
    (m : AccessMode) (d : MetadataInfo V) (hb : c.store.heap b = none) :
    ∃ c' l' u h', c.insert b p size m d = some c' ∧ Lists c' l'
      ∧ c'.store =
        { heap := h'
          kmem := update c.store.kmem p (some b)
          used := c.store.used + size
          mdi := update c.store.mdi p d }
      ∧ SameVals (update c.store.heap b
        (some ⟨⟨p, m, size, u⟩, none, none⟩)) h' := by
  unfold LruDouble.insert
  split
  next hm =>
    obtain ⟨c', h', hr, hl', hstore, hv⟩ := hl.insertIn p size d hb hm
    exact ⟨c', _, _, h', hr, hl', hstore, hv⟩
  next hm =>
    obtain ⟨c', h', hr, hl', hstore, hv⟩ :=
      hl.insertIn p size d hb (Bool.eq_false_iff.mpr hm)
    exact ⟨c', _, _, h', hr, hl', hstore, hv⟩

theorem WellLinked.insert (hc : WellLinked c) (p : Ptr) (size : BitVec 64)
    (m : AccessMode) (d : MetadataInfo V) (hb : c.store.heap b = none) :
    ∃ c', c.insert b p size m d = some c' ∧ WellLinked c' := by
  obtain ⟨⟨l, hl⟩, hn⟩ := hc
  obtain ⟨c', l', u, h', hr, hl', hstore, hv⟩ := hl.insert p size m d hb
  refine ⟨c', hr, ⟨l', hl'⟩, ?_⟩
  rw [hstore]
  exact hn.insert ⟨p, m, size, u⟩ hb hv _ _

theorem Lists.incUse (hl : Lists c l) (hp : c.store.kmem p = some b)
    (hn : c.store.heap b = some n) (hm : CanUse n m) :
    ∃ c' l' u h', c.incUse p m = some c' ∧ Lists c' l'
      ∧ c'.store = { c.store with heap := h' }
      ∧ SameVals (update c.store.heap b
        (some { n with val := { n.val with m := m, u := u } })) h' := by
  unfold LruDouble.incUse
  rw [hp]
  dsimp only
  split
  next hw =>
    obtain ⟨c', l', h', hr, hl', hstore, hv⟩ :=
      hl.incUseIn (fun u => { u with wc := u.wc + 1 }) hw hn hm
    exact ⟨c', l', _, h', hr, hl', hstore, hv⟩
  next hw =>
    obtain ⟨c', l', h', hr, hl', hstore, hv⟩ :=
      hl.incUseIn (fun u => { u with rc := u.rc + 1 })
        (Bool.eq_false_iff.mpr hw) hn hm
    exact ⟨c', l', _, h', hr, hl', hstore, hv⟩

theorem WellLinked.incUse (hc : WellLinked c)
    (hm : CanMigrate (.incUse p m) c) :
    ∃ c', c.incUse p m = some c' ∧ WellLinked c' := by
  cases hp : c.store.kmem p with
  | none =>
    refine ⟨c, ?_, hc⟩
    unfold LruDouble.incUse
    rw [hp]
  | some b =>
    obtain ⟨⟨l, hl⟩, hn⟩ := hc
    obtain ⟨n, hnb, -⟩ := hn p b hp
    obtain ⟨c', l', u, h', hr, hl', hstore, hv⟩ :=
      hl.incUse hp hnb (hm b hp n hnb)
    refine ⟨c', hr, ⟨l', hl'⟩, ?_⟩
    rw [hstore]
    refine hn.setHeap hnb ?_ hv
    rfl

theorem Lists.decUse (hl : Lists c l) (hp : c.store.kmem p = some b)
    (hn : c.store.heap b = some n) (m : AccessMode) :
    ∃ c' u, c.decUse p m = some c' ∧ Lists c' l
      ∧ c'.store = { c.store with
        heap := update c.store.heap b
          (some { n with val := { n.val with u := u } }) } := by
  unfold LruDouble.decUse
  rw [hp]
  simp only [hn, Option.bind_eq_bind, Option.bind_some]
  refine ⟨_, _, rfl, ⟨fun w => ?_, fun w i => ?_⟩, rfl⟩
  · have hset := fun blk => (hl.list w).setVal hn (v := blk)
    cases w
    · exact hset _
    · exact hset _
  · rw [hl.mem_iff]
    dsimp only
    by_cases hib : i = b
    · rw [hib, hn, update_self]
      simp
    · rw [update_of_ne hib]

theorem WellLinked.decUse (hc : WellLinked c) (p : Ptr) (m : AccessMode) :
    ∃ c', c.decUse p m = some c' ∧ WellLinked c' := by
  cases hp : c.store.kmem p with
  | none =>
    refine ⟨c, ?_, hc⟩
    unfold LruDouble.decUse
    rw [hp]
  | some b =>
    obtain ⟨⟨l, hl⟩, hn⟩ := hc
    obtain ⟨n, hnb, -⟩ := hn p b hp
    obtain ⟨c', u, hr, hl', hstore⟩ := hl.decUse hp hnb m
    refine ⟨c', hr, ⟨l, hl'⟩, ?_⟩
    rw [hstore]
    refine hn.setHeap hnb ?_ (SameVals.refl _)
    rfl

theorem Lists.removeFromDev (hl : Lists c l) {report : Blk Uses → Bool} {dev : Device}
    {r : (Ptr × Store Uses V × Ends BlkId) × Device}
    (hr : removeFromDev k hasAccess report size turns c.store dev (c.ends w) = some r) :
    ∃ l', Lists (withLists w r.1.2.1 r.1.2.2 (c.ends !w)) l'
      ∧ l' (!w) = l (!w)
      ∧ ∀ b ∈ l (!w), r.1.2.1.heap b = c.store.heap b := by
  obtain ⟨s₁, ht, hs, hlist, hag, -⟩ := removeFromDev_spec (hl.list w) hr
  have hvs : ∀ i ∈ victims hasAccess size c.store.heap (l w) 0, i ∈ l w :=
    fun i hi => (of_mem_victims hi).1
  generalize victims hasAccess size c.store.heap (l w) 0 = vs at ht hlist hvs
  have hheap : r.1.2.1.heap = s₁.heap := by
    rw [hs]
    rfl
  have hclass : ∀ v i, (∃ n, r.1.2.1.heap i = some n
      ∧ accessIsWrite n.val.m = v) ↔ i ∉ vs ∧ i ∈ l v := by
    intro v i
    rw [hheap, ht.exists_iff i fun blk => accessIsWrite blk.m = v, hl.mem_iff]
  have hsame : ∀ i ∈ l !w, r.1.2.1.heap i = c.store.heap i := by
    intro i hi
    exact hag i fun hiw => hl.disjoint hiw hi
  have hother := (hl.list !w).congr hsame
  refine ⟨lists w _ (l !w), lists_withLists hlist hother (fun i => ?_)
    (fun i => ?_), lists_not .., hsame⟩
  · rw [hclass, List.mem_filter]
    simp [and_comm]
  · rw [hclass, and_iff_right_of_imp]
    exact fun hi hv => hl.disjoint (hvs i hv) hi

theorem WellLinked.removeIn (hc : WellLinked c) {report : Blk Uses → Bool}
    {r : Ptr × Store Uses V × Ends BlkId}
    (hr : removeFrom k hasAccess report size turns c.store (c.ends w) = some r) :
    WellLinked (withLists w r.2.1 r.2.2 (c.ends !w)) := by
  obtain ⟨⟨l, hl⟩, hn⟩ := hc
  rw [← removeFromDev_fst turns c.store Device.init, Option.map_eq_some_iff]
    at hr
  obtain ⟨⟨r', dev⟩, hr, rfl⟩ := hr
  obtain ⟨l', hl', -⟩ := hl.removeFromDev hr
  refine ⟨⟨l', hl'⟩, ?_⟩
  obtain ⟨s₁, ht, hs, -⟩ := removeFromDev_spec (hl.list w) hr
  rw [store_withLists, show r'.2.1 = _ from hs]
  intro p b hp
  exact hn.taken ht p b hp

theorem WellLinked.remove (hc : WellLinked c) {r : Ptr × LruDouble V}
    (hr : c.remove k size turns = some r) : WellLinked r.2 := by
  unfold LruDouble.remove LruDouble.removeRo LruDouble.removeRw at hr
  simp only [Option.bind_eq_bind, Option.bind_eq_some_iff] at hr
  obtain ⟨⟨dp, c₁⟩, ⟨r₁, hr₁, hc₁⟩, hr⟩ := hr
  have hro : WellLinked c₁ := by
    cases hc₁
    exact hc.removeIn (w := false) hr₁
  dsimp only at hr
  split at hr
  next =>
    rw [Option.bind_eq_some_iff] at hr
    obtain ⟨r₂, hr₂, heq⟩ := hr
    cases heq
    exact hro.removeIn (w := true) hr₂
  next =>
    cases hr
    exact hro

theorem WellLinked.of_step {op : CacheOp V} (hm : CanMigrate op c)
    (hc : WellLinked c) (hs : stepAny k op c = some c') : WellLinked c' := by
  cases op with
  | insert b p size m d =>
    simp only [stepAny] at hs
    split at hs
    next hb =>
      obtain ⟨c₁, hc₁, hw⟩ :=
        hc.insert p size m d (Option.isNone_iff_eq_none.mp hb)
      cases hc₁.symm.trans hs
      exact hw
    next => cases hs
  | incUse p m =>
    obtain ⟨c₁, hc₁, hw⟩ := hc.incUse hm
    cases hc₁.symm.trans hs
    exact hw
  | decUse p m =>
    obtain ⟨c₁, hc₁, hw⟩ := hc.decUse p m
    cases hc₁.symm.trans hs
    exact hw
  | remove size turns =>
    simp only [stepAny, Option.map_eq_some_iff] at hs
    obtain ⟨r, hr, rfl⟩ := hs
    exact hc.remove hr
  | protocol p d =>
    cases hs
    obtain ⟨⟨l, hl⟩, hn⟩ := hc
    refine ⟨⟨l, fun w => ?_, hl.mem_iff⟩, hn⟩
    have hw := hl.list w
    cases w
    · exact hw
    · exact hw

-- ======== bad steps

/-- A use of the first or the last block of a list in another mode of the
same kind breaks the lists. -/
theorem Lists.not_incUseIn (hl : Lists c l) {bump : Uses → Uses}
    (hw : accessIsWrite m = w) (hn : c.store.heap b = some n) (hm : ¬ CanUse n m)
    (hr : c.incUseIn w bump b m = some c') (l' : Bool → List BlkId) : ¬ Lists c' l' := by
  intro hl'
  unfold CanUse at hm
  rw [not_or, not_or, not_not] at hm
  obtain ⟨hne, hcl, hends⟩ := hm
  rw [hw] at hcl
  obtain ⟨l₁, l₂, hlw⟩ : ∃ l₁ l₂, l w = l₁ ++ b :: l₂ :=
    List.append_of_mem ((hl.mem_iff w b).mpr ⟨n, hn, hcl⟩)
  have hlist : IsList c.store.heap (c.ends w) (l₁ ++ b :: l₂) :=
    hlw ▸ hl.list w
  obtain ⟨n₀, hn₀, hprev, hnext⟩ := hlist.node
  cases hn.symm.trans hn₀
  unfold LruDouble.incUseIn at hr
  simp only [hn, Option.bind_eq_bind, Option.bind_some, ne_eq, hne,
    not_false_eq_true, if_true, Option.bind_eq_some_iff] at hr
  obtain ⟨⟨h₂, other⟩, hun, ⟨h₃, mine⟩, hins, n₃, hn₃, heq⟩ := hr
  cases heq
  dsimp only at hun hins hn₃ hl'
  generalize hh₁ : update c.store.heap b
    (some { n with val := { n.val with u := bump n.val.u } }) = h₁ at hun
  have hb₁ : h₁ b
      = some { n with val := { n.val with u := bump n.val.u } } := by
    rw [← hh₁, update_self]
  cases hnx : n.next with
  | none =>
    -- the last block: it is appended to itself
    have hl₂ : l₂ = [] := by
      rw [← List.head?_eq_none_iff, ← hnext, hnx]
    subst hl₂
    have hlast : (c.ends w).last = some b := by
      rw [hlist.last]
      simp
    obtain ⟨a, hbeg⟩ : ∃ a, (c.ends w).beg = some a := by
      rw [hlist.beg]
      cases l₁ with
      | nil => exact ⟨b, rfl⟩
      | cons a l₁ => exact ⟨a, rfl⟩
    obtain ⟨n', hn', hself, -⟩ := insertLast_prev hins hbeg
    cases hn'.symm.trans hn₃
    rw [hlast] at hself
    have hmem : b ∈ l' w := by
      rw [hl'.mem_iff, store_withLists]
      exact ⟨_, update_self .., hw⟩
    obtain ⟨l₁', l₂', hlw'⟩ := List.append_of_mem hmem
    have hlist' := hl'.list w
    rw [hlw', store_withLists] at hlist'
    obtain ⟨n₄, hn₄, hprev₄, -⟩ := hlist'.node
    dsimp only at hn₄
    rw [update_self] at hn₄
    cases hn₄
    have hin : b ∈ l₁' := List.mem_of_getLast? (hprev₄.symm.trans hself)
    exact (List.nodup_append.mp hlist'.nodup).2.2 b hin b List.mem_cons_self rfl
  | some x =>
    -- the first block: the other list starts where this one does now
    have hpv : n.prev = none := by
      by_contra hpv
      exact hends ⟨Option.isSome_iff_ne_none.mpr hpv, by rw [hnx]; rfl⟩
    have hxl : x ∈ l₂ := List.mem_of_head? (hnext.symm.trans hnx)
    have hxb : x ≠ b := by
      rintro rfl
      have hnd := (List.nodup_append.mp hlist.nodup).2.1
      exact (List.nodup_cons.mp hnd).1 hxl
    obtain ⟨hbeg, hv₂⟩ := unlink_of_prev_none hb₁ hpv hnx hxb.symm hun
    have hv := hv₂.trans (insertLast_sameVals hins)
    obtain ⟨nx, hnx', hclx⟩ := (hl.mem_iff w x).mp (by
      rw [hlw]
      exact List.mem_append_right _ (List.mem_cons_of_mem b hxl))
    have hmem : x ∈ l' w := by
      rw [hl'.mem_iff, store_withLists]
      dsimp only
      rw [update_of_ne hxb,
        hv.exists_iff x fun blk => accessIsWrite blk.m = w, ← hh₁,
        update_of_ne hxb]
      exact ⟨nx, hnx', hclx⟩
    have hhead := (hl'.list !w).beg
    rw [ends_withLists_not, hbeg] at hhead
    exact hl'.disjoint hmem (List.mem_of_head? hhead.symm)

theorem WellLinked.not_of_step {op : CacheOp V} (hm : ¬ CanMigrate op c)
    (hc : WellLinked c) (hs : stepAny k op c = some c') :
    ¬ WellLinked c' := by
  rintro ⟨⟨l', hl'⟩, -⟩
  cases op with
  | incUse p m =>
    unfold CanMigrate at hm
    push Not at hm
    obtain ⟨b, hp, n, hn, hm⟩ := hm
    obtain ⟨⟨l, hl⟩, -⟩ := hc
    have hs' : c.incUse p m = some c' := hs
    unfold LruDouble.incUse at hs'
    rw [hp] at hs'
    dsimp only at hs'
    split at hs'
    next hw => exact hl.not_incUseIn hw hn hm hs' l' hl'
    next hw =>
      exact hl.not_incUseIn (Bool.eq_false_iff.mpr hw) hn hm hs' l' hl'
  | insert b p size m d => exact hm trivial
  | decUse p m => exact hm trivial
  | remove size turns => exact hm trivial
  | protocol p d => exact hm trivial

-- ======== any run

/-- The lists are well linked in all the states of a run iff no use is of
the first or the last block of a list in another mode of the same kind. -/
theorem doubleLists_iff {ops : List (CacheOp V)}
    (hrun : run (stepAny k) ops init = some c) :
    (∀ ops', ops' <+: ops → ∀ c', run (stepAny k) ops' init = some c' →
        WellLinked c')
      ↔ Along (stepAny k) CanMigrate ops init :=
  Along.iff_good (P := WellLinked) (fun hc => hc)
    (fun hm hc hs => hc.of_step hm hs) (fun hm hc hs => hc.not_of_step hm hs)
    init_wellLinked hrun

-- ======== runs

instance (n : Node BlkId (Blk Uses)) (m : AccessMode) :
    Decidable (CanUse n m) :=
  inferInstanceAs (Decidable (_ ∨ _ ∨ (_ ∧ _)))

instance (op : CacheOp V) (c : LruDouble V) : Decidable (CanMigrate op c) :=
  match op with
  | .incUse p m => inferInstanceAs
      (Decidable (∀ b ∈ c.store.kmem p, ∀ n ∈ c.store.heap b, CanUse n m))
  | .insert .. => isTrue trivial
  | .decUse .. => isTrue trivial
  | .remove .. => isTrue trivial
  | .protocol .. => isTrue trivial

/-- A read block is written, and the second of three blocks of mode RW is
used in mode W. -/
def migrations : List (CacheOp Nat) :=
  [.insert 0 100 64 modeR alloc, .insert 1 200 64 modeRW alloc,
   .insert 2 300 64 modeRW alloc, .insert 3 400 64 modeRW alloc,
   .incUse 300 modeW, .incUse 100 modeW, .decUse 100 modeW,
   .remove 64 5, .incUse 300 modeW]

theorem doubleLists_migrations :
    ∃ c : LruDouble Nat, run (stepAny device₁) migrations init = some c
      ∧ WellLinked c := by
  have hsome : (run (stepAny device₁) migrations
      (init : LruDouble Nat)).isSome := by decide +kernel
  obtain ⟨c, hc⟩ := Option.isSome_iff_exists.mp hsome
  exact ⟨c, hc, (doubleLists_iff hc).mpr (by decide +kernel) _
    (List.prefix_refl _) c hc⟩

/-- The only block of `rw`, of mode RW, is used in mode W: it is its own
predecessor afterwards. -/
theorem not_wellLinked_of_rw_used_w :
    ¬ ∀ (ops : List (CacheOp Nat)) (c : LruDouble Nat),
      run (stepAny device₁) ops init = some c → WellLinked c := by
  intro hall
  have heval : (do
      let c ← run (stepAny device₁) [.insert 0 100 64 modeRW alloc]
        (init : LruDouble Nat)
      let c' ← stepAny device₁ (.incUse 100 modeW) c
      return (decide (CanMigrate (.incUse 100 modeW) c),
        (c'.store.heap 0).isSome))
      = some (false, true) := by decide +kernel
  simp only [Option.bind_eq_bind, Option.bind_eq_some_iff] at heval
  obtain ⟨c, hc, c', hc', heq⟩ := heval
  simp only [Option.pure_def, Option.some.injEq, Prod.mk.injEq] at heq
  refine (hall _ c hc).not_of_step (of_decide_eq_false heq.1) hc' ?_
  refine hall ([.insert 0 100 64 modeRW alloc] ++ [.incUse 100 modeW]) c' ?_
  exact run_append_eq_some.mpr ⟨c, hc, run_cons_eq_some.mpr ⟨c', hc', rfl⟩⟩

end LruDouble

end XKaapi.Memory
