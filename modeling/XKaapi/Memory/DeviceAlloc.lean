/-
kaapi_cuda_mem_alloc over a whole run, under both cache policies: a
request that finds the cache full evicts blocks, takes the last one if it
is large enough, asks `cudaMalloc` otherwise, and enters the block with
the size of the request.

So a block that is larger than the request is entered with too small a
size, while all of its bytes leave `used`: the account of the memory
(`Accounted`) holds in every state iff each recycled block has exactly the
size of its request, and kaapi_cuda_mem_free, which does not know the
cache, is not called. Under `lru_double` the uses
must keep the lists well linked, too.
-/
import XKaapi.Memory.DeviceAccount
import XKaapi.Memory.CacheLru
import XKaapi.Memory.DoubleLists

namespace XKaapi.Memory

open Dfg LinkedList MetadataInfo StepMachine

-- ======== policies

/-- The functions of a policy (`proc->cache`), `remove` with the device;
and what the rest of the runtime does to the metadata. -/
structure Policy (C U V : Type) where
  store : C → Store U V
  init : C
  insert : BlkId → Ptr → BitVec 64 → AccessMode → MetadataInfo V → C → Option C
  remove : BitVec 64 → Nat → C → Device → Option ((Ptr × C) × Device)
  incUse : Ptr → AccessMode → C → Option C
  decUse : Ptr → AccessMode → C → Option C
  setMdi : Ptr → MetadataInfo V → C → C

/-- Anything may happen to the metadata of a datum. -/
def Store.setMdi {U V : Type} (p : Ptr) (d : MetadataInfo V)
    (s : Store U V) : Store U V :=
  { s with mdi := Function.update s.mdi p d }

section lru

variable {V : Type} (k : Lid)

/-- kaapi_cuda_mem_cache_lru_fifo_remove -/
def Lru.removeDev (size : BitVec 64) (turns : Nat) (c : Lru V)
    (dev : Device) : Option ((Ptr × Lru V) × Device) := do
  let ((devptr, s, fifo), dev) ←
    removeFromDev k hasAccess (fun blk => accessIsWrite blk.m) size turns
      c.store dev c.fifo
  return ((devptr, ⟨s, fifo⟩), dev)

/-- kaapi_cuda_mem_cache_lru_double_fifo_remove -/
def LruDouble.removeDev (size : BitVec 64) (turns : Nat) (c : LruDouble V)
    (dev : Device) : Option ((Ptr × LruDouble V) × Device) := do
  let ((devptr, s, ro), dev) ←
    removeFromDev k hasAccess (fun _ => false) size turns c.store dev c.ro
  if devptr = 0 then do
    let ((devptr, s, rw), dev) ←
      removeFromDev k hasAccess (fun _ => true) size turns s dev c.rw
    return ((devptr, ⟨s, ro, rw⟩), dev)
  else return ((devptr, ⟨s, ro, c.rw⟩), dev)

/-- kaapi_cuda_mem_cache_lru_fifo_config -/
def lruPolicy : Policy (Lru V) (BitVec 64) V where
  store := Lru.store
  init := Lru.init
  insert := Lru.insert
  remove := Lru.removeDev k
  incUse := Lru.incUse
  decUse := Lru.decUse
  setMdi := fun p d c => { c with store := c.store.setMdi p d }

/-- kaapi_cuda_mem_cache_lru_double_fifo_config -/
def lruDoublePolicy : Policy (LruDouble V) Uses V where
  store := LruDouble.store
  init := LruDouble.init
  insert := LruDouble.insert
  remove := LruDouble.removeDev k
  incUse := LruDouble.incUse
  decUse := LruDouble.decUse
  setMdi := fun p d c => { c with store := c.store.setMdi p d }

end lru

-- ======== machine

/-- What happens to the memory of a device. -/
inductive DevOp (V : Type) where
  /-- A request, for a datum that will have the metadata `d`: `b` is the
  descriptor it gets, and `p` the pointer, if `cudaMalloc` is asked. -/
  | alloc (b : BlkId) (p : Ptr) (size : BitVec 64) (m : AccessMode)
      (turns : Nat) (d : MetadataInfo V)
  | incUse (p : Ptr) (m : AccessMode)
  | decUse (p : Ptr) (m : AccessMode)
  /-- kaapi_cuda_mem_free -/
  | free (p : Ptr)
  | protocol (p : Ptr) (d : MetadataInfo V)

section machine

variable {C U V : Type} (P : Policy C U V) (total : BitVec 64)

/-- The first half of kaapi_cuda_mem_alloc: a full cache evicts. -/
def makeRoom (size : BitVec 64) (turns : Nat) (c : C) (dev : Device) :
    Option ((Ptr × C) × Device) :=
  if (P.store c).isFull total size then P.remove size turns c dev
  else some ((0, c), dev)

/-- The second half: without a block to recycle, `cudaMalloc` is asked. -/
def getBlock (p : Ptr) (size : BitVec 64) (devptr : Ptr) (dev : Device) :
    Option (Ptr × Device) :=
  if devptr = 0 then (dev.malloc p size).map fun dev => (p, dev)
  else some (devptr, dev)

/-- kaapi_cuda_mem_alloc -/
def memAlloc (b : BlkId) (p : Ptr) (size : BitVec 64) (m : AccessMode)
    (turns : Nat) (d : MetadataInfo V) (c : C) (dev : Device) :
    Option (C × Device) := do
  let ((devptr, c), dev) ← makeRoom P total size turns c dev
  let (devptr, dev) ← getBlock p size devptr dev
  let c ← P.insert b devptr size m d c
  return (c, dev)

/-- The cache and its device. -/
def memStep : DevOp V → C × Device → Option (C × Device)
  | .alloc b p size m turns d, (c, dev) =>
    if ((P.store c).heap b).isNone then
      memAlloc P total b p size m turns d c dev
    else none
  | .incUse p m, (c, dev) => (P.incUse p m c).map fun c => (c, dev)
  | .decUse p m, (c, dev) => (P.decUse p m c).map fun c => (c, dev)
  | .free p, (c, dev) => some (c, dev.free p)
  | .protocol p d, (c, dev) => some (P.setMdi p d c, dev)

/-- A step that keeps the account: `exact` is that no block larger than
the request is recycled, `canUse` what a use has to respect. -/
def Keeps (exact : BitVec 64 → C → Prop)
    (canUse : Ptr → AccessMode → C → Prop) : DevOp V → C × Device → Prop
  | .alloc _ _ size _ _ _, (c, _) =>
    (P.store c).isFull total size = true → exact size c
  | .incUse p m, (c, _) => canUse p m c
  | .free p, _ => p = 0
  | _, _ => True

/-- What a policy does to its blocks, where an invariant of its lists
holds. -/
structure Policy.Manages (inv : C → Prop) (exact : BitVec 64 → C → Prop)
    (canUse : Ptr → AccessMode → C → Prop) : Prop where
  init : inv P.init ∧ AccountedBut none 0 (P.store P.init) Device.init
  insert : ∀ {b p size m d c c'}, inv c → (P.store c).heap b = none →
    P.insert b p size m d c = some c' → inv c' ∧
      ∃ blk h', (blk.ptr, blk.size) = (p, size)
        ∧ SameVals (Function.update (P.store c).heap b
          (some ⟨blk, none, none⟩)) h'
        ∧ P.store c' = ⟨h', Function.update (P.store c).kmem p (some b),
          (P.store c).used + size, Function.update (P.store c).mdi p d⟩
  remove : ∀ {size turns c dev r}, inv c →
    AccountedBut none 0 (P.store c) dev →
    P.remove size turns c dev = some r → inv r.1.2 ∧
      (∀ b, (P.store c).heap b = none → (P.store r.1.2).heap b = none) ∧
      ∃ hand, AccountedBut hand 0 (P.store r.1.2) r.2
        ∧ r.1.1 = hand.elim 0 Prod.fst
        ∧ (∀ q, hand = some q → size ≤ q.2)
        ∧ (exact size c ↔ ∀ q, hand = some q → q.2 ≤ size)
  incUse : ∀ {p m c c'}, canUse p m c → inv c → (P.store c).Indexed →
    P.incUse p m c = some c' → inv c' ∧ (P.store c).SameBlocks (P.store c')
  decUse : ∀ {p m c c'}, inv c → (P.store c).Indexed →
    P.decUse p m c = some c' → inv c' ∧ (P.store c).SameBlocks (P.store c')
  setMdi : ∀ {c} p d, inv c →
    inv (P.setMdi p d c) ∧ (P.store c).SameBlocks (P.store (P.setMdi p d c))

variable {P total} {inv : C → Prop} {exact : BitVec 64 → C → Prop}
  {canUse : Ptr → AccessMode → C → Prop} {c c' : C} {dev dev' : Device} {x : C × Device}

section

variable (hP : P.Manages inv exact canUse)
include hP

/-- A request: the block it enters is the one in hand. -/
theorem Policy.Manages.memAlloc (hi : inv c) (ha : AccountedBut none 0 (P.store c) dev)
    {b : BlkId} {p : Ptr} {size : BitVec 64} {m : AccessMode} {turns : Nat}
    {d : MetadataInfo V} (hb : (P.store c).heap b = none)
    (hs : memAlloc P total b p size m turns d c dev = some (c', dev')) :
    inv c' ∧ (((P.store c).isFull total size = true → exact size c) →
        AccountedBut none 0 (P.store c') dev')
      ∧ (¬ ((P.store c).isFull total size = true → exact size c) →
        ¬ Accounted (P.store c') dev') := by
  unfold XKaapi.Memory.memAlloc at hs
  simp only [Option.bind_eq_bind, Option.bind_eq_some_iff] at hs
  obtain ⟨⟨⟨dp, c₁⟩, dev₁⟩, hrem, ⟨dp₂, dev₂⟩, hmal, c₂, hins, heq⟩ := hs
  cases heq
  unfold makeRoom at hrem
  unfold getBlock at hmal
  dsimp only at hmal hins
  -- what is in hand after the eviction, if there is one
  obtain ⟨hi₁, hb₁, hand, ha₁, hdp, hle, hex⟩ : inv c₁
      ∧ (P.store c₁).heap b = none
      ∧ ∃ hand, AccountedBut hand 0 (P.store c₁) dev₁
        ∧ dp = hand.elim 0 Prod.fst
        ∧ (∀ q, hand = some q → size ≤ q.2)
        ∧ (((P.store c).isFull total size = true → exact size c)
          ↔ ∀ q, hand = some q → q.2 ≤ size) := by
    by_cases hfull : (P.store c).isFull total size = true
    · rw [if_pos hfull] at hrem
      obtain ⟨hi₁, hnone, hand, ha₁, hdp, hle, hex⟩ := hP.remove hi ha hrem
      refine ⟨hi₁, hnone b hb, hand, ha₁, hdp, hle, ?_⟩
      rw [← hex]
      exact ⟨fun h => h hfull, fun h _ => h⟩
    · rw [if_neg hfull] at hrem
      cases hrem
      exact ⟨hi, hb, none, ha, rfl, fun _ hq => (nomatch hq),
        iff_of_true (fun h => absurd h hfull) nofun⟩
  rw [hex]
  cases hand with
  | none =>
    have hdp0 : dp = 0 := hdp
    rw [if_pos hdp0, Option.map_eq_some_iff] at hmal
    obtain ⟨dev₃, hmal, heq⟩ := hmal
    cases heq
    obtain ⟨hi', blk, h', hblk, hv, hstore⟩ := hP.insert hi₁ hb₁ hins
    cases hblk
    rw [hstore]
    refine ⟨hi', fun _ => (ha₁.malloc hmal).insert hb₁ rfl hv _, fun h => ?_⟩
    exact absurd nofun h
  | some q =>
    have hne : dp ≠ 0 := by
      rw [hdp]
      exact ha₁.ptr_ne q ((ha₁.holds_iff q).mpr (.inr rfl))
    rw [if_neg hne] at hmal
    cases hmal
    obtain ⟨hi', blk, h', hblk, hv, hstore⟩ := hP.insert hi₁ hb₁ hins
    have hptr : blk.ptr = q.1 := (congrArg Prod.fst hblk).trans hdp
    have hsize : blk.size = size := congrArg Prod.snd hblk
    refine ⟨hi', fun h => ?_, fun h => ?_⟩
    · have hq : q.2 = size := BitVec.le_antisymm (h q rfl) (hle q rfl)
      have ha' := ha₁.insert hb₁ (Prod.ext hptr (hsize.trans hq.symm)) hv
        (Function.update (P.store c₁).mdi dp d)
      cases hblk
      rw [hstore]
      exact ha'
    · rw [hstore]
      refine ha₁.not_insert hptr (fun heq => h fun q' hq' => ?_) hv _ _ _
      cases hq'
      rw [← heq, hsize]
      exact BitVec.le_refl _

theorem Policy.Manages.keeps {op : DevOp V} {x' : C × Device}
    (hk : Keeps P total exact canUse op x)
    (hx : inv x.1 ∧ AccountedBut none 0 (P.store x.1) x.2)
    (hs : memStep P total op x = some x') :
    inv x'.1 ∧ AccountedBut none 0 (P.store x'.1) x'.2 := by
  obtain ⟨c, dev⟩ := x
  obtain ⟨c', dev'⟩ := x'
  obtain ⟨hi, ha⟩ := hx
  cases op with
  | alloc b p size m turns d =>
    simp only [memStep] at hs
    split at hs
    next hb =>
      obtain ⟨hi', hacc, -⟩ :=
        hP.memAlloc hi ha (Option.isNone_iff_eq_none.mp hb) hs
      exact ⟨hi', hacc hk⟩
    next => cases hs
  | incUse p m =>
    simp only [memStep, Option.map_eq_some_iff] at hs
    obtain ⟨c₁, hs, heq⟩ := hs
    cases heq
    obtain ⟨hi', hsame⟩ := hP.incUse hk hi ha.indexed hs
    exact ⟨hi', ha.congr hsame⟩
  | decUse p m =>
    simp only [memStep, Option.map_eq_some_iff] at hs
    obtain ⟨c₁, hs, heq⟩ := hs
    cases heq
    obtain ⟨hi', hsame⟩ := hP.decUse hi ha.indexed hs
    exact ⟨hi', ha.congr hsame⟩
  | free p =>
    have hp : p = 0 := hk
    cases hs
    subst hp
    unfold Device.free
    rw [if_pos rfl]
    exact ⟨hi, ha⟩
  | protocol p d =>
    cases hs
    obtain ⟨hi', hsame⟩ := hP.setMdi p d hi
    exact ⟨hi', ha.congr hsame⟩

theorem Policy.Manages.breaks (hcan : ∀ p m c, canUse p m c) {op : DevOp V}
    {x' : C × Device} (hk : ¬ Keeps P total exact canUse op x)
    (hx : inv x.1 ∧ AccountedBut none 0 (P.store x.1) x.2)
    (hs : memStep P total op x = some x') : ¬ Accounted (P.store x'.1) x'.2 := by
  obtain ⟨c, dev⟩ := x
  obtain ⟨c', dev'⟩ := x'
  obtain ⟨hi, ha⟩ := hx
  cases op with
  | alloc b p size m turns d =>
    simp only [memStep] at hs
    split at hs
    next hb =>
      obtain ⟨-, -, hbad⟩ :=
        hP.memAlloc hi ha (Option.isNone_iff_eq_none.mp hb) hs
      exact hbad hk
    next => cases hs
  | incUse p m => exact absurd (hcan p m c) hk
  | free p =>
    have hp : ¬ p = 0 := hk
    cases hs
    unfold Device.free
    rw [if_neg hp]
    intro ha'
    split at ha'
    next hmem =>
      -- freed, and still in its descriptor
      obtain ⟨q, hq, rfl⟩ := List.mem_map.mp hmem
      have hold := ((ha.holds_iff q).mp hq).resolve_right (nomatch ·)
      have hq' := (ha'.holds_iff q).mpr hold
      rw [List.mem_filter] at hq'
      simp at hq'
    next =>
      have hbad := ha'.badFrees
      dsimp only at hbad
      omega
  | decUse p m => exact absurd trivial hk
  | protocol p d => exact absurd trivial hk

theorem Policy.Manages.accounted {ops ops' : List (DevOp V)} (hpre : ops' <+: ops)
    (hk : Along (memStep P total) (Keeps P total exact canUse) ops (P.init, Device.init))
    (hrun : run (memStep P total) ops' (P.init, Device.init) = some x) :
    Accounted (P.store x.1) x.2 := by
  obtain ⟨ops₂, rfl⟩ := hpre
  have hx := hk.append_left.run_inv (fun hq hx hs => hP.keeps hq hx hs)
    hP.init hrun
  exact hx.2.accounted

theorem Policy.Manages.accounted_iff (hcan : ∀ p m c, canUse p m c) {ops : List (DevOp V)}
    (hrun : run (memStep P total) ops (P.init, Device.init) = some x) :
    (∀ ops', ops' <+: ops → ∀ x',
        run (memStep P total) ops' (P.init, Device.init) = some x' →
        Accounted (P.store x'.1) x'.2)
      ↔ Along (memStep P total) (Keeps P total exact canUse) ops
        (P.init, Device.init) :=
  Along.iff_good (fun hx => hx.2.accounted) (fun hq hx hs => hP.keeps hq hx hs)
    (fun hq hx hs => hP.breaks hcan hq hx hs) hP.init hrun

end

end machine

-- ======== two policies

variable {V : Type} {k : Lid} {U : Type}

theorem accountedBut_init : AccountedBut none 0 (Store.init : Store U V) Device.init where
  indexed := fun _ _ => ⟨fun h => (nomatch h), fun ⟨_, h, _⟩ => (nomatch h)⟩
  holds_iff := fun _ => iff_of_false List.not_mem_nil fun h =>
    h.elim (fun ⟨_, _, h, _⟩ => nomatch h) nofun
  hand_kmem := nofun
  nodup := List.nodup_nil
  ptr_ne := nofun
  badFrees := rfl
  lt := by decide
  used := rfl

theorem Store.SameBlocks.setMdi (s : Store U V) (p : Ptr) (d : MetadataInfo V) :
    s.SameBlocks (s.setMdi p d) :=
  ⟨fun _ => rfl, rfl, rfl⟩

/-- The eviction for `size` bytes recycles no block that is larger. -/
def Lru.Exact (size : BitVec 64) (c : Lru V) : Prop :=
  ∀ l, IsList c.store.heap c.fifo l →
    ∀ b ∈ victims hasAccess size c.store.heap l 0,
      ∀ n, c.store.heap b = some n → n.val.size ≤ size

/-- The same for the two lists: `rw` is only looked at if `ro` has no
block that is large enough. -/
def LruDouble.Exact (size : BitVec 64) (c : LruDouble V) : Prop :=
  ∀ l, Lists c l →
    (∀ b ∈ c.victimsIn size l false,
      ∀ n, c.store.heap b = some n → n.val.size ≤ size)
    ∧ ((∀ b ∈ c.victimsIn size l false,
        ∀ n, c.store.heap b = some n → n.val.size < size) →
      ∀ b ∈ c.victimsIn size l true,
        ∀ n, c.store.heap b = some n → n.val.size ≤ size)

theorem lru_manages : (lruPolicy k : Policy (Lru V) (BitVec 64) V).Manages
    (fun c => ∃ l, Lru.Listed c l) Lru.Exact fun _ _ _ => True where
  init := ⟨⟨[], (Lru.init_inv (k := k)).listed⟩, accountedBut_init⟩
  insert := by
    rintro b p size m d c c' ⟨l, hl⟩ hb hr
    obtain ⟨c₁, h', hr₁, hl', hstore, hv⟩ := hl.insert p size m d hb
    cases hr₁.symm.trans hr
    exact ⟨⟨_, hl'⟩, _, h', rfl, hv, hstore⟩
  remove := by
    rintro size turns c dev r ⟨l, hl⟩ ha hr
    replace hr : c.removeDev k size turns dev = some r := hr
    unfold Lru.removeDev at hr
    simp only [Option.bind_eq_bind, Option.bind_eq_some_iff] at hr
    obtain ⟨r₁, hr₁, heq⟩ := hr
    cases heq
    obtain ⟨hand, ha', hin, hnone⟩ := ha.removeFrom hl.list hr₁
    obtain ⟨s₁, ht, hs, hlist, -, -⟩ := removeFromDev_spec hl.list hr₁
    refine ⟨⟨_, hlist, fun b => ?_⟩, hnone, hand, ha', hin.ptr_eq, hin.le, ?_⟩
    · have hiff := ht.exists_iff b fun _ => True
      simp only [and_true, ← Option.isSome_iff_exists] at hiff
      show _ ↔ (r₁.1.2.1.heap b).isSome = true
      rw [hs]
      show _ ↔ (s₁.heap b).isSome = true
      rw [hiff, List.mem_filter, hl.mem_iff, decide_eq_true_eq, and_comm]
    · rw [hin.le_iff]
      refine ⟨fun h => h l hl.list, fun h l' hl' => ?_⟩
      rw [hl.list.unique hl']
      exact h
  incUse := by
    rintro p m c c' - ⟨l, hl⟩ hx hr
    replace hr : c.incUse p m = some c' := hr
    cases hp : c.store.kmem p with
    | none =>
      unfold Lru.incUse at hr
      rw [hp] at hr
      cases hr
      exact ⟨⟨l, hl⟩, Store.SameBlocks.refl _⟩
    | some b =>
      obtain ⟨n, hn, -⟩ : ∃ n, c.store.heap b = some n ∧ n.val.ptr = p :=
        (hx p b).mp hp
      obtain ⟨c₁, l', h', hr₁, hl', hstore, hv⟩ := hl.incUse hp hn m
      cases hr₁.symm.trans hr
      refine ⟨⟨l', hl'⟩, ?_⟩
      show c.store.SameBlocks c'.store
      rw [hstore]
      refine Store.SameBlocks.setHeap hn ?_ hv
      rfl
  decUse := by
    rintro p m c c' ⟨l, hl⟩ hx hr
    replace hr : c.decUse p m = some c' := hr
    unfold Lru.decUse at hr
    cases hp : c.store.kmem p with
    | none =>
      rw [hp] at hr
      cases hr
      exact ⟨⟨l, hl⟩, Store.SameBlocks.refl _⟩
    | some b =>
      obtain ⟨n, hn, -⟩ : ∃ n, c.store.heap b = some n ∧ n.val.ptr = p :=
        (hx p b).mp hp
      simp only [hp, hn, Option.bind_eq_bind, Option.bind_some] at hr
      cases hr
      refine ⟨⟨l, hl.setVal hn { n.val with u := n.val.u - 1 }⟩, ?_⟩
      refine Store.SameBlocks.setHeap hn ?_ (SameVals.refl _)
      rfl
  setMdi := by
    rintro c p d ⟨l, hl⟩
    exact ⟨⟨l, hl.list, hl.mem_iff⟩, Store.SameBlocks.setMdi ..⟩

theorem lruDouble_manages :
    (lruDoublePolicy k : Policy (LruDouble V) Uses V).Manages
      (fun c => ∃ l, LruDouble.Lists c l) LruDouble.Exact
      (fun p m c => LruDouble.CanMigrate (.incUse p m) c) where
  init := ⟨LruDouble.init_wellLinked.1, accountedBut_init⟩
  insert := by
    rintro b p size m d c c' ⟨l, hl⟩ hb hr
    obtain ⟨c₁, l', u, h', hr₁, hl', hstore, hv⟩ := hl.insert p size m d hb
    cases hr₁.symm.trans hr
    exact ⟨⟨_, hl'⟩, _, h', rfl, hv, hstore⟩
  remove := by
    rintro size turns c dev r ⟨l, hl⟩ ha hr
    replace hr : c.removeDev k size turns dev = some r := hr
    unfold LruDouble.removeDev at hr
    simp only [Option.bind_eq_bind, Option.bind_eq_some_iff] at hr
    obtain ⟨⟨⟨dp, s, ro⟩, dev₁⟩, hr₁, hr⟩ := hr
    obtain ⟨hand, ha₁, hin, hnone⟩ := ha.removeFrom (hl.list false) hr₁
    obtain ⟨l₁, hl₁, hother, hsame⟩ := hl.removeFromDev (w := false) hr₁
    replace hl₁ : LruDouble.Lists (⟨s, ro, c.rw⟩ : LruDouble V) l₁ := hl₁
    replace hother : l₁ true = l true := hother
    dsimp only at hr ha₁ hin hnone hsame
    have huniq : ∀ l', LruDouble.Lists c l' → l' = l :=
      fun l' hl' => funext fun w => (hl.list w).unique (hl'.list w)
    cases hand with
    | none =>
      -- nothing in `ro` is large enough: `rw` is looked at
      have hdp : dp = 0 := hin.ptr_eq
      rw [if_pos hdp, Option.bind_eq_some_iff] at hr
      obtain ⟨r₂, hr₂, heq⟩ := hr
      cases heq
      obtain ⟨hand, ha₂, hin₂, hnone₂⟩ := ha₁.removeFrom (hl₁.list true) hr₂
      obtain ⟨l₂, hl₂, -⟩ := hl₁.removeFromDev (w := true) hr₂
      refine ⟨⟨l₂, hl₂⟩, fun b hb => hnone₂ b (hnone b hb), hand, ha₂,
        hin₂.ptr_eq, hin₂.le, ?_⟩
      have hvs : victims LruDouble.hasAccess size s.heap (l true) 0
          = c.victimsIn size l true :=
        victims_congr 0 fun b hb => by rw [hsame b hb]
      have hle : (∀ q, hand = some q → q.2 ≤ size)
          ↔ ∀ b ∈ c.victimsIn size l true,
            ∀ n, c.store.heap b = some n → n.val.size ≤ size := by
        rw [hin₂.le_iff, hother]
        show (∀ b ∈ victims LruDouble.hasAccess size s.heap (l true) 0, _) ↔ _
        rw [hvs]
        refine forall₂_congr fun b hb => ?_
        rw [hsame b (of_mem_victims hb).1]
      have hlt := hin.none_iff.mp rfl
      rw [hle]
      constructor
      · exact fun h => (h l hl).2 hlt
      · intro h l' hl'
        rw [huniq l' hl']
        exact ⟨fun b hb n hn => BitVec.le_of_lt (hlt b hb n hn), fun _ => h⟩
    | some q =>
      have hne : dp ≠ 0 := by
        rw [hin.ptr_eq]
        exact ha₁.ptr_ne q ((ha₁.holds_iff q).mpr (.inr rfl))
      rw [if_neg hne] at hr
      cases hr
      refine ⟨⟨l₁, hl₁⟩, hnone, some q, ha₁, hin.ptr_eq, hin.le, ?_⟩
      rw [hin.le_iff]
      constructor
      · exact fun h => (h l hl).1
      · intro h l' hl'
        rw [huniq l' hl']
        refine ⟨h, fun hlt => ?_⟩
        cases hin.none_iff.mpr hlt
  incUse := by
    rintro p m c c' hm ⟨l, hl⟩ hx hr
    replace hr : c.incUse p m = some c' := hr
    cases hp : c.store.kmem p with
    | none =>
      unfold LruDouble.incUse at hr
      rw [hp] at hr
      cases hr
      exact ⟨⟨l, hl⟩, Store.SameBlocks.refl _⟩
    | some b =>
      obtain ⟨n, hn, -⟩ : ∃ n, c.store.heap b = some n ∧ n.val.ptr = p :=
        (hx p b).mp hp
      obtain ⟨c₁, l', u, h', hr₁, hl', hstore, hv⟩ :=
        hl.incUse hp hn (hm b hp n hn)
      cases hr₁.symm.trans hr
      refine ⟨⟨l', hl'⟩, ?_⟩
      show c.store.SameBlocks c'.store
      rw [hstore]
      refine Store.SameBlocks.setHeap hn ?_ hv
      rfl
  decUse := by
    rintro p m c c' ⟨l, hl⟩ hx hr
    replace hr : c.decUse p m = some c' := hr
    cases hp : c.store.kmem p with
    | none =>
      unfold LruDouble.decUse at hr
      rw [hp] at hr
      cases hr
      exact ⟨⟨l, hl⟩, Store.SameBlocks.refl _⟩
    | some b =>
      obtain ⟨n, hn, -⟩ : ∃ n, c.store.heap b = some n ∧ n.val.ptr = p :=
        (hx p b).mp hp
      obtain ⟨c₁, u, hr₁, hl', hstore⟩ := hl.decUse hp hn m
      cases hr₁.symm.trans hr
      refine ⟨⟨l, hl'⟩, ?_⟩
      show c.store.SameBlocks c'.store
      rw [hstore]
      refine Store.SameBlocks.setHeap hn ?_ (SameVals.refl _)
      rfl
  setMdi := by
    rintro c p d ⟨l, hl⟩
    refine ⟨⟨l, fun w => ?_, hl.mem_iff⟩, Store.SameBlocks.setMdi ..⟩
    have hw := hl.list w
    cases w
    · exact hw
    · exact hw

/-- The condition under `lru`. -/
def Lru.Keeps (k : Lid) (total : BitVec 64) :
    DevOp V → Lru V × Device → Prop :=
  XKaapi.Memory.Keeps (lruPolicy k) total Lru.Exact fun _ _ _ => True

/-- The condition under `lru_double`. -/
def LruDouble.Keeps (k : Lid) (total : BitVec 64) :
    DevOp V → LruDouble V × Device → Prop :=
  XKaapi.Memory.Keeps (lruDoublePolicy k) total LruDouble.Exact
    fun p m c => LruDouble.CanMigrate (.incUse p m) c

/-- The account of the device's memory, in all states of a run. -/
theorem deviceMemory_spec (k : Lid) (total : BitVec 64) :
    (∀ (ops : List (DevOp V)) x,
      run (memStep (lruPolicy k) total) ops (Lru.init, Device.init) = some x →
      ((∀ ops', ops' <+: ops → ∀ x',
          run (memStep (lruPolicy k) total) ops' (Lru.init, Device.init)
            = some x' → Accounted x'.1.store x'.2)
        ↔ Along (memStep (lruPolicy k) total) (Lru.Keeps k total) ops
          (Lru.init, Device.init)))
      ∧ ∀ (ops : List (DevOp V)),
        Along (memStep (lruDoublePolicy k) total) (LruDouble.Keeps k total) ops
          (LruDouble.init, Device.init) →
        ∀ ops', ops' <+: ops → ∀ x',
          run (memStep (lruDoublePolicy k) total) ops'
            (LruDouble.init, Device.init) = some x' →
          Accounted x'.1.store x'.2 :=
  ⟨fun _ _ hrun =>
    lru_manages.accounted_iff (fun _ _ _ => trivial) hrun,
    fun _ hk _ hpre _ hrun => lruDouble_manages.accounted hpre hk hrun⟩

-- ======== runs

/-- No victim of the list is larger than the request. -/
def fits {U : Type} (hasAccess : U → Bool) (h : Heap BlkId (Blk U))
    (e : Ends BlkId) (size : BitVec 64) : Bool :=
  match walk h 9 e.beg with
  | none => false
  | some l => decide (∀ b ∈ victims hasAccess size h l 0, ∀ n ∈ h b,
      n.val.size ≤ size)

theorem le_of_fits {hasAccess : U → Bool} {h : Heap BlkId (Blk U)} {e : Ends BlkId}
    {size : BitVec 64} (hfit : fits hasAccess h e size = true) {l : List BlkId}
    (hl : IsList h e l) :
    ∀ b ∈ victims hasAccess size h l 0, ∀ n, h b = some n →
      n.val.size ≤ size := by
  unfold fits at hfit
  split at hfit
  next => cases hfit
  next l' hw =>
    rw [← hl.walk hw]
    exact of_decide_eq_true hfit

/-- `Lru.Keeps`, looked up in the list. -/
def Lru.keepsBool (total : BitVec 64) : DevOp V → Lru V × Device → Bool
  | .alloc _ _ size _ _ _, (c, _) =>
    !c.store.isFull total size || fits hasAccess c.store.heap c.fifo size
  | .free p, _ => p == 0
  | _, _ => true

/-- `LruDouble.Keeps`, in the two lists. -/
def LruDouble.keepsBool (total : BitVec 64) :
    DevOp V → LruDouble V × Device → Bool
  | .alloc _ _ size _ _ _, (c, _) =>
    !c.store.isFull total size
      || (fits hasAccess c.store.heap c.ro size
        && fits hasAccess c.store.heap c.rw size)
  | .incUse p m, (c, _) => decide (CanMigrate (.incUse p m) c)
  | .free p, _ => p == 0
  | _, _ => true

theorem Lru.keeps_of_keepsBool {total : BitVec 64} (op : DevOp V)
    (x : Lru V × Device) (hx : Lru.keepsBool total op x = true) :
    Lru.Keeps k total op x := by
  cases op with
  | alloc b p size m turns d =>
    intro hfull l hl
    simp only [keepsBool, Bool.or_eq_true, Bool.not_eq_true'] at hx
    refine le_of_fits (hx.resolve_left fun hno => ?_) hl
    cases hno.symm.trans hfull
  | free p => exact beq_iff_eq.mp hx
  | incUse p m => trivial
  | decUse p m => trivial
  | protocol p d => trivial

theorem LruDouble.keeps_of_keepsBool {total : BitVec 64} (op : DevOp V)
    (x : LruDouble V × Device) (hx : LruDouble.keepsBool total op x = true) :
    LruDouble.Keeps k total op x := by
  cases op with
  | alloc b p size m turns d =>
    intro hfull l hl
    simp only [keepsBool, Bool.or_eq_true, Bool.not_eq_true',
      Bool.and_eq_true] at hx
    obtain ⟨hro, hrw⟩ := hx.resolve_left fun hno => by
      cases hno.symm.trans hfull
    exact ⟨le_of_fits hro (hl.list false), fun _ =>
      le_of_fits hrw (hl.list true)⟩
  | free p => exact beq_iff_eq.mp hx
  | incUse p m =>
    have hm : CanMigrate (.incUse p m) x.1 := of_decide_eq_true hx
    exact hm
  | decUse p m => trivial
  | protocol p d => trivial

/-- A block of 64 bytes is recycled for a request of 64. -/
def recycled : List (DevOp Nat) :=
  [.alloc 0 1000 64 modeR 2 alloc, .decUse 1000 modeR,
   .alloc 1 2000 64 modeR 2 alloc, .alloc 2 2000 8 modeW 2 alloc,
   .incUse 1000 modeW, .free 0]

theorem deviceMemory_recycled :
    (∃ x, run (memStep (lruPolicy device₁) 100) recycled
        (Lru.init, Device.init) = some x ∧ Accounted x.1.store x.2)
      ∧ ∃ x, run (memStep (lruDoublePolicy device₁) 100) recycled
        (LruDouble.init, Device.init) = some x
        ∧ Accounted x.1.store x.2 := by
  have hlru : (run (memStep (lruPolicy device₁) 100) recycled
      (Lru.init, Device.init)).isSome := by decide +kernel
  have hdouble : (run (memStep (lruDoublePolicy device₁) 100) recycled
      (LruDouble.init, Device.init)).isSome := by decide +kernel
  have hkeeps : Along (memStep (lruPolicy device₁) 100)
      (fun op x => Lru.keepsBool 100 op x = true) recycled
      (Lru.init, Device.init) := by decide +kernel
  have hkeeps₂ : Along (memStep (lruDoublePolicy device₁) 100)
      (fun op x => LruDouble.keepsBool 100 op x = true) recycled
      (LruDouble.init, Device.init) := by decide +kernel
  obtain ⟨x, hx⟩ := Option.isSome_iff_exists.mp hlru
  obtain ⟨x₂, hx₂⟩ := Option.isSome_iff_exists.mp hdouble
  refine ⟨⟨x, hx, ?_⟩, x₂, hx₂, ?_⟩
  · exact ((deviceMemory_spec device₁ 100).1 _ x hx).mpr
      (hkeeps.mono Lru.keeps_of_keepsBool) _ (List.prefix_refl _) x hx
  · exact (deviceMemory_spec device₁ 100).2 _
      (hkeeps₂.mono LruDouble.keeps_of_keepsBool) _ (List.prefix_refl _) x₂ hx₂

/-- A block of 64 bytes is recycled for a request of 8: 8 bytes are in
use, of 64 that are allocated. -/
theorem not_accounted_of_smaller_request :
    (¬ ∀ (total : BitVec 64) (ops : List (DevOp Nat)) x,
        run (memStep (lruPolicy device₁) total) ops (Lru.init, Device.init)
          = some x → Accounted x.1.store x.2)
      ∧ ¬ ∀ (total : BitVec 64) (ops : List (DevOp Nat)) x,
        run (memStep (lruDoublePolicy device₁) total) ops
          (LruDouble.init, Device.init) = some x →
        Accounted x.1.store x.2 := by
  constructor
  · intro hall
    have heval : (run (memStep (lruPolicy device₁) 70)
        [.alloc 0 1000 64 modeR 2 (alloc : MetadataInfo Nat),
          .decUse 1000 modeR, .alloc 1 2000 8 modeR 2 alloc]
        (Lru.init, Device.init)).map (fun x =>
          (x.1.store.used.toNat, x.2.total)) = some (8, 64) := by
      decide +kernel
    rw [Option.map_eq_some_iff] at heval
    obtain ⟨x, hx, heq⟩ := heval
    have hused := (hall 70 _ x hx).used
    rw [Prod.mk.injEq] at heq
    omega
  · intro hall
    have heval : (run (memStep (lruDoublePolicy device₁) 70)
        [.alloc 0 1000 64 modeR 2 (alloc : MetadataInfo Nat),
          .decUse 1000 modeR, .alloc 1 2000 8 modeR 2 alloc]
        (LruDouble.init, Device.init)).map (fun x =>
          (x.1.store.used.toNat, x.2.total)) = some (8, 64) := by
      decide +kernel
    rw [Option.map_eq_some_iff] at heval
    obtain ⟨x, hx, heq⟩ := heval
    have hused := (hall 70 _ x hx).used
    rw [Prod.mk.injEq] at heq
    omega

end XKaapi.Memory
