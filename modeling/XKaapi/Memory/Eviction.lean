/-
Evictions under both policies of the device cache: which lose nothing and
are reported to the metadata, and two runs of tasks where the only valid
copy of a datum is lost.

The metadata in the runs are those the coherence protocol computes for
the same tasks; that the protocol can change them in any other way is
`CacheOp.protocol`.
-/
import XKaapi.Memory.CacheLru
import XKaapi.Memory.CacheDouble
import XKaapi.Memory.Coherence

namespace XKaapi.Memory

open Dfg LinkedList MetadataInfo
open StepMachine (run Along)

/-- In every state reachable by insertions, uses and evictions, with any
modes and sizes: under `lru` an eviction is safe exactly when each block
it takes was inserted for writing and can be saved; under `lru_double`,
while each change of mode is one between a write and another mode,
exactly when no unused block is in `ro` and each block it takes from `rw`
can be saved. -/
theorem evictions_safe_iff {V : Type} (k : Lid) (hk : k ≠ hostLid) :
    (∀ (ops : List (CacheOp V)) (c : Lru V),
        run (Lru.step k) ops Lru.init = some c →
        ∃ l, IsList c.store.heap c.fifo l
          ∧ ∀ size turns, l.length < turns →
            ∃ c', Lru.step k (.remove size turns) c = some c'
              ∧ (EvictionSafe k Lru.hasAccess c.store c'.store
                ↔ ∀ b ∈ victims Lru.hasAccess size c.store.heap l 0,
                    ∀ n, c.store.heap b = some n →
                      accessIsWrite n.val.m = true
                        ∧ HostReady k (c.store.mdi n.val.ptr)))
      ∧ ∀ (ops : List (CacheOp V)) (c : LruDouble V),
        Along (LruDouble.step k) LruDouble.Meets ops LruDouble.init →
        run (LruDouble.step k) ops LruDouble.init = some c →
        ∃ l : Bool → List BlkId,
          (∀ w, IsList c.store.heap (c.ends w) (l w))
          ∧ ∀ size turns, (∀ w, (l w).length < turns) →
            ∃ c', LruDouble.step k (.remove size turns) c = some c'
              ∧ (EvictionSafe k LruDouble.hasAccess c.store c'.store
                ↔ (∀ b ∈ l false, ∀ n, c.store.heap b = some n →
                    LruDouble.hasAccess n.val.u = true)
                  ∧ ∀ b ∈ c.victimsIn size l true, ∀ n,
                    c.store.heap b = some n →
                      HostReady k (c.store.mdi n.val.ptr)) :=
  ⟨fun _ _ hrun => Lru.remove_safe_iff hk hrun,
    fun _ _ hmeets hrun => LruDouble.remove_safe_iff hk hmeets hrun⟩

-- ======== runs

/-- The metadata of a datum of the host after some tasks. -/
def after (tasks : List (Op Nat)) : MetadataInfo Nat :=
  (run step tasks (bound hostLid 7)).getD alloc

/-- A task of the first device reads the datum. -/
def readTask : Op Nat := .task device₁ hostLid modeR fun _ => 0

/-- A task of the first device writes it. -/
def writeTask : Op Nat := .task device₁ hostLid modeW fun _ => 8

/-- Read, then written: the block keeps the mode of its insertion. -/
def readThenWritten : List (CacheOp Nat) :=
  [.insert 0 100 64 modeR (after [readTask]), .decUse 100 modeR,
   .incUse 100 modeW,
   .protocol 100 (after [readTask, writeTask]),
   .decUse 100 modeW]

/-- Written, then read: the block is in `ro`. -/
def writtenThenRead : List (CacheOp Nat) :=
  [.insert 0 100 64 modeW (after [writeTask]), .decUse 100 modeW,
   .incUse 100 modeR,
   .decUse 100 modeR]

/-- Written twice, and another datum read: the read one is in use. -/
def writtenAndInUse : List (CacheOp Nat) :=
  [.insert 0 100 64 modeW (after [writeTask]), .decUse 100 modeW,
   .insert 1 200 64 modeR (after [readTask]),
   .incUse 100 modeW,
   .decUse 100 modeW]

instance {V : Type} (op : CacheOp V) (c : LruDouble V) :
    Decidable (LruDouble.Meets op c) :=
  match op with
  | .incUse p m =>
    match hp : c.store.kmem p with
    | none => isTrue fun b hb => by rw [hp] at hb; cases hb
    | some b =>
      match hn : c.store.heap b with
      | none => isTrue fun b' hb' n hn' => by
          rw [hp] at hb'
          rw [← Option.some.inj hb', hn] at hn'
          cases hn'
      | some n =>
        decidable_of_iff (n.val.m = m ∨ accessIsWrite n.val.m ≠ accessIsWrite m)
          ⟨fun h b' hb' n' hn' => by
            rw [hp] at hb'
            rw [← Option.some.inj hb', hn] at hn'
            rw [← Option.some.inj hn']
            exact h, fun h => h b hp n hn⟩
  | .insert .. => isTrue trivial
  | .decUse .. => isTrue trivial
  | .remove .. => isTrue trivial
  | .protocol .. => isTrue trivial

theorem evictions_safe_iff_device₁ :
    (∃ c, run (Lru.step device₁) writtenAndInUse Lru.init = some c
        ∧ ∃ l, IsList c.store.heap c.fifo l
          ∧ ∀ size turns, l.length < turns →
            ∃ c', Lru.step device₁ (.remove size turns) c = some c'
              ∧ (EvictionSafe device₁ Lru.hasAccess c.store c'.store
                ↔ ∀ b ∈ victims Lru.hasAccess size c.store.heap l 0,
                    ∀ n, c.store.heap b = some n →
                      accessIsWrite n.val.m = true
                        ∧ HostReady device₁ (c.store.mdi n.val.ptr)))
      ∧ ∃ c, run (LruDouble.step device₁) writtenAndInUse LruDouble.init
          = some c
        ∧ ∃ l : Bool → List BlkId,
          (∀ w, IsList c.store.heap (c.ends w) (l w))
          ∧ ∀ size turns, (∀ w, (l w).length < turns) →
            ∃ c', LruDouble.step device₁ (.remove size turns) c = some c'
              ∧ (EvictionSafe device₁ LruDouble.hasAccess c.store c'.store
                ↔ (∀ b ∈ l false, ∀ n, c.store.heap b = some n →
                    LruDouble.hasAccess n.val.u = true)
                  ∧ ∀ b ∈ c.victimsIn size l true, ∀ n,
                    c.store.heap b = some n →
                      HostReady device₁ (c.store.mdi n.val.ptr)) := by
  have hlru : (run (Lru.step device₁) writtenAndInUse Lru.init).isSome := by
    decide +kernel
  have hdouble : (run (LruDouble.step device₁) writtenAndInUse
      LruDouble.init).isSome := by decide +kernel
  obtain ⟨c, hc⟩ := Option.isSome_iff_exists.mp hlru
  obtain ⟨c₂, hc₂⟩ := Option.isSome_iff_exists.mp hdouble
  exact ⟨⟨c, hc, (evictions_safe_iff device₁ (by decide)).1 _ c hc⟩, c₂, hc₂,
    (evictions_safe_iff device₁ (by decide)).2 _ c₂ (by decide +kernel) hc₂⟩

/-- The block of the datum 100, before and after: it held the only valid
copy, and is gone. -/
def lost {U : Type} (s s' : Store U Nat) : Bool :=
  s.kmem 100 == some 0 && (s.heap 0).isSome && s'.kmem 100 == none
    && decide ((s.mdi 100).OnlyValid device₁) && !(s'.mdi 100).isValid hostLid

theorem not_safe_of_lost {U : Type} {hasAccess : U → Bool} {s s' : Store U Nat}
    (h : lost s s' = true) : ¬ EvictionSafe device₁ hasAccess s s' := by
  intro hsafe
  simp only [lost, Bool.and_eq_true, beq_iff_eq, Bool.not_eq_true',
    decide_eq_true_eq] at h
  obtain ⟨⟨⟨⟨hp, hsome⟩, hgone⟩, honly⟩, hlost⟩ := h
  obtain ⟨n, hn⟩ := Option.isSome_iff_exists.mp hsome
  rw [((hsafe 100 0 n hp hn hgone).2.1 honly).2] at hlost
  cases hlost

/-- The write is lost under either policy: under `lru` when the datum was
read before, under `lru_double` when it is read afterwards. -/
theorem eviction_loses_write :
    (¬ ∀ (ops : List (CacheOp Nat)) (c c' : Lru Nat) size turns,
        run (Lru.step device₁) ops Lru.init = some c →
        Lru.step device₁ (.remove size turns) c = some c' →
        EvictionSafe device₁ Lru.hasAccess c.store c'.store)
      ∧ ¬ ∀ (ops : List (CacheOp Nat)) (c c' : LruDouble Nat) size turns,
        run (LruDouble.step device₁) ops LruDouble.init = some c →
        LruDouble.step device₁ (.remove size turns) c = some c' →
        EvictionSafe device₁ LruDouble.hasAccess c.store c'.store := by
  constructor
  · intro hall
    have heval : (do
        let c ← run (Lru.step device₁) readThenWritten Lru.init
        let c' ← Lru.step device₁ (.remove 64 2) c
        return lost c.store c'.store) = some true := by decide +kernel
    simp only [Option.bind_eq_bind, Option.bind_eq_some_iff] at heval
    obtain ⟨c, hc, c', hc', hlost⟩ := heval
    exact not_safe_of_lost (Option.some.inj hlost) (hall _ c c' 64 2 hc hc')
  · intro hall
    have heval : (do
        let c ← run (LruDouble.step device₁) writtenThenRead LruDouble.init
        let c' ← LruDouble.step device₁ (.remove 64 2) c
        return lost c.store c'.store) = some true := by decide +kernel
    simp only [Option.bind_eq_bind, Option.bind_eq_some_iff] at heval
    obtain ⟨c, hc, c', hc', hlost⟩ := heval
    exact not_safe_of_lost (Option.some.inj hlost) (hall _ c c' 64 2 hc hc')

end XKaapi.Memory
