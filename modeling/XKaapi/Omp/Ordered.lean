/-
Ordered loops (libgomp_ordered.c, GOMP_loop_dynamic_start and
GOMP_loop_dynamic_next; the other `ordered` functions of libgomp.map for
`long` loops call these two).

`current_ordered_index` is the `int` of the loop variable in the iteration
whose turn it is. A thread compares it with both bounds of its chunk, as
`int`, whatever the direction of the loop. So the admission is right for
every distribution iff these values rise from one iteration to the next:
`orderedRegions_iff`.

The chunks may be any disjoint ranges, in any order. Each iteration
executes its ordered region once.
-/
import XKaapi.Foreach.Run
import XKaapi.Omp.LoopNormal

namespace XKaapi.Omp

open StepMachine
open Function (update update_apply update_of_ne update_self)
open Foreach (toInt32)

-- ======== the loop

/-- A `long` loop whose `count` iterations are handed out. -/
structure OrderedLoop where
  start : Long
  stop : Long
  incr : Long
  count : Nat
  handed : (Loop.long start stop incr).normalised = some (count : Int)

namespace OrderedLoop

/-- The loop variable in the iteration `k`, as `int`. The arithmetic of
`long` makes no difference to its lower half. -/
def index (l : OrderedLoop) (k : Nat) : Int :=
  toInt32 (l.start.val + k * l.incr.val)

/-- The indices rise, up to the bound of the last chunk. -/
def Rises (l : OrderedLoop) : Prop :=
  ∀ k < l.count, l.index k < l.index (k + 1)

-- ======== the state

/-- Where a thread is in its chunk, from `a` to `b`: in the call of
`GOMP_ordered_start` for the iteration `i`, after the first comparison
there, in the ordered region. -/
inductive Pc
  | idle
  | before (a b i : Nat)
  | tested (a b i : Nat)
  | body (a b i : Nat)
deriving DecidableEq, Repr

/-- The chunk of a thread, and its iteration. -/
def Pc.place : Pc → Option ((Nat × Nat) × Nat)
  | .idle => none
  | .before a b i => some ((a, b), i)
  | .tested a b i => some ((a, b), i)
  | .body a b i => some ((a, b), i)

inductive Event
  | enter (i : Nat)
  | leave (i : Nat)
deriving DecidableEq, Repr

/-- The team in the loop; `log` holds the bodies so far, the newest
first. -/
structure Team where
  current : Int
  taken : List (Nat × Nat)
  pc : Nat → Pc
  log : List Event

/-- After `komp_loop_dynamic_start_master`. -/
def init (l : OrderedLoop) : Team where
  current := toInt32 l.start.val
  taken := []
  pc _ := .idle
  log := []

inductive Act
  | next (t a b : Nat)
  | go (t : Nat)
deriving DecidableEq, Repr

def Team.setPc (s : Team) (t : Nat) (pc : Pc) : Team :=
  { s with pc := update s.pc t pc }

/-- `GOMP_loop_dynamic_next` returns the chunk from `a` to `b`. -/
def loopDynamicNext (l : OrderedLoop) (t a b : Nat) (s : Team) : Option Team :=
  if s.pc t = .idle ∧ a < b ∧ b ≤ l.count
      ∧ ∀ c ∈ s.taken, c.2 ≤ a ∨ b ≤ c.1 then
    some ({ s with taken := (a, b) :: s.taken }.setPc t (.before a b a))
  else none

/-- The first comparison of `komp_ordered_sync`. -/
def testMin (l : OrderedLoop) (t a b i : Nat) (s : Team) : Option Team :=
  if l.index a ≤ s.current then some (s.setPc t (.tested a b i)) else none

/-- The second one; the loop goes on when it fails. -/
def testMax (l : OrderedLoop) (t a b i : Nat) (s : Team) : Team :=
  if s.current < l.index b then
    { s with log := .enter i :: s.log }.setPc t (.body a b i)
  else s.setPc t (.before a b i)

/-- `GOMP_ordered_end`, and on to the next iteration of the chunk. -/
def orderedEnd (l : OrderedLoop) (t a b i : Nat) (s : Team) : Team :=
  { s with
    current := toInt32 (s.current + l.incr.val)
    log := .leave i :: s.log }.setPc t
      (if i + 1 < b then .before a b (i + 1) else .idle)

/-- A thread goes on in its chunk. -/
def go (l : OrderedLoop) (t : Nat) (s : Team) : Pc → Option Team
  | .idle => none
  | .before a b i => testMin l t a b i s
  | .tested a b i => some (testMax l t a b i s)
  | .body a b i => some (orderedEnd l t a b i s)

def step (l : OrderedLoop) : Act → Team → Option Team
  | .next t a b, s => loopDynamicNext l t a b s
  | .go t, s => go l t s (s.pc t)

-- ======== the statement

/-- The bodies of the first `k` iterations, one after the other. -/
def bodies : Nat → List Event
  | 0 => []
  | k + 1 => .leave k :: .enter k :: bodies k

/-- One body at a time, in the order of the iterations; and a thread whose
turn it is, all bodies before its own being over, finds both comparisons
true. -/
structure Good (l : OrderedLoop) (s : Team) : Prop where
  order : ∃ k, s.log = bodies k ∨ s.log = .enter k :: bodies k
  allowed : ∀ t a b i, (s.pc t = .before a b i ∨ s.pc t = .tested a b i) →
    s.log = bodies i → l.index a ≤ s.current ∧ s.current < l.index b

-- ======== the invariant

variable {l : OrderedLoop} {s s' : Team} {i b a : Nat}

theorem bodies_length (k : Nat) : (bodies k).length = 2 * k := by
  induction k with
  | zero => rfl
  | succ k ih =>
    show (bodies k).length + 1 + 1 = 2 * (k + 1)
    rw [ih]
    omega

theorem bodies_inj {k k' : Nat} (h : bodies k = bodies k') : k = k' := by
  have hlen := congrArg List.length h
  rw [bodies_length, bodies_length] at hlen
  omega

theorem bodies_ne_enter (k k' : Nat) : bodies k' ≠ .enter k :: bodies k := by
  intro h
  have hlen := congrArg List.length h
  rw [List.length_cons, bodies_length, bodies_length] at hlen
  omega

theorem index_zero (l : OrderedLoop) : l.index 0 = toInt32 l.start.val := by
  unfold index
  rw [Nat.cast_zero, Int.zero_mul, Int.add_zero]

theorem index_succ (l : OrderedLoop) (k : Nat) :
    toInt32 (l.index k + l.incr.val) = l.index (k + 1) := by
  unfold index toInt32
  rw [Int.bmod_add_bmod, Nat.cast_succ, Int.add_mul, Int.one_mul, Int.add_assoc]

/-- Indices that rise are in order. -/
theorem Rises.lt (h : l.Rises) {j : Nat} (hij : i < j) (hj : j ≤ l.count) :
    l.index i < l.index j := by
  induction j, hij using Nat.le_induction with
  | base => exact h i hj
  | succ j hij ih =>
    exact Int.lt_trans (ih (Nat.le_of_succ_le hj)) (h j hj)

/-- So the order of indices is that of turns. -/
theorem Rises.le_of_index_le (h : l.Rises) {j : Nat} (hi : i ≤ l.count)
    (hle : l.index i ≤ l.index j) : i ≤ j := by
  by_contra hlt
  have := h.lt (Nat.lt_of_not_le hlt) hi
  omega

/-- `k` bodies are over. A thread has done its chunk up to its iteration,
so it is at the start of the chunk or its turn has come. -/
structure Inv (l : OrderedLoop) (k : Nat) (s : Team) : Prop where
  le : k ≤ l.count
  current : s.current = l.index k
  done : ∀ j < k, ∃ c ∈ s.taken, c.1 ≤ j ∧ j < c.2
  place : ∀ t a b i, (s.pc t).place = some ((a, b), i) →
    (a, b) ∈ s.taken ∧ a ≤ i ∧ i < b ∧ b ≤ l.count ∧ k ≤ i ∧ (i = a ∨ i = k)
  apart : ∀ t u a b i a' b' j, t ≠ u →
    (s.pc t).place = some ((a, b), i) → (s.pc u).place = some ((a', b'), j) →
    b ≤ a' ∨ b' ≤ a
  tested : ∀ t a b i, s.pc t = .tested a b i → i = k
  body : ∀ t a b i, s.pc t = .body a b i → i = k ∧ s.log = .enter k :: bodies k
  log : s.log = bodies k
    ∨ (s.log = .enter k :: bodies k ∧ ∃ t a b, s.pc t = .body a b k)

theorem inv_init (l : OrderedLoop) : Inv l 0 (init l) where
  le := Nat.zero_le _
  current := (index_zero l).symm
  done j hj := absurd hj (Nat.not_lt_zero j)
  place _ _ _ _ h := nomatch h
  apart _ _ _ _ _ _ _ _ _ h := nomatch h
  tested _ _ _ _ h := nomatch h
  body _ _ _ _ h := nomatch h
  log := .inl rfl

variable {k t : Nat}

section

variable (h : Inv l k s)
include h

/-- One thread at most is at an iteration. -/
theorem Inv.alone {u a' b' : Nat} (ht : (s.pc t).place = some ((a, b), k))
    (hu : (s.pc u).place = some ((a', b'), k)) : u = t := by
  by_contra hne
  obtain ⟨-, ha, hb, -, -, -⟩ := h.place t a b k ht
  obtain ⟨-, ha', hb', -, -, -⟩ := h.place u a' b' k hu
  have hapart := h.apart u t _ _ _ _ _ _ hne hu ht
  omega

/-- A thread moves. -/
theorem Inv.move (pc : Pc) (s' : Team) (hcur : s'.current = s.current)
    (htaken : s'.taken = s.taken) (hpc : s'.pc = update s.pc t pc)
    (hplace : pc.place = (s.pc t).place) (htested : ∀ a b i, pc = .tested a b i → i = k)
    (hbody : ∀ u a b i, s'.pc u = .body a b i → i = k ∧ s'.log = .enter k :: bodies k)
    (hlog : s'.log = bodies k
      ∨ (s'.log = .enter k :: bodies k ∧ ∃ u a b, s'.pc u = .body a b k)) :
    Inv l k s' := by
  have hsame : ∀ u, (s'.pc u).place = (s.pc u).place := by
    intro u
    rw [hpc]
    by_cases hu : u = t
    · rw [hu, update_self, hplace]
    · rw [update_of_ne hu]
  refine ⟨h.le, hcur.trans h.current, ?_, ?_, ?_, ?_, hbody, hlog⟩
  · rw [htaken]
    exact h.done
  · intro u a b i hu
    rw [htaken]
    exact h.place u a b i (hsame u ▸ hu)
  · intro u v a b i a' b' j hne hu hv
    exact h.apart u v a b i a' b' j hne (hsame u ▸ hu) (hsame v ▸ hv)
  · intro u a b i hu
    rw [hpc] at hu
    by_cases hut : u = t
    · rw [hut, update_self] at hu
      exact htested a b i hu
    · rw [update_of_ne hut] at hu
      exact h.tested u a b i hu

theorem Inv.setPc {pc : Pc} (hplace : pc.place = (s.pc t).place)
    (htested : ∀ a b i, pc = .tested a b i → i = k) (hnot : ∀ a b i, pc ≠ .body a b i)
    (hold : ∀ a b i, s.pc t ≠ .body a b i) : Inv l k (s.setPc t pc) := by
  refine h.move (t := t) pc (s.setPc t pc) rfl rfl rfl hplace htested
    (fun u a b i hu => ?_) ?_
  · have hu : update s.pc t pc u = .body a b i := hu
    by_cases hut : u = t
    · rw [hut, update_self] at hu
      exact absurd hu (hnot a b i)
    · rw [update_of_ne hut] at hu
      exact h.body u a b i hu
  · refine h.log.imp_right fun ⟨hlog, u, a, b, hu⟩ => ⟨hlog, u, a, b, ?_⟩
    have hut : u ≠ t := by
      rintro rfl
      exact hold a b k hu
    exact (update_of_ne hut pc s.pc).trans hu

/-- A thread takes its next chunk. -/
theorem Inv.next (hs : loopDynamicNext l t a b s = some s') : Inv l k s' := by
  obtain ⟨⟨hidle, hab, hb, hfree⟩, hs⟩ := Option.ite_none_right_eq_some.mp hs
  cases hs
  have hka : k ≤ a := by
    by_contra hlt
    obtain ⟨c, hc, hc₁, hc₂⟩ := h.done a (Nat.lt_of_not_le hlt)
    have := hfree c hc
    omega
  have hcases : ∀ u, (u = t ∧ update s.pc t (.before a b a) u
      = .before a b a) ∨ (u ≠ t ∧ update s.pc t (.before a b a) u
      = s.pc u) := by
    intro u
    by_cases hu : u = t
    · exact .inl ⟨hu, by rw [hu, update_self]⟩
    · exact .inr ⟨hu, update_of_ne hu _ _⟩
  refine ⟨h.le, h.current, ?_, ?_, ?_, ?_, ?_, ?_⟩
  · intro j hj
    obtain ⟨c, hc, hc'⟩ := h.done j hj
    exact ⟨c, List.mem_cons_of_mem _ hc, hc'⟩
  · intro u a' b' i hu
    have hu : (update s.pc t (.before a b a) u).place = some ((a', b'), i) := hu
    rcases hcases u with ⟨-, heq⟩ | ⟨-, heq⟩
    · rw [heq] at hu
      cases hu
      exact ⟨List.mem_cons_self, Nat.le_refl _, hab, hb, hka, .inl rfl⟩
    · rw [heq] at hu
      obtain ⟨hmem, hrest⟩ := h.place u a' b' i hu
      exact ⟨List.mem_cons_of_mem _ hmem, hrest⟩
  · intro u v a₁ b₁ i a₂ b₂ j hne hu hv
    have hu : (update s.pc t (.before a b a) u).place = some ((a₁, b₁), i) := hu
    have hv : (update s.pc t (.before a b a) v).place = some ((a₂, b₂), j) := hv
    rcases hcases u with ⟨hut, heq⟩ | ⟨-, heq⟩
    · rw [heq] at hu
      cases hu
      rcases hcases v with ⟨hvt, -⟩ | ⟨-, heq'⟩
      · exact absurd (hut.trans hvt.symm) hne
      · rw [heq'] at hv
        exact (hfree _ (h.place v a₂ b₂ j hv).1).symm
    · rw [heq] at hu
      rcases hcases v with ⟨-, heq'⟩ | ⟨-, heq'⟩
      · rw [heq'] at hv
        cases hv
        exact hfree _ (h.place u a₁ b₁ i hu).1
      · rw [heq'] at hv
        exact h.apart u v a₁ b₁ i a₂ b₂ j hne hu hv
  · intro u a' b' i hu
    have hu : update s.pc t (.before a b a) u = .tested a' b' i := hu
    rcases hcases u with ⟨-, heq⟩ | ⟨-, heq⟩
    · rw [heq] at hu
      cases hu
    · exact h.tested u a' b' i (heq ▸ hu)
  · intro u a' b' i hu
    have hu : update s.pc t (.before a b a) u = .body a' b' i := hu
    rcases hcases u with ⟨-, heq⟩ | ⟨-, heq⟩
    · rw [heq] at hu
      cases hu
    · exact h.body u a' b' i (heq ▸ hu)
  · refine h.log.imp_right fun ⟨hlog, u, a', b', hu⟩ => ⟨hlog, u, a', b', ?_⟩
    have hut : u ≠ t := by
      rintro rfl
      rw [hidle] at hu
      cases hu
    exact (update_of_ne hut _ s.pc).trans hu

/-- A thread leaves the ordered section. -/
theorem Inv.leave (hpc : s.pc t = .body a b i) :
    Inv l (k + 1) (orderedEnd l t a b i s) := by
  obtain ⟨rfl, hlog⟩ := h.body t a b i hpc
  have hplace : (s.pc t).place = some ((a, b), i) := by
    rw [hpc]
    rfl
  obtain ⟨hmem, hai, hib, hb, -, -⟩ := h.place t a b i hplace
  -- the other threads are at later iterations, at the start of their chunks
  have hother : ∀ u, u ≠ t → ∀ a' b' j,
      (s.pc u).place = some ((a', b'), j) → i + 1 ≤ j ∧ j = a' := by
    intro u hut a' b' j hu
    have hij : j ≠ i := fun hj => hut (h.alone hplace (hj ▸ hu))
    obtain ⟨-, -, -, -, hkj, hstart⟩ := h.place u a' b' j hu
    exact ⟨by omega, hstart.resolve_right hij⟩
  have hpc' : ∀ u, (orderedEnd l t a b i s).pc u = if u = t then
      (if i + 1 < b then .before a b (i + 1) else .idle) else s.pc u := by
    intro u
    exact update_apply s.pc t _ u
  have hself : ∀ a' b' j, (if i + 1 < b then Pc.before a b (i + 1)
      else .idle).place = some ((a', b'), j) → a' = a ∧ b' = b ∧ j = i + 1
        ∧ i + 1 < b := by
    intro a' b' j hu
    split at hu
    next hlt =>
      cases hu
      exact ⟨rfl, rfl, rfl, hlt⟩
    next => cases hu
  refine ⟨Nat.succ_le_of_lt (Nat.lt_of_lt_of_le hib hb), ?_, ?_, ?_, ?_, ?_, ?_,
    .inl ?_⟩
  · show toInt32 (s.current + l.incr.val) = l.index (i + 1)
    rw [h.current, index_succ]
  · intro j hj
    rcases Nat.lt_succ_iff_lt_or_eq.mp hj with hlt | rfl
    · exact h.done j hlt
    · exact ⟨(a, b), hmem, hai, hib⟩
  · intro u a' b' j hu
    rw [hpc'] at hu
    by_cases hut : u = t
    · rw [if_pos hut] at hu
      obtain ⟨rfl, rfl, rfl, hlt⟩ := hself a' b' j hu
      exact ⟨hmem, Nat.le_succ_of_le hai, hlt, hb, Nat.le_refl _, .inr rfl⟩
    · rw [if_neg hut] at hu
      obtain ⟨hm, h₁, h₂, h₃, -, -⟩ := h.place u a' b' j hu
      obtain ⟨hj, hstart⟩ := hother u hut a' b' j hu
      exact ⟨hm, h₁, h₂, h₃, hj, .inl hstart⟩
  · -- the chunk of `t` is the one it had
    have hchunk : ∀ u a' b' j,
        ((orderedEnd l t a b i s).pc u).place = some ((a', b'), j) →
        ∃ j', (s.pc u).place = some ((a', b'), j') := by
      intro u a' b' j hu
      rw [hpc'] at hu
      by_cases hut : u = t
      · rw [if_pos hut] at hu
        obtain ⟨rfl, rfl, -, -⟩ := hself a' b' j hu
        exact ⟨i, hut ▸ hplace⟩
      · rw [if_neg hut] at hu
        exact ⟨j, hu⟩
    intro u v a₁ b₁ j a₂ b₂ j' hne hu hv
    obtain ⟨_, hu⟩ := hchunk u a₁ b₁ j hu
    obtain ⟨_, hv⟩ := hchunk v a₂ b₂ j' hv
    exact h.apart u v _ _ _ _ _ _ hne hu hv
  · intro u a' b' j hu
    rw [hpc'] at hu
    by_cases hut : u = t
    · rw [if_pos hut] at hu
      split at hu
      next => cases hu
      next => cases hu
    · rw [if_neg hut] at hu
      have hj := h.tested u a' b' j hu
      have := (hother u hut a' b' j (by rw [hu]; rfl)).1
      omega
  · intro u a' b' j hu
    rw [hpc'] at hu
    by_cases hut : u = t
    · rw [if_pos hut] at hu
      split at hu
      next => cases hu
      next => cases hu
    · rw [if_neg hut] at hu
      have hj := (h.body u a' b' j hu).1
      have := (hother u hut a' b' j (by rw [hu]; rfl)).1
      omega
  · show .leave i :: s.log = bodies (i + 1)
    rw [hlog]
    rfl

/-- Every step keeps the invariant. -/
theorem Inv.step (hr : l.Rises) {x : Act} (hs : OrderedLoop.step l x s = some s') :
    ∃ k', Inv l k' s' := by
  cases x with
  | next t a b => exact ⟨k, h.next hs⟩
  | go t =>
    have hs : OrderedLoop.go l t s (s.pc t) = some s' := hs
    cases hpc : s.pc t with
    | idle =>
      rw [hpc] at hs
      cases hs
    | before a b i =>
      rw [hpc] at hs
      obtain ⟨hle, hs⟩ := Option.ite_none_right_eq_some.mp hs
      cases hs
      have hplace : (s.pc t).place = some ((a, b), i) := by rw [hpc]; rfl
      obtain ⟨-, hai, hib, hb, hki, hstart⟩ := h.place t a b i hplace
      rw [h.current] at hle
      have hak := hr.le_of_index_le (by omega) hle
      refine ⟨k, h.setPc hplace.symm (fun a' b' j hj => ?_)
        nofun fun _ _ _ hj => ?_⟩
      · cases hj
        omega
      · rw [hpc] at hj
        cases hj
    | tested a b i =>
      rw [hpc] at hs
      cases hs
      have hplace : (s.pc t).place = some ((a, b), i) := by rw [hpc]; rfl
      obtain rfl := h.tested t a b i hpc
      unfold testMax
      split
      next =>
        -- no other thread is in a body
        have hnone : ∀ u a' b', s.pc u ≠ .body a' b' i := by
          intro u a' b' hu
          obtain rfl := h.alone hplace
            (show (s.pc u).place = some ((a', b'), i) by rw [hu]; rfl)
          rw [hpc] at hu
          cases hu
        have hlog : s.log = bodies i :=
          h.log.resolve_right fun ⟨_, u, a', b', hu⟩ => hnone u a' b' hu
        refine ⟨i, h.move (t := t) (.body a b i) _ rfl rfl rfl hplace.symm
          nofun (fun u a' b' j hu => ?_)
          (.inr ⟨?_, t, a, b, update_self ..⟩)⟩
        · have hu : update s.pc t (.body a b i) u = .body a' b' j := hu
          by_cases hut : u = t
          · rw [hut, update_self] at hu
            cases hu
            exact ⟨rfl, congrArg (Event.enter i :: ·) hlog⟩
          · rw [update_of_ne hut] at hu
            obtain ⟨hj, -⟩ := h.body u a' b' j hu
            exact absurd (hj ▸ hu) (hnone u a' b')
        · exact congrArg (Event.enter i :: ·) hlog
      next =>
        refine ⟨i, h.setPc hplace.symm nofun nofun fun _ _ _ hj => ?_⟩
        rw [hpc] at hj
        cases hj
    | body a b i =>
      rw [hpc] at hs
      cases hs
      exact ⟨k + 1, h.leave hpc⟩

/-- The invariant gives the order. -/
theorem Inv.good (hr : l.Rises) : Good l s where
  order := ⟨k, h.log.imp_right And.left⟩
  allowed t a b i hpc hlog := by
    have hplace : (s.pc t).place = some ((a, b), i) := by
      rcases hpc with hpc | hpc
      · rw [hpc]
        rfl
      · rw [hpc]
        rfl
    obtain ⟨-, hai, hib, hb, -, -⟩ := h.place t a b i hplace
    have hik : i = k := by
      rcases h.log with hk | ⟨hk, -⟩
      · exact bodies_inj (hlog.symm.trans hk)
      · exact absurd (hlog.symm.trans hk) (bodies_ne_enter k i)
    subst hik
    rw [h.current]
    refine ⟨?_, hr.lt hib hb⟩
    rcases Nat.lt_or_eq_of_le hai with hlt | rfl
    · exact Int.le_of_lt (hr.lt hlt h.le)
    · exact Int.le_refl _

end

theorem good_of_rises (hr : l.Rises) {acts : List Act}
    (hrun : run (step l) acts (init l) = some s) : Good l s := by
  obtain ⟨k, h⟩ := run_preserves (P := fun s => ∃ k, Inv l k s)
    (fun ⟨_, h⟩ hs => Inv.step h hr hs) ⟨0, inv_init l⟩ hrun
  exact h.good hr

-- ======== where the indices do not rise

/-- The thread 0 has executed `k` iterations, as chunks of one. -/
structure Turn (l : OrderedLoop) (k : Nat) (s : Team) : Prop where
  current : s.current = l.index k
  taken : ∀ c ∈ s.taken, c.2 ≤ k
  idle : s.pc 0 = .idle
  log : s.log = bodies k

theorem Turn.next (h : Turn l k s) (hk : k < l.count) :
    step l (.next 0 k (k + 1)) s = some ({ s with
      taken := (k, k + 1) :: s.taken }.setPc 0 (.before k (k + 1) k)) :=
  if_pos ⟨h.idle, Nat.lt_succ_self k, hk, fun c hc => .inl (h.taken c hc)⟩

theorem pc_setPc (s : Team) (t : Nat) (pc : Pc) : (s.setPc t pc).pc t = pc :=
  update_self ..

theorem exists_body (hpc : s.pc t = .before a b i) (hmin : l.index a ≤ s.current)
    (hmax : s.current < l.index b) :
    ∃ s', Reachable (step l) s s'
      ∧ s'.current = toInt32 (s.current + l.incr.val) ∧ s'.taken = s.taken
      ∧ s'.log = .leave i :: .enter i :: s.log
      ∧ s'.pc t = if i + 1 < b then .before a b (i + 1) else .idle := by
  have hs₁ : step l (.go t) s = some (s.setPc t (.tested a b i)) := by
    show go l t s (s.pc t) = _
    rw [hpc]
    exact if_pos hmin
  have hs₂ : step l (.go t) (s.setPc t (.tested a b i))
      = some (testMax l t a b i (s.setPc t (.tested a b i))) := by
    show go l t _ ((s.setPc t (.tested a b i)).pc t) = _
    rw [pc_setPc]
    rfl
  have hbody : testMax l t a b i (s.setPc t (.tested a b i))
      = { s.setPc t (.tested a b i) with
          log := .enter i :: s.log }.setPc t (.body a b i) := if_pos hmax
  rw [hbody] at hs₂
  have hs₃ : ∀ s₂ : Team, step l (.go t) (s₂.setPc t (.body a b i))
      = some (orderedEnd l t a b i (s₂.setPc t (.body a b i))) := by
    intro s₂
    show go l t _ ((s₂.setPc t (.body a b i)).pc t) = _
    rw [pc_setPc]
    rfl
  exact ⟨_, (((Reachable.refl s).tail hs₁).tail hs₂).tail (hs₃ _), rfl, rfl,
    rfl, pc_setPc ..⟩

/-- The turn goes to the next iteration. -/
theorem Turn.succ (h : Turn l k s) (hk : k < l.count)
    (hlt : l.index k < l.index (k + 1)) :
    ∃ s', Reachable (step l) s s' ∧ Turn l (k + 1) s' := by
  obtain ⟨s', hreach, hcur, htaken, hlog, hpc⟩ := exists_body (l := l)
    (pc_setPc { s with taken := (k, k + 1) :: s.taken } 0 (.before k (k + 1) k))
    (Int.le_of_eq h.current.symm) (h.current ▸ hlt)
  refine ⟨s', ((Reachable.refl s).tail (h.next hk)).trans hreach, ?_, ?_, ?_,
    ?_⟩
  · have hcur : s'.current = toInt32 (s.current + l.incr.val) := hcur
    rw [hcur, h.current, index_succ]
  · intro c hc
    rw [htaken] at hc
    rcases List.mem_cons.mp hc with rfl | hc
    · exact Nat.le_refl _
    · exact Nat.le_succ_of_le (h.taken c hc)
  · exact hpc.trans (if_neg (Nat.lt_irrefl _))
  · have hlog : s'.log = .leave k :: .enter k :: s.log := hlog
    rw [hlog, h.log]
    rfl

/-- Every iteration gets its turn. -/
theorem exists_turn (hk : k ≤ l.count)
    (hlt : ∀ j < k, l.index j < l.index (j + 1)) :
    ∃ s, Reachable (step l) (init l) s ∧ Turn l k s := by
  induction k with
  | zero =>
    exact ⟨init l, Reachable.refl _, (index_zero l).symm,
      fun c hc => absurd hc List.not_mem_nil, rfl, rfl⟩
  | succ k ih =>
    obtain ⟨s, hs, h⟩ := ih (Nat.le_of_succ_le hk)
      fun j hj => hlt j (Nat.lt_succ_of_lt hj)
    obtain ⟨s', hs', h'⟩ := h.succ hk (hlt k (Nat.lt_succ_self k))
    exact ⟨s', hs.trans hs', h'⟩

/-- When every run is in order the indices rise. -/
theorem rises_of_good
    (hgood : ∀ acts s, run (step l) acts (init l) = some s → Good l s) :
    l.Rises := by
  intro k
  induction k using Nat.strongRecOn with
  | ind k ih =>
    intro hk
    obtain ⟨s, hs, h⟩ := exists_turn (Nat.le_of_lt hk)
      fun j hj => ih j hj (Nat.lt_trans hj hk)
    obtain ⟨acts, hrun⟩ := hs.tail (h.next hk)
    have hpair := (hgood acts _ hrun).allowed 0 k (k + 1) k
      (.inl (pc_setPc ..)) h.log
    exact h.current ▸ hpair.2

/-- For every loop, the number of iterations that are handed out being as
computed: in every run of any number of threads, with any chunks, the
bodies are executed one at a time in the order of the iterations and the
thread whose turn it is may enter, iff the indices rise as `int`. -/
theorem orderedRegions_iff (l : OrderedLoop) :
    (∀ acts s, run (step l) acts (init l) = some s → Good l s) ↔ l.Rises :=
  ⟨rises_of_good, fun hr _ _ hrun => good_of_rises hr hrun⟩

theorem long_one : CType.InRange .long 1 := by decide

theorem long_neg_one : CType.InRange .long (-1) := by decide

/-- Down from 9. -/
def downFrom9 : OrderedLoop where
  start := ⟨9, by decide⟩
  stop := ⟨-1, long_neg_one⟩
  incr := ⟨-1, long_neg_one⟩
  count := 12
  handed := rfl

/-- Up, across the largest `int`. -/
def acrossInt : OrderedLoop where
  start := ⟨2147483647, by decide⟩
  stop := ⟨2147483649, by decide⟩
  incr := ⟨1, long_one⟩
  count := 2
  handed := rfl

/-- In both, the first thread waits in its first iteration for ever. -/
theorem first_not_allowed :
    (∃ s, run (step downFrom9) [.next 0 0 1] (init downFrom9) = some s
      ∧ s.log = [] ∧ ¬ Good downFrom9 s)
    ∧ ∃ s, run (step acrossInt) [.next 0 0 1] (init acrossInt) = some s
      ∧ s.log = [] ∧ ¬ Good acrossInt s := by
  refine ⟨⟨_, rfl, rfl, fun hg => ?_⟩, ⟨_, rfl, rfl, fun hg => ?_⟩⟩
  · exact absurd (hg.allowed 0 0 1 0 (.inl rfl) rfl).2 (by decide)
  · exact absurd (hg.allowed 0 0 1 0 (.inl rfl) rfl).2 (by decide)

end OrderedLoop

end XKaapi.Omp
