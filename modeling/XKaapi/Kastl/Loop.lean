/-
The loops of KASTL (api/kastl/kastl/kastl_loop.h, kastl_workqueue.h).

A task owns a range of positions and a result. It pops a few positions
from the front and applies the body to them; a split takes positions from
the back and gives a piece to each request, each new thief pushed at the
head of the list; when its range is empty the task preempts the thief at
the head, reduces its result, takes over its range, and puts the thieves
of the thief in its place. A thief is preempted after a run of the inner
loop when the body can end the loop (`whileStep`), and else only when it
is finished (`foreachStep`).

The tasks are a tree, and a step is a step of one of them: a pop with the
run of the inner loop, a split, or a preemption. The size a splitter reads
first may be old when it steals: `seen` is any number.

Positions count from the beginning of the sequence. The queue of a task
holds indices from the position `rep` of its own sequence, of 64 bits;
`shift` makes an iterator of one through an int, and the tasks of a
sequence of at most 2^31 elements are those for which it is right
(`InInt`).
-/
import XKaapi.Lib.RoseTree
import XKaapi.Lib.Run

namespace XKaapi.Kastl

-- ======== the loop

/-- The grains, which are positive. -/
structure Settings where
  seqSize : Nat
  parSize : Nat
  seq_pos : 0 < seqSize
  par_pos : 0 < parSize

/-- A body: the result of a thief that starts at a position, the operator,
and the reduction. The operator and the reduction tell whether the loop is
done. -/
structure Body (R : Type*) where
  result : Nat → R
  apply : R → Nat → R × Bool
  reduce : R → R → R × Bool

/-- Where a task is. -/
inductive Pc where
  /-- Before an extraction. -/
  | loop
  /-- After the inner loop, where a thief can be preempted. -/
  | ran
  /-- Before the reduction of a thief. -/
  | reduce
  | finished
deriving DecidableEq, Repr

structure Work (R : Type*) where
  pc : Pc
  beg : Nat
  fin : Nat
  res : R
  isDone : Bool
  rep : Nat
deriving DecidableEq, Repr

abbrev Task (R : Type*) := RoseTree (Work R)

variable {R : Type*} {w : Work R} {lo hi unit count : Nat} {ps : List (Nat × Nat)}

/-- SequenceRep::shift: the iterator `dist` after that of the sequence, the
distance being an int. There is none before the beginning. -/
def shift (rep dist : Nat) : Option Nat :=
  let pos := rep + (dist : Int).bmod (2 ^ 32)
  if pos < 0 then none else some pos.toNat

/-- inner_loop<true>::run on the positions from `pos`. -/
def innerLoop (body : Body R) (res : R) (pos : Nat) : Nat → R × Bool
  | 0 => (res, false)
  | count + 1 =>
    match body.apply res pos with
    | (res', true) => (res', true)
    | (res', false) => innerLoop body res' (pos + 1) count

/-- inner_loop<false>::run. -/
def innerLoopAll (body : Body R) (res : R) (pos count : Nat) : R :=
  (List.range' pos count).foldl (fun r i => (body.apply r i).1) res

-- ======== the split

/-- work_queue_t::steal -/
def steal (beg fin size : Nat) : Option (Nat × Nat) :=
  if beg + size ≤ fin then some (fin - size, fin)
  else if beg < fin - 1 then some (fin - 1, fin)
  else none

/-- The pieces of the replies, from the position `pos` of a stolen range of
`size` positions. -/
def pieces (size pos unit : Nat) : Nat → List (Nat × Nat)
  | 0 => []
  | count + 1 =>
    let unit := if size < unit then size else unit
    (pos, pos + unit) :: pieces size (pos + unit) unit count

/-- The number of requests that get a reply, and the size of a piece. -/
def balance (s : Settings) (seen count : Nat) : Nat × Nat :=
  let unit := seen / (count + 1)
  if unit < s.parSize then (seen / s.parSize - 1, s.parSize) else (count, unit)

/-- The count of the replies to a stolen range of `size` positions. -/
def recount (size unit count : Nat) : Nat :=
  if size ≠ unit * count then
    if size / unit * unit < size then size / unit + 1 else size / unit
  else count

/-- The stolen range and its pieces. -/
def splitPieces (s : Settings) (seen count : Nat) (w : Work R) :
    Option (Nat × List (Nat × Nat)) :=
  if seen = 0 then none
  else
    let (count, unit) := balance s seen count
    if count = 0 then none
    else
      match steal w.beg w.fin (unit * count) with
      | none => none
      | some (lo, hi) =>
        (shift w.rep (lo - w.rep)).map fun pos =>
          (lo, pieces (hi - lo) pos unit (recount (hi - lo) unit count))

/-- The task of a reply. -/
def thief (body : Body R) (piece : Nat × Nat) : Task R :=
  .node ⟨.loop, piece.1, piece.2, body.result piece.1, false, piece.1⟩ []

/-- split_function: each thief is pushed at the head. -/
def split (s : Settings) (body : Body R) (seen count : Nat) : Task R → Option
    (Task R)
  | .node w thieves =>
    match splitPieces s seen count w with
    | none => none
    | some (lo, ps) =>
      some (.node { w with fin := lo }
        (ps.foldl (fun ts p => thief body p :: ts) thieves))

-- ======== the tasks

/-- outter_loop, with termination. -/
def whileStep (s : Settings) (body : Body R) : Task R → Option (Task R)
  | .node w thieves =>
    match w.pc with
    | .loop =>
      if w.beg < w.fin then
        let size := min s.seqSize (w.fin - w.beg)
        (shift w.rep (w.beg - w.rep)).map fun pos =>
          let (res, isDone) := innerLoop body w.res pos size
          .node ⟨.ran, w.beg + size, w.fin, res, isDone, w.rep⟩ thieves
      else some (.node { w with pc := .reduce } thieves)
    | .ran =>
      if w.isDone then
        some (.node { w with
          pc := .reduce
          fin := w.beg } thieves)
      else some (.node { w with pc := .loop } thieves)
    | .reduce =>
      match thieves with
      | [] => some (.node { w with pc := .finished } [])
      | .node t ts :: rest =>
        if t.pc = .ran ∨ t.pc = .finished then
          if w.isDone then some (.node w (ts ++ rest))
          else
            match body.reduce w.res t.res with
            | (res, true) =>
              some (.node { w with
                res := res
                isDone := true } (ts ++ rest))
            | (res, false) =>
              some (.node ⟨.loop, t.beg, t.fin, res, false, t.rep⟩ (ts ++ rest))
        else none
    | .finished => none

/-- outter_loop, without termination: the joined range is not looped on. -/
def foreachStep (s : Settings) (body : Body R) : Task R → Option (Task R)
  | .node w thieves =>
    match w.pc with
    | .loop =>
      if w.beg < w.fin then
        let size := min s.seqSize (w.fin - w.beg)
        (shift w.rep (w.beg - w.rep)).map fun pos =>
          .node { w with
            beg := w.beg + size
            res := innerLoopAll body w.res pos size } thieves
      else some (.node { w with pc := .reduce } thieves)
    | .ran => none
    | .reduce =>
      match thieves with
      | [] => some (.node { w with pc := .finished } [])
      | .node t ts :: rest =>
        if t.pc = .finished then
          some (.node { w with
            beg := t.beg
            fin := t.fin
            res := (body.reduce w.res t.res).1
            rep := t.rep } (ts ++ rest))
        else none
    | .finished => none

/-- What a task does. -/
inductive Op where
  | go
  | split (seen count : Nat)
deriving DecidableEq, Repr

/-- A step of the task at the end of a path. -/
structure Act where
  path : List Nat
  op : Op
deriving DecidableEq, Repr

def step (s : Settings) (body : Body R) (go : Task R → Option (Task R)) (a : Act)
    (t : Task R) : Option (Task R) :=
  match a.op with
  | .go => t.modifyAt go a.path
  | .split seen count => t.modifyAt (split s body seen count) a.path

/-- The task of the caller. -/
def master (n : Nat) (res : R) : Task R := .node ⟨.loop, 0, n, res, false, 0⟩ []

/-- A condition on the pieces of a split. -/
def SplitMeets (s : Settings) (C : List (Nat × Nat) → Prop) (a : Act)
    (t : Task R) : Prop :=
  match a.op with
  | .go => True
  | .split seen count => ∀ u, t.at? a.path = some u →
      ∀ r, splitPieces s seen count u.val = some r → C r.2

-- ======== the iterators

/-- The range of a task is in its sequence, and `shift` finds the positions
of its indices. -/
structure InInt (w : Work R) : Prop where
  rep : w.rep ≤ w.beg
  beg : w.beg ≤ 2 ^ 31
  fin : w.fin ≤ 2 ^ 31

theorem shift_of_lt {rep dist : Nat} (h : dist < 2 ^ 31) :
    shift rep dist = some (rep + dist) := by
  have hdist : (dist : Int).bmod (2 ^ 32) = dist := by
    apply Int.bmod_eq_of_le <;> omega
  unfold shift
  dsimp only
  rw [hdist, if_neg (by omega)]
  rfl

theorem InInt.shift (h : InInt w) {pos : Nat} (hbeg : w.beg ≤ pos) (hfin : pos < w.fin) :
    shift w.rep (pos - w.rep) = some pos := by
  have hrep := h.rep
  have hle := h.fin
  rw [shift_of_lt (by omega), Nat.add_sub_of_le (by omega)]

-- ======== the pieces

theorem steal_eq_some {beg fin size : Nat} (h : steal beg fin size = some (lo, hi)) :
    hi = fin ∧ beg ≤ lo ∧ lo ≤ hi ∧ (hi - lo = size ∨ hi - lo = 1) := by
  unfold steal at h
  split at h
  · cases h
    omega
  · split at h
    · cases h
      omega
    · cases h

/-- The pieces follow each other. -/
def Chain : Nat → List (Nat × Nat) → Nat → Prop
  | lo, [], hi => lo = hi
  | lo, p :: ps, hi => p.1 = lo ∧ p.1 < p.2 ∧ Chain p.2 ps hi

theorem chain_le (h : Chain lo ps hi) : lo ≤ hi := by
  induction ps generalizing lo with
  | nil => exact Nat.le_of_eq h
  | cons p ps ih =>
    obtain ⟨h₁, h₂, h₃⟩ := h
    have hle := ih h₃
    omega

theorem chain_pieces {size : Nat} (hunit : 0 < unit) (hle : unit ≤ size) (pos : Nat) :
    ∀ count, Chain pos (pieces size pos unit count) (pos + count * unit) := by
  intro count
  induction count generalizing pos with
  | zero =>
    show pos = pos + 0 * unit
    omega
  | succ count ih =>
    unfold pieces
    rw [if_neg (Nat.not_lt.mpr hle)]
    refine ⟨rfl, Nat.lt_add_of_pos_right hunit, ?_⟩
    have hc := ih (pos + unit)
    rw [show pos + (count + 1) * unit = pos + unit + count * unit by
      rw [Nat.succ_mul]; omega]
    exact hc

theorem balance_pos (s : Settings) (seen count : Nat) : 0
    < (balance s seen count).2 := by
  unfold balance
  dsimp only
  split
  · exact s.par_pos
  · next h =>
      have hpos := s.par_pos
      exact Nat.lt_of_lt_of_le hpos (Nat.not_lt.mp h)

theorem chain_pieces_one (hunit : 0 < unit) (pos : Nat) :
    Chain pos (pieces 1 pos unit 1) (pos + 1) := by
  unfold pieces pieces
  split
  · exact ⟨rfl, Nat.lt_succ_self pos, rfl⟩
  · next h =>
      have hone : unit = 1 := by omega
      rw [hone]
      exact ⟨rfl, Nat.lt_succ_self pos, rfl⟩

theorem recount_one (hunit : 0 < unit) (hne : 1 ≠ unit * count) :
    recount 1 unit count = 1 := by
  unfold recount
  rw [if_pos hne]
  rcases Nat.lt_or_ge 1 unit with h | h
  · rw [Nat.div_eq_of_lt h, Nat.zero_mul, if_pos Nat.one_pos]
  · have hone : unit = 1 := by omega
    rw [hone]
    rfl

theorem chain_splitPieces {s : Settings} {seen : Nat} (hw : InInt w)
    (h : splitPieces s seen count w = some (lo, ps)) :
    w.beg ≤ lo ∧ Chain lo ps w.fin := by
  unfold splitPieces at h
  split at h
  · cases h
  · have hunit := balance_pos s seen count
    generalize balance s seen count = b at h hunit
    obtain ⟨c, unit⟩ := b
    dsimp only at h hunit
    split at h
    · cases h
    · next hc =>
        split at h
        · cases h
        · next lo' hi hsteal =>
            obtain ⟨rfl, hbeg, hlo, hsize⟩ := steal_eq_some hsteal
            have hmul := Nat.mul_pos hunit (Nat.pos_of_ne_zero hc)
            rw [hw.shift hbeg (by omega)] at h
            cases h
            refine ⟨hbeg, ?_⟩
            by_cases heq : w.fin - lo = unit * c
            · have hrec : recount (w.fin - lo) unit c = c := by
                unfold recount
                rw [if_neg (not_not.mpr heq)]
              rw [hrec]
              have hle : unit ≤ w.fin - lo := by
                rw [heq]
                exact Nat.le_mul_of_pos_right unit (Nat.pos_of_ne_zero hc)
              have hchain := chain_pieces hunit hle lo c
              rw [Nat.mul_comm c, ← heq, Nat.add_sub_of_le hlo] at hchain
              exact hchain
            · have hone : w.fin - lo = 1 := hsize.resolve_left heq
              rw [hone] at heq ⊢
              rw [recount_one hunit heq]
              have hchain := chain_pieces_one hunit lo
              rw [show lo + 1 = w.fin by omega] at hchain
              exact hchain

theorem chain_eq_nil (h : Chain lo ps hi) (hle : hi ≤ lo) : ps = [] := by
  cases ps with
  | nil => rfl
  | cons p ps =>
    obtain ⟨h₁, h₂, h₃⟩ := h
    have hp := chain_le h₃
    omega

theorem chain_bounds (h : Chain lo ps hi) : ∀ q ∈ ps, q.1 < q.2 ∧ q.2 ≤ hi := by
  induction ps generalizing lo with
  | nil => exact fun q hq => nomatch hq
  | cons q ps ih =>
    obtain ⟨h₁, h₂, h₃⟩ := h
    intro r hr
    rcases List.mem_cons.mp hr with rfl | hr
    · exact ⟨h₂, chain_le h₃⟩
    · exact ih h₃ r hr

theorem split_eq_some {s : Settings} {body : Body R} {seen : Nat} {ts : List (Task R)}
    {u : Task R} (hw : InInt w) (h : split s body seen count (.node w ts) = some u) :
    ∃ lo ps, splitPieces s seen count w = some (lo, ps) ∧ w.beg ≤ lo
      ∧ Chain lo ps w.fin
      ∧ u = .node { w with fin := lo } (ps.reverse.map (thief body) ++ ts) := by
  unfold split at h
  cases hsp : splitPieces s seen count w with
  | none =>
    simp only [hsp] at h
    cases h
  | some r =>
    obtain ⟨lo, ps⟩ := r
    simp only [hsp] at h
    cases h
    obtain ⟨hbeg, hchain⟩ := chain_splitPieces hw hsp
    refine ⟨lo, ps, rfl, hbeg, hchain, ?_⟩
    rw [List.foldl_flip_cons_eq_append, List.map_reverse]

-- ======== progress

/-- A bound on the steps a task can still take. -/
def load (w : Work R) : Nat :=
  3 * (w.fin - w.beg) + 3 + match w.pc with
    | .loop => 2
    | .ran => 3
    | .reduce => 1
    | .finished => 0

section

variable (beg fin : Nat) (res : R) (isDone : Bool) (rep : Nat)
include beg fin res isDone rep

theorem load_loop :
    load ⟨.loop, beg, fin, res, isDone, rep⟩ = 3 * (fin - beg) + 5 := rfl

theorem load_ran :
    load ⟨.ran, beg, fin, res, isDone, rep⟩ = 3 * (fin - beg) + 6 := rfl

theorem load_reduce :
    load ⟨.reduce, beg, fin, res, isDone, rep⟩ = 3 * (fin - beg) + 4 := rfl

theorem load_finished :
    load ⟨.finished, beg, fin, res, isDone, rep⟩ = 3 * (fin - beg) + 3 := rfl

end

theorem load_ge (w : Work R) : 3 * (w.fin - w.beg) + 3 ≤ load w := by
  unfold load
  omega

theorem weight_head (w t : Work R) (ts rest : List (Task R)) :
    RoseTree.weight load (.node w (.node t ts :: rest))
      = load w + (load t + ((ts ++ rest).map (RoseTree.weight load)).sum) := by
  rw [RoseTree.weight_node, List.map_cons, List.sum_cons, RoseTree.weight_node,
    List.map_append, List.sum_append, Nat.add_assoc]

section Progress

variable {s : Settings} {body : Body R} {go : Task R → Option (Task R)}
  {P : Work R → Bool → Prop} (ready : Pc → Prop)

theorem exists_go
    (hgo : ∀ w ts, RoseTree.All P (.node w ts) → w.pc ≠ .finished →
      (w.pc = .reduce → ∀ t ∈ ts.head?, ready t.val.pc) → ∃ u,
        go (.node w ts) = some u)
    (hlt : ∀ u u', RoseTree.All P u → go u = some u' →
      RoseTree.weight load u' < RoseTree.weight load u)
    (hready : ready .finished) :
    ∀ t : Task R, RoseTree.All P t → t.val.pc ≠ .finished →
      ∃ path t', t.modifyAt go path = some t'
        ∧ RoseTree.weight load t' < RoseTree.weight load t
  | .node w [], h, hpc => by
      obtain ⟨u, hu⟩ := hgo w [] h hpc nofun
      exact ⟨[], u, hu, hlt _ _ h hu⟩
  | .node w (t :: rest), h, hpc => by
      by_cases hhead : ready t.val.pc
      · obtain ⟨u, hu⟩ := hgo w (t :: rest) h hpc fun _ _ ht =>
          Option.some.inj ht ▸ hhead
        exact ⟨[], u, hu, hlt _ _ h hu⟩
      · have hall := (RoseTree.all_node.mp h).2 t List.mem_cons_self
        obtain ⟨path, t', hs, hw⟩ := exists_go hgo hlt hready t hall fun hc =>
          hhead (hc ▸ hready)
        obtain ⟨u, hu, hw'⟩ := RoseTree.modifyAt_weight w rest hs hw
        exact ⟨0 :: path, u, hu, hw'⟩

theorem exists_run_finished
    (hgo : ∀ w ts, RoseTree.All P (.node w ts) → w.pc ≠ .finished →
      (w.pc = .reduce → ∀ t ∈ ts.head?, ready t.val.pc) → ∃ u,
        go (.node w ts) = some u)
    (hinv : ∀ u u', RoseTree.All P u → go u = some u' → RoseTree.All P u')
    (hlt : ∀ u u', RoseTree.All P u → go u = some u' →
      RoseTree.weight load u' < RoseTree.weight load u)
    (hready : ready .finished) {t : Task R} (ht : RoseTree.All P t) :
    ∃ as t', StepMachine.run (step s body go) as t = some t' ∧ t'.val.pc
      = .finished := by
  have hstep : ∀ t : Task R, RoseTree.All P t → t.val.pc ≠ .finished →
      ∃ a t', True ∧ step s body go a t = some t' ∧ RoseTree.All P t'
        ∧ RoseTree.weight load t' < RoseTree.weight load t := by
    intro t ht hpc
    obtain ⟨path, t', hs, hw⟩ := exists_go ready hgo hlt hready t ht hpc
    have hall := RoseTree.modifyAt_inv (g := fun _ _ => ())
      (fun u u' _ hu huu => ⟨rfl, hinv u u' hu huu⟩) ht hs
    exact ⟨⟨path, .go⟩, t', trivial, hs, hall.2, hw⟩
  obtain ⟨as, t', -, hrun, -, hend⟩ := StepMachine.Along.exists_run (step s body go)
    (fun _ _ => True) (RoseTree.All P) (fun t => t.val.pc = .finished)
    (RoseTree.weight load) hstep ht
  exact ⟨as, t', hrun, hend⟩

end Progress

end XKaapi.Kastl
