/-
The arguments of a QUARK task as its body finds them: `QUARK_Args_Pop` and
the functions of the task format (api/quark/quark_xkaapi.c).

A record is used where it was made, or as a copy whose shared parameters
have been renamed, or, from a task list, with handles in place of their
pointers; `callitwith_handle` tells the pop of the last case (`Launch`).

`args_popped` is what each pop answers. Three things are not in it:

- the answer for a NODEP argument larger than a pointer is the pointer that
  was given where it should be the place of that pointer (`args_not_popped`);
- a SCRATCH argument without a pointer takes the temporary of its own
  number, of which there are sixteen;
- the copy of a theft: `kaapi_tasksteal_body` asks the format for the
  address of a V parameter and sets the view of a renamed one, and both
  abort.

A SCRATCH argument with a pointer keeps it: two of them may have the same.
-/
import XKaapi.Misc.DataSpecific
import XKaapi.Quark.Insert

namespace XKaapi.Quark

open Dfg (modeV getMode)
open Function (update update_of_ne update_self)
open Misc (Block Malloc Temps gettemporaryData)

-- ======== the launches

/-- `kaapi_quark_task_format_set_access_param`, the version being 0. -/
def setAccessParam (t : QuarkTask) (i data : Nat) : QuarkTask :=
  if (t.param i).mode ≠ modeV then
    let p := { t.param i with
      data := data
      version := 0 }
    { t with param := update t.param i p }
  else t

/-- `kaapi_quark_task_format_task_copy` -/
def taskCopy (t : QuarkTask) : QuarkTask := t

def renameParam (renamed : Nat → Option Nat) (i : Nat) (t : QuarkTask) : QuarkTask :=
  match renamed i with
  | some data =>
    if getMode (t.param i).mode = modeV then t else setAccessParam t i data
  | none => t

/-- The shared parameters among the first `n` get other pointers. -/
def renameParams (renamed : Nat → Option Nat) : Nat → QuarkTask → QuarkTask
  | 0, t => t
  | n + 1, t => renameParam renamed n (renameParams renamed n t)

/-- How a record comes to its execution. -/
inductive Launch
  | inPlace
  | copied (renamed : Nat → Option Nat)
  | withHandles (handle : Nat → Nat)

/-- What is put in the place of the pointers of the shared parameters. -/
def Launch.renamed : Launch → Nat → Option Nat
  | .inPlace, _ => none
  | .copied renamed, i => renamed i
  | .withHandles handle, i => some (handle i)

/-- The record when its body is called. -/
def Launch.prepare (l : Launch) (t : QuarkTask) : QuarkTask :=
  match l with
  | .inPlace => { t with callitwithHandle := false }
  | .copied renamed =>
    { renameParams renamed t.nparam (taskCopy t) with callitwithHandle := false }
  | .withHandles handle =>
    { renameParams (fun i => some (handle i)) t.nparam t with callitwithHandle := true }

-- ======== the pops

/-- What a pop answers: the address of a `data` field of the record, the
address of the pointer in a `kaapi_data_t`, or another pointer. -/
inductive Loc
  | param (i : Nat)
  | handle (gd : Nat)
  | pointer (p : Nat)
deriving DecidableEq, Repr

/-- The body of a task between two pops. `lastArg` is NULL before the first,
and the answers are listed. -/
structure Body where
  task : QuarkTask
  lastArg : Option Nat
  temps : Temps
  locs : List Loc

section Pop

variable (malloc : Malloc) (live : Nat → List Block)

/-- `QUARK_Args_Pop`; `live` are the blocks of the program at each pop. -/
def argsPop (b : Body) : Option Body :=
  let k := b.lastArg.getD 0
  let arg2pop := b.task.param k
  let answer (loc : Loc) : Body := { b with
    lastArg := some (k + 1)
    locs := b.locs ++ [loc] }
  if arg2pop.mode &&& modeT ≠ 0 then
    if arg2pop.data = 0 then
      (gettemporaryData malloc (live k) b.temps k arg2pop.size).map fun r =>
        { answer (.param k) with
          task := { b.task with
            param := update b.task.param k { arg2pop with data := r.1 } }
          temps := r.2 }
    else some (answer (.param k))
  else if arg2pop.mode ≠ modeV then
    if b.task.callitwithHandle then some (answer (.handle arg2pop.data))
    else some (answer (.param k))
  else if arg2pop.size ≤ 8 then some (answer (.param k))
  else some (answer (.pointer arg2pop.data))

/-- The first `n` pops of a body. -/
def argsPops : Nat → Body → Option Body
  | 0, b => some b
  | n + 1, b => (argsPops n b).bind (argsPop malloc live)

end Pop

def bodyStart (t : QuarkTask) (temps : Temps) : Body where
  task := t
  lastArg := none
  temps := temps
  locs := []

-- ======== what is popped

/-- The parameter is given a temporary when it is popped. -/
def OneParam.NeedsTemp (p : OneParam) : Prop := p.mode &&& modeT ≠ 0 ∧ p.data = 0

/-- The answer for parameter `k`. -/
def locOf (t : QuarkTask) (k : Nat) : Loc :=
  let p := t.param k
  if p.mode &&& modeT ≠ 0 then .param k
  else if p.mode ≠ modeV then if t.callitwithHandle then .handle p.data else .param k
  else if p.size ≤ 8 then .param k
  else .pointer p.data

/-- After `n` pops of the record `t`. -/
structure Popped (t : QuarkTask) (n : Nat) (b : Body) : Prop where
  last : b.lastArg.getD 0 = n
  good : b.temps.Good
  handle : b.task.callitwithHandle = t.callitwithHandle
  length : b.locs.length = n
  locs : ∀ k < n, b.locs[k]? = some (locOf t k)
  rest : ∀ k, n ≤ k → b.task.param k = t.param k
  kept : ∀ k < n, ¬(t.param k).NeedsTemp → b.task.param k = t.param k
  temp : ∀ k < n, k < 16 → (t.param k).NeedsTemp →
    b.task.param k = { t.param k with data := b.temps.dataSpecific k }
      ∧ (0 < (t.param k).size → b.temps.dataSpecific k ≠ 0)
      ∧ (t.param k).size ≤ b.temps.sizeSpecific k

section Run

variable {t : QuarkTask} {n : Nat} {b : Body} {temps : Temps}

/-- Before the first pop. -/
theorem popped_start (h : temps.Good) : Popped t 0 (bodyStart t temps) where
  last := rfl
  good := h
  handle := rfl
  length := rfl
  locs := fun _ hk => absurd hk (Nat.not_lt_zero _)
  rest := fun _ _ => rfl
  kept := fun _ hk => absurd hk (Nat.not_lt_zero _)
  temp := fun _ hk => absurd hk (Nat.not_lt_zero _)

theorem Popped.locs_concat (h : Popped t n b) :
    ∀ k < n + 1, (b.locs ++ [locOf t n])[k]? = some (locOf t k) := by
  intro k hk
  rcases Nat.lt_succ_iff_lt_or_eq.mp hk with hk | rfl
  · rw [List.getElem?_append_left (h.length.symm ▸ hk)]
    exact h.locs k hk
  · rw [List.getElem?_append_right h.length.le, h.length, Nat.sub_self]
    rfl

/-- A pop that asks for no memory. -/
theorem Popped.answer (h : Popped t n b) (hn : ¬(t.param n).NeedsTemp) :
    Popped t (n + 1) { b with
      lastArg := some (n + 1)
      locs := b.locs ++ [locOf t n] } where
  last := rfl
  good := h.good
  handle := h.handle
  length := by rw [List.length_append, h.length, List.length_singleton]
  locs := h.locs_concat
  rest := fun k hk => h.rest k (Nat.le_of_succ_le hk)
  kept := fun k hk hneed => by
    rcases Nat.lt_succ_iff_lt_or_eq.mp hk with hk | rfl
    · exact h.kept k hk hneed
    · exact h.rest k le_rfl
  temp := fun k hk h16 hneed => by
    rcases Nat.lt_succ_iff_lt_or_eq.mp hk with hk | rfl
    · exact h.temp k hk h16 hneed
    · exact absurd hneed hn

/-- A pop that gives the parameter a temporary. -/
theorem Popped.request (h : Popped t n b) (hn : (t.param n).NeedsTemp) {p : Nat}
    (hreq : n < 16 → Temps.Requested b.temps temps n (t.param n).size p)
    (hpos : n < 16 → 0 < (t.param n).size → p ≠ 0) (hlast : 16 ≤ n → temps = b.temps) :
    Popped t (n + 1) {
      task := { b.task with
        param := update b.task.param n { t.param n with data := p } }
      lastArg := some (n + 1)
      temps := temps
      locs := b.locs ++ [locOf t n] } where
  last := rfl
  good := by
    rcases lt_or_ge n 16 with h16 | h16
    · exact (hreq h16).good
    · exact hlast h16 ▸ h.good
  handle := h.handle
  length := by rw [List.length_append, h.length, List.length_singleton]
  locs := h.locs_concat
  rest := fun k hk => by
    change update b.task.param n _ k = _
    rw [update_of_ne (Nat.lt_of_succ_le hk).ne']
    exact h.rest k (Nat.le_of_succ_le hk)
  kept := fun k hk hneed => by
    rcases Nat.lt_succ_iff_lt_or_eq.mp hk with hk | rfl
    · change update b.task.param n _ k = _
      rw [update_of_ne hk.ne]
      exact h.kept k hk hneed
    · exact absurd hn hneed
  temp := fun k hk h16 hneed => by
    rcases Nat.lt_succ_iff_lt_or_eq.mp hk with hk | rfl
    · change update b.task.param n _ k = _ ∧ _
      rw [update_of_ne hk.ne]
      -- the temporaries of the parameters before are not touched
      have hblock : temps.block k = b.temps.block k := by
        rcases lt_or_ge n 16 with hn16 | hn16
        · exact (hreq hn16).frame k hk.ne
        · rw [hlast hn16]
      have hdata : temps.dataSpecific k = b.temps.dataSpecific k :=
        congrArg Block.addr hblock
      have hsize : temps.sizeSpecific k = b.temps.sizeSpecific k :=
        congrArg Block.size hblock
      rw [hdata, hsize]
      exact h.temp k hk h16 hneed
    · have hr := hreq h16
      change update b.task.param k _ k = _ ∧ _
      rw [update_self, hr.data]
      exact ⟨rfl, hpos h16, hr.fits⟩

/-- One pop; undefined for the seventeenth parameter if it needs a
temporary. -/
theorem argsPop_spec (malloc : Malloc) (live : Nat → List Block)
    (h : Popped t n b) (hn : n = 16 → ¬(t.param n).NeedsTemp) :
    ∃ b', argsPop malloc live b = some b' ∧ Popped t (n + 1) b' := by
  unfold argsPop
  rw [h.last]
  dsimp only
  rw [h.rest n le_rfl]
  by_cases hneed : (t.param n).NeedsTemp
  · have hloc : locOf t n = .param n := if_pos hneed.1
    rw [if_pos hneed.1, if_pos hneed.2, ← hloc]
    rcases lt_trichotomy n 16 with h16 | h16 | h16
    · obtain ⟨p, temps, hget, hreq, hpos⟩ :=
        Temps.gettemporaryData_spec malloc (live n) h.good h16 (t.param n).size
      rw [hget]
      exact ⟨_, rfl, h.request hneed (fun _ => hreq) (fun _ => hpos)
        fun hge => absurd h16 (not_lt.mpr hge)⟩
    · exact absurd hneed (hn h16)
    · unfold gettemporaryData
      rw [if_pos h16]
      exact ⟨_, rfl, h.request hneed (fun hlt => absurd hlt h16.not_gt)
        (fun hlt => absurd hlt h16.not_gt) fun _ => rfl⟩
  · have hanswer := h.answer hneed
    unfold locOf at hanswer
    dsimp only at hanswer
    by_cases hT : (t.param n).mode &&& modeT ≠ 0
    · rw [if_pos hT] at hanswer ⊢
      rw [if_neg fun hdata => hneed ⟨hT, hdata⟩]
      exact ⟨_, rfl, hanswer⟩
    rw [if_neg hT] at hanswer ⊢
    by_cases hV : (t.param n).mode ≠ modeV
    · rw [if_pos hV] at hanswer ⊢
      cases hwh : t.callitwithHandle with
      | true =>
        rw [hwh, if_pos rfl] at hanswer
        rw [if_pos (h.handle.trans hwh)]
        exact ⟨_, rfl, hanswer⟩
      | false =>
        rw [hwh, if_neg Bool.false_ne_true] at hanswer
        rw [if_neg (by rw [h.handle, hwh]; exact Bool.false_ne_true)]
        exact ⟨_, rfl, hanswer⟩
    rw [if_neg hV] at hanswer ⊢
    by_cases hsize : (t.param n).size ≤ 8
    · rw [if_pos hsize] at hanswer ⊢
      exact ⟨_, rfl, hanswer⟩
    · rw [if_neg hsize] at hanswer ⊢
      exact ⟨_, rfl, hanswer⟩

/-- What all the pops answer. -/
theorem argsPops_spec (malloc : Malloc) (live : Nat → List Block) (htemps : temps.Good)
    (h16 : 16 < n → ¬(t.param 16).NeedsTemp) :
    ∃ b, argsPops malloc live n (bodyStart t temps) = some b ∧ Popped t n b := by
  induction n with
  | zero => exact ⟨_, rfl, popped_start htemps⟩
  | succ n ih =>
    obtain ⟨b, hpops, hb⟩ := ih fun hlt => h16 (Nat.lt_succ_of_lt hlt)
    obtain ⟨b', hpop, hb'⟩ := argsPop_spec malloc live hb
      (fun hn => hn ▸ h16 (hn ▸ Nat.lt_succ_self n))
    exact ⟨b', by rw [argsPops, hpops, Option.bind_some, hpop], hb'⟩

end Run

-- ======== what is at a place

/-- The pointer-sized word at an answer. -/
def Loc.word (t : QuarkTask) (handles : Nat → Nat) (m : Mem) : Loc → Nat
  | .param i => (t.param i).data
  | .handle gd => handles gd
  | .pointer p => load64 m p

/-- Byte `k` of what is at an answer. -/
def Loc.byte (t : QuarkTask) (handles : Nat → Nat) (m : Mem) (k : Nat) : Loc → UInt8
  | .param i => byteOf (t.param i).data k
  | .handle gd => byteOf (handles gd) k
  | .pointer p => m (p + k)

/-- The pointer that the body gets for a shared argument. -/
def Launch.pointer (l : Launch) (handles : Nat → Nat) (i : Nat) (a : Arg) : Nat :=
  match l with
  | .inPlace => a.ptr
  | .copied renamed => (renamed i).getD a.ptr
  | .withHandles handle => handles (handle i)

def Arg.IsShared (a : Arg) : Prop :=
  a.direction = some .input ∨ a.direction = some .output ∨ a.direction = some .inout

/-- A SCRATCH argument that asks for one of the sixteen temporaries. -/
def Arg.AsksTemp (a : Arg) (i : Nat) : Prop :=
  a.direction = some .scratch ∧ a.ptr = 0 ∧ i < 16

/-- Argument `i` is `a` and its pop has answered `loc`. -/
def Answer (args : List Arg) (b : Body) (i : Nat) (a : Arg) (loc : Loc) : Prop :=
  args[i]? = some a ∧ b.locs[i]? = some loc

/-- The answers of the pops of a body, the values being compared with the
memory `orig` of the insertion. -/
structure ArgsPopped (orig m : Mem) (handles : Nat → Nat) (l : Launch) (args : List Arg)
    (b : Body) : Prop where
  count : b.locs.length = args.length
  value : ∀ {i a loc}, Answer args b i a loc → a.direction = some .value →
    ∀ k < a.size, loc.byte b.task handles m k = orig (a.ptr + k)
  nodep : ∀ {i a loc}, Answer args b i a loc → a.direction = some .nodep → a.size ≤ 8 →
    loc.word b.task handles m = a.ptr
  shared : ∀ {i a loc}, Answer args b i a loc → a.IsShared →
    loc.word b.task handles m = l.pointer handles i a
  scratchGiven : ∀ {i a loc}, Answer args b i a loc → a.direction = some .scratch →
    a.ptr ≠ 0 → loc.word b.task handles m = a.ptr
  scratch : ∀ {i a loc}, Answer args b i a loc → a.AsksTemp i →
    loc.word b.task handles m = b.temps.dataSpecific i
      ∧ loc.word b.task handles m ≠ 0 ∧ a.size ≤ b.temps.sizeSpecific i
  apart : ∀ {i j a c loc loc'}, Answer args b i a loc → Answer args b j c loc' → i ≠ j →
    a.AsksTemp i → c.AsksTemp j →
      Block.Apart ⟨loc.word b.task handles m, a.size⟩
        ⟨loc'.word b.task handles m, c.size⟩

section Prepare

variable {l : Launch} {t : QuarkTask} {i : Nat}

/-- A parameter after the renaming of its record. -/
def renamedParam (renamed : Nat → Option Nat) (i : Nat) (p : OneParam) : OneParam :=
  match renamed i with
  | some data =>
    if getMode p.mode = modeV then p
    else
      { p with
        data := data
        version := 0 }
  | none => p

/-- A parameter after a steal. -/
theorem renameParam_param (renamed : Nat → Option Nat) (n : Nat) (t : QuarkTask) (i : Nat) :
    (renameParam renamed n t).param i
      = if i = n then renamedParam renamed i (t.param i) else t.param i := by
  unfold renameParam renamedParam
  by_cases hi : i = n
  · subst hi
    rw [if_pos rfl]
    cases renamed i with
    | none => rfl
    | some data =>
      dsimp only
      split
      case isTrue => rfl
      case isFalse hmode =>
        have hne : (t.param i).mode ≠ modeV := fun h => hmode (by rw [h]; rfl)
        rw [setAccessParam, if_pos hne]
        exact update_self ..
  · rw [if_neg hi]
    cases renamed n with
    | none => rfl
    | some data =>
      dsimp only
      split
      case isTrue => rfl
      case isFalse hmode =>
        have hne : (t.param n).mode ≠ modeV := fun h => hmode (by rw [h]; rfl)
        rw [setAccessParam, if_pos hne]
        exact update_of_ne hi ..

theorem renameParams_param (renamed : Nat → Option Nat) (n : Nat) (t : QuarkTask) (i : Nat) :
    (renameParams renamed n t).param i
      = if i < n then renamedParam renamed i (t.param i) else t.param i := by
  induction n with
  | zero => exact (if_neg (Nat.not_lt_zero i)).symm
  | succ n ih =>
    rw [renameParams, renameParam_param, ih]
    rcases lt_trichotomy i n with hi | rfl | hi
    · rw [if_neg hi.ne, if_pos hi, if_pos (Nat.lt_succ_of_lt hi)]
    · rw [if_pos rfl, if_neg (lt_irrefl i), if_pos (Nat.lt_succ_self i)]
    · rw [if_neg hi.ne', if_neg hi.not_gt, if_neg (by omega)]

theorem Launch.prepare_param (l : Launch) (hi : i < t.nparam) :
    (l.prepare t).param i = renamedParam l.renamed i (t.param i) := by
  cases l with
  | inPlace => rfl
  | copied renamed => exact (renameParams_param renamed _ t i).trans (if_pos hi)
  | withHandles handle => exact (renameParams_param _ _ t i).trans (if_pos hi)

theorem renamedParam_of_mode {renamed : Nat → Option Nat} {p : OneParam}
    (h : getMode p.mode = modeV) : renamedParam renamed i p = p := by
  unfold renamedParam
  split
  case h_1 => exact if_pos h
  case h_2 => rfl

theorem renamedParam_shape (renamed : Nat → Option Nat) (i : Nat) (p : OneParam) :
    (renamedParam renamed i p).mode = p.mode ∧ (renamedParam renamed i p).size = p.size := by
  unfold renamedParam
  split
  case h_1 => split <;> exact ⟨rfl, rfl⟩
  case h_2 => exact ⟨rfl, rfl⟩

theorem renamedParam_data {renamed : Nat → Option Nat} {p : OneParam}
    (h : getMode p.mode ≠ modeV) :
    (renamedParam renamed i p).data = (renamed i).getD p.data := by
  unfold renamedParam
  split
  case h_1 data heq => rw [if_neg h, heq, Option.getD_some]
  case h_2 heq => rw [heq, Option.getD_none]

end Prepare

-- ======== results

/-- The inserted record, prepared: what parameter `i` holds of argument
`i`. -/
structure Ready (orig m : Mem) (l : Launch) (i : Nat) (a : Arg) (p : OneParam) : Prop where
  size : p.size = a.size
  mode : a.direction.map Direction.mode = some p.mode
  small : a.direction = some .value → a.size ≤ 8 →
    ∀ k < a.size, byteOf p.data k = orig (a.ptr + k)
  large : a.direction = some .value → 8 < a.size →
    ∀ k < a.size, m (p.data + k) = orig (a.ptr + k)
  pointer : a.direction = some .nodep ∨ a.direction = some .scratch → p.data = a.ptr
  shared : a.IsShared → p.data = (l.renamed i).getD a.ptr

section Results

variable {orig m : Mem} {l : Launch} {t : QuarkTask} {i : Nat} {a : Arg} {p : OneParam}

theorem Encoded.ready (h : Encoded orig m a p) (l : Launch) (i : Nat) :
    Ready orig m l i a (renamedParam l.renamed i p) := by
  obtain ⟨hmode, hsize⟩ := renamedParam_shape l.renamed i p
  -- the mode of the parameter from the direction of the argument
  have hof : ∀ {d}, a.direction = some d → p.mode = d.mode := fun {d} hd =>
    (Option.some.inj ((congrArg (Option.map Direction.mode) hd).symm.trans h.mode)).symm
  have hkeep : ∀ {d}, a.direction = some d → getMode d.mode = modeV →
      renamedParam l.renamed i p = p :=
    fun hd hV => renamedParam_of_mode (by rw [hof hd, hV])
  refine ⟨hsize.trans h.size, hmode ▸ h.mode, fun hd hs => ?_, fun hd hs => ?_,
    fun hd => ?_, fun hd => ?_⟩
  · rw [hkeep hd rfl]
    exact h.small hd hs
  · rw [hkeep hd rfl]
    exact h.large hd hs
  · rcases hd with hd | hd <;>
    · rw [hkeep hd rfl]
      exact h.pointer (by rw [hd]; decide)
  · have hne : getMode p.mode ≠ modeV ∧ a.direction ≠ some .value := by
      rcases hd with hd | hd | hd <;>
      · rw [hof hd, hd]
        decide
    rw [renamedParam_data hne.1, h.pointer hne.2]

/-- Where an argument is found. -/
theorem Ready.locOf (h : Ready orig m l i a (t.param i)) :
    locOf t i = match a.direction with
      | some .value => if a.size ≤ 8 then .param i else .pointer (t.param i).data
      | some .nodep => if a.size ≤ 8 then .param i else .pointer (t.param i).data
      | some .scratch => .param i
      | _ => if t.callitwithHandle then .handle (t.param i).data else .param i := by
  have hmode := h.mode
  unfold Quark.locOf
  dsimp only
  rw [h.size]
  cases hd : a.direction with
  | none =>
    rw [hd] at hmode
    cases hmode
  | some d =>
    rw [hd] at hmode
    rw [← Option.some.inj hmode]
    cases d <;> rfl

theorem Ready.needsTemp_iff (h : Ready orig m l i a p) :
    p.NeedsTemp ↔ a.direction = some .scratch ∧ a.ptr = 0 := by
  have hmode := h.mode
  unfold OneParam.NeedsTemp
  cases hd : a.direction with
  | none =>
    rw [hd] at hmode
    cases hmode
  | some d =>
    rw [hd] at hmode
    rw [← Option.some.inj hmode]
    by_cases hs : d = .scratch
    · subst hs
      rw [h.pointer (.inr hd)]
      exact and_congr_left fun _ => iff_of_true (by decide) rfl
    · refine iff_of_false (fun hp => hp.1 ?_) fun hp => hs (Option.some.inj hp.1)
      cases d with
      | scratch => exact absurd rfl hs
      | _ => rfl

theorem ready_of_insertTask {stack : DataStack} {garbage : QuarkTask} {args : List Arg}
    {st : Inserting} (h : insertTask orig stack garbage args = .ok st)
    (hlive : ∀ a ∈ args, a.Live stack.afterRecord)
    (hkeep : ∀ x, stack.spData ≤ x → x < st.stack.spData → m x = st.mem x)
    (l : Launch) (ha : args[i]? = some a) :
    Ready orig m l i a ((l.prepare st.task).param i) := by
  obtain ⟨hins, hnparam⟩ := insertTask_spec h hlive
  obtain ⟨hlt, -⟩ := List.getElem?_eq_some_iff.mp ha
  rw [l.prepare_param (hnparam ▸ hlt)]
  refine ((hins.encoded i a ha).mono fun hv hsize k hk => ?_).ready l i
  obtain ⟨hlo, hhi⟩ := hins.inStack i a ha hv hsize
  have hrecord : stack.spData ≤ stack.afterRecord.spData := Nat.le_add_right _ _
  exact hkeep _ (by omega) (by omega)

section Popped

variable {handles : Nat → Nat} {args : List Arg} {b : Body} {loc : Loc}
  (hb : Popped (l.prepare t) args.length b)
include hb

/-- The answer of a pop is that place. -/
theorem Popped.loc_eq (hans : Answer args b i a loc) : loc = locOf (l.prepare t) i := by
  obtain ⟨hlt, -⟩ := List.getElem?_eq_some_iff.mp hans.1
  exact Option.some.inj (hans.2.symm.trans (hb.locs i hlt))

variable (hready : Ready orig m l i a ((l.prepare t).param i)) (hans : Answer args b i a loc)
include hready hans

theorem Popped.param_eq (hno : ¬(a.direction = some .scratch ∧ a.ptr = 0)) :
    b.task.param i = (l.prepare t).param i := by
  obtain ⟨hlt, -⟩ := List.getElem?_eq_some_iff.mp hans.1
  exact hb.kept i hlt (mt hready.needsTemp_iff.mp hno)

/-- A value is found with its bytes. -/
theorem Popped.value (hd : a.direction = some .value) {k : Nat} (hk : k < a.size) :
    loc.byte b.task handles m k = orig (a.ptr + k) := by
  have hparam := hb.param_eq hready hans (by rw [hd]; rintro ⟨h, -⟩; cases h)
  have hloc := (hb.loc_eq hans).trans hready.locOf
  rw [hd] at hloc
  dsimp only at hloc
  split at hloc
  case isTrue hsize =>
    rw [hloc, Loc.byte, hparam]
    exact hready.small hd hsize k hk
  case isFalse hsize =>
    rw [hloc, Loc.byte]
    exact hready.large hd (not_le.mp hsize) k hk

/-- A pointer is found as it was given. -/
theorem Popped.nodep (hd : a.direction = some .nodep) (hsize : a.size ≤ 8) :
    loc.word b.task handles m = a.ptr := by
  have hparam := hb.param_eq hready hans (by rw [hd]; rintro ⟨h, -⟩; cases h)
  have hloc := (hb.loc_eq hans).trans hready.locOf
  rw [hd] at hloc
  rw [hloc.trans (if_pos hsize), Loc.word, hparam]
  exact hready.pointer (.inl hd)

/-- A shared argument is found in its version. -/
theorem Popped.shared (hd : a.IsShared) :
    loc.word b.task handles m = l.pointer handles i a := by
  have hparam := hb.param_eq hready hans (by
    rintro ⟨hscratch, -⟩
    rcases hd with h | h | h <;>
    · rw [h] at hscratch
      cases hscratch)
  have hloc : loc = if (l.prepare t).callitwithHandle
      then .handle ((l.prepare t).param i).data else .param i := by
    rw [hb.loc_eq hans, hready.locOf]
    rcases hd with h | h | h <;> rw [h]
  have hdata := hready.shared hd
  cases l with
  | inPlace =>
    rw [hloc.trans (if_neg Bool.false_ne_true), Loc.word, hparam]
    exact hdata
  | copied renamed =>
    rw [hloc.trans (if_neg Bool.false_ne_true), Loc.word, hparam]
    exact hdata
  | withHandles handle =>
    rw [hloc.trans (if_pos rfl), Loc.word, hdata]
    rfl

theorem Popped.loc_scratch (hd : a.direction = some .scratch) : loc = .param i := by
  rw [hb.loc_eq hans, hready.locOf, hd]

theorem Popped.scratchGiven (hd : a.direction = some .scratch) (hptr : a.ptr ≠ 0) :
    loc.word b.task handles m = a.ptr := by
  rw [hb.loc_scratch hready hans hd, Loc.word,
    hb.param_eq hready hans fun h => hptr h.2]
  exact hready.pointer (.inr hd)

/-- A scratch argument is found in the memory of its thread. -/
theorem Popped.scratch (hask : a.AsksTemp i) :
    loc.word b.task handles m = b.temps.dataSpecific i
      ∧ loc.word b.task handles m ≠ 0 ∧ a.size ≤ b.temps.sizeSpecific i := by
  obtain ⟨hlt, -⟩ := List.getElem?_eq_some_iff.mp hans.1
  obtain ⟨hparam, hne, hsize⟩ :=
    hb.temp i hlt hask.2.2 (hready.needsTemp_iff.mpr ⟨hask.1, hask.2.1⟩)
  rw [hready.size] at hne hsize
  rw [hb.loc_scratch hready hans hask.1, Loc.word, hparam]
  exact ⟨rfl, hne a.size_pos, hsize⟩

end Popped

/-- The pops of a body, as many as there are arguments, answer the places of
the arguments; and no insertion has written past the array. -/
theorem args_popped (malloc : Malloc) (live : Nat → List Block)
    {stack : DataStack} {garbage : QuarkTask} {args : List Arg} {st : Inserting}
    (h : insertTask orig stack garbage args = .ok st)
    (hlive : ∀ a ∈ args, a.Live stack.afterRecord)
    (hkeep : ∀ x, stack.spData ≤ x → x < st.stack.spData → m x = st.mem x)
    (hlast : ∀ a, args[16]? = some a → a.direction = some .scratch → a.ptr ≠ 0)
    (l : Launch) (handles : Nat → Nat) {rs : List (List Block × Nat × Nat)} {temps : Temps}
    (htemps : Temps.requests malloc rs Temps.init = some temps) :
    (∃ b, argsPops malloc live args.length (bodyStart (l.prepare st.task) temps) = some b
      ∧ ArgsPopped orig m handles l args b)
      ∧ args.length ≤ MAX_PARAMQUARK ∧ ∀ k ∈ st.written, k < MAX_PARAMQUARK := by
  obtain ⟨hins, -⟩ := insertTask_spec h hlive
  have hready : ∀ {i a}, args[i]? = some a →
      Ready orig m l i a ((l.prepare st.task).param i) :=
    fun ha => ready_of_insertTask h hlive hkeep l ha
  refine ⟨?_, hins.count ▸ hins.bound,
    fun k hk => (hins.written k hk).trans_le hins.bound⟩
  have h16 : 16 < args.length → ¬((l.prepare st.task).param 16).NeedsTemp := by
    intro hlt hneed
    have ha : args[16]? = some args[16] := List.getElem?_eq_getElem hlt
    obtain ⟨hd, hptr⟩ := (hready ha).needsTemp_iff.mp hneed
    exact hlast _ ha hd hptr
  obtain ⟨b, hpops, hb⟩ := argsPops_spec malloc live
    (Temps.init_good.requests htemps) h16
  refine ⟨b, hpops, hb.length, fun hans hd k hk => ?_, fun hans => ?_, fun hans => ?_,
    fun hans => ?_, fun hans => ?_, fun {i j a c loc loc'} hans hans' hij hask hask' => ?_⟩
  · exact hb.value (hready hans.1) hans hd hk
  · exact hb.nodep (hready hans.1) hans
  · exact hb.shared (hready hans.1) hans
  · exact hb.scratchGiven (hready hans.1) hans
  · exact hb.scratch (hready hans.1) hans
  · have hi : loc.word b.task handles m = _ ∧ _ := hb.scratch (hready hans.1) hans hask
    have hj : loc'.word b.task handles m = _ ∧ _ := hb.scratch (hready hans'.1) hans' hask'
    rw [hi.1, hj.1]
    refine (hb.good.apart i j hask.2.2 hask'.2.2 hij ?_ ?_).shrink hi.2.2 hj.2.2
    · exact a.size_pos.trans_le hi.2.2
    · exact c.size_pos.trans_le hj.2.2

end Results

section Examples

def exampleStack : DataStack := ⟨1000, 9000⟩

/-- A call in a memory in which every byte is its own address, modulo 256,
with a stack that is empty. -/
def exampleCall (args : List Arg) : Except (Stop × Inserting) Inserting :=
  insertTask UInt8.ofNat exampleStack ⟨false, 0, 0, fun _ => default⟩ args

def exampleInsert (args : List Arg) : Inserting :=
  match exampleCall args with
  | .ok st => st
  | .error e => e.2

theorem exampleCall_eq_ok (args : List Arg) (h : (exampleCall args).toBool = true) :
    exampleCall args = .ok (exampleInsert args) := by
  unfold exampleInsert
  cases hcall : exampleCall args with
  | ok st => rfl
  | error e =>
    rw [hcall] at h
    cases h

/-- A small value, a large one, an INOUT that is renamed to 70 and two
SCRATCH without pointers, in a copied record. -/
def exampleArgs : List Arg :=
  [⟨4, 16, 0x400, by decide⟩, ⟨12, 32, 0x400, by decide⟩, ⟨8, 64, 0x300, by decide⟩,
    ⟨8, 0, 0x600, by decide⟩, ⟨100, 0, 0x600, by decide⟩]

theorem args_popped_five :
    (∃ b, argsPops .bump (fun _ => []) 5
        (bodyStart ((Launch.copied fun i => if i = 2 then some 70 else none).prepare
          (exampleInsert exampleArgs).task) Temps.init) = some b
      ∧ ArgsPopped UInt8.ofNat (exampleInsert exampleArgs).mem (fun _ => 0)
          (.copied fun i => if i = 2 then some 70 else none) exampleArgs b)
      ∧ 5 ≤ MAX_PARAMQUARK
      ∧ ∀ k ∈ (exampleInsert exampleArgs).written, k < MAX_PARAMQUARK :=
  args_popped .bump (fun _ => []) (exampleCall_eq_ok exampleArgs (by decide))
    (fun a ha => a.live_of_below
      ((by decide : ∀ a ∈ exampleArgs, a.ptr + a.size ≤ exampleStack.afterRecord.spData) a ha))
    (fun _ _ _ => rfl) nofun _ _
    (show Temps.requests .bump [] Temps.init = some Temps.init from rfl)

/-- Two SCRATCH arguments with the pointer 100 and a NODEP argument of 16
bytes with the pointer 200. -/
def givenArgs : List Arg :=
  [⟨4, 100, 0x600, by decide⟩, ⟨4, 100, 0x600, by decide⟩, ⟨16, 200, 0x500, by decide⟩]

/-- Both buffers are 100, and the third answer is 200 itself, where the word
is another one. -/
theorem args_not_popped :
    exampleCall givenArgs = .ok (exampleInsert givenArgs)
      ∧ (argsPops .bump (fun _ => []) 3
          (bodyStart (Launch.inPlace.prepare (exampleInsert givenArgs).task)
            Temps.init)).map (fun b => (b.locs, (b.task.param 0).data, (b.task.param 1).data))
          = some ([.param 0, .param 1, .pointer 200], 100, 100)
      ∧ load64 UInt8.ofNat 200 ≠ 200 :=
  ⟨exampleCall_eq_ok givenArgs (by decide), by decide, by decide⟩

end Examples

end XKaapi.Quark
