/-
The functions that select a victim (kaapi_sched_select_rand.c,
kaapi_sched_select_hierarchy.c, kaapi_sched_select_pws.c,
kaapi_sched_select_hwsn.c, kaapi_sched_select_aff.c).

Each is called with a flag: to select a victim, or to be told how the last
steal ended. It keeps its counters in the arguments of the kprocessor,
that are 0 at first. `Outcome` makes explicit what the C code leaves
undefined: an access beyond `hlevel.depth`, a remainder by zero, an entry
beyond the array of kprocessors.

The generator is not modelled: a call is given the values that `rand` and
`rand_r` return in it, and the seeds `rand_r` leaves.
-/
import XKaapi.Lib.Run

namespace XKaapi.Steal

-- ======== the hierarchy

/-- `kaapi_onelevel_t` -/
structure OneLevel where
  kids : List Nat
  notself : List Nat
deriving DecidableEq, Repr

/-- `kaapi_cpuhierarchy_t` of the kprocessor `kid`, with the kprocessors of
the machine: an entry of `allKprocessors` is `false` when it is null. -/
structure Hierarchy where
  kid : Nat
  levels : List OneLevel
  allKprocessors : List Bool
  countKprocessors : Nat
  kid_exists : allKprocessors[kid]? = some true
  kid_mem : ∀ l ∈ levels, kid ∈ l.kids
  kids_lt : ∀ l ∈ levels, ∀ v ∈ l.kids, v < allKprocessors.length
  notself_lt : ∀ l ∈ levels, ∀ v ∈ l.notself, v < allKprocessors.length
  count_pos : 0 < countKprocessors
  count_le : countKprocessors ≤ allKprocessors.length

/-- `hlevel.depth` -/
def Hierarchy.depth (h : Hierarchy) : Nat := h.levels.length

-- ======== the calls

/-- `kaapi_selecvictim_flag_t` -/
inductive SelectFlag
  | selectVictim
  | stealSuccess
  | stealFailed
deriving DecidableEq, Repr

/-- What `rand_r` returns, and the seed it leaves. -/
structure Draw where
  value : Nat
  seed : Nat
deriving DecidableEq, Repr

/-- A call, with what `rand` returns in it and the calls of `rand_r`. -/
structure SelectCall where
  flag : SelectFlag
  rand : Nat
  draws : List Draw
deriving DecidableEq, Repr

/-- What the C code does not define. -/
inductive Fault
  | level (d : Nat)
  | remainder
  | kprocessor (v : Nat)
deriving DecidableEq, Repr

/-- How a call ends: the new arguments and the kid of `victim->kproc`, if
the call is a selection that returns 0. The draws may not be those of one
call. -/
inductive Outcome (α : Type)
  | mismatch
  | fault (f : Fault)
  | returns (arg : α) (victim : Option Nat)
deriving DecidableEq, Repr

def Outcome.map {α β : Type} (f : α → β) : Outcome α → Outcome β
  | .mismatch => .mismatch
  | .fault e => .fault e
  | .returns arg v => .returns (f arg) v

/-- The loop at `redo_select`: until the entry of `kaapi_all_kprocessors`
is not null. -/
def redoSelect (h : Hierarchy) (pick : Nat → Except Fault Nat) :
    List Draw → Outcome Nat
  | [] => .mismatch
  | x :: rest =>
    match pick x.value with
    | .error e => .fault e
    | .ok victimid =>
      match h.allKprocessors[victimid]? with
      | none => .fault (.kprocessor victimid)
      | some true => if rest = [] then .returns x.seed (some victimid)
          else .mismatch
      | some false => redoSelect h pick rest

/-- `kids[r % nkids]`, of an array of `nkids` entries. -/
def pickIn (kids : List Nat) (r : Nat) : Except Fault Nat :=
  match kids[r % kids.length]? with
  | some victimid => .ok victimid
  | none => .error .remainder

-- ======== rand

/-- `kaapi_sched_select_victim_rand`. Alone in the machine, it returns
`EINVAL`. -/
def selectVictimRand (h : Hierarchy) (c : SelectCall) : Outcome Nat :=
  match c.flag with
  | .selectVictim =>
    if h.countKprocessors ≤ 1 then .returns 0 none
    else redoSelect h (fun r => .ok (r % h.countKprocessors)) c.draws
  | .stealSuccess => .returns 0 none
  | .stealFailed => .returns 0 none

-- ======== hierarchy

/-- `kaapi_hier_arg` of the hierarchical selection. -/
structure HierArg where
  depth : Nat
  depthMin : Nat
  index : Nat
  seed : Nat
deriving DecidableEq, Repr

def HierArg.zero : HierArg := ⟨0, 0, 0, 0⟩

/-- The loop that computes `depth_min`, from the level `d`. The source also
tests `depth_min > hlevel.depth`, after it has read the level at
`hlevel.depth`. -/
def computeDepthMin : List OneLevel → Nat → Except Fault Nat
  | [], d => .error (.level d)
  | level :: rest, d =>
    if level.kids.length = 1 then computeDepthMin rest (d + 1) else .ok d

/-- The initialisation, in the selections where `depth_min` is 0. -/
def hierInit (h : Hierarchy) (rand : Nat) (arg : HierArg) :
    Except Fault HierArg :=
  if arg.depthMin = 0 then
    match computeDepthMin h.levels 0 with
    | .error e => .error e
    | .ok d => .ok ⟨d, d, arg.index, rand⟩
  else .ok arg

/-- The failures after which the search leaves a level. -/
def hierQuota (h : Hierarchy) (depthMin depth : Nat) : Nat :=
  if depth ≤ 1 + depthMin then
    match h.levels[depth]? with
    | some level => level.kids.length / 2
    | none => 0
  else 2

/-- `KAAPI_STEAL_FAILED` -/
def hierFailed (h : Hierarchy) (arg : HierArg) : HierArg :=
  if hierQuota h arg.depthMin arg.depth ≤ arg.index + 1 then
    { arg with
      depth := if arg.depth + 1 = h.depth then arg.depthMin else arg.depth + 1
      index := 0 }
  else { arg with index := arg.index + 1 }

/-- `kaapi_sched_select_victim_hierarchy` -/
def selectVictimHierarchy (h : Hierarchy) (c : SelectCall) (arg : HierArg) :
    Outcome HierArg :=
  if h.levels = [] then (selectVictimRand h c).map fun _ => arg
  else match c.flag with
    | .stealFailed =>
      if arg.depth < h.depth then .returns (hierFailed h arg) none
      else .fault (.level arg.depth)
    | .stealSuccess => .returns
        { arg with
          depth := arg.depthMin
          index := 0 } none
    | .selectVictim =>
      match hierInit h c.rand arg with
      | .error e => .fault e
      | .ok arg =>
        match h.levels[arg.depth]? with
        | none => .fault (.level arg.depth)
        | some level => (redoSelect h (pickIn level.kids) c.draws).map
            fun seed => { arg with seed := seed }

-- ======== pws

/-- `kaapi_hier_arg` of the pws selection. -/
structure PwsArg where
  level : Nat
  seed : Nat
deriving DecidableEq, Repr

def PwsArg.zero : PwsArg := ⟨0, 0⟩

/-- The first selection, or one that finds a null seed. -/
def pwsInit (rand : Nat) (arg : PwsArg) : PwsArg :=
  if arg.seed = 0 then ⟨2, rand⟩ else arg

/-- The two sets of a level; `r < 0.8*count` as a comparison of integers. -/
def pickPws (level : OneLevel) (x : Nat) : Except Fault Nat :=
  if level.kids.length + level.notself.length = 0 then .error .remainder
  else if 5 * (x % (level.kids.length + level.notself.length))
      < 4 * (level.kids.length + level.notself.length) then
    pickIn level.kids (x % (level.kids.length + level.notself.length))
  else pickIn level.notself (x % (level.kids.length + level.notself.length))

/-- `kaapi_sched_select_victim_pws` -/
def selectVictimPws (h : Hierarchy) (c : SelectCall) (arg : PwsArg) :
    Outcome PwsArg :=
  if h.levels = [] then (selectVictimRand h c).map fun _ => arg
  else match c.flag with
    | .stealFailed => .returns
        { arg with level := if arg.level < 2 then arg.level + 1 else arg.level }
        none
    | .stealSuccess => .returns { arg with level := 0 } none
    | .selectVictim =>
      match h.levels[(pwsInit c.rand arg).level]? with
      | none => .fault (.level (pwsInit c.rand arg).level)
      | some level => (redoSelect h (pickPws level) c.draws).map
          fun seed => ⟨(pwsInit c.rand arg).level, seed⟩

-- ======== hwsn

/-- `kaapi_hier_arg` of the hwsn selection; the policy 1 is local, 2 is
random. -/
structure HwsnArg where
  init : Int
  policy : Nat
  nfailed : Nat
  seed : Nat
deriving DecidableEq, Repr

def HwsnArg.zero : HwsnArg := ⟨0, 0, 0, 0⟩

/-- The first selection. -/
def hwsnInit (rand : Nat) (arg : HwsnArg) : HwsnArg :=
  if arg.init = 0 then ⟨1, 2, 0, rand⟩ else arg

/-- The victim of a draw: in the others of the first level, or anywhere. -/
def pickHwsn (h : Hierarchy) (policy r : Nat) : Except Fault Nat :=
  if policy = 1 then
    match h.levels[0]? with
    | none => .error (.level 0)
    | some level => pickIn level.notself r
  else .ok (r % h.countKprocessors)

/-- `kaapi_sched_select_victim_hwsn` -/
def selectVictimHwsn (h : Hierarchy) (c : SelectCall) (arg : HwsnArg) :
    Outcome HwsnArg :=
  if h.levels = [] ∨ arg.init = -1 then (selectVictimRand h c).map fun _ => arg
  else match c.flag with
    | .stealFailed => .returns
        { arg with
          nfailed := arg.nfailed + 1
          policy := if 3 < arg.nfailed + 1 then 2 else arg.policy } none
    | .stealSuccess => .returns { arg with policy := 1, nfailed := 0 } none
    | .selectVictim =>
      if h.countKprocessors ≤ 1 then .returns (hwsnInit c.rand arg) none
      else (redoSelect h (pickHwsn h (hwsnInit c.rand arg).policy) c.draws).map
        fun seed => { hwsnInit c.rand arg with seed := seed }

-- ======== aff

/-- `kaapi_aff_arg` -/
structure AffArg where
  lastvictim : Nat
  nextvictim : Nat
  seed : Nat
deriving DecidableEq, Repr

def AffArg.zero : AffArg := ⟨0, 0, 0⟩

/-- The next victim is the one of a draw. -/
def affDraw (draws : List Draw) : Outcome AffArg :=
  match draws with
  | [x] => .returns ⟨x.value, x.value, x.seed⟩ none
  | _ => .mismatch

/-- The loop that waits for the entry of the next victim. -/
def affSelect (h : Hierarchy) (arg : AffArg) : Outcome AffArg :=
  match h.allKprocessors[arg.nextvictim % h.countKprocessors]? with
  | none => .fault (.kprocessor (arg.nextvictim % h.countKprocessors))
  | some true => .returns arg (some (arg.nextvictim % h.countKprocessors))
  | some false => .mismatch

/-- `kaapi_sched_select_victim_aff` -/
def selectVictimAff (h : Hierarchy) (c : SelectCall) (arg : AffArg) :
    Outcome AffArg :=
  match c.flag with
  | .stealFailed => affDraw c.draws
  | .stealSuccess => .returns { arg with lastvictim := arg.nextvictim } none
  | .selectVictim =>
    if arg.seed = 0 then
      match affDraw c.draws with
      | .mismatch => .mismatch
      | .fault e => .fault e
      | .returns arg _ => affSelect h arg
    else affSelect h arg

-- ======== the redo loop

variable {h : Hierarchy} {pick : Nat → Except Fault Nat} {draws : List Draw}

theorem redoSelect_exists {seed : Nat} {victim : Option Nat}
    (hr : redoSelect h pick draws = .returns seed victim) :
    ∃ v, victim = some v ∧ h.allKprocessors[v]? = some true := by
  induction draws with
  | nil => cases hr
  | cons x rest ih =>
    unfold redoSelect at hr
    cases hp : pick x.value with
    | error e =>
      rw [hp] at hr
      cases hr
    | ok v =>
      rw [hp] at hr
      dsimp only at hr
      cases hv : h.allKprocessors[v]? with
      | none =>
        rw [hv] at hr
        cases hr
      | some b =>
        rw [hv] at hr
        cases b with
        | false => exact ih hr
        | true =>
          dsimp only at hr
          split at hr
          next =>
            cases hr
            exact ⟨v, rfl, hv⟩
          next => cases hr

theorem redoSelect_ne_fault {f : Fault}
    (hpick : ∀ x ∈ draws, ∃ v, pick x.value = .ok v
      ∧ v < h.allKprocessors.length) :
    redoSelect h pick draws ≠ .fault f := by
  induction draws with
  | nil => exact nofun
  | cons x rest ih =>
    obtain ⟨v, hp, hv⟩ := hpick x List.mem_cons_self
    unfold redoSelect
    rw [hp]
    dsimp only
    rw [List.getElem?_eq_getElem hv]
    cases h.allKprocessors[v] with
    | false => exact ih fun y hy => hpick y (List.mem_cons_of_mem x hy)
    | true =>
      dsimp only
      split
      next => exact nofun
      next => exact nofun

theorem pickIn_ok {kids : List Nat} (hk : kids ≠ []) (r : Nat) :
    ∃ v ∈ kids, pickIn kids r = .ok v := by
  have hlt : r % kids.length < kids.length :=
    Nat.mod_lt r (List.length_pos_iff.mpr hk)
  refine ⟨kids[r % kids.length], List.getElem_mem hlt, ?_⟩
  unfold pickIn
  rw [List.getElem?_eq_getElem hlt]

end XKaapi.Steal
