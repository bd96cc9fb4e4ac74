/-
The format of statically scheduled tasks
(static/kaapi_stsched_tasksetstatic.c).

A static task wraps another task: its record holds the record of the other
by pointer, and its body. Each accessor of its format resolves the format of
the embedded body and asks it about the embedded record, but two things are
not passed on:

- `kaapi_taskformat_get_off_param` calls itself instead of the accessor of
  the embedded format. It reads whatever the embedded record holds as one
  more wrapper, and when it returns, it returns null.
- `kaapi_taskformat_task_copy` copies the wrapper only. The copy shares the
  embedded record, and `kaapi_taskformat_set_access_param` writes there.

`transparent_iff` says for which static tasks this makes no difference,
for the accessors and for a thief: the record that the thief renames the
parameters in is the one the owner merges from (`stolenRun`).

# The records

`ρ` is what a record holds. The accessors of the format of a task interpret
its record, and `Ops` are those of a task that is not static. Any record can
be read as a wrapper: `subSp` and `subBody` are the two words in front. The
reductions are left out: the format of static tasks has none.
-/
import XKaapi.Dfg.StealBody
import Mathlib.Data.Fintype.EquivFin

namespace XKaapi.StaticTask

open Dfg (AccessMode modeV modeVoid modeW getMode Addr Param Args Mem Outcome
  TaskFormat callBody taskComputeready)
open Function (update update_of_ne update_self)

-- ======== formats

/-- `kaapi_task_body_t` -/
abbrev Body := Nat

/-- `kaapi_access_t` -/
structure Access where
  data : Addr
  version : Addr
deriving DecidableEq, Repr

/-- The accessors of the format of a task. An access that is set is there,
and a parameter by value is somewhere. -/
structure Ops (ρ View : Type) where
  getCountParams : ρ → Nat
  getModeParam : ρ → Nat → AccessMode
  getOffParam : Addr → ρ → Nat → Addr
  getAccessParam : ρ → Nat → Access
  setAccessParam : ρ → Nat → Access → ρ
  getFmtParam : ρ → Nat → Addr
  getViewParam : ρ → Nat → View
  /-- No view is set in a format with static fields: `kaapi_assert(0)`. -/
  setViewParam : ρ → Nat → View → Option ρ
  get_set : ∀ r i a, i < getCountParams r → getMode (getModeParam r i) ≠ modeV →
    getAccessParam (setAccessParam r i a) i = a
  off_ne : ∀ sp r i, i < getCountParams r → getMode (getModeParam r i) = modeV →
    getOffParam sp r i ≠ 0

/-- `kaapi_format_t`: the format of static tasks, or another one. -/
inductive Format (ρ View : Type) where
  | static
  | task (ops : Ops ρ View)

/-- The formats registered by body, and how records are read. -/
structure Runtime (ρ View : Type) where
  resolvebybody : Body → Option (Format ρ View)
  subSp : ρ → Addr
  subBody : ρ → Body
  /-- `kaapi_memory_view_clear` -/
  clear : View

/-- The records. -/
abbrev Store (ρ : Type) := Addr → ρ

-- ======== accessors

section accessors

variable {ρ View β : Type} (rt : Runtime ρ View) (store : Store ρ)

/-- An accessor that is passed on: `kaapi_format_get_...`, which for a static
task is `kaapi_taskformat_get_...`. `get` is the accessor of another task, and
`dflt` what is answered when the embedded body has no format. -/
def forward (dflt : β) (get : Ops ρ View → Addr → β) :
    (fuel : Nat) → Format ρ View → (sp : Addr) → Option β
  | _, .task ops, sp => some (get ops sp)
  | 0, .static, _ => none
  | fuel + 1, .static, sp =>
    match rt.resolvebybody (rt.subBody (store sp)) with
    | none => some dflt
    | some task_fmt => forward dflt get fuel task_fmt (rt.subSp (store sp))

def getCountParams : Nat → Format ρ View → Addr → Option Nat :=
  forward rt store 0 fun ops sp => ops.getCountParams (store sp)

def getModeParam (i : Nat) : Nat → Format ρ View → Addr → Option AccessMode :=
  forward rt store modeVoid fun ops sp => ops.getModeParam (store sp) i

def getAccessParam (i : Nat) : Nat → Format ρ View → Addr → Option Access :=
  forward rt store ⟨0, 0⟩ fun ops sp => ops.getAccessParam (store sp) i

def setAccessParam (i : Nat) (a : Access) :
    Nat → Format ρ View → Addr → Option (Store ρ) :=
  forward rt store store fun ops sp =>
    update store sp (ops.setAccessParam (store sp) i a)

def getFmtParam (i : Nat) : Nat → Format ρ View → Addr → Option Addr :=
  forward rt store 0 fun ops sp => ops.getFmtParam (store sp) i

def getViewParam (i : Nat) : Nat → Format ρ View → Addr → Option View :=
  forward rt store rt.clear fun ops sp => ops.getViewParam (store sp) i

def setViewParam (i : Nat) (v : View) :
    Nat → Format ρ View → Addr → Option (Option (Store ρ)) :=
  forward rt store (some store) fun ops sp =>
    (ops.setViewParam (store sp) i v).map (update store sp)

/-- `kaapi_taskformat_get_off_param`, which calls itself. -/
def taskformatGetOffParam : (fuel : Nat) → (sp : Addr) → Option Addr
  | 0, _ => none
  | fuel + 1, sp =>
    match rt.resolvebybody (rt.subBody (store sp)) with
    | none => some 0
    | some _ => taskformatGetOffParam fuel (rt.subSp (store sp))

/-- The member `get_off_param` of a format. -/
def getOffParam (i fuel : Nat) : Format ρ View → Addr → Option Addr
  | .task ops, sp => some (ops.getOffParam sp (store sp) i)
  | .static, sp => taskformatGetOffParam rt store fuel sp

/-- The record that the words in front of the records lead to from `sp`, in
`n` steps. -/
def chain (sp : Addr) : Nat → Addr
  | 0 => sp
  | n + 1 => rt.subSp (store (chain sp n))

/-- `kaapi_taskformat_task_copy` -/
def taskformatTaskCopy (spDest spSrc : Addr) : Store ρ :=
  update store spDest (store spSrc)

end accessors

-- ======== stealing

section stealing

variable {V : Type} (fmt : TaskFormat V) (body : Dfg.Body V)
  (params : List Param)

/-- The format of a static task over a task with the format `fmt`, as the
thief uses it: the address of a parameter by value is null, or there is no
answer. -/
def staticFormat : TaskFormat V :=
  { fmt with
    flag := .dynamicField
    getOffParam := fun _ => none }

/-- One turn of the loop of `kaapi_tasksteal_body`. The format of static
tasks has no `redinit` to call. -/
def stealParam (war cw : BitVec 32) (orig : Args) (i : Nat) (p : Param)
    (st : Mem V × Args) : Option (Mem V × Args) :=
  if Dfg.mayRename p && !Dfg.accessIsStack p.m && cw.getLsbD i then none
  else Dfg.stealParam (staticFormat fmt) war cw orig i p st

/-- `kaapi_tasksteal_body` on a static task. The copy of the wrapper has the
embedded record of the original: the accesses set in the copy are those of
the original from then on. -/
def taskstealBody (war cw : BitVec 32) (orig : Args) (m : Mem V) :
    Option (Mem V × Args × Option Args) :=
  if war = 0 ∧ cw = 0 then
    (callBody fmt body params orig m).map fun m => (m, orig, none)
  else
    (ForLoop.forIdx (stealParam fmt war cw orig) 0 params (m, orig)).bind
      fun st =>
    (callBody fmt body params st.2 st.1).map fun m => (m, st.2, some st.2)

/-- A stolen static task until its owner passes it: `kaapi_tasksteal_body`,
`kaapi_taskwrite_body`, and `kaapi_aftersteal_body` upon MERGE. -/
def stolenRun (war cw : BitVec 32) (version : Nat → Option Dfg.Loc)
    (m : Mem V) : Option (Outcome V) :=
  (taskstealBody fmt body params war cw (Dfg.origArgs params version) m).bind
    fun st =>
  (Dfg.taskwriteBody (staticFormat fmt) params war cw st.2.1 st.2.2 st.1).bind
    (Dfg.ownerPass (staticFormat fmt) params)

/-- Stolen with the masks of its analysis, the task does to the data what it
does when it is run in place. -/
def StolenInPlace : Prop :=
  ∀ (map : Dfg.HashMap) (r : Dfg.Scan),
    taskComputeready params map = some r → r.wc = 0 →
  ∀ (version : Nat → Option Dfg.Loc) (m inPlace : Mem V),
    callBody fmt body params (Dfg.origArgs params version) m = some inPlace →
    ∃ out, stolenRun fmt body params r.warParam r.cwParam version m = some out
      ∧ out.mem.datum = inPlace.datum

/-- What a stolen static task writes is lost. -/
example : ∃ r out,
    taskComputeready [⟨modeW, 0⟩] (fun _ => Dfg.modeR) = some r
      ∧ stolenRun ⟨.dynamicField, fun _ => none, fun _ => ⟨Nat.add, 0⟩,
          fun _ => none, fun _ => some ()⟩ ⟨fun _ _ => 7, fun _ _ => []⟩
          [⟨modeW, 0⟩] r.warParam r.cwParam (fun _ => none)
          (.init (fun _ => 0) fun _ => 0) = some out
      ∧ out.published = .merge ∧ out.mem.datum 0 = 0 :=
  ⟨_, _, rfl, rfl, rfl, rfl⟩

end stealing

-- ======== wrapping

variable {ρ View β : Type} {rt : Runtime ρ View} {store store' : Store ρ} {sp : Addr}

/-- The static task at `sp` wraps, over the wrappers `l`, the task with the
record `a` and the accessors `ops`. -/
inductive Embeds (rt : Runtime ρ View) (store : Store ρ) :
    Addr → List Addr → Ops ρ View → Addr → Prop where
  | task {sp : Addr} {ops : Ops ρ View}
      (hfmt : rt.resolvebybody (rt.subBody (store sp)) = some (.task ops)) :
      Embeds rt store sp [sp] ops (rt.subSp (store sp))
  | static {sp a : Addr} {l : List Addr} {ops : Ops ρ View}
      (hfmt : rt.resolvebybody (rt.subBody (store sp)) = some .static)
      (hin : Embeds rt store (rt.subSp (store sp)) l ops a) :
      Embeds rt store sp (sp :: l) ops a

/-- A static task: its embedded format, and the task at the end of the
wrappers, whose record is no wrapper. -/
structure Wrapped (rt : Runtime ρ View) (store : Store ρ) (sp : Addr) where
  fmt : Format ρ View
  wrappers : List Addr
  ops : Ops ρ View
  inner : Addr
  resolved : rt.resolvebybody (rt.subBody (store sp)) = some fmt
  embeds : Embeds rt store sp wrappers ops inner
  apart : inner ∉ wrappers

/-- Both computations end, with one value. -/
def Agree (f g : Nat → Option β) : Prop :=
  ∃ v, (∃ fuel, f fuel = some v) ∧ ∃ fuel, g fuel = some v

namespace Wrapped

variable {sp : Addr} (w : Wrapped rt store sp)

/-- The number of parameters of the task. -/
def count : Nat := w.ops.getCountParams (store w.inner)

/-- The parameters, as the analysis and the thief see them. -/
def params : List Param :=
  (List.range w.count).map fun i =>
    ⟨w.ops.getModeParam (store w.inner) i,
      (w.ops.getAccessParam (store w.inner) i).data⟩

/-- Parameter `i` is by value. -/
def ByValue (i : Nat) : Prop := getMode (w.ops.getModeParam (store w.inner) i) = modeV

/-- The accessor `f` answers for the wrapper what it answers for the embedded
task. -/
def Same (f : Nat → Format ρ View → Addr → Option β) : Prop :=
  Agree (fun fuel => f fuel .static sp) fun fuel => f fuel w.fmt (rt.subSp (store sp))

/-- The format of static tasks makes no difference: each accessor answers
what it answers for the embedded task, an access that is set in a copy of the
wrapper changes none of the original, and a stolen task has the effect of its
execution in place. -/
structure Transparent : Prop where
  count : w.Same (getCountParams rt store)
  mode : ∀ i, i < w.count → w.Same (getModeParam rt store i)
  off : ∀ i, i < w.count → w.Same (getOffParam rt store i)
  access : ∀ i, i < w.count → w.Same (getAccessParam rt store i)
  setAccess : ∀ i, i < w.count → ∀ a, w.Same (setAccessParam rt store i a)
  fmt : ∀ i, i < w.count → w.Same (getFmtParam rt store i)
  view : ∀ i, i < w.count → w.Same (getViewParam rt store i)
  setView : ∀ i, i < w.count → ∀ v, w.Same (setViewParam rt store i v)
  independent : ∀ dest, dest ∉ w.wrappers → dest ≠ w.inner →
    ∀ i, i < w.count → ¬ w.ByValue i → ∀ a s',
    (∃ fuel, setAccessParam rt (taskformatTaskCopy store dest sp) i a fuel .static dest
      = some s') →
    ∀ j, j < w.count → ¬ w.ByValue j →
      Agree (fun fuel => getAccessParam rt s' j fuel .static sp)
        fun fuel => getAccessParam rt store j fuel .static sp
  stolen : ∀ {V : Type} (fmt : TaskFormat V) (body : Dfg.Body V),
    StolenInPlace fmt body w.params

/-- When it makes none: the task has no parameter, or it is itself static,
has its parameters by value, and the words in front of the records lead from
the wrapper to one that has no body in front. -/
def Condition : Prop :=
  w.count = 0
    ∨ w.fmt = .static ∧ (∀ i, i < w.count → w.ByValue i)
      ∧ ∃ n, rt.resolvebybody (rt.subBody (store (chain rt store sp n))) = none

end Wrapped

-- ======== accessors

section forward

variable {dflt : β} {get : Ops ρ View → Addr → β} {sp : Addr} {fuel : Nat} {v : β}
  {fmt : Format ρ View}

theorem Embeds.forward {a : Addr} {l : List Addr} {ops : Ops ρ View}
    (h : Embeds rt store sp l ops a) (dflt : β) (get : Ops ρ View → Addr → β) :
    StaticTask.forward rt store dflt get l.length .static sp = some (get ops a) := by
  induction h with
  | task hfmt =>
    rw [List.length_singleton, StaticTask.forward, hfmt]
    rfl
  | static hfmt _ ih =>
    rw [List.length_cons, StaticTask.forward, hfmt]
    exact ih

theorem Wrapped.forward_embedded (w : Wrapped rt store sp) :
    ∃ fuel, forward rt store dflt get fuel w.fmt (rt.subSp (store sp))
      = some (get w.ops w.inner) := by
  obtain ⟨fmt, l, ops, a, hres, hemb, -⟩ := w
  cases hemb with
  | task hfmt =>
    obtain rfl := Option.some.inj (hfmt.symm.trans hres)
    exact ⟨0, by rw [forward]⟩
  | static hfmt hin =>
    obtain rfl := Option.some.inj (hfmt.symm.trans hres)
    exact ⟨_, hin.forward _ _⟩

theorem Wrapped.same_forward (w : Wrapped rt store sp) :
    w.Same (forward rt store dflt get) :=
  ⟨_, ⟨_, w.embeds.forward _ _⟩, w.forward_embedded⟩

section

variable (h : forward rt store dflt get fuel fmt sp = some v)
include h

theorem forward_succ : forward rt store dflt get (fuel + 1) fmt sp = some v := by
  induction fuel generalizing fmt sp with
  | zero =>
    cases fmt with
    | static => cases h
    | task ops => exact h
  | succ fuel ih =>
    cases fmt with
    | static =>
      rw [forward] at h ⊢
      split at h
      · exact h
      · exact ih h
    | task ops => exact h

theorem forward_le {fuel' : Nat} (hle : fuel ≤ fuel') :
    forward rt store dflt get fuel' fmt sp = some v := by
  induction hle with
  | refl => exact h
  | step _ ih => exact forward_succ ih

theorem forward_unique {fuel' : Nat} {v' : β}
    (h' : forward rt store dflt get fuel' fmt sp = some v') : v = v' := by
  have hmax := forward_le h (Nat.le_max_left fuel fuel')
  rw [forward_le h' (Nat.le_max_right fuel fuel')] at hmax
  exact (Option.some.inj hmax).symm

end

end forward

theorem taskformatGetOffParam_zero {fuel : Nat} {v : Addr}
    (h : taskformatGetOffParam rt store fuel sp = some v) : v = 0 := by
  induction fuel generalizing sp with
  | zero => cases h
  | succ fuel ih =>
    rw [taskformatGetOffParam] at h
    split at h
    · exact (Option.some.inj h).symm
    · exact ih h

theorem chain_succ (sp : Addr) (n : Nat) :
    chain rt store sp (n + 1) = chain rt store (rt.subSp (store sp)) n := by
  induction n with
  | zero => rfl
  | succ n ih => exact congrArg (fun a => rt.subSp (store a)) ih

/-- `kaapi_taskformat_get_off_param` ends where the chain of records does. -/
theorem taskformatGetOffParam_ends_iff :
    (∃ fuel v, taskformatGetOffParam rt store fuel sp = some v)
      ↔ ∃ n, rt.resolvebybody (rt.subBody (store (chain rt store sp n)))
        = none := by
  constructor
  · rintro ⟨fuel, v, h⟩
    induction fuel generalizing sp with
    | zero => cases h
    | succ fuel ih =>
      rw [taskformatGetOffParam] at h
      split at h
      next hnone => exact ⟨0, hnone⟩
      next =>
        obtain ⟨n, hn⟩ := ih h
        exact ⟨n + 1, by rwa [chain_succ]⟩
  · rintro ⟨n, h⟩
    induction n generalizing sp with
    | zero =>
      have hnone : rt.resolvebybody (rt.subBody (store sp)) = none := h
      exact ⟨1, 0, by rw [taskformatGetOffParam, hnone]⟩
    | succ n ih =>
      rw [chain_succ] at h
      obtain ⟨fuel, v, hv⟩ := ih h
      cases hres : rt.resolvebybody (rt.subBody (store sp)) with
      | none => exact ⟨1, 0, by rw [taskformatGetOffParam, hres]⟩
      | some fmt =>
        exact ⟨fuel + 1, v, by rw [taskformatGetOffParam, hres]; exact hv⟩

-- ======== thieves

theorem computereadyLoop_byValue {ps : List Param} (hps : ∀ p ∈ ps, p.m = modeV)
    {i : Nat} {s s' : Dfg.Scan} (h : Dfg.computereadyLoop i ps s = some s') :
    s'.warParam = s.warParam ∧ s'.cwParam = s.cwParam := by
  induction ps generalizing i s with
  | nil =>
    cases h
    exact ⟨rfl, rfl⟩
  | cons p ps ih =>
    rw [Dfg.computereadyLoop, Dfg.computereadyParam,
      if_pos (hps p List.mem_cons_self)] at h
    obtain ⟨hwar, hcw⟩ := ih (fun q hq => hps q (List.mem_cons_of_mem p hq)) h
    exact ⟨hwar, hcw⟩

/-- Without a parameter to rename, the thief runs the body on the record of
the task. -/
theorem stolenInPlace_of_byValue {V : Type} (fmt : TaskFormat V)
    (body : Dfg.Body V) {params : List Param} (hps : ∀ p ∈ params, p.m = modeV) :
    StolenInPlace fmt body params := by
  intro map r hr _ version m inPlace hin
  obtain ⟨hwar, hcw⟩ := computereadyLoop_byValue hps hr
  have hwar : r.warParam = 0 := hwar
  have hcw : r.cwParam = 0 := hcw
  refine ⟨⟨inPlace, .term, []⟩, ?_, rfl⟩
  rw [hwar, hcw, stolenRun, taskstealBody, if_pos ⟨rfl, rfl⟩, hin]
  rfl

-- ======== copies

theorem Embeds.congr {a : Addr} {l : List Addr} {ops : Ops ρ View}
    (h : Embeds rt store sp l ops a) (heq : ∀ x ∈ l, store' x = store x) :
    Embeds rt store' sp l ops a := by
  induction h with
  | @task sp ops hfmt =>
    have hsp := heq sp List.mem_cons_self
    rw [← hsp] at hfmt ⊢
    exact .task hfmt
  | @static sp a l ops hfmt _ ih =>
    have hsp := heq sp List.mem_cons_self
    have hin := ih fun x hx => heq x (List.mem_cons_of_mem sp hx)
    rw [← hsp] at hfmt hin
    exact .static hfmt hin

theorem Embeds.copy {a dest : Addr} {l : List Addr} {ops : Ops ρ View}
    (h : Embeds rt store sp l ops a) (hdest : dest ∉ l) :
    ∃ l', Embeds rt (taskformatTaskCopy store dest sp) dest l' ops a := by
  have hcopy : taskformatTaskCopy store dest sp dest = store sp :=
    update_self ..
  cases h with
  | task hfmt =>
    rw [← hcopy] at hfmt ⊢
    exact ⟨_, .task hfmt⟩
  | static hfmt hin =>
    have hin' : Embeds rt (taskformatTaskCopy store dest sp) _ _ ops a :=
      hin.congr fun x hx =>
        update_of_ne
          (fun hxd : x = dest => hdest (hxd ▸ List.mem_cons_of_mem sp hx)) _ _
    rw [← hcopy] at hfmt hin'
    exact ⟨_, .static hfmt hin'⟩

namespace Wrapped

variable {sp : Addr} (w : Wrapped rt store sp)

/-- An access set in a copy of the wrapper is set in the original. -/
theorem access_set_in_copy {dest : Addr} (hdest : dest ∉ w.wrappers)
    (hne : dest ≠ w.inner) {i : Nat} (hi : i < w.count) (hmode : ¬ w.ByValue i)
    (a : Access) :
    ∃ s', (∃ fuel, setAccessParam rt (taskformatTaskCopy store dest sp) i a fuel .static dest
        = some s')
      ∧ ∃ fuel, getAccessParam rt s' i fuel .static sp = some a := by
  obtain ⟨l', hcopy⟩ := w.embeds.copy hdest
  refine ⟨_, ⟨_, hcopy.forward _ _⟩, ?_⟩
  -- the record at the end has changed, and no wrapper
  have hinner : taskformatTaskCopy store dest sp w.inner = store w.inner :=
    update_of_ne hne.symm _ _
  have hemb : Embeds rt (update (taskformatTaskCopy store dest sp) w.inner
      (w.ops.setAccessParam (taskformatTaskCopy store dest sp w.inner) i a)) sp w.wrappers
      w.ops w.inner := by
    refine w.embeds.congr fun x hx => ?_
    rw [update_of_ne fun hxi : x = w.inner => w.apart (hxi ▸ hx)]
    exact update_of_ne (fun hxd : x = dest => hdest (hxd ▸ hx)) _ _
  refine ⟨_, (hemb.forward _ _).trans ?_⟩
  rw [update_self, hinner, w.ops.get_set _ i a hi hmode]

theorem exists_dest : ∃ dest, dest ∉ w.wrappers ∧ dest ≠ w.inner := by
  obtain ⟨dest, hdest⟩ := Infinite.exists_notMem_finset (w.inner :: w.wrappers).toFinset
  rw [List.mem_toFinset, List.mem_cons, not_or] at hdest
  exact ⟨dest, hdest.2, hdest.1⟩

theorem Condition.byValue {w : Wrapped rt store sp} (h : w.Condition) (i : Nat)
    (hi : i < w.count) : w.ByValue i := by
  rcases h with hcount | ⟨-, hvalue, -⟩
  · rw [hcount] at hi
    cases hi
  · exact hvalue i hi

/-- For which static tasks the format makes no difference. -/
theorem transparent_iff : w.Transparent ↔ w.Condition := by
  constructor
  · intro h
    by_cases hcount : w.count = 0
    · exact .inl hcount
    have hvalue : ∀ i, i < w.count → w.ByValue i := by
      intro i hi
      by_contra hmode
      obtain ⟨dest, hdest, hne⟩ := w.exists_dest
      -- an access that is not the one there
      have hold := w.embeds.forward (⟨0, 0⟩ : Access)
        fun ops sp => ops.getAccessParam (store sp) i
      obtain ⟨s', hset, fuel, hget⟩ := w.access_set_in_copy hdest hne hi hmode
        ⟨(w.ops.getAccessParam (store w.inner) i).data + 1, 0⟩
      obtain ⟨v, ⟨f₁, h₁⟩, f₂, h₂⟩ :=
        h.independent dest hdest hne i hi hmode _ s' hset i hi hmode
      have hnew := forward_unique hget h₁
      rw [forward_unique h₂ hold] at hnew
      have hdata : (w.ops.getAccessParam (store w.inner) i).data + 1
          = (w.ops.getAccessParam (store w.inner) i).data := congrArg Access.data hnew
      exact Nat.succ_ne_self _ hdata
    have hpos : 0 < w.count := Nat.pos_of_ne_zero hcount
    obtain ⟨v, ⟨f₁, h₁⟩, f₂, h₂⟩ := h.off 0 hpos
    have h₁ : taskformatGetOffParam rt store f₁ sp = some v := h₁
    refine .inr ⟨?_, hvalue, taskformatGetOffParam_ends_iff.mp ⟨f₁, v, h₁⟩⟩
    have hzero := taskformatGetOffParam_zero h₁
    obtain ⟨fmt, l, ops, a, hres, hemb, hapart⟩ := w
    cases hemb with
    | static hfmt hin => exact Option.some.inj (hres.symm.trans hfmt)
    | task hfmt =>
      obtain rfl := Option.some.inj (hfmt.symm.trans hres)
      have hoff := Option.some.inj h₂
      exact absurd (hoff.trans hzero) (ops.off_ne _ _ 0 hpos (hvalue 0 hpos))
  · intro h
    have hoff : ∀ i, i < w.count → w.Same (getOffParam rt store i) := by
      intro i hi
      rcases h with hcount | ⟨hstatic, -, hchain⟩
      · rw [hcount] at hi
        cases hi
      · obtain ⟨fuel, v, hv⟩ := taskformatGetOffParam_ends_iff.mpr hchain
        refine ⟨v, ⟨fuel, hv⟩, ?_⟩
        cases fuel with
        | zero => cases hv
        | succ fuel =>
          rw [taskformatGetOffParam, w.resolved] at hv
          exact ⟨fuel, by rw [hstatic]; exact hv⟩
    refine ⟨w.same_forward, fun i _ => w.same_forward, hoff, fun i _ => w.same_forward,
      fun i _ a => w.same_forward, fun i _ => w.same_forward, fun i _ => w.same_forward,
      fun i _ v => w.same_forward, fun dest _ _ i hi hmode => ?_,
      fun fmt body => stolenInPlace_of_byValue fmt body fun p hp => ?_⟩
    · exact absurd (h.byValue i hi) hmode
    · obtain ⟨i, hi, rfl⟩ := List.mem_map.mp hp
      exact h.byValue i (List.mem_range.mp hi)

end Wrapped

-- ======== examples

/-- A record: the two words in front, and the only parameter of a task. -/
structure Record where
  sp : Addr
  body : Body
  mode : AccessMode
  access : Access

/-- A task with one parameter. -/
def oneParam : Ops Record Unit where
  getCountParams _ := 1
  getModeParam r _ := r.mode
  getOffParam sp _ _ := sp + 16
  getAccessParam r _ := r.access
  setAccessParam r _ a := { r with access := a }
  getFmtParam _ _ := 0
  getViewParam _ _ := ()
  setViewParam r _ _ := some r
  get_set _ _ _ _ _ := rfl
  off_ne _ _ _ _ _ := Nat.succ_ne_zero _

/-- Body 1 is the one of static tasks, and body 2 has one parameter. -/
def twoBodies : Runtime Record Unit where
  resolvebybody b :=
    if b = 1 then some .static else if b = 2 then some (.task oneParam) else none
  subSp := Record.sp
  subBody := Record.body
  clear := ()

/-- At 50 the wrapper of the wrapper at 100 of the record at 200. -/
def records (mode : AccessMode) : Store Record := fun x =>
  if x = 50 then ⟨100, 1, 0, ⟨0, 0⟩⟩
  else if x = 100 then ⟨200, 2, 0, ⟨0, 0⟩⟩
  else ⟨0, 0, mode, ⟨300, 0⟩⟩

/-- The static task at 50 is transparent when the parameter is by value. -/
def nested (mode : AccessMode) : Wrapped twoBodies (records mode) 50 where
  fmt := .static
  wrappers := [50, 100]
  ops := oneParam
  inner := 200
  resolved := rfl
  embeds := .static rfl (.task rfl)
  apart := by decide

theorem transparent_iff_nested : (nested modeV).Transparent := by
  have hvalue : ∀ i, i < (nested modeV).count → (nested modeV).ByValue i :=
    fun _ _ => show getMode modeV = modeV by decide
  exact (nested modeV).transparent_iff.mpr (.inr ⟨rfl, hvalue, 2, rfl⟩)

/-- The static task at 100: by reference, setting the access of a copy sets
the one of the original; by value, the address of the parameter is null. -/
def single (mode : AccessMode) : Wrapped twoBodies (records mode) 100 where
  fmt := .task oneParam
  wrappers := [100]
  ops := oneParam
  inner := 200
  resolved := rfl
  embeds := .task rfl
  apart := by decide

theorem single_not_transparent :
    ¬ (single modeW).Transparent ∧ ¬ (single modeV).Transparent := by
  have hpos : 0 < 1 := Nat.one_pos
  constructor
  · intro h
    have hdest : 400 ∉ [100] := by decide
    have hne : 400 ≠ 200 := by decide
    have hmode : ¬ getMode modeW = modeV := by decide
    obtain ⟨s', hset, fuel, hget⟩ :=
      (single modeW).access_set_in_copy hdest hne hpos hmode ⟨500, 0⟩
    obtain ⟨v, ⟨f₁, h₁⟩, f₂, h₂⟩ :=
      h.independent 400 hdest hne 0 hpos hmode ⟨500, 0⟩ s' hset 0 hpos hmode
    have hnew := forward_unique hget h₁
    have hold := (single modeW).embeds.forward (⟨0, 0⟩ : Access)
      fun ops sp => ops.getAccessParam (records modeW sp) 0
    rw [forward_unique h₂ hold] at hnew
    exact absurd hnew (by decide)
  · intro h
    obtain ⟨v, ⟨f₁, h₁⟩, f₂, h₂⟩ := h.off 0 hpos
    have hzero : v = 0 := taskformatGetOffParam_zero h₁
    rw [hzero] at h₂
    exact absurd (Option.some.inj h₂) (by decide)

end XKaapi.StaticTask
