/-
`kaapi_stack_execframe` (src/thread/kaapi_thread_execframe.c): the owner
executes the tasks of a frame, and the tasks they push, depth first.

# The state

A frame is a piece of the stack of tasks: the tasks are at the addresses
`pc`, `pc - 1`, ..., `sp + 1`, the oldest first. The control is a label of
the function with the local variables that are live there (`Ctl`): the
frames pushed and popped are reached by `goto`, not by calls. `executed`
records the tasks passed, those a thief has run counting with all they
have pushed.

# The steps

What `kaapi_task_markexec` and `__kaapi_try_preempt` find at the task under
`pc` is the choice of the environment (`Visit`): the task is free, or a
thief has it and is done, or is not done and was preempted, or is not done.
In the last case the function answers EWOULDBLOCK, and `kaapi_sched_sync_`
calls it again later. A task of the program is never SIGNALED, only the
task by which a thief runs it is.
-/
import XKaapi.Lib.RoseTree
import XKaapi.Lib.Run
import Mathlib.Data.List.Range

namespace XKaapi.Task.Execframe

open StepMachine
open Function (update update_of_ne update_self)

-- ======== state

/-- A task and the tasks its body pushes, in order. -/
abbrev Prog := RoseTree Nat

/-- `KAAPI_MAX_RECCALL`. -/
def maxReccall : Nat := 131072

/-- `kaapi_frame_t`. -/
structure Frame where
  pc : Int
  sp : Int
deriving DecidableEq, Repr

/-- The labels of `kaapi_stack_execframe`: before `push_frame`, at the head
of the loop, in the loop that pops frames, and the two answers. -/
inductive Ctl
  | pushFrame (fp : Nat)
  | exec (fp : Nat) (pc sp : Int)
  | pop (fp : Nat) (popped : Bool)
  | done
  | ewouldblock
deriving DecidableEq, Repr

/-- `kaapi_stack_t`. -/
structure Stack where
  slots : Int → Prog
  stackframe : Nat → Frame
  sfp : Nat
  esfp : Nat
  ctl : Ctl
  executed : List Nat

/-- What is found at a task: it is free, a thief has terminated it, a thief
has terminated it and left its results to merge, it was taken back from the
thief, or it is with the thief. The loop takes no notice of it elsewhere. -/
inductive Visit
  | free
  | term
  | merge
  | eintr
  | ewouldblock
deriving DecidableEq, Repr

namespace Stack

variable (s : Stack)

def setFrame (i : Nat) (f : Frame) : Stack :=
  { s with stackframe := update s.stackframe i f }

/-- `fp->pc = pc`. -/
def setPc (i : Nat) (pc : Int) : Stack :=
  s.setFrame i { s.stackframe i with pc := pc }

/-- `kaapi_thread_pushtask` on the top task of frame `i`. -/
def pushTask (i : Nat) (t : Prog) : Stack :=
  let sp := (s.stackframe i).sp
  { s.setFrame i { s.stackframe i with sp := sp - 1 } with
    slots := update s.slots sp t }

/-- The body of a task, which pushes its tasks in frame `i`. -/
def runBody (i : Nat) (t : Prog) : Stack :=
  t.kids.foldl (pushTask · i) { s with executed := s.executed ++ [t.val] }

/-- After a task: its frame is executed if it has pushed tasks there. -/
def post (fp : Nat) (pc sp : Int) : Stack :=
  if sp > (s.stackframe fp).sp then
    { s.setPc (fp - 1) pc with ctl := .pushFrame fp }
  else { s.setPc (fp - 1) pc with ctl := .exec fp (pc - 1) sp }

/-- One step of `kaapi_stack_execframe`, or the call that follows an
EWOULDBLOCK. -/
def step (v : Visit) (s : Stack) : Option Stack :=
  match s.ctl with
  | .pushFrame fp =>
    let sp := (s.stackframe fp).sp
    let pc := (s.stackframe fp).pc
    -- the assertion on the number of frames
    if fp + 1 < maxReccall then
      some { s.setFrame (fp + 1) { pc := sp, sp := sp } with
        sfp := fp + 1
        ctl := .exec (fp + 1) pc sp }
    else none
  | .exec fp pc sp =>
    if pc ≠ sp then
      match v with
      | .free => some ((s.runBody fp (s.slots pc)).post fp pc sp)
      | .term | .merge =>
        some ({ s with
          executed := s.executed ++ (s.slots pc).preorder }.post fp pc sp)
      | .eintr => some s
      | .ewouldblock =>
        some { s.setPc (fp - 1) pc with
          sfp := fp - 1
          ctl := .ewouldblock }
    else
      some { s.setPc (fp - 1) pc with ctl := .pop (fp - 1) false }
  | .pop fp popped =>
    if fp > s.esfp then
      -- finish to execute child tasks, pop current task of the frame
      let s := s.setPc (fp - 1) ((s.stackframe (fp - 1)).pc - 1)
      if (s.stackframe (fp - 1)).pc > (s.stackframe (fp - 1)).sp then
        some { s with
          sfp := fp - 1
          ctl := .pushFrame (fp - 1) }
      else some { s with ctl := .pop (fp - 1) true }
    else
      let s := if popped = true then
          s.setFrame fp { s.stackframe fp with sp := (s.stackframe fp).pc }
        else s
      some { s with
        sfp := fp
        ctl := .done }
  | .ewouldblock => some { s with ctl := .pushFrame s.sfp }
  | .done => none

end Stack

-- ======== pieces of the stack

/-- The tasks between two addresses, the oldest first. -/
def slotsOf (slots : Int → Prog) (pc sp : Int) : List Prog :=
  (List.range (pc - sp).toNat).map fun i : Nat => slots (pc - i)

@[simp] theorem slotsOf_self (slots : Int → Prog) (p : Int) :
    slotsOf slots p p = [] := by
  rw [slotsOf, Int.sub_self]
  rfl

/-- The tasks of a frame, one by one. -/
theorem slotsOf_cons (slots : Int → Prog) {pc sp : Int} (h : sp < pc) :
    slotsOf slots pc sp = slots pc :: slotsOf slots (pc - 1) sp := by
  have hlen : (pc - sp).toNat = (pc - 1 - sp).toNat + 1 := by omega
  have hhead : pc - ((0 : Nat) : Int) = pc := by omega
  rw [slotsOf, hlen, List.range_succ_eq_map, List.map_cons, List.map_map, hhead]
  refine congrArg (slots pc :: ·) ?_
  refine List.map_congr_left fun i _ => congrArg slots ?_
  simp only [Nat.succ_eq_add_one]
  omega

/-- A frame depends on its slots only. -/
theorem slotsOf_congr {slots slots' : Int → Prog} {pc sp : Int}
    (h : ∀ a, sp < a → slots' a = slots a) :
    slotsOf slots' pc sp = slotsOf slots pc sp := by
  refine List.map_congr_left fun i hi => h _ ?_
  rw [List.mem_range] at hi
  omega

/-- The bodies of the tasks of a list, and what they push, fit above frame
`fp`. -/
def Fits (fp : Nat) (ts : List Prog) : Prop :=
  ∀ t ∈ ts, fp + 1 + t.depth < maxReccall

theorem Fits.tail {fp : Nat} {t : Prog} {ts : List Prog} (h : Fits fp (t :: ts)) :
    Fits fp ts := fun u hu => h u (List.mem_cons_of_mem t hu)

theorem Fits.kids {fp : Nat} {t : Prog} {ts : List Prog} (h : Fits fp (t :: ts)) :
    Fits (fp + 1) t.kids := by
  intro k hk
  have hlt := RoseTree.depth_lt hk
  have ht := h t List.mem_cons_self
  omega

namespace Stack

/-- A body pushes its tasks in order. -/
theorem foldl_pushTask_spec (i : Nat) (ts : List Prog) (s : Stack) :
    ∃ slots, ts.foldl (pushTask · i) s
        = { s.setFrame i { s.stackframe i with
              sp := (s.stackframe i).sp - ts.length } with slots := slots }
      ∧ (∀ a, (s.stackframe i).sp < a → slots a = s.slots a)
      ∧ slotsOf slots (s.stackframe i).sp ((s.stackframe i).sp - ts.length)
        = ts := by
  induction ts generalizing s with
  | nil =>
    refine ⟨s.slots, ?_, fun _ _ => rfl, ?_⟩
    · simp [setFrame]
    · simp
  | cons t ts ih =>
    obtain ⟨slots, heq, hsame, hts⟩ := ih (s.pushTask i t)
    have hframe : (s.pushTask i t).stackframe i
        = { s.stackframe i with sp := (s.stackframe i).sp - 1 } :=
      update_self ..
    rw [hframe] at heq hsame hts
    have hlen : (s.stackframe i).sp - 1 - (ts.length : Int)
        = (s.stackframe i).sp - ((t :: ts).length : Nat) := by
      rw [List.length_cons]
      omega
    refine ⟨slots, ?_, fun a ha => ?_, ?_⟩
    · rw [List.foldl_cons, heq, ← hlen]
      simp [setFrame, pushTask]
    · rw [hsame a (show (s.stackframe i).sp - 1 < a by omega)]
      exact update_of_ne (Int.ne_of_gt ha) ..
    · rw [slotsOf_cons _ (by rw [List.length_cons]; omega), ← hlen, hts,
        hsame _ (show (s.stackframe i).sp - 1 < _ by omega)]
      exact congrArg (· :: ts) (update_self ..)

end Stack

-- ======== invariant

/-- The tasks left in the frames below the `fp`-th: in each of them the
task under `pc` is the one whose children the next frame holds. -/
def belowOf (slots : Int → Prog) (stackframe : Nat → Frame) (esfp : Nat) :
    Nat → List Prog
  | 0 => []
  | fp + 1 =>
    if esfp ≤ fp then
      slotsOf slots ((stackframe fp).pc - 1) (stackframe fp).sp
        ++ belowOf slots stackframe esfp fp
    else []

section Invariant

variable (s : Stack)

def below (fp : Nat) : List Prog := belowOf s.slots s.stackframe s.esfp fp

/-- The tasks left in the `fp`-th frame. -/
def current (fp : Nat) : List Prog :=
  slotsOf s.slots (s.stackframe fp).pc (s.stackframe fp).sp

/-- The tasks left. -/
def left : List Prog :=
  match s.ctl with
  | .pushFrame fp => current s fp ++ below s fp
  | .exec fp pc sp => slotsOf s.slots pc sp ++ below s (fp - 1)
  | .pop fp _ => below s fp
  | .ewouldblock => current s s.sfp ++ below s s.sfp
  | .done => []

/-- The frames from the one of the entry up to the `fp`-th. -/
structure Under (fp : Nat) : Prop where
  le : s.esfp ≤ fp
  cur : ∀ j, s.esfp ≤ j → j < fp → (s.stackframe j).sp < (s.stackframe j).pc
    ∧ (s.stackframe (j + 1)).pc ≤ (s.stackframe j).sp
  fits : ∀ j, s.esfp ≤ j → j < fp → Fits j
    (slotsOf s.slots ((s.stackframe j).pc - 1) (s.stackframe j).sp)

/-- A frame that is about to be executed. -/
structure Ready (fp : Nat) : Prop where
  under : Under s fp
  le : (s.stackframe fp).sp ≤ (s.stackframe fp).pc
  fits : Fits fp (current s fp)
  room : fp + 1 < maxReccall

/-- The head of the loop. -/
structure Loop (fp : Nat) (pc sp : Int) : Prop where
  under : Under s fp
  sp_eq : sp = (s.stackframe fp).sp
  le : sp ≤ pc
  pc_le : pc ≤ (s.stackframe fp).pc
  next : s.stackframe (fp + 1) = { pc := sp, sp := sp }
  fits : Fits fp (slotsOf s.slots pc sp)
  room : fp + 1 < maxReccall

def Inv : Prop :=
  match s.ctl with
  | .pushFrame fp => Ready s fp
  | .exec fp pc sp => ∃ f, fp = f + 1 ∧ Loop s f pc sp
  | .pop fp _ => Under s fp ∧ (s.stackframe fp).pc = (s.stackframe fp).sp
  | .ewouldblock => Ready s s.sfp
  | .done => s.sfp = s.esfp
      ∧ (s.stackframe s.sfp).pc = (s.stackframe s.sfp).sp

end Invariant

/-- What a change to the stack from frame `fp` on leaves. -/
structure Above (fp : Nat) (s s' : Stack) : Prop where
  esfp : s'.esfp = s.esfp
  frames : ∀ j < fp, s'.stackframe j = s.stackframe j
  pc_le : (s'.stackframe fp).pc ≤ (s.stackframe fp).pc
  slots : ∀ a, (s.stackframe fp).sp < a → s'.slots a = s.slots a

section Frames

variable {s s' : Stack} {fp : Nat}

/-- No frame below ends under the current one. -/
theorem Under.sp_le (h : Under s fp) (hle : (s.stackframe fp).sp
    ≤ (s.stackframe fp).pc) {j : Nat} (hj : s.esfp ≤ j) (hjf : j < fp) :
    (s.stackframe fp).sp ≤ (s.stackframe j).sp := by
  induction fp with
  | zero => cases hjf
  | succ f ih =>
    obtain ⟨hcur, hnext⟩ := h.cur f (by omega) (Nat.lt_succ_self f)
    rcases Nat.lt_or_ge j f with hlt | hge
    · have hunder : Under s f := ⟨hj.trans (Nat.le_of_lt hlt),
        fun i hi hif => h.cur i hi (Nat.lt_succ_of_lt hif),
        fun i hi hif => h.fits i hi (Nat.lt_succ_of_lt hif)⟩
      have hsp := ih hunder (Int.le_of_lt hcur) hlt
      omega
    · have hjeq : j = f := by omega
      rw [hjeq]
      omega

/-- A step above leaves the frames below. -/
theorem Above.below (h : Above fp s s') (hu : Under s fp)
    (hle : (s.stackframe fp).sp ≤ (s.stackframe fp).pc) :
    Under s' fp ∧ below s' fp = below s fp := by
  have hslots : ∀ j, s.esfp ≤ j → j < fp → ∀ pc,
      slotsOf s'.slots pc (s.stackframe j).sp
        = slotsOf s.slots pc (s.stackframe j).sp := by
    intro j hj hjf pc
    exact slotsOf_congr fun a ha =>
      h.slots a (Int.lt_of_le_of_lt (hu.sp_le hle hj hjf) ha)
  refine ⟨⟨h.esfp ▸ hu.le, fun j hj hjf => ?_, fun j hj hjf => ?_⟩, ?_⟩
  · obtain ⟨hcur, hnext⟩ := hu.cur j (h.esfp ▸ hj) hjf
    rw [h.frames j hjf]
    refine ⟨hcur, ?_⟩
    rcases Nat.lt_or_ge (j + 1) fp with hlt | hge
    · rw [h.frames (j + 1) hlt]
      exact hnext
    · have hjeq : j + 1 = fp := by omega
      rw [hjeq] at hnext ⊢
      exact h.pc_le.trans hnext
  · rw [h.frames j hjf, hslots j (h.esfp ▸ hj) hjf]
    exact hu.fits j (h.esfp ▸ hj) hjf
  · have hall : ∀ f ≤ fp, Execframe.below s' f = Execframe.below s f := by
      intro f
      induction f with
      | zero => exact fun _ => rfl
      | succ f ih =>
        intro hf
        have ih := ih (Nat.le_of_lt hf)
        unfold Execframe.below at ih ⊢
        rw [belowOf, belowOf, h.esfp]
        rw [h.esfp] at ih
        split
        · next hesfp => rw [h.frames f hf, hslots f hesfp hf, ih]
        · rfl
    exact hall fp (Nat.le_refl fp)

/-- A frame is opened above the current one. -/
theorem Under.succ (h : Under s fp) (hcur : (s.stackframe fp).sp
    < (s.stackframe fp).pc) (hnext : (s.stackframe (fp + 1)).pc
    ≤ (s.stackframe fp).sp) (hfits : Fits fp (slotsOf s.slots
      ((s.stackframe fp).pc - 1) (s.stackframe fp).sp)) :
    Under s (fp + 1) := by
  refine ⟨Nat.le_succ_of_le h.le, fun j hj hjf => ?_, fun j hj hjf => ?_⟩
  · rcases Nat.lt_succ_iff_lt_or_eq.mp hjf with hlt | rfl
    · exact h.cur j hj hlt
    · exact ⟨hcur, hnext⟩
  · rcases Nat.lt_succ_iff_lt_or_eq.mp hjf with hlt | rfl
    · exact h.fits j hj hlt
    · exact hfits

/-- What is left below it. -/
theorem below_succ (h : Under s fp) : below s (fp + 1)
    = slotsOf s.slots ((s.stackframe fp).pc - 1) (s.stackframe fp).sp
      ++ below s fp := by
  rw [below, belowOf, if_pos h.le]
  rfl

theorem below_esfp (s : Stack) : below s s.esfp = [] := by
  unfold below
  cases s.esfp with
  | zero => rfl
  | succ e => rw [belowOf, if_neg (Nat.not_succ_le_self e)]

end Frames

-- ======== steps

section Steps

variable {s s' s₁ : Stack} {f : Nat} {pc sp : Int}

/-- After a task that has pushed `kids`. -/
theorem post_spec (hl : Loop s f pc sp) (hlt : sp < pc) {kids : List Prog}
    (hesfp : s₁.esfp = s.esfp) (hframes : ∀ j ≤ f, s₁.stackframe j = s.stackframe j)
    (hslots : ∀ a, sp < a → s₁.slots a = s.slots a)
    (hnext : s₁.stackframe (f + 1) = { pc := sp, sp := sp - kids.length })
    (hkids : slotsOf s₁.slots sp (sp - kids.length) = kids)
    (hfits : Fits (f + 1) kids) :
    Inv (s₁.post (f + 1) pc sp) ∧ (s₁.post (f + 1) pc sp).esfp = s.esfp
      ∧ (s₁.post (f + 1) pc sp).executed = s₁.executed
      ∧ left (s₁.post (f + 1) pc sp)
        = kids ++ (slotsOf s.slots (pc - 1) sp ++ below s f) := by
  have hsp := hl.sp_eq
  have hff : (s₁.setPc f pc).stackframe f = { s.stackframe f with pc := pc } := by
    rw [← hframes f (Nat.le_refl f)]
    exact update_self ..
  have hnf : (s₁.setPc f pc).stackframe (f + 1)
      = { pc := sp, sp := sp - kids.length } := by
    rw [← hnext]
    exact update_of_ne (Nat.succ_ne_self f) ..
  have habove : Above f s (s₁.setPc f pc) := by
    refine ⟨hesfp, fun j hj => ?_, ?_, fun a ha => hslots a (hsp ▸ ha)⟩
    · rw [← hframes j (Nat.le_of_lt hj)]
      exact update_of_ne (Nat.ne_of_lt hj) ..
    · rw [hff]
      exact hl.pc_le
  obtain ⟨hunder, hbelow⟩ := habove.below hl.under
    (by rw [← hsp]; exact hl.le.trans hl.pc_le)
  have hcons := slotsOf_cons s.slots hlt
  have hfitsf := hl.fits
  rw [hcons] at hfitsf
  have hrest : slotsOf (s₁.setPc f pc).slots (pc - 1) sp
      = slotsOf s.slots (pc - 1) sp := slotsOf_congr hslots
  unfold Stack.post
  rw [Nat.add_sub_cancel, hnext]
  split
  · next hgt =>
      obtain ⟨k, hk⟩ : ∃ k, k ∈ kids := by
        refine List.exists_mem_of_ne_nil kids ?_
        intro heq
        subst heq
        exact absurd hgt (by simp)
      have hroom := hfits k hk
      have hcur : Under (s₁.setPc f pc) (f + 1) := by
        refine hunder.succ ?_ ?_ ?_
        · rw [hff, ← hsp]
          exact hlt
        · rw [hnf, hff, ← hsp]
        · rw [hff, ← hsp, hrest]
          exact hfitsf.tail
      have hcurrent : current (s₁.setPc f pc) (f + 1) = kids := by
        rw [current, hnf]
        exact hkids
      refine ⟨?_, hesfp, rfl, ?_⟩
      · show Ready _ (f + 1)
        refine ⟨⟨hcur.le, hcur.cur, hcur.fits⟩, ?_, ?_, ?_⟩
        · show ((s₁.setPc f pc).stackframe (f + 1)).sp
            ≤ ((s₁.setPc f pc).stackframe (f + 1)).pc
          rw [hnf]
          exact Int.le_of_lt hgt
        · show Fits (f + 1) (current (s₁.setPc f pc) (f + 1))
          rw [hcurrent]
          exact hfits
        · omega
      · show current (s₁.setPc f pc) (f + 1) ++ below (s₁.setPc f pc) (f + 1)
          = _
        rw [hcurrent, below_succ hunder, hff, ← hsp, hrest, hbelow]
  · next hgt =>
      have hgt : ¬ sp > sp - kids.length := hgt
      have hnil : kids = [] := by
        rw [← List.length_eq_zero_iff]
        omega
      subst hnil
      refine ⟨⟨f, rfl, ?_⟩, hesfp, rfl, ?_⟩
      · refine ⟨⟨hunder.le, hunder.cur, hunder.fits⟩, ?_, Int.le_sub_one_of_lt hlt,
          ?_, ?_, ?_, hl.room⟩
        · show sp = ((s₁.setPc f pc).stackframe f).sp
          rw [hff]
          exact hsp
        · show pc - 1 ≤ ((s₁.setPc f pc).stackframe f).pc
          rw [hff]
          exact Int.sub_le_self pc (by decide)
        · show (s₁.setPc f pc).stackframe (f + 1) = _
          rw [hnf, List.length_nil]
          simp
        · show Fits f (slotsOf (s₁.setPc f pc).slots (pc - 1) sp)
          rw [hrest]
          exact hfitsf.tail
      · show slotsOf (s₁.setPc f pc).slots (pc - 1) sp ++ below (s₁.setPc f pc) f
          = _
        rw [hrest, hbelow]
        rfl

/-- The depth-first order of the tasks left. -/
def leftOrder (s : Stack) : List Nat := (left s).flatMap RoseTree.preorder

/-- What a step keeps: the invariant, the frame of the entry, and the
tasks executed together with those left, in order. -/
def Keeps (s s' : Stack) : Prop :=
  Inv s' ∧ s'.esfp = s.esfp
    ∧ s'.executed ++ leftOrder s' = s.executed ++ leftOrder s

section

variable (hctl : s.ctl = .exec (f + 1) pc sp) (hl : Loop s f pc sp)
include hctl hl

/-- What a visit of a task has to leave. -/
theorem keeps_visit (hlt : sp < pc) (kids : List Prog) {names : List Nat}
    (hesfp : s₁.esfp = s.esfp) (hframes : ∀ j ≤ f, s₁.stackframe j = s.stackframe j)
    (hslots : ∀ a, sp < a → s₁.slots a = s.slots a)
    (hnext : s₁.stackframe (f + 1) = { pc := sp, sp := sp - kids.length })
    (hkids : slotsOf s₁.slots sp (sp - kids.length) = kids) (hfits : Fits (f + 1) kids)
    (hexec : s₁.executed = s.executed ++ names)
    (hnames : (s.slots pc).preorder = names ++ kids.flatMap RoseTree.preorder) :
    Keeps s (s₁.post (f + 1) pc sp) := by
  obtain ⟨hi, he, hex, hleft⟩ :=
    post_spec hl hlt hesfp hframes hslots hnext hkids hfits
  refine ⟨hi, he, ?_⟩
  have hleft₀ : left s = slotsOf s.slots pc sp ++ below s f := by
    rw [left, hctl]
    rfl
  rw [leftOrder, leftOrder, hleft, hex, hexec, hleft₀, slotsOf_cons s.slots hlt,
    List.cons_append, List.flatMap_cons, hnames, List.flatMap_append]
  simp only [List.append_assoc]

/-- A task is run by its owner. -/
theorem keeps_free (hlt : sp < pc) :
    Keeps s ((s.runBody (f + 1) (s.slots pc)).post (f + 1) pc sp) := by
  let s₀ : Stack := { s with executed := s.executed ++ [(s.slots pc).val] }
  have hframe : s₀.stackframe (f + 1) = { pc := sp, sp := sp } := hl.next
  obtain ⟨slots, heq, hsame, hkids⟩ :=
    s₀.foldl_pushTask_spec (f + 1) (s.slots pc).kids
  rw [hframe] at heq hsame hkids
  have hrun : s.runBody (f + 1) (s.slots pc)
      = { s₀.setFrame (f + 1) { pc := sp
                                sp := sp - (s.slots pc).kids.length } with
          slots := slots } := heq
  rw [hrun]
  have hfits := hl.fits
  rw [slotsOf_cons s.slots hlt] at hfits
  refine keeps_visit hctl hl hlt _ rfl (fun j hj => ?_) hsame
    (update_self ..) hkids hfits.kids rfl ?_
  · exact update_of_ne (Nat.ne_of_lt (Nat.lt_succ_of_le hj)) ..
  · exact RoseTree.preorder_eq _

/-- A task is found stolen. -/
theorem keeps_stolen (hlt : sp < pc) :
    Keeps s (Stack.post { s with
      executed := s.executed ++ (s.slots pc).preorder } (f + 1) pc sp) := by
  refine keeps_visit hctl hl hlt [] rfl (fun _ _ => rfl)
    (fun _ _ => rfl) ?_ ?_ nofun rfl ?_
  · rw [List.length_nil]
    simpa using hl.next
  · simp
  · simp

theorem setPc_loop :
    Under (s.setPc f pc) f
      ∧ (s.setPc f pc).stackframe f = { pc := pc, sp := sp }
      ∧ left s = slotsOf s.slots pc sp ++ below (s.setPc f pc) f := by
  have hff : (s.setPc f pc).stackframe f = { pc := pc, sp := sp } := by
    rw [hl.sp_eq]
    exact update_self ..
  have habove : Above f s (s.setPc f pc) := by
    refine ⟨rfl, fun j hj => update_of_ne (Nat.ne_of_lt hj) .., ?_,
      fun _ _ => rfl⟩
    rw [hff]
    exact hl.pc_le
  obtain ⟨hunder, hbelow⟩ := habove.below hl.under
    (by rw [← hl.sp_eq]; exact hl.le.trans hl.pc_le)
  refine ⟨hunder, hff, ?_⟩
  rw [hbelow, left, hctl]
  rfl

/-- The loop stops at a task that it cannot pass. -/
theorem keeps_block :
    Keeps s { s.setPc f pc with
      sfp := f
      ctl := .ewouldblock } := by
  obtain ⟨hunder, hff, hleft⟩ := setPc_loop hctl hl
  have hcurrent : current (s.setPc f pc) f = slotsOf s.slots pc sp := by
    rw [current, hff]
    rfl
  refine ⟨⟨⟨hunder.le, hunder.cur, hunder.fits⟩, ?_, ?_, hl.room⟩, rfl, ?_⟩
  · show ((s.setPc f pc).stackframe f).sp ≤ ((s.setPc f pc).stackframe f).pc
    rw [hff]
    exact hl.le
  · show Fits f (current (s.setPc f pc) f)
    rw [hcurrent]
    exact hl.fits
  · rw [leftOrder, leftOrder, hleft, ← hcurrent]
    rfl

/-- A frame ends. -/
theorem keeps_end (heq : pc = sp) :
    Keeps s { s.setPc f pc with ctl := .pop f false } := by
  obtain ⟨hunder, hff, hleft⟩ := setPc_loop hctl hl
  refine ⟨⟨⟨hunder.le, hunder.cur, hunder.fits⟩, ?_⟩, rfl, ?_⟩
  · show ((s.setPc f pc).stackframe f).pc = ((s.setPc f pc).stackframe f).sp
    rw [hff]
    exact heq
  · rw [leftOrder, leftOrder, hleft, heq, slotsOf_self, List.nil_append]
    rfl

end

/-- A frame is pushed. -/
theorem keeps_push {fp : Nat} (hctl : s.ctl = .pushFrame fp) (hr : Ready s fp) :
    Keeps s { s.setFrame (fp + 1) { pc := (s.stackframe fp).sp
                                    sp := (s.stackframe fp).sp } with
      sfp := fp + 1
      ctl := .exec (fp + 1) (s.stackframe fp).pc (s.stackframe fp).sp } := by
  let s₂ := s.setFrame (fp + 1) { pc := (s.stackframe fp).sp
                                  sp := (s.stackframe fp).sp }
  have hff : s₂.stackframe fp = s.stackframe fp :=
    update_of_ne (Nat.succ_ne_self fp).symm ..
  have habove : Above fp s s₂ := by
    refine ⟨rfl, fun j hj => ?_, ?_, fun _ _ => rfl⟩
    · exact update_of_ne (Nat.ne_of_lt (Nat.lt_succ_of_lt hj)) ..
    · rw [hff]
  obtain ⟨hunder, hbelow⟩ := habove.below hr.under hr.le
  refine ⟨⟨fp, rfl, ⟨hunder.le, hunder.cur, hunder.fits⟩, ?_, hr.le, ?_,
    update_self .., hr.fits, hr.room⟩, rfl, ?_⟩
  · exact congrArg Frame.sp hff.symm
  · exact Int.le_of_eq (congrArg Frame.pc hff.symm)
  · rw [leftOrder, leftOrder, left, left, hctl]
    show _ ++ List.flatMap _ (current s fp ++ below s₂ fp) = _
    rw [hbelow]
    rfl

/-- A frame is popped. -/
theorem keeps_pop {fp : Nat} {popped : Bool} (hctl : s.ctl = .pop (fp + 1) popped)
    (hu : Under s (fp + 1)) (hesfp : s.esfp ≤ fp) :
    let s₂ := s.setPc fp ((s.stackframe fp).pc - 1)
    (Under s₂ fp ∧ (s₂.stackframe fp).sp ≤ (s₂.stackframe fp).pc
      ∧ Fits fp (current s₂ fp)) ∧ left s = current s₂ fp ++ below s₂ fp := by
  intro s₂
  obtain ⟨hcur, -⟩ := hu.cur fp hesfp (Nat.lt_succ_self fp)
  have hff : s₂.stackframe fp
      = { s.stackframe fp with pc := (s.stackframe fp).pc - 1 } :=
    update_self ..
  have hunder : Under s fp := ⟨hesfp,
    fun j hj hjf => hu.cur j hj (Nat.lt_succ_of_lt hjf),
    fun j hj hjf => hu.fits j hj (Nat.lt_succ_of_lt hjf)⟩
  have habove : Above fp s s₂ := by
    refine ⟨rfl, fun j hj => update_of_ne (Nat.ne_of_lt hj) .., ?_,
      fun _ _ => rfl⟩
    rw [hff]
    exact Int.sub_le_self _ (by decide)
  obtain ⟨hunder₂, hbelow⟩ := habove.below hunder (Int.le_of_lt hcur)
  have hcurrent : current s₂ fp
      = slotsOf s.slots ((s.stackframe fp).pc - 1) (s.stackframe fp).sp := by
    rw [current, hff]
    rfl
  refine ⟨⟨hunder₂, ?_, ?_⟩, ?_⟩
  · rw [hff]
    exact Int.le_sub_one_of_lt hcur
  · rw [hcurrent]
    exact hu.fits fp hesfp (Nat.lt_succ_self fp)
  · rw [left, hctl, hcurrent, hbelow]
    exact below_succ hunder

/-- Every step keeps the order of what is left. -/
theorem step_keeps {v : Visit} (hi : Inv s) (h : s.step v = some s') :
    Keeps s s' := by
  unfold Stack.step at h
  split at h
  · next fp hctl =>
      simp only [Inv, hctl] at hi
      rw [if_pos hi.room] at h
      cases h
      exact keeps_push hctl hi
  · next fp pc sp hctl =>
      simp only [Inv, hctl] at hi
      obtain ⟨f, rfl, hl⟩ := hi
      split at h
      · next hne =>
          have hlt : sp < pc := lt_of_le_of_ne hl.le (Ne.symm hne)
          split at h
          · cases h
            exact keeps_free hctl hl hlt
          · cases h
            exact keeps_stolen hctl hl hlt
          · cases h
            exact keeps_stolen hctl hl hlt
          · cases h
            refine ⟨?_, rfl, rfl⟩
            simp only [Inv, hctl]
            exact ⟨f, rfl, hl⟩
          · cases h
            exact keeps_block hctl hl
      · next heq =>
          cases h
          exact keeps_end hctl hl (not_not.mp heq)
  · next fp popped hctl =>
      simp only [Inv, hctl] at hi
      obtain ⟨hu, heq⟩ := hi
      split at h
      · next hgt =>
          obtain ⟨f, rfl⟩ : ∃ f, fp = f + 1 := ⟨fp - 1, by omega⟩
          obtain ⟨⟨hunder, hle, hfits⟩, hleft⟩ :=
            keeps_pop hctl hu (Nat.le_of_lt_succ hgt)
          simp only [Nat.add_sub_cancel] at h
          split at h
          · next hmore =>
              cases h
              refine ⟨⟨⟨hunder.le, hunder.cur, hunder.fits⟩, hle, hfits, ?_⟩, rfl,
                ?_⟩
              · have hcons := slotsOf_cons s.slots hmore
                have hfits : Fits f (slotsOf s.slots _ _) := hfits
                rw [hcons] at hfits
                have hroom := hfits _ List.mem_cons_self
                omega
              · rw [leftOrder, leftOrder, hleft]
                rfl
          · next hmore =>
              cases h
              have hpc := Int.le_antisymm (Int.not_lt.mp hmore) hle
              refine ⟨⟨⟨hunder.le, hunder.cur, hunder.fits⟩, hpc⟩, rfl, ?_⟩
              rw [leftOrder, leftOrder, hleft, current, hpc, slotsOf_self]
              rfl
      · next hgt =>
          cases h
          have hfp : fp = s.esfp := Nat.le_antisymm (Nat.not_lt.mp hgt) hu.le
          subst hfp
          have hnil : left s = [] := by
            rw [left, hctl]
            exact below_esfp s
          rw [Keeps, leftOrder, leftOrder, hnil]
          split
          · refine ⟨⟨rfl, ?_⟩, rfl, rfl⟩
            simp [Stack.setFrame]
          · exact ⟨⟨rfl, heq⟩, rfl, rfl⟩
  · next hctl =>
      simp only [Inv, hctl] at hi
      cases h
      refine ⟨⟨⟨hi.under.le, hi.under.cur, hi.under.fits⟩, hi.le, hi.fits,
        hi.room⟩, rfl, ?_⟩
      rw [leftOrder, leftOrder, left, left, hctl]
      rfl
  · cases h

-- ======== progress

/-- How far a stack is from passing a task, or from the end. -/
def rank (s : Stack) : Nat :=
  match s.ctl with
  | .pushFrame fp =>
    if (s.stackframe fp).sp < (s.stackframe fp).pc then 1 else fp + 6
  | .exec fp pc sp => if pc = sp then fp + 4 else 0
  | .pop fp _ => fp + 2
  | .ewouldblock => s.sfp + 7
  | .done => 0

/-- The tasks left, then the rank. -/
def measure (s : Stack) : Nat :=
  (leftOrder s).length * (maxReccall + 8) + rank s

/-- A step within a task lowers the measure. -/
theorem measure_lt (hk : Keeps s s') (hexec : s'.executed = s.executed)
    (hrank : rank s' < rank s) : measure s' < measure s := by
  have hleft := hk.2.2
  rw [hexec] at hleft
  rw [measure, measure, List.append_cancel_left hleft]
  exact Nat.add_lt_add_left hrank _

/-- So does one that executes a task. -/
theorem measure_lt_of_executed (hk : Keeps s s')
    (hexec : s.executed.length < s'.executed.length)
    (hrank : rank s' < maxReccall + 8) : measure s' < measure s := by
  have hlen := congrArg List.length hk.2.2
  rw [List.length_append, List.length_append] at hlen
  have hle : (leftOrder s').length + 1 ≤ (leftOrder s).length := by omega
  have hmul := Nat.mul_le_mul_right (maxReccall + 8) hle
  rw [Nat.add_mul, Nat.one_mul] at hmul
  rw [measure, measure]
  omega

theorem rank_post (hroom : f + 1 < maxReccall) :
    rank (s₁.post (f + 1) pc sp) < maxReccall + 8 := by
  unfold Stack.post
  split
  · unfold rank
    simp only
    split <;> omega
  · unfold rank
    simp only
    split <;> omega

theorem post_executed : (s₁.post (f + 1) pc sp).executed = s₁.executed := by
  unfold Stack.post
  split <;> rfl

theorem runBody_executed (i : Nat) (t : Prog) :
    (s.runBody i t).executed = s.executed ++ [t.val] := by
  obtain ⟨slots, heq, -⟩ := Stack.foldl_pushTask_spec i t.kids
    { s with executed := s.executed ++ [t.val] }
  rw [Stack.runBody, heq]
  rfl

/-- The visits that make the loop go on. -/
def Visit.Passes (v : Visit) : Prop := v ≠ .eintr ∧ v ≠ .ewouldblock

/-- A step lowers the measure, unless the thief keeps the task or it is
taken back. -/
theorem step_measure {v : Visit} (hi : Inv s) (hv : v.Passes)
    (h : s.step v = some s') : measure s' < measure s := by
  have hk := step_keeps hi h
  unfold Stack.step at h
  split at h
  · next fp hctl =>
      simp only [Inv, hctl] at hi
      rw [if_pos hi.room] at h
      cases h
      refine measure_lt hk rfl ?_
      simp only [rank, hctl]
      split
      · next heq =>
          rw [if_neg (by omega)]
          omega
      · next hne =>
          have hle := hi.le
          rw [if_pos (by omega)]
          exact Nat.zero_lt_one
  · next fp pc sp hctl =>
      simp only [Inv, hctl] at hi
      obtain ⟨f, rfl, hl⟩ := hi
      split at h
      · split at h
        · cases h
          refine measure_lt_of_executed hk ?_ (rank_post hl.room)
          rw [post_executed, runBody_executed, List.length_append]
          exact Nat.lt_succ_self _
        · cases h
          refine measure_lt_of_executed hk ?_ (rank_post hl.room)
          rw [post_executed, RoseTree.preorder_eq, List.length_append]
          exact Nat.lt_add_of_pos_right (Nat.succ_pos _)
        · cases h
          refine measure_lt_of_executed hk ?_ (rank_post hl.room)
          rw [post_executed, RoseTree.preorder_eq, List.length_append]
          exact Nat.lt_add_of_pos_right (Nat.succ_pos _)
        · exact absurd rfl hv.1
        · exact absurd rfl hv.2
      · next heq =>
          cases h
          refine measure_lt hk rfl ?_
          simp only [rank, hctl, if_pos (not_not.mp heq)]
          omega
  · next fp popped hctl =>
      split at h
      · next hgt =>
          simp only at h
          split at h
          · next hmore =>
              cases h
              refine measure_lt hk rfl ?_
              have hmore := hmore
              simp only [rank, hctl]
              rw [if_pos hmore]
              omega
          · cases h
            refine measure_lt hk rfl ?_
            simp only [rank, hctl]
            omega
      · simp only at h
        cases h
        refine measure_lt hk ?_ ?_
        · show Stack.executed (if popped = true then _ else s) = _
          split <;> rfl
        · simp only [rank, hctl]
          omega
  · next hctl =>
      cases h
      refine measure_lt hk rfl ?_
      simp only [rank, hctl]
      split <;> omega
  · cases h

/-- A frame that is not done goes on. -/
theorem exists_step (hi : Inv s) (hctl : s.ctl ≠ .done) :
    ∃ s', s.step .free = some s' := by
  unfold Stack.step
  split
  · next fp hc =>
      simp only [Inv, hc] at hi
      exact ⟨_, if_pos hi.room⟩
  · split <;> exact ⟨_, rfl⟩
  · split
    · simp only
      split <;> exact ⟨_, rfl⟩
    · exact ⟨_, rfl⟩
  · exact ⟨_, rfl⟩
  · next hc => exact absurd hc hctl

end Steps

-- ======== results

/-- `kaapi_stack_execframe` on the current frame. -/
structure Enter (s : Stack) : Prop where
  ctl : s.ctl = .pushFrame s.sfp
  esfp : s.esfp = s.sfp
  le : (s.stackframe s.sfp).sp ≤ (s.stackframe s.sfp).pc

/-- The frames the tasks of the current frame need are in the array. -/
def Room (s : Stack) : Prop :=
  s.sfp + 1 < maxReccall ∧ Fits s.sfp (current s s.sfp)

/-- What has been executed at any point is the beginning of the depth-first
order; at the end it is all of it, and the stack is back at its frame, with
nothing in it; and the end is reached, whatever has happened before, and
within a bound as soon as no task is kept by a thief or taken back. -/
theorem execframe_depth_first {s s' : Stack} (he : Enter s) (hroom : Room s)
    {vs : List Visit} (hrun : run Stack.step vs s = some s') :
    (∃ rest, s'.executed ++ rest
        = s.executed ++ (current s s.sfp).flatMap RoseTree.preorder)
      ∧ (s'.ctl = .done →
        s'.executed
            = s.executed ++ (current s s.sfp).flatMap RoseTree.preorder
          ∧ s'.sfp = s.sfp
          ∧ (s'.stackframe s.sfp).pc = (s'.stackframe s.sfp).sp)
      ∧ (∃ vs' s'', run Stack.step vs' s' = some s'' ∧ s''.ctl = .done)
      ∧ ∃ N, ∀ vs' s'', (∀ v ∈ vs', v.Passes) →
        run Stack.step vs' s' = some s'' → vs'.length ≤ N := by
  have hinit : Inv s := by
    simp only [Inv, he.ctl]
    refine ⟨⟨Nat.le_of_eq he.esfp, fun j hj hjf => ?_, fun j hj hjf => ?_⟩, he.le,
      hroom.2, hroom.1⟩
    · rw [he.esfp] at hj
      omega
    · rw [he.esfp] at hj
      omega
  have hleft : leftOrder s = (current s s.sfp).flatMap RoseTree.preorder := by
    have hnil := below_esfp s
    rw [he.esfp] at hnil
    rw [leftOrder, left, he.ctl]
    show List.flatMap _ (current s s.sfp ++ below s s.sfp) = _
    rw [hnil, List.append_nil]
  obtain ⟨hi, hesfp, hexec⟩ : Keeps s s' := by
    refine run_preserves (P := Keeps s) ?_ ⟨hinit, rfl, rfl⟩ hrun
    intro v s₁ s₂ h₁ hstep
    obtain ⟨hi, hesfp, hexec⟩ := step_keeps h₁.1 hstep
    exact ⟨hi, hesfp.trans h₁.2.1, hexec.trans h₁.2.2⟩
  rw [hleft] at hexec
  refine ⟨⟨_, hexec⟩, fun hdone => ?_, ?_, measure s', ?_⟩
  · have hnil : leftOrder s' = [] := by
      rw [leftOrder, left, hdone]
      rfl
    rw [hnil, List.append_nil] at hexec
    simp only [Inv, hdone, hesfp, he.esfp] at hi
    obtain ⟨hsfp, hpc⟩ := hi
    rw [hsfp] at hpc
    exact ⟨hexec, hsfp, hpc⟩
  · obtain ⟨vs', s'', -, hrun', -, hdone⟩ := Along.exists_run Stack.step
      (fun _ _ => True) Inv (fun s => s.ctl = .done) measure
      (fun s₁ h₁ hne => by
        obtain ⟨s₂, hstep⟩ := exists_step h₁ hne
        exact ⟨.free, s₂, trivial, hstep, (step_keeps h₁ hstep).1,
          step_measure h₁ ⟨by decide, by decide⟩ hstep⟩) hi
    exact ⟨vs', s'', hrun', hdone⟩
  · intro vs' s'' hpass hrun'
    clear hrun hexec hesfp
    induction vs' generalizing s' with
    | nil => exact Nat.zero_le _
    | cons v vs' ih =>
      obtain ⟨s₁, hstep, hrest⟩ := (run_cons_eq_some).mp hrun'
      have hlt := step_measure hi (hpass v List.mem_cons_self) hstep
      have hle := ih (step_keeps hi hstep).1
        (fun w hw => hpass w (List.mem_cons_of_mem v hw)) hrest
      rw [List.length_cons]
      omega

/-- A stack at frame `sfp`, with one task that pushes two. -/
def oneTask (sfp : Nat) : Stack where
  slots := fun _ => .node 1 [.node 2 [], .node 3 []]
  stackframe := fun _ => { pc := 0, sp := -1 }
  sfp := sfp
  esfp := sfp
  ctl := .pushFrame sfp
  executed := []

/-- The task runs, its first child is kept by a thief and then found
terminated. -/
def oneTaskVisits : List Visit :=
  [.free, .free, .free, .ewouldblock, .free, .free, .term, .free, .free, .free,
    .free]

theorem oneTask_depth_first :
    ∃ s', run Stack.step oneTaskVisits (oneTask 0) = some s'
      ∧ (∃ rest, s'.executed ++ rest = [] ++ [1, 2, 3])
      ∧ (s'.ctl = .done → s'.executed = [] ++ [1, 2, 3]
        ∧ s'.sfp = 0 ∧ (s'.stackframe 0).pc = (s'.stackframe 0).sp) := by
  have hfits : Room (oneTask 0) := by
    refine ⟨by decide, fun t ht => ?_⟩
    have ht : t ∈ [RoseTree.node 1 [.node 2 [], .node 3 []]] := ht
    rw [List.mem_singleton.mp ht]
    decide
  obtain ⟨h₁, h₂, -⟩ := execframe_depth_first (s := oneTask 0)
    ⟨rfl, rfl, by decide⟩ hfits
    (show run Stack.step oneTaskVisits (oneTask 0) = some _ from rfl)
  exact ⟨_, rfl, h₁, h₂⟩

/-- In the last frame there is no room for the one the tasks run in. -/
theorem no_room :
    Enter (oneTask (maxReccall - 1))
      ∧ ¬ ∃ vs s', run Stack.step vs (oneTask (maxReccall - 1)) = some s'
        ∧ s'.ctl = .done := by
  refine ⟨⟨rfl, rfl, by decide⟩, ?_⟩
  intro ⟨vs, s', hrun, hdone⟩
  cases vs with
  | nil =>
    cases hrun
    cases hdone
  | cons v vs =>
    obtain ⟨s₁, hstep, -⟩ := (run_cons_eq_some).mp hrun
    cases hstep

end XKaapi.Task.Execframe
