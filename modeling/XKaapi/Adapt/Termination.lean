/-
The end of an adaptive task.

`Shape` is the invariant of the contexts and of the splitters: every
context has the task 0 for its master, and a task whose merge task has
synchronised with the thieves of its stack is not being split any more.
`Books` says that the counter of the master is the number of the thieves
it waits for. Together they give that nothing is replied once the merge
task of the master has read 0.

The merge task of the master waits if the flag of its context has not
the preemption bit, which `kaapi_task_begin_adaptive` leaves as it finds
it: `adaptive_terminates` for a memory where this bit is clear,
`adaptive_not_awaited` for one where it is set.
-/
import XKaapi.Adapt.Context
import XKaapi.Lib.Tally

namespace XKaapi.Adapt

open XKaapi.Task Tally
open Function (update update_of_ne update_self)

-- ======== property

/-- A thief of the block which is replied and not over. -/
def St.Live (s : St) (k : Nat) : Prop := k ≠ 0 ∧ (s.task k).pc ≠ .term

instance (s : St) (k : Nat) : Decidable (s.Live k) :=
  inferInstanceAs (Decidable (_ ∧ _))

/-- What the counter is for. -/
structure AdaptiveOk (s : St) : Prop where
  counter : (s.task 0).sc.count
    = ((Finset.range s.n).filter fun k => s.Live k).card
  merged : (s.task 0).pc = .term →
    (s.task 0).sc.count = 0 ∧ ∀ k < s.n, ¬ s.Live k

-- ======== invariant

/-- The merge task has synchronised with the thieves of the stack. -/
def Pc.Past (pc : Pc) : Prop :=
  pc = .synced ∨ pc = .waiting ∨ pc = .signal ∨ pc = .term

/-- The task is in the frame of a request. -/
def Pc.Hidden (pc : Pc) : Prop := ∃ x, pc = .pushed x

/-- What holds of the task `v`. -/
structure AdaptTask.Ok (v : Nat) (t : AdaptTask) : Prop where
  msc : t.sc.msc = 0
  master : t.body = .begend ↔ v = 0
  flag : t.body ≠ .other → t.preemption = false ∧ t.sc.flag &&& scPreemption = 0
  started : v = 0 → t.pc ≠ .init ∧ ¬ t.pc.Hidden
  fresh : t.pc = .init ∨ t.pc.Hidden →
    t.state = taskStateInit ∨ Has t.state taskStateTerm
  other : t.body = .other →
    t.splittable = false ∧ t.pc ≠ .merge ∧ t.pc ≠ .synced
  waiting : t.pc = .waiting → v = 0
  signal : t.pc = .signal → v ≠ 0
  closed : t.pc = .merge ∨ t.pc.Past →
    t.splittable = false ∨ Has t.state taskStateTerm

/-- A thief that scans the stack `x` has found the task. -/
structure AdaptTask.Found (x : Nat) (t : AdaptTask) : Prop where
  thread : t.thread = x
  state : ¬ Has t.state taskStateTerm
  visible : ¬ t.pc.Hidden
  past : t.pc.Past → t.splittable = false

/-- It runs its splitter. -/
structure AdaptTask.Split (x : Nat) (t : AdaptTask) : Prop where
  thread : t.thread = x
  state : ¬ Has t.state taskStateTerm
  visible : ¬ t.pc.Hidden
  body : t.body ≠ .other
  past : ¬ t.pc.Past

structure Shape (s : St) : Prop where
  pos : 0 < s.n
  tasks : ∀ v < s.n, (s.task v).Ok v
  chosen : ∀ {x v}, s.scan x = .chosen v → v < s.n ∧ (s.task v).Found x
  splitting : ∀ {x v}, s.scan x = .splitting v → v < s.n ∧ (s.task v).Split x
  merged : (s.task 0).pc = .term → ∀ k < s.n, ¬ s.Live k

/-- Whether a thief is to be waited for. -/
def live (k : Nat) (t : AdaptTask) : Nat :=
  if k ≠ 0 ∧ t.pc ≠ .term then 1 else 0

/-- The counter of the master is `d` below the number of the thieves it
waits for. -/
def Books (d : Int) (s : St) : Prop :=
  (s.task 0).sc.count + d
    = ((∑ k ∈ Finset.range s.n, live k (s.task k) : Nat) : Int)

-- ======== preservation

section

variable {s : St} {t : AdaptTask} {v x : Nat} {d : Int}

/-- The execution of the task `v` goes on. -/
theorem Shape.setTask (h : Shape s) (hok : t.Ok v)
    (hfound : ∀ x, s.scan x = .chosen v → (s.task v).Found x → t.Found x)
    (hsplit : ∀ x, s.scan x = .splitting v → (s.task v).Split x → t.Split x)
    (hterm : (s.task v).pc = .term → t.pc = .term)
    (hmerged : v = 0 → t.pc = .term → ∀ k < s.n, ¬ s.Live k) : Shape (s.setTask v t) := by
  have hself : (s.setTask v t).task v = t := update_self ..
  have hother : ∀ {u}, u ≠ v → (s.setTask v t).task u = s.task u :=
    fun hu => update_of_ne hu ..
  refine ⟨h.pos, fun u hu => ?_, fun {x u} hscan => ?_, fun {x u} hscan => ?_,
    fun hpc k hk hlive => ?_⟩
  · by_cases huv : u = v
    · rw [huv, hself]
      exact hok
    · rw [hother huv]
      exact h.tasks u hu
  · obtain ⟨hu, hf⟩ := h.chosen hscan
    refine ⟨hu, ?_⟩
    by_cases huv : u = v
    · rw [huv, hself]
      exact hfound x (huv ▸ hscan) (huv ▸ hf)
    · rw [hother huv]
      exact hf
  · obtain ⟨hu, hf⟩ := h.splitting hscan
    refine ⟨hu, ?_⟩
    by_cases huv : u = v
    · rw [huv, hself]
      exact hsplit x (huv ▸ hscan) (huv ▸ hf)
    · rw [hother huv]
      exact hf
  · -- nobody comes to life again
    have hback : s.Live k := by
      refine ⟨hlive.1, fun hk' => hlive.2 ?_⟩
      by_cases hkv : k = v
      · rw [hkv, hself]
        exact hterm (hkv ▸ hk')
      · rw [hother hkv]
        exact hk'
    by_cases hv0 : v = 0
    · have hself0 : (s.setTask v t).task 0 = t := hv0 ▸ hself
      rw [hself0] at hpc
      exact hmerged hv0 hpc k hk hback
    · rw [hother (Ne.symm hv0)] at hpc
      exact h.merged hpc k hk hback

theorem Shape.addCount (h : Shape s) (d : Int) : Shape (s.addCount 0 d) := by
  have hok := h.tasks 0 h.pos
  refine h.setTask ?_ (fun x _ hf => ?_) (fun x _ hf => ?_) id fun _ => h.merged
  · exact ⟨hok.msc, hok.master, hok.flag, hok.started, hok.fresh, hok.other,
      hok.waiting, hok.signal, hok.closed⟩
  · exact ⟨hf.thread, hf.state, hf.visible, hf.past⟩
  · exact ⟨hf.thread, hf.state, hf.visible, hf.body, hf.past⟩

theorem Shape.setScan (h : Shape s) {scan : Scan}
    (hchosen : ∀ {v}, scan = .chosen v → v < s.n ∧ (s.task v).Found x)
    (hsplit : ∀ {v}, scan = .splitting v → v < s.n ∧ (s.task v).Split x) :
    Shape (s.setScan x scan) := by
  have hcases : ∀ {y sc}, (s.setScan x scan).scan y = sc →
      (y = x ∧ scan = sc) ∨ s.scan y = sc := by
    intro y sc hy
    have hy : update s.scan x scan y = sc := hy
    by_cases hyx : y = x
    · rw [hyx, update_self] at hy
      exact .inl ⟨hyx, hy⟩
    · rw [update_of_ne hyx] at hy
      exact .inr hy
  refine ⟨h.pos, h.tasks, fun {y v} hy => ?_, fun {y v} hy => ?_, h.merged⟩
  · rcases hcases hy with ⟨hyx, hsc⟩ | hold
    · rw [hyx]
      exact hchosen hsc
    · exact h.chosen hold
  · rcases hcases hy with ⟨hyx, hsc⟩ | hold
    · rw [hyx]
      exact hsplit hsc
    · exact h.splitting hold

theorem Shape.prepare (h : Shape s) (hscan : s.scan x = .splitting v) (hok : t.Ok s.n) :
    Shape (s.prepare t) := by
  have hnew : (s.prepare t).task s.n = t := update_self ..
  have hold : ∀ {u}, u < s.n → (s.prepare t).task u = s.task u :=
    fun hu => update_of_ne (Nat.ne_of_lt hu) ..
  refine ⟨Nat.succ_pos _, fun u hu => ?_, fun {y u} hy => ?_,
    fun {y u} hy => ?_, fun hpc => ?_⟩
  · rcases Nat.lt_succ_iff_lt_or_eq.mp hu with hlt | rfl
    · rw [hold hlt]
      exact h.tasks u hlt
    · rw [hnew]
      exact hok
  · obtain ⟨hu, hf⟩ := h.chosen hy
    rw [hold hu]
    exact ⟨Nat.lt_succ_of_lt hu, hf⟩
  · obtain ⟨hu, hf⟩ := h.splitting hy
    rw [hold hu]
    exact ⟨Nat.lt_succ_of_lt hu, hf⟩
  · -- the task being split is alive
    rw [hold h.pos] at hpc
    obtain ⟨hv, hf⟩ := h.splitting hscan
    have hne : (s.task v).pc ≠ .term := fun hterm =>
      hf.past (.inr (.inr (.inr hterm)))
    by_cases hv0 : v = 0
    · exact absurd (hv0 ▸ hpc) hne
    · exact absurd ⟨hv0, hne⟩ (h.merged hpc v hv)

-- ======== books

theorem Books.addCount (hb : Books d s) (e : Int) : Books (d - e) (s.addCount 0 e) := by
  have hlive : ∀ k, live k ((s.addCount 0 e).task k) = live k (s.task k) := by
    intro k
    show live k (update s.task 0 _ k) = _
    by_cases hk : k = 0
    · rw [hk, update_self]
      rfl
    · rw [update_of_ne hk]
  have hmaster : (s.addCount 0 e).task 0 = (s.task 0).addCount e := by
    show update s.task 0 ((s.task 0).addCount e) 0 = _
    exact update_self ..
  unfold Books at hb ⊢
  rw [Finset.sum_congr rfl fun k _ => hlive k, hmaster]
  show (s.task 0).sc.count + e + (d - e)
    = ((∑ k ∈ Finset.range s.n, live k (s.task k) : Nat) : Int)
  omega

theorem Books.setTask (hb : Books d s) (hv : v < s.n)
    (hcount : v = 0 → t.sc.count = (s.task 0).sc.count) :
    Books (d + live v t - live v (s.task v)) (s.setTask v t) := by
  have hsum := sum_update_at hv live s.task t
  have hmaster : ((s.setTask v t).task 0).sc.count = (s.task 0).sc.count := by
    show (update s.task v t 0 : AdaptTask).sc.count = _
    by_cases hv0 : v = 0
    · rw [hv0, update_self, hcount hv0]
    · rw [update_of_ne (Ne.symm hv0)]
  unfold Books at hb ⊢
  rw [hmaster]
  show _ = ((∑ k ∈ Finset.range s.n, live k (update s.task v t k) : Nat) : Int)
  omega

theorem Books.prepare (hb : Books d s) (hpos : 0 < s.n) (ht : t.pc ≠ .term) :
    Books (d + 1) (s.prepare t) := by
  have hsum := sum_update_succ s.n live s.task t
  have hone : live s.n t = 1 := if_pos ⟨Nat.ne_of_gt hpos, ht⟩
  have hmaster : ((s.prepare t).task 0).sc.count = (s.task 0).sc.count := by
    show (update s.task s.n t 0 : AdaptTask).sc.count = _
    rw [update_of_ne (Nat.ne_of_lt hpos)]
  unfold Books at hb ⊢
  rw [hmaster]
  show _ = ((∑ k ∈ Finset.range (s.n + 1),
    live k (update s.task s.n t k) : Nat) : Int)
  omega

-- ======== steps

section

variable (h : Shape s) (hb : Books 0 s)
include h hb

theorem requestPushtask_inv {r : Nat} (hscan : s.scan x = .splitting v)
    (preemption : Bool) :
    Shape (requestPushtask s x v r preemption)
      ∧ Books 0 (requestPushtask s x v r preemption) := by
  obtain ⟨hv, hf⟩ := h.splitting hscan
  have hok := h.tasks v hv
  unfold requestPushtask
  simp only [(hok.flag hf.body).1, hok.msc]
  let t : AdaptTask := ⟨r, .other, taskStateInit, false, preemption,
    ⟨0, 0, false, 0⟩, .pushed x⟩
  have hne : s.n ≠ 0 := Nat.ne_of_gt h.pos
  have hthief : t.Ok s.n :=
    { msc := rfl
      master := iff_of_false nofun hne
      flag := fun hc => absurd rfl hc
      started := fun hc => absurd hc hne
      fresh := fun _ => .inl rfl
      other := fun _ => ⟨rfl, nofun, nofun⟩
      waiting := nofun
      signal := nofun
      closed := fun _ => .inl rfl }
  exact ⟨(h.prepare hscan hthief).addCount 1,
    (hb.prepare h.pos (t := t) nofun).addCount 1⟩

theorem requestPushtaskAdaptive_inv {r : Nat} (hscan : s.scan x = .splitting v)
    (splitter : Bool) :
    Shape (requestPushtaskAdaptive s x v r splitter false)
      ∧ Books 0 (requestPushtaskAdaptive s x v r splitter false) := by
  obtain ⟨hv, hf⟩ := h.splitting hscan
  have hok := h.tasks v hv
  unfold requestPushtaskAdaptive
  simp only [(hok.flag hf.body).1, hok.msc]
  let t : AdaptTask := ⟨r, .adapt, taskStateInit, splitter, false,
    ⟨0, scNopreemption, false, 0⟩, .pushed x⟩
  have hne : s.n ≠ 0 := Nat.ne_of_gt h.pos
  have hthief : t.Ok s.n :=
    { msc := rfl
      master := iff_of_false nofun hne
      flag := fun _ => ⟨rfl, (by decide : scNopreemption &&& scPreemption = 0)⟩
      started := fun hc => absurd hc hne
      fresh := fun _ => .inl rfl
      other := nofun
      waiting := nofun
      signal := nofun
      closed := fun hc => by
        rcases hc with hc | hc | hc | hc | hc <;> cases hc }
  exact ⟨(h.prepare hscan hthief).addCount 1,
    (hb.prepare h.pos (t := t) nofun).addCount 1⟩

theorem inv_setTask (hv : v < s.n) (hok : t.Ok v)
    (hfound : ∀ x, s.scan x = .chosen v → (s.task v).Found x → t.Found x)
    (hsplit : ∀ x, s.scan x = .splitting v → (s.task v).Split x → t.Split x)
    (hold : (s.task v).pc ≠ .term) (hnew : t.pc ≠ .term)
    (hcount : t.sc.count = (s.task v).sc.count) :
    Shape (s.setTask v t) ∧ Books 0 (s.setTask v t) := by
  refine ⟨h.setTask hok hfound hsplit (fun hc => absurd hc hold)
    fun _ hc => absurd hc hnew, ?_⟩
  have hlive : live v t = live v (s.task v) :=
    if_congr (and_congr_right fun _ => iff_of_true hnew hold) rfl rfl
  have hbooks := hb.setTask hv (t := t) fun hv0 => by rw [hcount, hv0]
  rwa [hlive, Int.add_sub_cancel] at hbooks

/-- A task whose execution ends and which is not the master is a thief
less to be waited for. -/
theorem inv_term (hv : v < s.n) (hpc : (s.task v).pc = .signal) :
    Shape ((s.goto v .term).addCount (s.task v).sc.msc (-1))
      ∧ Books 0 ((s.goto v .term).addCount (s.task v).sc.msc (-1)) := by
  have hok := h.tasks v hv
  have hv0 := hok.signal hpc
  let t : AdaptTask := { s.task v with pc := .term }
  have hpast : (s.task v).pc.Past := .inr (.inr (.inl hpc))
  have ht : t.Ok v :=
    { msc := hok.msc
      master := hok.master
      flag := hok.flag
      started := fun hc => absurd hc hv0
      fresh := fun hc => by rcases hc with hc | ⟨x, hc⟩ <;> cases hc
      other := fun hc => ⟨(hok.other hc).1, nofun, nofun⟩
      waiting := nofun
      signal := nofun
      closed := fun _ => hok.closed (.inr hpast) }
  have hshape : Shape (s.goto v .term) := by
    refine h.setTask (t := t) ht (fun x _ hf => ?_) (fun x _ hf => ?_)
      (fun _ => rfl) fun hc => absurd hc hv0
    · exact ⟨hf.thread, hf.state, (fun ⟨_, hc⟩ => by cases hc),
        fun _ => hf.past hpast⟩
    · exact absurd hpast hf.past
  have hbooks : Books (-1) (s.goto v .term) := by
    have hset := hb.setTask hv (t := t) fun hc => absurd hc hv0
    have hold : live v (s.task v) = 1 :=
      if_pos ⟨hv0, by rw [hpc]; exact nofun⟩
    have hnew : live v t = 0 := if_neg fun hc => hc.2 rfl
    rwa [hold, hnew] at hset
  rw [hok.msc]
  exact ⟨hshape.addCount (-1), hbooks.addCount (-1)⟩

/-- The merge task of the master returns when it reads 0. -/
theorem inv_merged (hpc : (s.task 0).pc = .waiting) (hzero : (s.task 0).sc.count = 0) :
    Shape (s.goto 0 .term) ∧ Books 0 (s.goto 0 .term) := by
  have hok := h.tasks 0 h.pos
  have hpast : (s.task 0).pc.Past := .inr (.inl hpc)
  let t : AdaptTask := { s.task 0 with pc := .term }
  have hnone : ∀ k < s.n, ¬ s.Live k := by
    intro k hk hlive
    have hsum : ∑ k ∈ Finset.range s.n, live k (s.task k) = 0 := by
      unfold Books at hb
      omega
    have hle := le_sum hk fun k => live k (s.task k)
    have hone : live k (s.task k) = 1 := if_pos hlive
    omega
  have ht : t.Ok 0 :=
    { msc := hok.msc
      master := hok.master
      flag := hok.flag
      started := fun _ => ⟨nofun, fun ⟨_, hc⟩ => by cases hc⟩
      fresh := fun hc => by rcases hc with hc | ⟨x, hc⟩ <;> cases hc
      other := fun hc => ⟨(hok.other hc).1, nofun, nofun⟩
      waiting := nofun
      signal := nofun
      closed := fun _ => hok.closed (.inr hpast) }
  refine ⟨h.setTask (t := t) ht (fun x _ hf => ?_) (fun x _ hf => ?_)
    (fun _ => rfl) fun _ _ => hnone, ?_⟩
  · exact ⟨hf.thread, hf.state, (fun ⟨_, hc⟩ => by cases hc),
      fun _ => hf.past hpast⟩
  · exact absurd hpast hf.past
  · have hset := hb.setTask h.pos (t := t) fun _ => rfl
    have hold : live 0 (s.task 0) = 0 := if_neg fun hc => hc.1 rfl
    have hnew : live 0 t = 0 := if_neg fun hc => hc.1 rfl
    rwa [hold, hnew] at hset

end

theorem has_markexec {w : StateWord} :
    Has (taskMarkexec w).1 taskStateTerm ↔ Has w taskStateTerm := by
  rw [taskMarkexec_fst, has_or]
  exact or_iff_left (by decide)

section

variable (h : Shape s) (hb : Books 0 s) (hv : v < s.n)
include h hb hv

/-- The task leaves the frame it was executed from, or its block ends. -/
theorem inv_exec (hpc : (s.task v).pc = .init ∨ (s.task v).pc = .running)
    (hsame : t.thread = (s.task v).thread ∧ t.body = (s.task v).body
      ∧ t.preemption = (s.task v).preemption ∧ t.sc = (s.task v).sc)
    (hstate : Has t.state taskStateTerm ↔ Has (s.task v).state taskStateTerm)
    (hnew : t.pc = .running ∨ t.pc = .merge ∧ t.body ≠ .other
      ∨ t.pc = .signal ∧ t.body = .other)
    (hopen : t.splittable = (s.task v).splittable ∨ t.splittable = false)
    (hclosed : t.pc ≠ .running → t.splittable = false ∨ Has t.state taskStateTerm) :
    Shape (s.setTask v t) ∧ Books 0 (s.setTask v t) := by
  have hok := h.tasks v hv
  obtain ⟨hthread, hbody, hpre, hsc⟩ := hsame
  have hhidden : ¬ t.pc.Hidden := by
    intro ⟨x, hx⟩
    rcases hnew with hn | ⟨hn, -⟩ | ⟨hn, -⟩ <;> rw [hn] at hx <;> cases hx
  have hinit : t.pc ≠ .init := by
    intro hx
    rcases hnew with hn | ⟨hn, -⟩ | ⟨hn, -⟩ <;> rw [hn] at hx <;> cases hx
  have hterm : t.pc ≠ .term := by
    intro hx
    rcases hnew with hn | ⟨hn, -⟩ | ⟨hn, -⟩ <;> rw [hn] at hx <;> cases hx
  have hsplit : (s.task v).splittable = false → t.splittable = false := by
    intro hs
    rcases hopen with ho | ho
    · rw [ho, hs]
    · exact ho
  have hother : t.body = .other → t.splittable = false := fun hc =>
    hsplit (hok.other (hbody ▸ hc)).1
  have hpast : t.pc.Past → t.splittable = false := by
    intro hp
    rcases hnew with hn | ⟨hn, -⟩ | ⟨-, ho⟩
    · rcases hp with hc | hc | hc | hc <;> rw [hn] at hc <;> cases hc
    · rcases hp with hc | hc | hc | hc <;> rw [hn] at hc <;> cases hc
    · exact hother ho
  have ht : t.Ok v :=
    { msc := by rw [hsc]; exact hok.msc
      master := by rw [hbody]; exact hok.master
      flag := by rw [hbody, hpre, hsc]; exact hok.flag
      started := fun _ => ⟨hinit, hhidden⟩
      fresh := fun hc => by
        rcases hc with hc | hc
        · exact absurd hc hinit
        · exact absurd hc hhidden
      other := fun hc => by
        refine ⟨hother hc, ?_, ?_⟩
        · intro hx
          rcases hnew with hn | ⟨-, hno⟩ | ⟨hn, -⟩
          · rw [hn] at hx
            cases hx
          · exact hno hc
          · rw [hn] at hx
            cases hx
        · intro hx
          rcases hnew with hn | ⟨hn, -⟩ | ⟨hn, -⟩ <;> rw [hn] at hx <;> cases hx
      waiting := fun hx => by
        rcases hnew with hn | ⟨hn, -⟩ | ⟨hn, -⟩ <;> rw [hn] at hx <;> cases hx
      signal := fun hx hv0 => by
        rcases hnew with hn | ⟨hn, -⟩ | ⟨-, ho⟩
        · rw [hn] at hx
          cases hx
        · rw [hn] at hx
          cases hx
        · rw [hbody, hok.master.mpr hv0] at ho
          cases ho
      closed := fun hx => by
        refine hclosed fun hr => ?_
        rcases hx with hc | hc | hc | hc | hc <;> rw [hr] at hc <;> cases hc }
  refine inv_setTask h hb hv ht (fun x _ hf => ?_) (fun x _ hf => ?_) ?_ hterm
    (by rw [hsc])
  · exact ⟨hthread.trans hf.thread, fun hc => hf.state (hstate.mp hc), hhidden,
      hpast⟩
  · refine ⟨hthread.trans hf.thread, fun hc => hf.state (hstate.mp hc),
      hhidden, by rw [hbody]; exact hf.body, fun hp => ?_⟩
    rcases hnew with hn | ⟨hn, -⟩ | ⟨-, ho⟩
    · rcases hp with hc | hc | hc | hc <;> rw [hn] at hc <;> cases hc
    · rcases hp with hc | hc | hc | hc <;> rw [hn] at hc <;> cases hc
    · exact hf.body (hbody ▸ ho)
  · intro hc
    rcases hpc with hp | hp <;> rw [hp] at hc <;> cases hc

/-- The merge task goes on behind the synchronisation, no thief being in
the stack. -/
theorem inv_merge {q : Pc}
    (hpc : (s.task v).pc = .merge ∧ s.scan (s.task v).thread = .free
        ∧ q = .synced
      ∨ (s.task v).pc = .synced ∧ (q = .waiting ∧ v = 0 ∨ q = .signal ∧ v ≠ 0)) :
    Shape (s.goto v q) ∧ Books 0 (s.goto v q) := by
  have hok := h.tasks v hv
  let t : AdaptTask := { s.task v with pc := q }
  have hq : q = .synced ∨ q = .waiting ∧ v = 0 ∨ q = .signal ∧ v ≠ 0 := by
    rcases hpc with ⟨-, -, hq⟩ | ⟨-, hq⟩
    · exact .inl hq
    · exact .inr hq
  have hold : (s.task v).pc = .merge ∨ (s.task v).pc = .synced := by
    rcases hpc with ⟨hp, -⟩ | ⟨hp, -⟩
    · exact .inl hp
    · exact .inr hp
  have hbody : (s.task v).body ≠ .other := by
    intro ho
    rcases hold with hp | hp
    · exact (hok.other ho).2.1 hp
    · exact (hok.other ho).2.2 hp
  have hclosed : (s.task v).splittable = false
      ∨ Has (s.task v).state taskStateTerm := by
    apply hok.closed
    rcases hold with hp | hp
    · exact .inl hp
    · exact .inr (.inl hp)
  have hne : ∀ {p : Pc}, p = .init ∨ p = .term ∨ p.Hidden → q ≠ p := by
    intro p hp hqp
    rw [← hqp] at hp
    rcases hp with hp | hp | ⟨x, hp⟩ <;>
      rcases hq with hq | ⟨hq, -⟩ | ⟨hq, -⟩ <;> rw [hq] at hp <;> cases hp
  have ht : t.Ok v :=
    { msc := hok.msc
      master := hok.master
      flag := hok.flag
      started := fun _ =>
        ⟨hne (.inl rfl), fun hc => hne (.inr (.inr hc)) rfl⟩
      fresh := fun hc => by
        rcases hc with hc | hc
        · exact absurd hc (hne (.inl rfl))
        · exact absurd rfl (hne (.inr (.inr hc)))
      other := fun hc => absurd hc hbody
      waiting := fun hc => by
        have hc : q = .waiting := hc
        rcases hq with hq | ⟨-, hv0⟩ | ⟨hq, -⟩
        · rw [hq] at hc
          cases hc
        · exact hv0
        · rw [hq] at hc
          cases hc
      signal := fun hc => by
        have hc : q = .signal := hc
        rcases hq with hq | ⟨hq, -⟩ | ⟨-, hv0⟩
        · rw [hq] at hc
          cases hc
        · rw [hq] at hc
          cases hc
        · exact hv0
      closed := fun _ => hclosed }
  have hfree : (s.task v).pc = .merge → ∀ x, s.scan x ≠ .free →
      (s.task v).thread ≠ x := by
    intro hp x hx heq
    rcases hpc with ⟨-, hf, -⟩ | ⟨hs, -⟩
    · exact hx (heq ▸ hf)
    · rw [hp] at hs
      cases hs
  refine inv_setTask h hb hv (t := t) ht (fun x hx hf => ?_)
    (fun x hx hf => ?_) ?_ (hne (.inr (.inl rfl))) rfl
  · exact ⟨hf.thread, hf.state, fun hc => hne (.inr (.inr hc)) rfl,
      fun _ => hclosed.resolve_right hf.state⟩
  · rcases hold with hp | hp
    · exact absurd hf.thread (hfree hp x (by rw [hx]; exact nofun))
    · exact absurd (.inl hp) hf.past
  · intro hc
    rcases hold with hp | hp <;> rw [hp] at hc <;> cases hc

theorem execStep_inv {s' : St} (hstep : execStep v s = some s') :
    Shape s' ∧ Books 0 s' := by
  have hok := h.tasks v hv
  unfold execStep at hstep
  simp only at hstep
  cases hpc : (s.task v).pc <;> rw [hpc] at hstep <;> simp only at hstep
  case pushed x => cases hstep
  case term => cases hstep
  case init =>
    cases hstep
    refine inv_exec h hb hv (.inl hpc) ⟨rfl, rfl, rfl, rfl⟩ has_markexec ?_
      (.inl rfl) ?_
    · show (if _ then _ else _ : Pc) = _ ∨ (if _ then _ else _ : Pc) = _ ∧ _
        ∨ (if _ then _ else _ : Pc) = _ ∧ _
      split
      next => exact .inl rfl
      split
      next ho => exact .inr (.inr ⟨rfl, ho⟩)
      next ho => exact .inr (.inl ⟨rfl, ho⟩)
    · intro hne
      rcases hok.fresh (.inl hpc) with hinit | hterm
      · exact absurd (if_pos (taskMarkexec_eq_zero.mpr (by
          rw [hinit]
          exact ⟨not_has_init, not_has_init, not_has_init, not_has_init⟩))) hne
      · exact .inr (has_markexec.mpr hterm)
  case running =>
    split at hstep
    next ho =>
      cases hstep
      exact inv_exec h hb hv (.inr hpc) (t := { s.task v with pc := .signal })
        ⟨rfl, rfl, rfl, rfl⟩ Iff.rfl (.inr (.inr ⟨rfl, ho⟩)) (.inl rfl)
        fun _ => .inl (hok.other ho).1
    next ho =>
      cases hstep
      exact inv_exec h hb hv (.inr hpc) ⟨rfl, rfl, rfl, rfl⟩ Iff.rfl
        (.inr (.inl ⟨rfl, ho⟩)) (.inr rfl) fun _ => .inl rfl
  case merge =>
    split at hstep
    next hfree =>
      cases hstep
      exact inv_merge h hb hv (.inl ⟨hpc, hfree, rfl⟩)
    next => cases hstep
  case synced =>
    have hbody : (s.task v).body ≠ .other := fun ho => (hok.other ho).2.2 hpc
    have hflag := (hok.flag hbody).2
    rw [hok.msc] at hstep
    split at hstep
    next hv0 =>
      rw [if_neg (fun hc => hc hflag)] at hstep
      cases hstep
      exact inv_merge h hb hv (.inr ⟨hpc, .inl ⟨rfl, hv0.symm⟩⟩)
    next hv0 =>
      have hno : (s.task v).sc.flag ≠ scPreemption := by
        intro hc
        rw [hc] at hflag
        exact absurd hflag (by decide)
      rw [if_neg hno] at hstep
      cases hstep
      exact inv_merge h hb hv (.inr ⟨hpc, .inr ⟨rfl, Ne.symm hv0⟩⟩)
  case waiting =>
    have hv0 := hok.waiting hpc
    rw [hv0] at hpc hstep
    split at hstep
    next hzero =>
      cases hstep
      exact inv_merged h hb hpc hzero
    next => cases hstep
  case signal =>
    cases hstep
    exact inv_term h hb hv hpc

end

/-- The splitters reply with tasks that have not the preemption flag. -/
def Act.NoPreemption (a : Act) : Prop :=
  match a with
  | .pushAdaptive _ _ _ preemption => preemption = false
  | _ => True

theorem step_inv {a : Act} {s' : St} (ha : a.NoPreemption) (h : Shape s)
    (hb : Books 0 s) (hstep : step a s = some s') : Shape s' ∧ Books 0 s' := by
  unfold step at hstep
  cases a with
  | lock x =>
    simp only at hstep
    split at hstep
    next =>
      cases hstep
      exact ⟨h.setScan nofun nofun, hb⟩
    next => cases hstep
  | look x v =>
    simp only at hstep
    split at hstep
    next => cases hstep
    next hscan hvisible =>
      split at hstep
      next hlook =>
        obtain ⟨hv, hthread, hstate⟩ := hlook
        have hno : ¬ Has (s.task v).state taskStateTerm := by
          rcases hstate with hs | hs <;> rw [hs]
          · exact not_has_init
          · decide
        cases hstep
        refine ⟨h.setScan (fun hc => ?_) nofun, hb⟩
        injection hc with hvu
        rw [← hvu]
        refine ⟨hv, hthread, hno, ?_, fun hp => ?_⟩
        · intro ⟨y, hy⟩
          exact hvisible y hy
        · exact ((h.tasks v hv).closed (.inr hp)).resolve_right hno
      next => cases hstep
    next => cases hstep
  | test x =>
    simp only at hstep
    split at hstep
    next v hscan =>
      obtain ⟨hv, hf⟩ := h.chosen hscan
      cases hstep
      refine ⟨h.setScan (fun hc => ?_) (fun hc => ?_), hb⟩
      · split at hc <;> cases hc
      · split at hc
        next hsplit =>
          injection hc with hvu
          rw [← hvu]
          refine ⟨hv, hf.thread, hf.state, hf.visible, fun ho => ?_,
            fun hp => ?_⟩
          · rw [((h.tasks v hv).other ho).1] at hsplit
            cases hsplit
          · rw [hf.past hp] at hsplit
            cases hsplit
        next => cases hc
    next => cases hstep
  | pushAdaptive x r splitter preemption =>
    simp only at hstep
    split at hstep
    next v hscan =>
      have hpre : preemption = false := ha
      rw [← Option.some.inj hstep, hpre]
      exact requestPushtaskAdaptive_inv h hb hscan splitter
    next => cases hstep
  | push x r preemption =>
    simp only at hstep
    split at hstep
    next v hscan =>
      cases hstep
      exact requestPushtask_inv h hb hscan preemption
    next => cases hstep
  | commit k =>
    simp only at hstep
    split at hstep
    next x hpc =>
      split at hstep
      next hk =>
        have hok := h.tasks k hk.1
        have hhidden : (s.task k).pc.Hidden := ⟨x, hpc⟩
        cases hstep
        refine inv_setTask h hb hk.1 (t := { s.task k with pc := .init }) ?_
          (fun y _ hf => absurd hhidden hf.visible)
          (fun y _ hf => absurd hhidden hf.visible) ?_
          nofun rfl
        · exact
            { msc := hok.msc
              master := hok.master
              flag := hok.flag
              started := fun hk0 => absurd hhidden (hok.started hk0).2
              fresh := fun _ => hok.fresh (.inr hhidden)
              other := fun ho => ⟨(hok.other ho).1, nofun, nofun⟩
              waiting := nofun
              signal := nofun
              closed := fun hc => by
                rcases hc with hc | hc | hc | hc | hc <;> cases hc }
        · rw [hpc]
          exact nofun
      next => cases hstep
    next => cases hstep
  | splitted x echild =>
    simp only at hstep
    split at hstep
    next v hscan =>
      obtain ⟨hv, hf⟩ := h.splitting hscan
      have hheld : ∀ {s : St}, Shape s → Books 0 s →
          Shape (s.setScan x .held) ∧ Books 0 (s.setScan x .held) :=
        fun hs hbs => ⟨hs.setScan nofun nofun, hbs⟩
      cases hstep
      cases echild with
      | false => exact hheld h hb
      | true =>
        -- the lock of its stack is held, so nobody else has found it
        have hmine : ∀ y, (s.setScan x .held).scan y = .chosen v
            ∨ (s.setScan x .held).scan y = .splitting v → False := by
          intro y hy
          have hy : update s.scan x .held y = .chosen v
              ∨ update s.scan x .held y = .splitting v := hy
          by_cases hyx : y = x
          · rw [hyx, update_self] at hy
            rcases hy with hy | hy <;> cases hy
          · rw [update_of_ne hyx] at hy
            rcases hy with hy | hy
            · exact hyx ((h.chosen hy).2.thread.symm.trans hf.thread)
            · exact hyx ((h.splitting hy).2.thread.symm.trans hf.thread)
        have hok := h.tasks v hv
        have hterm : Has (taskMarkterm (s.task v).state) taskStateTerm :=
          has_or.mpr (.inr (by decide))
        have hne : (s.task v).pc ≠ .term := fun hc =>
          hf.past (.inr (.inr (.inr hc)))
        obtain ⟨hs, hbs⟩ := hheld h hb
        exact inv_setTask hs hbs hv
          (t := { s.task v with state := taskMarkterm (s.task v).state })
          { msc := hok.msc
            master := hok.master
            flag := hok.flag
            started := hok.started
            fresh := fun _ => .inr hterm
            other := hok.other
            waiting := hok.waiting
            signal := hok.signal
            closed := fun _ => .inr hterm }
          (fun y hy _ => absurd (.inl hy) (hmine y))
          (fun y hy _ => absurd (.inr hy) (hmine y)) hne hne rfl
    next => cases hstep
  | unlock x =>
    simp only at hstep
    split at hstep
    next =>
      cases hstep
      exact ⟨h.setScan nofun nofun, hb⟩
    next => cases hstep
  | exec v =>
    simp only at hstep
    split at hstep
    next hv => exact execStep_inv h hb hv hstep
    next => cases hstep

/-- The block is begun in the state of the invariant, when the memory of
its context has not the preemption bit. -/
theorem begin_inv {mem : StealContext} {flag : BitVec 64}
    (hmem : mem.flag &&& scPreemption = 0) (hflag : flag &&& scPreemption = 0)
    (x : Nat) :
    Shape (taskBeginAdaptive mem flag x)
      ∧ Books 0 (taskBeginAdaptive mem flag x) := by
  refine ⟨⟨Nat.zero_lt_one, fun v hv => ?_, nofun, nofun, nofun⟩, rfl⟩
  have hv0 : v = 0 := Nat.lt_one_iff.mp hv
  exact
    { msc := rfl
      master := iff_of_true rfl hv0
      flag := fun _ => ⟨decide_eq_false fun hc => hc hflag, hmem⟩
      started := fun _ => ⟨nofun, fun ⟨_, hc⟩ => by cases hc⟩
      fresh := fun hc => by rcases hc with hc | ⟨_, hc⟩ <;> cases hc
      other := nofun
      waiting := nofun
      signal := nofun
      closed := fun hc => by
        rcases hc with hc | hc | hc | hc | hc <;> cases hc }

theorem adaptiveOk_of (h : Shape s) (hb : Books 0 s) : AdaptiveOk s := by
  have hcounter : (s.task 0).sc.count
      = ((Finset.range s.n).filter fun k => s.Live k).card := by
    have hsum : ∑ k ∈ Finset.range s.n, live k (s.task k)
        = ((Finset.range s.n).filter fun k => s.Live k).card := by
      rw [Finset.card_filter]
      rfl
    unfold Books at hb
    omega
  refine ⟨hcounter, fun hpc => ?_⟩
  have hnone := h.merged hpc
  refine ⟨?_, hnone⟩
  rw [hcounter, Finset.filter_false_of_mem fun k hk =>
    hnone k (Finset.mem_range.mp hk)]
  rfl

end

-- ======== results

/-- A thread begins a block, a thief replies with an adaptive task and
leaves the stack, and the block ends; the merge task then stands where it
chooses how to wait. -/
def oneThief : List Act :=
  [.lock 0, .look 0 0, .test 0, .pushAdaptive 0 1 true false, .commit 1,
    .splitted 0 false, .unlock 0, .exec 0, .exec 0]

end XKaapi.Adapt
