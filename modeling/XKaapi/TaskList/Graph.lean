/-
What `kaapi_thread_computereadylist` builds, as a function of the
sequence of accesses alone.

`events` lists the shared accesses in the order the builder meets them,
each with the index of its task. Modes are arbitrary words here: the
builder has code for those with the R or the W bit (`accessHasCode`), and
takes RW, and W without R, for a write (`accessSetsWriter`). `writerOf`
is the descriptor a version names after a prefix of them. `Built` is the
builder's invariant: one edge for every access, from the writer found by
it, unless that writer is the accessing task itself; one initial task, in
the ready list, for every datum; and a wait counter that counts the edges.

`computereadylist_spec` and `computereadylist_isSome` are the two facts
the ordering and the execution of a task list rest on.
-/
import XKaapi.TaskList.Build
import Mathlib.Data.Set.Insert

namespace XKaapi.TaskList

open Dfg Activation
open Function (update update_eq_self update_of_ne update_self)

-- ======== accesses

/-- An access, with the index of the task that makes it. -/
abbrev Event := Nat × Param

/-- The builder has code for the access: it has the R or the W bit. -/
def accessHasCode (p : Param) : Bool := accessIsRead p.m || accessIsWrite p.m

/-- The access makes its task the writer of the version. -/
def accessSetsWriter (p : Param) : Bool :=
  accessIsReadwrite p.m || !accessIsRead p.m && accessIsWrite p.m

/-- The shared accesses of a task. -/
def Task.shared (t : Task) : List Param := (t.getD []).filter Param.shared

/-- The accesses of a list of tasks, the first of which has index `k`. -/
def events (k : Nat) : List Task → List Event
  | [] => []
  | t :: ts => (Task.shared t).map (fun p => (k, p)) ++ events (k + 1) ts

/-- The last task that wrote a datum. -/
def lastWriter (evs : List Event) (a : Addr) : Option Nat :=
  (evs.reverse.find? fun e => e.2.data == a && accessSetsWriter e.2).map Prod.fst

/-- The descriptor named by the version of a datum. -/
def writerOf (evs : List Event) (a : Addr) : TdId :=
  match lastWriter evs a with
  | some i => .task i
  | none => .init a

/-- One more access. -/
theorem lastWriter_snoc (evs : List Event) (e : Event) (a : Addr) :
    lastWriter (evs ++ [e]) a
      = if e.2.data = a ∧ accessSetsWriter e.2 = true then some e.1
        else lastWriter evs a := by
  rw [lastWriter, List.reverse_append, List.reverse_singleton,
    List.singleton_append, List.find?_cons]
  by_cases h : e.2.data = a ∧ accessSetsWriter e.2 = true
  · simp [h]
  · have hf : (e.2.data == a && accessSetsWriter e.2) = false := by simpa using h
    rw [hf, if_neg h]
    rfl

variable {i k : Nat} {a : Addr} {evs : List Event} {e : Event} {ts : List Task} {t : Task}

/-- The last writer has written. -/
theorem lastWriter_eq_some (h : lastWriter evs a = some i) :
    ∃ e ∈ evs, e.1 = i ∧ e.2.data = a ∧ accessSetsWriter e.2 = true := by
  obtain ⟨e, he, rfl⟩ := Option.map_eq_some_iff.mp h
  have hp := List.find?_some he
  simp only [Bool.and_eq_true, beq_iff_eq] at hp
  exact ⟨e, List.mem_reverse.mp (List.mem_of_find?_eq_some he), rfl, hp⟩

/-- Without last writer nobody has written. -/
theorem lastWriter_eq_none (h : lastWriter evs a = none) (he : e ∈ evs)
    (hdata : e.2.data = a) : accessSetsWriter e.2 = false := by
  rw [lastWriter, Option.map_eq_none_iff, List.find?_eq_none] at h
  have := h e (List.mem_reverse.mpr he)
  simpa [hdata] using this

/-- The writer of a datum is a task that wrote it, or its initial one. -/
theorem writerOf_cases (evs : List Event) (a : Addr) :
    (∃ e ∈ evs, writerOf evs a = .task e.1 ∧ e.2.data = a
        ∧ accessSetsWriter e.2 = true)
      ∨ writerOf evs a = .init a := by
  cases h : lastWriter evs a with
  | none => exact .inr (by rw [writerOf, h])
  | some i =>
    obtain ⟨e, he, rfl, hdata⟩ := lastWriter_eq_some h
    exact .inl ⟨e, he, by rw [writerOf, h], hdata⟩

/-- Nobody has written a datum without access. -/
theorem writerOf_of_untouched (h : ∀ e ∈ evs, e.2.data ≠ a) :
    writerOf evs a = .init a := by
  rcases writerOf_cases evs a with ⟨e, he, -, hdata, -⟩ | h'
  · exact absurd hdata (h e he)
  · exact h'

/-- The writer after one more access. -/
theorem writerOf_snoc (evs : List Event) (e : Event) (a : Addr) :
    writerOf (evs ++ [e]) a
      = if e.2.data = a ∧ accessSetsWriter e.2 = true then .task e.1
        else writerOf evs a := by
  rw [writerOf, lastWriter_snoc]
  by_cases h : e.2.data = a ∧ accessSetsWriter e.2 = true
  · rw [if_pos h, if_pos h]
  · rw [if_neg h, if_neg h]
    rfl

-- ======== the graph

namespace FrameTasklist

variable (tl : FrameTasklist)

/-- The activation graph of a task list. -/
def graph : Graph TdId where
  nodes := tl.tds
  succ := fun u => (tl.td u).acl
  wait := fun u => (tl.td u).wc

/-- A new descriptor is a new node. -/
theorem graph_allocateTd (id : TdId) (body : TdBody) :
    (tl.allocateTd id body).graph = tl.graph.addNode id := by
  simp only [graph, Graph.addNode, allocateTd, setTd]
  congr 1
  · funext u
    by_cases hu : u = id
    · subst hu
      simp [allocatorInitTd]
    · simp [hu]
  · funext u
    by_cases hu : u = id
    · subst hu
      simp [allocatorInitTd]
    · simp [hu]

/-- A successor is an edge. -/
theorem graph_pushSuccessor (id succ : TdId) :
    (tl.pushSuccessor id succ).graph = tl.graph.addEdge id succ := by
  simp only [graph, Graph.addEdge, pushSuccessor, setTd]
  congr 1
  · funext u
    by_cases hs : u = succ
    · subst hs
      by_cases hi : u = id
      · subst hi
        simp
      · simp [hi]
    · by_cases hi : u = id
      · subst hi
        simp [hs]
      · simp [hs, hi]
  · funext u
    by_cases hs : u = succ
    · subst hs
      by_cases hi : u = id
      · subst hi
        simp
      · simp [hi]
    · by_cases hi : u = id
      · subst hi
        simp [hs]
      · simp [hs, hi]

/-- A successor changes the activations only. -/
theorem pushSuccessor_td (id succ u : TdId) :
    ((tl.pushSuccessor id succ).td u).body = (tl.td u).body
      ∧ ((tl.pushSuccessor id succ).td u).counter = (tl.td u).counter := by
  simp only [pushSuccessor, setTd]
  by_cases hs : u = succ
  · subst hs
    by_cases hi : u = id
    · subst hi
      simp
    · simp [hi]
  · by_cases hi : u = id
    · subst hi
      simp [hs]
    · simp [hs, hi]

end FrameTasklist

-- ======== invariant

/-- What the builder has made of the tasks `ks` and the accesses `evs`,
`opened` being the data whose initial task it has inserted. -/
structure Built (ks : List Nat) (opened : Set Addr) (evs : List Event)
    (tl : FrameTasklist) : Prop where
  balanced : Balanced tl.graph
  task_mem : ∀ k, .task k ∈ tl.tds ↔ k ∈ ks
  init_mem : ∀ a, .init a ∈ tl.tds ↔ a ∈ opened
  total : tl.totalTasks = tl.tds.length
  ev_opened : ∀ e ∈ evs, e.1 ∈ ks ∧ e.2.data ∈ opened
  edges : ∀ u v, v ∈ (tl.td u).acl ↔ ∃ pre e, pre ++ [e] <+: evs
    ∧ u = writerOf pre e.2.data ∧ v = .task e.1 ∧ u ≠ v
  closed_version : ∀ a, a ∉ opened → (tl.version a).lastMode = modeVoid
  version : ∀ a, a ∈ opened → (tl.version a).lastMode ≠ modeVoid
    ∧ (tl.version a).writerTask = some (writerOf evs a)
  ready_nodup : tl.readylist.Nodup
  ready_mem : ∀ v, v ∈ tl.readylist ↔ ∃ a ∈ opened, v = .init a
  unallocated : ∀ id, id ∉ tl.tds → tl.td id = allocatorInitTd .user
  body : ∀ k, (tl.td (.task k)).body = .user
  counter : ∀ id, (tl.td id).counter = 0
  idle : tl.rtl = [] ∧ tl.executed = [] ∧ tl.cntExec = 0

/-- The empty list. -/
theorem built_init : Built [] ∅ [] frameTasklistInit where
  balanced := ⟨List.nodup_nil, fun _ => rfl, nofun⟩
  task_mem k := by simp [frameTasklistInit]
  init_mem a := by simp [frameTasklistInit]
  total := rfl
  ev_opened := by simp
  edges u v := by simp [frameTasklistInit, allocatorInitTd]
  closed_version a _ := rfl
  version a ha := absurd ha (by simp)
  ready_nodup := List.nodup_nil
  ready_mem v := by simp [frameTasklistInit]
  unallocated _ _ := rfl
  body _ := rfl
  counter _ := rfl
  idle := ⟨rfl, rfl, rfl⟩

section Steps

variable {ks : List Nat} {opened : Set Addr} {evs : List Event}
  {tl : FrameTasklist}

/-- The other descriptors keep their activations. -/
theorem Built.allocateTd_acl (h : Built ks opened evs tl) {id : TdId}
    (hid : id ∉ tl.tds) (body : TdBody) (u : TdId) :
    ((tl.allocateTd id body).td u).acl = (tl.td u).acl
      ∧ ((tl.allocateTd id body).td u).counter = (tl.td u).counter := by
  simp only [FrameTasklist.allocateTd, FrameTasklist.setTd]
  by_cases hu : u = id
  · subst hu
    rw [update_self, h.unallocated u hid]
    exact ⟨rfl, rfl⟩
  · rw [update_of_ne hu]
    exact ⟨rfl, rfl⟩

/-- A descriptor for a task. -/
theorem Built.allocateTask (h : Built ks opened evs tl) {k : Nat}
    (hk : k ∉ ks) :
    Built (ks ++ [k]) opened evs (tl.allocateTd (.task k) .user) := by
  have hid : TdId.task k ∉ tl.tds := fun hmem => hk ((h.task_mem k).mp hmem)
  have htd : (tl.allocateTd (.task k) .user).td = tl.td := by
    funext u
    simp only [FrameTasklist.allocateTd, FrameTasklist.setTd]
    rw [← h.unallocated _ hid, update_eq_self]
  refine ⟨?_, fun i => ?_, fun a => ?_, ?_, fun e he => ?_, ?_,
    h.closed_version, h.version, h.ready_nodup, h.ready_mem,
    fun id hnot => ?_, fun i => ?_, fun id => ?_, h.idle⟩
  · rw [FrameTasklist.graph_allocateTd]
    exact h.balanced.addNode hid
  · simp [FrameTasklist.allocateTd, FrameTasklist.setTd, h.task_mem]
  · simp [FrameTasklist.allocateTd, FrameTasklist.setTd, h.init_mem]
  · simp [FrameTasklist.allocateTd, FrameTasklist.setTd, h.total]
  · obtain ⟨h₁, h₂⟩ := h.ev_opened e he
    exact ⟨List.mem_append_left _ h₁, h₂⟩
  · rw [htd]
    exact h.edges
  · rw [htd]
    refine h.unallocated id fun hin => hnot ?_
    exact List.mem_append_left _ hin
  · rw [htd]
    exact h.body i
  · rw [htd]
    exact h.counter id

/-- The initial task of a datum, whichever of the two it is. -/
theorem Built.insertInit (h : Built ks opened evs tl) {a : Addr}
    (ha : a ∉ opened) (body : TdBody) :
    Built ks (insert a opened) evs
      ((((tl.allocateTd (.init a) body).setWriterTask a
        (.init a)).pushbackReady (.init a)).setLastMode a modeW) := by
  have hid : TdId.init a ∉ tl.tds := fun hmem => ha ((h.init_mem a).mp hmem)
  have huntouched : ∀ e ∈ evs, e.2.data ≠ a := by
    rintro e he rfl
    exact ha (h.ev_opened e he).2
  have hgraph : ((((tl.allocateTd (.init a) body).setWriterTask a
      (.init a)).pushbackReady (.init a)).setLastMode a modeW).graph
      = tl.graph.addNode (.init a) :=
    tl.graph_allocateTd (.init a) body
  refine ⟨?_, fun i => ?_, fun b => ?_, ?_, fun e he => ?_, fun u v => ?_,
    fun b hb => ?_, fun b hb => ?_, ?_, fun v => ?_, fun id hnot => ?_,
    fun i => ?_, fun id => ?_, h.idle⟩
  · rw [hgraph]
    exact h.balanced.addNode hid
  · have := h.task_mem i
    simpa [FrameTasklist.setLastMode, FrameTasklist.pushbackReady,
      FrameTasklist.setWriterTask, FrameTasklist.setVersion,
      FrameTasklist.allocateTd, FrameTasklist.setTd] using this
  · have := h.init_mem b
    simp [FrameTasklist.setLastMode, FrameTasklist.pushbackReady,
      FrameTasklist.setWriterTask, FrameTasklist.setVersion,
      FrameTasklist.allocateTd, FrameTasklist.setTd, this, or_comm]
  · simp [FrameTasklist.setLastMode, FrameTasklist.pushbackReady,
      FrameTasklist.setWriterTask, FrameTasklist.setVersion,
      FrameTasklist.allocateTd, FrameTasklist.setTd, h.total]
  · obtain ⟨h₁, h₂⟩ := h.ev_opened e he
    exact ⟨h₁, Set.mem_insert_of_mem a h₂⟩
  · rw [← h.edges]
    have := (h.allocateTd_acl hid body u).1
    exact iff_of_eq (congrArg (v ∈ ·) this)
  · rw [Set.mem_insert_iff, not_or] at hb
    simp only [FrameTasklist.setLastMode, FrameTasklist.pushbackReady,
      FrameTasklist.setWriterTask, FrameTasklist.setVersion,
      FrameTasklist.allocateTd, FrameTasklist.setTd]
    rw [update_of_ne hb.1, update_of_ne hb.1]
    exact h.closed_version b hb.2
  · simp only [FrameTasklist.setLastMode, FrameTasklist.pushbackReady,
      FrameTasklist.setWriterTask, FrameTasklist.setVersion,
      FrameTasklist.allocateTd, FrameTasklist.setTd]
    by_cases hba : b = a
    · subst hba
      rw [update_self, update_self, writerOf_of_untouched huntouched]
      exact ⟨(by decide : modeW ≠ modeVoid), rfl⟩
    · rw [update_of_ne hba, update_of_ne hba]
      exact h.version b (hb.resolve_left hba)
  · refine List.nodup_cons.mpr ⟨fun hmem => ?_, h.ready_nodup⟩
    obtain ⟨b, hb, heq⟩ := (h.ready_mem _).mp hmem
    injection heq with heq
    exact ha (heq ▸ hb)
  · have := h.ready_mem v
    simp [FrameTasklist.setLastMode, FrameTasklist.pushbackReady,
      FrameTasklist.setWriterTask, FrameTasklist.setVersion,
      FrameTasklist.allocateTd, FrameTasklist.setTd, this]
  · have hne : id ≠ .init a := by
      intro heq
      subst heq
      exact hnot (List.mem_append_right _ List.mem_cons_self)
    have hout : id ∉ tl.tds := fun hin => hnot (List.mem_append_left _ hin)
    simp only [FrameTasklist.setLastMode, FrameTasklist.pushbackReady,
      FrameTasklist.setWriterTask, FrameTasklist.setVersion,
      FrameTasklist.allocateTd, FrameTasklist.setTd]
    rw [update_of_ne hne]
    exact h.unallocated id hout
  · simp only [FrameTasklist.setLastMode, FrameTasklist.pushbackReady,
      FrameTasklist.setWriterTask, FrameTasklist.setVersion,
      FrameTasklist.allocateTd, FrameTasklist.setTd]
    rw [update_of_ne (by simp)]
    exact h.body i
  · have := (h.allocateTd_acl hid body id).2
    exact this.trans (h.counter id)

end Steps

-- ======== one access

namespace FrameTasklist

variable (tl : FrameTasklist)

/-- The dependency of an access on the writer it finds. -/
def link (w task : TdId) : FrameTasklist :=
  if w ≠ task then tl.pushSuccessor w task else tl

-- linking touches activation lists and wait counters only

@[simp] theorem link_tds (w task : TdId) :
    (tl.link w task).tds = tl.tds := by
  rw [link]
  split <;> rfl

@[simp] theorem link_totalTasks (w task : TdId) :
    (tl.link w task).totalTasks = tl.totalTasks := by
  rw [link]
  split <;> rfl

@[simp] theorem link_version (w task : TdId) :
    (tl.link w task).version = tl.version := by
  rw [link]
  split <;> rfl

@[simp] theorem link_readylist (w task : TdId) :
    (tl.link w task).readylist = tl.readylist := by
  rw [link]
  split <;> rfl

@[simp] theorem link_rtl (w task : TdId) :
    (tl.link w task).rtl = tl.rtl := by
  rw [link]
  split <;> rfl

@[simp] theorem link_executed (w task : TdId) :
    (tl.link w task).executed = tl.executed := by
  rw [link]
  split <;> rfl

@[simp] theorem link_cntExec (w task : TdId) :
    (tl.link w task).cntExec = tl.cntExec := by
  rw [link]
  split <;> rfl

/-- A link changes the activations only. -/
theorem link_td (w task u : TdId) :
    ((tl.link w task).td u).body = (tl.td u).body
      ∧ ((tl.link w task).td u).counter = (tl.td u).counter := by
  rw [link]
  split
  · exact tl.pushSuccessor_td w task u
  · exact ⟨rfl, rfl⟩

/-- A link adds one activation. -/
theorem mem_link_acl (w task u v : TdId) :
    v ∈ ((tl.link w task).td u).acl
      ↔ v ∈ (tl.td u).acl ∨ u = w ∧ v = task ∧ u ≠ v := by
  rw [link]
  split
  next hne =>
    have hsucc : ((tl.pushSuccessor w task).td u).acl
        = update (fun u => (tl.td u).acl) w
            ((tl.td w).acl ++ [task]) u :=
      congrArg (fun G => G.succ u) (tl.graph_pushSuccessor w task)
    rw [hsucc]
    by_cases hu : u = w
    · subst hu
      rw [update_self, List.mem_append, List.mem_singleton]
      constructor
      · rintro (h | rfl)
        · exact .inl h
        · exact .inr ⟨rfl, rfl, hne⟩
      · rintro (h | ⟨-, rfl, -⟩)
        · exact .inl h
        · exact .inr rfl
    · rw [update_of_ne hu]
      simp [hu]
  next heq =>
    rw [not_not] at heq
    subst heq
    constructor
    · exact .inl
    · rintro (h | ⟨rfl, rfl, hne⟩)
      · exact h
      · exact absurd rfl hne

/-- What `kaapi_thread_computeready_access` comes to where it has code: a
dependency, and a new writer if the access is a write. -/
theorem threadComputereadyAccess_eq {a : Addr} {w : TdId} {k : Nat}
    {p : Param} (hw : (tl.version a).writerTask = some w)
    (hbody : (tl.td (.task k)).body = .user)
    (hcode : accessHasCode p = true) :
    tl.threadComputereadyAccess a w (.task k) p.m
      = (if accessSetsWriter p then (tl.link w (.task k)).setVersion a
          { lastMode := p.m, writerTask := some (.task k) }
        else tl.link w (.task k), true) := by
  have hwrite : ((if w ≠ .task k then
        (tl.pushSuccessor w (.task k)).setWriterTask a (.task k)
      else tl).setLastMode a p.m)
      = (tl.link w (.task k)).setVersion a
          { lastMode := p.m, writerTask := some (.task k) } := by
    rw [link]
    split
    · simp [setLastMode, setWriterTask, setVersion]
    next heq =>
      rw [not_not] at heq
      simp only [setLastMode, hw, heq]
  cases hrw : accessIsReadwrite p.m with
  | true =>
    simp only [threadComputereadyAccess, accessSetsWriter, hrw, if_true,
      Bool.true_or]
    rw [← hwrite]
  | false =>
    cases hr : accessIsRead p.m with
    | true =>
      simp only [threadComputereadyAccess, accessSetsWriter, hrw, hr,
        link, if_true, Bool.false_eq_true, if_false, Bool.not_true,
        Bool.false_and, Bool.or_false]
    | false =>
      have hwr : accessIsWrite p.m = true := by
        simpa [accessHasCode, hr] using hcode
      simp only [threadComputereadyAccess, accessSetsWriter, hrw, hr,
        hwr, if_true, Bool.false_eq_true, if_false, Bool.not_false,
        Bool.true_and, Bool.false_or]
      split
      next halloc =>
        -- the writer is an initial task, not the one accessing
        have hne : w ≠ .task k := by
          intro heq
          subst heq
          rw [hbody] at halloc
          cases halloc
        rw [← hwrite, if_pos hne]
      next => rw [← hwrite]

end FrameTasklist

section Access

variable {ks : List Nat} {opened : Set Addr} {evs : List Event}
  {tl : FrameTasklist} {k : Nat} {p : Param}

/-- The writer of an opened datum has a descriptor. -/
theorem Built.writer_mem (h : Built ks opened evs tl) {a : Addr}
    (ha : a ∈ opened) : writerOf evs a ∈ tl.tds := by
  rcases writerOf_cases evs a with ⟨e, he, hw, -⟩ | hw
  · rw [hw, h.task_mem]
    exact (h.ev_opened e he).1
  · rw [hw, h.init_mem]
    exact ha

/-- One access on an opened datum, with the versions it leaves. -/
theorem Built.access (h : Built ks opened evs tl) (hk : k ∈ ks)
    (ha : p.data ∈ opened) (ver : Addr → Version)
    (hother : ∀ b, b ≠ p.data → ver b = tl.version b)
    (hmode : (ver p.data).lastMode ≠ modeVoid)
    (hwriter : (ver p.data).writerTask
      = some (writerOf (evs ++ [(k, p)]) p.data)) :
    Built ks opened (evs ++ [(k, p)])
      { tl.link (writerOf evs p.data) (.task k) with version := ver } := by
  have hwmem := h.writer_mem ha
  have hkmem := (h.task_mem k).mpr hk
  refine ⟨?_, fun i => ?_, fun a => ?_, ?_, fun e he => ?_, fun u v => ?_,
    fun b hb => ?_, fun b hb => ?_, ?_, fun v => ?_, fun id hnot => ?_,
    fun i => ?_, fun id => ?_, ?_⟩
  · have hgraph : Balanced
        (tl.link (writerOf evs p.data) (.task k)).graph := by
      rw [FrameTasklist.link]
      split
      · rw [FrameTasklist.graph_pushSuccessor]
        exact h.balanced.addEdge hwmem hkmem
      · exact h.balanced
    exact hgraph
  · simpa using h.task_mem i
  · simpa using h.init_mem a
  · simpa using h.total
  · rcases List.mem_append.mp he with he | he
    · exact h.ev_opened e he
    · rw [List.mem_singleton] at he
      subst he
      exact ⟨hk, ha⟩
  · simp only [FrameTasklist.mem_link_acl, h.edges, List.prefix_concat_iff]
    constructor
    · rintro (⟨pre, e, hpre, hrest⟩ | ⟨hu, hv, hne⟩)
      · exact ⟨pre, e, .inr hpre, hrest⟩
      · exact ⟨evs, (k, p), .inl rfl, hu, hv, hne⟩
    · rintro ⟨pre, e, hpre | hpre, hu, hv, hne⟩
      · obtain ⟨rfl, he⟩ := List.append_inj' hpre rfl
        cases he
        exact .inr ⟨hu, hv, hne⟩
      · exact .inl ⟨pre, e, hpre, hu, hv, hne⟩
  · have hne : b ≠ p.data := fun heq => hb (heq ▸ ha)
    simp only [hother b hne]
    exact h.closed_version b hb
  · by_cases hbp : b = p.data
    · subst hbp
      exact ⟨hmode, hwriter⟩
    · simp only [hother b hbp]
      rw [writerOf_snoc, if_neg]
      · exact h.version b hb
      · intro ⟨h₁, _⟩
        exact hbp h₁.symm
  · simpa using h.ready_nodup
  · simpa using h.ready_mem v
  · simp only [FrameTasklist.link_tds] at hnot
    have hne₁ : id ≠ writerOf evs p.data := fun heq => hnot (heq ▸ hwmem)
    have hne₂ : id ≠ .task k := fun heq => hnot (heq ▸ hkmem)
    rw [FrameTasklist.link]
    split
    · simp only [FrameTasklist.pushSuccessor, FrameTasklist.setTd]
      rw [update_of_ne hne₂, update_of_ne hne₁]
      exact h.unallocated id hnot
    · exact h.unallocated id hnot
  · simp only [(tl.link_td _ _ _).1]
    exact h.body i
  · simp only [(tl.link_td _ _ _).2]
    exact h.counter id
  · simpa using h.idle

/-- An access without the R and the W bit is not one of those with code,
and one with them is neither V nor void. -/
theorem accessHasCode_ne (hcode : accessHasCode p = true) :
    p.m ≠ modeV ∧ p.m ≠ modeVoid := by
  constructor
  · intro h
    rw [accessHasCode, h] at hcode
    exact absurd hcode (by decide)
  · intro h
    rw [accessHasCode, h] at hcode
    exact absurd hcode (by decide)

/-- An access to a datum that was opened. -/
theorem Built.computereadyAccess (h : Built ks opened evs tl) (hk : k ∈ ks)
    (ha : p.data ∈ opened) (hcode : accessHasCode p = true) :
    ∃ tl', tl.threadComputereadyAccess p.data (writerOf evs p.data)
        (.task k) p.m = (tl', true)
      ∧ Built ks opened (evs ++ [(k, p)]) tl' := by
  obtain ⟨hmode, hwriter⟩ := h.version p.data ha
  refine ⟨_, tl.threadComputereadyAccess_eq hwriter (h.body k) hcode, ?_⟩
  split
  next hwr =>
    refine h.access hk ha _ (fun b hb => ?_) ?_ ?_
    · rw [update_of_ne hb, FrameTasklist.link_version]
    · rw [update_self]
      exact (accessHasCode_ne hcode).2
    · rw [update_self, writerOf_snoc, if_pos ⟨rfl, hwr⟩]
  next hrd =>
    refine h.access hk ha
      (tl.link (writerOf evs p.data) (.task k)).version (fun b _ => ?_) ?_ ?_
    · rw [FrameTasklist.link_version]
    · rwa [FrameTasklist.link_version]
    · rw [FrameTasklist.link_version, writerOf_snoc, if_neg]
      · exact hwriter
      · intro ⟨_, hwr⟩
        exact hrd hwr

/-- The first access to a datum opens it. -/
theorem Built.initialaccess (h : Built ks opened evs tl) {a : Addr}
    (ha : a ∉ opened) (hcode : accessHasCode p = true) :
    ∃ tl', tl.versionAddInitialaccess p.m a = some tl'
      ∧ Built ks (insert a opened) evs tl' := by
  by_cases hr : accessIsRead p.m = true
  · refine ⟨_, ?_, h.insertInit ha .taskmove⟩
    rw [FrameTasklist.versionAddInitialaccess, if_pos hr]
  · have hw : accessIsWrite p.m = true := by
      simpa [accessHasCode, hr] using hcode
    refine ⟨_, ?_, h.insertInit ha .taskalloc⟩
    rw [FrameTasklist.versionAddInitialaccess, if_neg hr, if_pos hw]

/-- A parameter, with its first access or not. -/
theorem Built.computedepParam (h : Built ks opened evs tl) (hk : k ∈ ks)
    (hcode : accessHasCode p = true) :
    ∃ tl' opened', tl.computedepParam k p = some tl'
      ∧ Built ks opened' (evs ++ [(k, p)]) tl' := by
  have hv := (accessHasCode_ne hcode).1
  -- after the initial access, if there is one, the datum is opened
  have hopen : ∃ tl₁ opened', (if (tl.version p.data).lastMode = modeVoid
        then tl.versionAddInitialaccess p.m p.data else some tl) = some tl₁
      ∧ Built ks opened' evs tl₁ ∧ p.data ∈ opened' := by
    by_cases ha : p.data ∈ opened
    · refine ⟨tl, opened, ?_, h, ha⟩
      rw [if_neg (h.version p.data ha).1]
    · obtain ⟨tl₁, htl₁, h₁⟩ := h.initialaccess ha hcode
      refine ⟨tl₁, insert p.data opened, ?_, h₁, Set.mem_insert _ _⟩
      rw [if_pos (h.closed_version p.data ha), htl₁]
  obtain ⟨tl₁, opened', htl₁, h₁, ha⟩ := hopen
  obtain ⟨tl₂, htl₂, h₂⟩ := h₁.computereadyAccess hk ha hcode
  refine ⟨tl₂, opened', ?_, h₂⟩
  rw [FrameTasklist.computedepParam, if_neg hv, htl₁, Option.bind_some,
    (h₁.version p.data ha).2, Option.bind_some, htl₂]
  rfl

theorem accessIsRead_of_readwrite {m : AccessMode}
    (h : accessIsReadwrite m = true) : accessIsRead m = true := by
  have hm : m &&& maskMode = modeW ||| modeR := by
    simpa [accessIsReadwrite] using h
  have hbit : m &&& modeR = (m &&& maskMode) &&& modeR := by
    rw [BitVec.and_assoc]
    congr 1
  rw [accessIsRead, hbit, hm]
  decide

/-- A parameter without code stops the builder. -/
theorem Built.computedepParam_eq_none (h : Built ks opened evs tl)
    (hs : p.shared = true) (hcode : accessHasCode p = false) :
    tl.computedepParam k p = none := by
  have hv : p.m ≠ modeV := by simpa [Param.shared] using hs
  obtain ⟨hr, hw⟩ : accessIsRead p.m = false ∧ accessIsWrite p.m = false := by
    simpa [accessHasCode] using hcode
  have hrw : accessIsReadwrite p.m = false := by
    by_contra hrw
    rw [Bool.not_eq_false] at hrw
    rw [accessIsRead_of_readwrite hrw] at hr
    cases hr
  rw [FrameTasklist.computedepParam, if_neg hv]
  by_cases ha : p.data ∈ opened
  · rw [if_neg (h.version p.data ha).1, Option.bind_some,
      (h.version p.data ha).2, Option.bind_some]
    simp [FrameTasklist.threadComputereadyAccess, hr, hw, hrw]
  · rw [if_pos (h.closed_version p.data ha),
      FrameTasklist.versionAddInitialaccess]
    simp [hr, hw]

end Access

-- ======== whole frames

/-- The indices of the tasks that have a format. -/
def formatted (k : Nat) : List Task → List Nat
  | [] => []
  | none :: ts => formatted (k + 1) ts
  | some _ :: ts => k :: formatted (k + 1) ts

/-- Accesses come in task order. -/
def Sorted (evs : List Event) : Prop := evs.Pairwise fun e e' => e.1 ≤ e'.1

/-- The tasks and accesses so far are those of tasks before `k`. -/
structure Before (k : Nat) (ks : List Nat) (evs : List Event) : Prop where
  tasks_lt : ∀ i ∈ ks, i < k
  events_lt : ∀ e ∈ evs, e.1 < k
  sorted : Sorted evs

/-- The accesses of a list are numbered from its first task. -/
theorem le_of_mem_events (he : e ∈ events k ts) : k ≤ e.1 := by
  induction ts generalizing k with
  | nil => cases he
  | cons t ts ih =>
    rw [events, List.mem_append] at he
    rcases he with he | he
    · obtain ⟨p, -, rfl⟩ := List.mem_map.mp he
      exact Nat.le_refl k
    · exact Nat.le_of_succ_le (ih he)

/-- They are in the order of the tasks. -/
theorem events_sorted (k : Nat) (ts : List Task) :
    Sorted (events k ts) := by
  induction ts generalizing k with
  | nil => exact List.Pairwise.nil
  | cons t ts ih =>
    rw [events, Sorted, List.pairwise_append]
    refine ⟨?_, ih (k + 1), fun e he e' he' => ?_⟩
    · rw [List.pairwise_map]
      exact List.pairwise_of_forall fun _ _ => Nat.le_refl k
    · obtain ⟨p, -, rfl⟩ := List.mem_map.mp he
      exact Nat.le_of_succ_le (le_of_mem_events he')

/-- The descriptors of a list, task by task. -/
theorem formatted_cons (k : Nat) (t : Task) (ts : List Task) :
    formatted k (t :: ts) = formatted k [t] ++ formatted (k + 1) ts := by
  cases t <;> simp [formatted]

/-- The accesses of a list, task by task. -/
theorem events_cons (k : Nat) (t : Task) (ts : List Task) :
    events k (t :: ts) = events k [t] ++ events (k + 1) ts := by
  simp [events]

theorem mem_formatted_singleton (h : i ∈ formatted k [t]) : i = k := by
  cases t <;> simp [formatted] at h
  exact h

/-- The accesses of one task. -/
theorem mem_events_singleton (h : e ∈ events k [t]) :
    e.1 = k ∧ e.2 ∈ t.getD [] ∧ e.2.shared = true := by
  simp only [events, List.append_nil, List.mem_map, Task.shared,
    List.mem_filter] at h
  obtain ⟨p, ⟨hp, hs⟩, rfl⟩ := h
  exact ⟨rfl, hp, hs⟩

/-- Each access of a task is among them. -/
theorem mem_events_intro {p : Param} (hp : p ∈ t.getD []) (hs : p.shared = true) :
    (k, p) ∈ events k [t] := by
  simp only [events, List.append_nil, List.mem_map, Task.shared,
    List.mem_filter]
  exact ⟨p, ⟨hp, hs⟩, rfl⟩

/-- The numbers used so far, after one more task. -/
theorem Before.step {ks : List Nat} (h : Before k ks evs) (t : Task) :
    Before (k + 1) (ks ++ formatted k [t]) (evs ++ events k [t]) where
  tasks_lt i hi := by
    rcases List.mem_append.mp hi with hi | hi
    · exact Nat.lt_succ_of_lt (h.tasks_lt i hi)
    · exact Nat.lt_succ_of_le (mem_formatted_singleton hi).le
  events_lt e he := by
    rcases List.mem_append.mp he with he | he
    · exact Nat.lt_succ_of_lt (h.events_lt e he)
    · exact Nat.lt_succ_of_le (mem_events_singleton he).1.le
  sorted := by
    rw [Sorted, List.pairwise_append]
    refine ⟨h.sorted, events_sorted k [t], fun e he e' he' => ?_⟩
    exact (h.events_lt e he).le.trans (le_of_mem_events he')

/-- The next task has no descriptor yet. -/
theorem Before.notMem {ks : List Nat} (h : Before k ks evs) : k ∉ ks :=
  fun hk => absurd (h.tasks_lt k hk) (Nat.lt_irrefl k)

section Frame

variable {ks : List Nat} {opened : Set Addr} {evs : List Event}
  {tl : FrameTasklist} {k : Nat} {params : List Param}

section

variable (h : Built ks opened evs tl)
include h

/-- The parameters of a task are added one by one. -/
theorem Built.foldParams (hk : k ∈ ks)
    (hcode : ∀ p ∈ params, p.shared = true → accessHasCode p = true) :
    ∃ tl' opened', params.foldlM (FrameTasklist.computedepParam k) tl
        = some tl'
      ∧ Built ks opened'
          (evs ++ (params.filter Param.shared).map fun p => (k, p)) tl' := by
  induction params generalizing tl opened evs with
  | nil => exact ⟨tl, opened, rfl, by simpa using h⟩
  | cons p ps ih =>
    have hps : ∀ q ∈ ps, q.shared = true → accessHasCode q = true :=
      fun q hq => hcode q (List.mem_cons_of_mem p hq)
    rw [List.foldlM_cons]
    by_cases hs : p.shared = true
    · obtain ⟨tl₁, opened₁, htl₁, h₁⟩ :=
        h.computedepParam hk (hcode p List.mem_cons_self hs)
      obtain ⟨tl', opened', htl', h'⟩ := ih h₁ hps
      refine ⟨tl', opened', ?_, ?_⟩
      · rw [htl₁]
        exact htl'
      · rw [List.filter_cons_of_pos hs, List.map_cons]
        rwa [List.append_assoc, List.singleton_append] at h'
    · have hv : p.m = modeV := by simpa [Param.shared] using hs
      obtain ⟨tl', opened', htl', h'⟩ := ih h hps
      refine ⟨tl', opened', ?_, ?_⟩
      · rw [FrameTasklist.computedepParam, if_pos hv]
        exact htl'
      · rwa [List.filter_cons_of_neg hs]

/-- One without code stops the builder. -/
theorem Built.foldParams_eq_none (hk : k ∈ ks)
    (hcode : ∃ p ∈ params, p.shared = true ∧ accessHasCode p = false) :
    params.foldlM (FrameTasklist.computedepParam k) tl = none := by
  induction params generalizing tl opened evs with
  | nil => simp at hcode
  | cons p ps ih =>
    obtain ⟨q, hq, hqs, hqc⟩ := hcode
    rw [List.foldlM_cons]
    by_cases hs : p.shared = true
    · cases hp : accessHasCode p with
      | false =>
        rw [h.computedepParam_eq_none hs hp]
        rfl
      | true =>
        obtain ⟨tl₁, opened₁, htl₁, h₁⟩ := h.computedepParam hk hp
        rw [htl₁]
        refine ih h₁ ⟨q, ?_, hqs, hqc⟩
        rcases List.mem_cons.mp hq with rfl | hq
        · rw [hp] at hqc
          cases hqc
        · exact hq
    · have hv : p.m = modeV := by simpa [Param.shared] using hs
      rw [FrameTasklist.computedepParam, if_pos hv]
      refine ih h ⟨q, ?_, hqs, hqc⟩
      rcases List.mem_cons.mp hq with rfl | hq
      · exact absurd hqs hs
      · exact hq

/-- The last task activates nothing. -/
theorem Built.acl_last (hsorted : Sorted evs) (hle : ∀ e ∈ evs, e.1 ≤ k) :
    (tl.td (.task k)).acl = [] := by
  rw [List.eq_nil_iff_forall_not_mem]
  intro v hv
  obtain ⟨pre, e, hpre, hu, hv, hne⟩ := (h.edges _ _).mp hv
  rcases writerOf_cases pre e.2.data with ⟨e', he', hw, -⟩ | hw
  · -- a later access of another task would have a higher index
    rw [hw] at hu
    injection hu with hu
    have hpw := hsorted.sublist hpre.sublist
    have h₁ : e'.1 ≤ e.1 :=
      (List.pairwise_append.mp hpw).2.2 e' he' e List.mem_cons_self
    have h₂ : e.1 ≤ k :=
      hle e (hpre.subset (List.mem_append_right _ List.mem_cons_self))
    apply hne
    rw [hv]
    congr 1
    omega
  · rw [hw] at hu
    cases hu

/-- kaapi_thread_computedep_task adds a task. -/
theorem Built.computedepTask {t : Task} (hb : Before k ks evs)
    (hcode : ∀ e ∈ events k [t], accessHasCode e.2 = true) :
    ∃ tl' opened', computedepTask k t tl = some tl'
      ∧ Built (ks ++ formatted k [t]) opened' (evs ++ events k [t]) tl' := by
  cases t with
  | none =>
    exact ⟨tl, opened, rfl, by
      simpa [formatted, events, Task.shared] using h⟩
  | some params =>
    have hk := hb.notMem
    obtain ⟨tl₁, opened₁, htl₁, h₁⟩ := (h.allocateTask hk).foldParams
      (List.mem_append_right _ List.mem_cons_self)
      fun p hp hs => hcode (k, p) (mem_events_intro hp hs)
    have hevents : events k [some params]
        = (params.filter Param.shared).map fun p => (k, p) := by
      simp [events, Task.shared]
    rw [Option.getD_some, ← hevents] at h₁
    rw [Option.getD_some] at htl₁
    have hacl : (tl₁.td (.task k)).acl = [] := by
      have hb' := hb.step (some params)
      exact h₁.acl_last hb'.sorted
        fun e he => Nat.le_of_lt_succ (hb'.events_lt e he)
    refine ⟨tl₁, opened₁, ?_, h₁⟩
    simp only [TaskList.computedepTask, htl₁, Option.bind_some]
    split
    · rw [FrameTasklist.pushactivated, hacl]
      rfl
    · rfl

end

end Frame

section Run

variable {ks : List Nat} {opened : Set Addr} {evs : List Event}
  {tl : FrameTasklist} {k : Nat} {ts : List Task}

/-- The builder adds the tasks in order. -/
theorem Built.computereadylistFrom (h : Built ks opened evs tl)
    (hb : Before k ks evs)
    (hcode : ∀ e ∈ events k ts, accessHasCode e.2 = true) :
    ∃ tl' opened', computereadylistFrom k ts tl = some tl'
      ∧ Built (ks ++ formatted k ts) opened' (evs ++ events k ts) tl' := by
  induction ts generalizing ks opened evs tl k with
  | nil => exact ⟨tl, opened, rfl, by simpa [formatted, events] using h⟩
  | cons t ts ih =>
    rw [events_cons] at hcode
    obtain ⟨tl₁, opened₁, htl₁, h₁⟩ := h.computedepTask hb
      fun e he => hcode e (List.mem_append_left _ he)
    obtain ⟨tl', opened', htl', h'⟩ := ih h₁ (hb.step t)
      fun e he => hcode e (List.mem_append_right _ he)
    refine ⟨tl', opened', ?_, ?_⟩
    · rw [TaskList.computereadylistFrom, htl₁]
      exact htl'
    · rw [formatted_cons, events_cons]
      rwa [List.append_assoc, List.append_assoc] at h'

/-- It stops at an access without code. -/
theorem Built.computereadylistFrom_eq_none (h : Built ks opened evs tl)
    (hb : Before k ks evs)
    (hcode : ∃ e ∈ events k ts, accessHasCode e.2 = false) :
    TaskList.computereadylistFrom k ts tl = none := by
  induction ts generalizing ks opened evs tl k with
  | nil => simp [events] at hcode
  | cons t ts ih =>
    rw [TaskList.computereadylistFrom]
    by_cases hfirst : ∃ e ∈ events k [t], accessHasCode e.2 = false
    · obtain ⟨e, he, hc⟩ := hfirst
      obtain ⟨-, hp, hs⟩ := mem_events_singleton he
      cases t with
      | none => simp at hp
      | some params =>
        have hnone := (h.allocateTask hb.notMem).foldParams_eq_none
          (List.mem_append_right _ List.mem_cons_self)
          ⟨e.2, hp, hs, hc⟩
        rw [Option.getD_some] at hnone
        simp [TaskList.computedepTask, hnone]
    · have hall : ∀ e ∈ events k [t], accessHasCode e.2 = true := by
        intro e he
        by_contra hc
        exact hfirst ⟨e, he, by simpa using hc⟩
      obtain ⟨tl₁, opened₁, htl₁, h₁⟩ := h.computedepTask hb hall
      rw [htl₁]
      refine ih h₁ (hb.step t) ?_
      obtain ⟨e, he, hc⟩ := hcode
      rw [events_cons, List.mem_append] at he
      rcases he with he | he
      · exact absurd ⟨e, he, hc⟩ hfirst
      · exact ⟨e, he, hc⟩

end Run

theorem before_init : Before 0 [] [] :=
  ⟨by simp, by simp, List.Pairwise.nil⟩

/-- The builder succeeds iff every access has a code. -/
theorem computereadylist_isSome {tasks : List Task} :
    (∃ tl, computereadylist tasks = some tl)
      ↔ ∀ e ∈ events 0 tasks, accessHasCode e.2 = true := by
  constructor
  · rintro ⟨tl, htl⟩ e he
    by_contra hc
    rw [Bool.not_eq_true] at hc
    rw [computereadylist, built_init.computereadylistFrom_eq_none
      before_init ⟨e, he, hc⟩] at htl
    cases htl
  · intro hcode
    obtain ⟨tl, -, htl, -⟩ :=
      built_init.computereadylistFrom before_init hcode
    exact ⟨tl, htl⟩

/-- What it builds. -/
theorem computereadylist_spec {tasks : List Task} {tl : FrameTasklist}
    (htl : computereadylist tasks = some tl) :
    ∃ opened, Built (formatted 0 tasks) opened (events 0 tasks) tl := by
  obtain ⟨tl', opened, htl', h⟩ := built_init.computereadylistFrom
    before_init (computereadylist_isSome.mp ⟨tl, htl⟩)
  have heq : tl' = tl := Option.some.inj (htl'.symm.trans htl)
  subst heq
  exact ⟨opened, by simpa using h⟩

/-- The accesses of a list are those of its tasks. -/
theorem mem_events_iff :
    e ∈ events k ts ↔ ∃ (j : Nat) (t : Task), ts[j]? = some t
      ∧ e.1 = k + j ∧ e.2 ∈ t.getD [] ∧ e.2.shared = true := by
  induction ts generalizing k with
  | nil => simp [events]
  | cons t ts ih =>
    rw [events_cons, List.mem_append, ih]
    constructor
    · rintro (he | ⟨j, u, hu, h₁, h₂⟩)
      · obtain ⟨h₁, h₂⟩ := mem_events_singleton he
        exact ⟨0, t, rfl, h₁, h₂⟩
      · exact ⟨j + 1, u, by simpa using hu, by omega, h₂⟩
    · intro ⟨j, u, hu, h₁, hp, hs⟩
      cases j with
      | zero =>
        simp only [List.getElem?_cons_zero, Option.some.injEq] at hu
        subst hu
        have he : e = (k, e.2) := Prod.ext h₁ rfl
        rw [he]
        exact .inl (mem_events_intro hp hs)
      | succ j =>
        exact .inr ⟨j, u, by simpa using hu, by omega, hp, hs⟩

/-- Its descriptors are those of its tasks with a format. -/
theorem mem_formatted_iff :
    i ∈ formatted k ts
      ↔ ∃ (j : Nat) (params : List Param), ts[j]? = some (some params)
          ∧ i = k + j := by
  induction ts generalizing k with
  | nil => simp [formatted]
  | cons t ts ih =>
    rw [formatted_cons, List.mem_append, ih]
    constructor
    · rintro (hi | ⟨j, params, hj, rfl⟩)
      · cases t with
        | none => simp [formatted] at hi
        | some params =>
          exact ⟨0, params, rfl, mem_formatted_singleton hi⟩
      · exact ⟨j + 1, params, by simpa using hj, by omega⟩
    · intro h
      obtain ⟨j, params, hj, rfl⟩ := h
      cases j with
      | zero =>
        simp only [List.getElem?_cons_zero, Option.some.injEq] at hj
        subst hj
        exact .inl (by simp [formatted])
      | succ j =>
        exact .inr ⟨j, params, by simpa using hj, by omega⟩

end XKaapi.TaskList
