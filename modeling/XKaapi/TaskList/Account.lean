/-
The counters of the master lists, over every interleaving.

Two facts hold in all runs: a descriptor is in one place at most, or was
executed (`Inv.tokens`), and the signals it received and is about to
receive are those of executed descriptors (`Inv.signals`). So nothing is
executed twice, and no remainder by 0 is taken.

The counters need more: what a loop executes must belong to the list it
counts for. The lists a thief makes are for the right master list, and
the descriptors that become ready in a loop belong to the list of the one
that activates them, so this fails in one place only, where a loop pops
from the ready lists of its processor (`OwnPop`).
-/
import XKaapi.TaskList.Migrate
import XKaapi.Lib.Tally

namespace XKaapi.TaskList

open Dfg Activation

variable {W : Frames} {s s' : Lists} {i m : Nat} {l : Loop} {v td : Td}

-- ======== frames

namespace Frames

variable (W)

/-- The graph and the ready list that the builder leaves are well formed. -/
theorem wellFormed (m : Nat) :
    WellFormed (W.frame m).graph (W.frame m).readylist.reverse := by
  obtain ⟨tasks, h⟩ := W.built m
  obtain ⟨opened, hb⟩ := computereadylist_spec h
  exact hb.wellFormed (events_sorted 0 tasks)

/-- The total number of tasks of a list is that of its descriptors. -/
theorem total_eq (m : Nat) : W.total m = (W.frame m).tds.length := by
  obtain ⟨tasks, h⟩ := W.built m
  obtain ⟨opened, hb⟩ := computereadylist_spec h
  exact hb.total

/-- No descriptor has received a signal when the list is built. -/
theorem counter_eq (v : Td) : (W.td v).counter = 0 := by
  obtain ⟨tasks, h⟩ := W.built v.1
  obtain ⟨opened, hb⟩ := computereadylist_spec h
  exact hb.counter v.2

/-- The ready list of a frame's list, as kaapi_readytasklist_push_init
leaves it. -/
theorem rtl_eq (m : Nat) :
    (W.frame m).tasklistreadyPushInit.rtl = (W.frame m).readylist.reverse := by
  obtain ⟨tasks, h⟩ := W.built m
  obtain ⟨opened, hb⟩ := computereadylist_spec h
  unfold FrameTasklist.tasklistreadyPushInit
  simp only
  rw [hb.idle.1, List.append_nil]

end Frames

/-- The signals that executed descriptors of all lists send to one of them
are those of its own list. -/
theorem count_sent (executed : List Td) (m : Nat) (id : TdId) :
    (executed.flatMap W.acl).count (m, id)
      = ((W.frame m).graph.sent
          ((executed.filter fun v => v.1 = m).map Prod.snd)).count id := by
  induction executed with
  | nil => rfl
  | cons u us ih =>
    have hinj : Function.Injective fun id : TdId => (m, id) :=
      fun a b hab => (Prod.mk.inj hab).2
    rw [List.flatMap_cons, List.count_append, ih]
    by_cases hu : u.1 = m
    · rw [List.filter_cons_of_pos (by simpa using hu), List.map_cons]
      unfold Graph.sent
      rw [List.flatMap_cons, List.count_append]
      congr 1
      unfold Frames.acl Frames.td
      rw [hu]
      exact List.count_map_of_injective _ _ hinj id
    · rw [List.filter_cons_of_neg (by simpa using hu)]
      have hzero : (W.acl u).count (m, id) = 0 := by
        rw [List.count_eq_zero]
        intro hmem
        obtain ⟨id', -, heq⟩ := List.mem_map.mp hmem
        exact hu (Prod.mk.inj heq).1
      rw [hzero, Nat.zero_add]

-- ======== tokens

/-- How often a loop holds a descriptor that it is to execute. -/
def Loop.holds (l : Loop) (v : Td) : Nat :=
  l.rtl.count v + match l.pc with
    | .start td | .body td => if td = v then 1 else 0
    | _ => 0

/-- How many signals to a descriptor a loop is about to send. -/
def Loop.pending (l : Loop) (v : Td) : Nat :=
  match l.pc with
  | .pushactivated rest => rest.count v
  | _ => 0

namespace Lists

/-- In how many places a descriptor waits for its execution. -/
def placed (W : Frames) (s : Lists) (v : Td) : Nat :=
  ∑ i ∈ Finset.range s.n, (s.loop i).holds v
    + (∑ p ∈ Finset.range W.nproc, (s.rtl p).count v
      + ∑ p ∈ Finset.range W.nproc, (s.rtlRemote p).count v)

def pending (s : Lists) (v : Td) : Nat :=
  ∑ i ∈ Finset.range s.n, (s.loop i).pending v

/-- A descriptor is ready from the start, or all its signals came. -/
def Ready (W : Frames) (s : Lists) (v : Td) : Prop :=
  (v.1 < W.nmaster ∧ v.2 ∈ (W.frame v.1).readylist)
    ∨ (0 < (W.td v).wc ∧ s.counter v = (W.td v).wc)

end Lists

/-- The first lists are the master lists, the others work for one. -/
def Lists.Shape (W : Frames) (s : Lists) : Prop :=
  W.nmaster ≤ s.n ∧ ∀ i < s.n, (s.loop i).proc < W.nproc
    ∧ s.owner i < W.nmaster ∧ ((s.loop i).master = none ↔ i < W.nmaster)

/-- A descriptor is in one place or was executed, once it is ready, and no
signal is lost or sent twice. -/
structure Flow (W : Frames) (s : Lists) : Prop where
  shape : s.Shape W
  tokens : ∀ v, (s.Ready W v → s.placed W v + s.executed.count v = 1)
    ∧ (¬ s.Ready W v → s.placed W v + s.executed.count v = 0)
  signals : ∀ v, s.counter v + s.pending v ≤ (s.executed.flatMap W.acl).count v

namespace Flow

/-- A descriptor is in one place or executed, not twice. -/
theorem count_le (h : Flow W s) (v : Td) :
    s.placed W v + s.executed.count v ≤ 1 := by
  by_cases hr : s.Ready W v
  · exact ((h.tokens v).1 hr).le
  · exact ((h.tokens v).2 hr).trans_le (Nat.zero_le 1)

/-- No descriptor is executed twice. -/
theorem executed_nodup (h : Flow W s) : s.executed.Nodup := by
  rw [List.nodup_iff_count_le_one]
  intro v
  have := h.count_le v
  omega

/-- A descriptor that is somewhere has received all its signals. -/
theorem ready_of_pos (h : Flow W s) (hpos : 0 < s.placed W v + s.executed.count v) :
    s.Ready W v := by
  by_contra hr
  have := (h.tokens v).2 hr
  omega

/-- A descriptor that is somewhere is one of its frame. -/
theorem mem_tds (h : Flow W s) (hpos : 0 < s.placed W v + s.executed.count v) :
    v.2 ∈ (W.frame v.1).tds := by
  rcases h.ready_of_pos hpos with ⟨-, hinit⟩ | ⟨hwc, -⟩
  · exact (W.wellFormed v.1).pool_nodes v.2 (List.mem_reverse.mpr hinit)
  · have hwait : (W.frame v.1).graph.wait v.2 = (W.td v).wc := rfl
    rw [← hwait, (W.wellFormed v.1).balanced.wait_eq] at hwc
    obtain ⟨u, hu, hvu⟩ := List.mem_flatMap.mp (List.count_pos_iff.mp hwc)
    exact (W.wellFormed v.1).balanced.closed u hu v.2 hvu

/-- An executed descriptor is one of its frame. -/
theorem executed_mem_tds (h : Flow W s) (hv : v ∈ s.executed) :
    v.2 ∈ (W.frame v.1).tds := by
  have := List.count_pos_iff.mpr hv
  exact h.mem_tds (by omega)

/-- No descriptor of a list is executed twice. -/
theorem executedOf_nodup (h : Flow W s) (m : Nat) :
    (s.executedOf m).Nodup := by
  refine List.Nodup.map_on ?_ (h.executed_nodup.filter _)
  intro u hu u' hu' heq
  have h₁ : u.1 = m := by simpa using (List.mem_filter.mp hu).2
  have h₂ : u'.1 = m := by simpa using (List.mem_filter.mp hu').2
  exact Prod.ext (h₁.trans h₂.symm) heq

/-- The executed descriptors of a list are those executed anywhere. -/
theorem mem_executedOf {id : TdId} :
    id ∈ s.executedOf m ↔ (m, id) ∈ s.executed := by
  unfold Lists.executedOf
  rw [List.mem_map]
  constructor
  · rintro ⟨⟨m', id'⟩, hmem, rfl⟩
    obtain ⟨hin, hm⟩ := List.mem_filter.mp hmem
    have hm : m' = m := by simpa using hm
    exact hm ▸ hin
  · intro hmem
    exact ⟨(m, id), List.mem_filter.mpr ⟨hmem, decide_eq_true rfl⟩, rfl⟩

/-- A descriptor receives no more signals than its counter waits for. -/
theorem sent_le (h : Flow W s) (v : Td) :
    (s.executed.flatMap W.acl).count v ≤ (W.td v).wc := by
  obtain ⟨m, id⟩ := v
  rw [count_sent]
  refine Activation.sent_le (W.wellFormed m) (h.executedOf_nodup m) ?_ id
  intro id' hid
  exact h.executed_mem_tds (mem_executedOf.mp hid)

end Flow

-- ======== the sums

namespace Lists

@[simp] theorem setLoop_self (s : Lists) (i : Nat) (l : Loop) :
    (s.setLoop i l).loop i = l :=
  Function.update_self ..

variable {j : Nat}

/-- A step of one loop leaves the others. -/
theorem setLoop_ne (s : Lists) (hj : j ≠ i) (l : Loop) :
    (s.setLoop i l).loop j = s.loop j :=
  Function.update_of_ne hj ..

/-- The loop that a thief begins with the descriptor it took. -/
@[simp] theorem addStolen_self (s : Lists) (m q : Nat) (td : Td) :
    (s.addStolen m q td).loop s.n = ⟨some m, q, [], 0, 0, .start td⟩ :=
  Function.update_self ..

/-- A theft leaves the loops that were there. -/
theorem addStolen_ne (s : Lists) (m q : Nat) (td : Td) (hj : j ≠ s.n) :
    (s.addStolen m q td).loop j = s.loop j :=
  Function.update_of_ne hj ..

/-- When a loop changes, the places of a descriptor change by what it holds.
-/
theorem placed_setLoop (hi : i < s.n) (l : Loop) (v : Td) :
    (s.setLoop i l).placed W v + (s.loop i).holds v
      = s.placed W v + l.holds v := by
  have := Tally.sum_update hi (fun l => l.holds v) s.loop l
  unfold placed
  show _ + (_ + _) + _ = _
  unfold setLoop
  simp only
  omega

/-- When a loop changes, the signals under way change by its own. -/
theorem pending_setLoop (hi : i < s.n) (l : Loop) (v : Td) :
    (s.setLoop i l).pending v + (s.loop i).pending v
      = s.pending v + l.pending v :=
  Tally.sum_update hi (fun l => l.pending v) s.loop l

/-- When a local list of a processor changes, the places change by it. -/
theorem placed_rtl {p : Nat} (hp : p < W.nproc) (x : List Td) (v : Td) :
    { s with rtl := Function.update s.rtl p x }.placed W v + (s.rtl p).count v
      = s.placed W v + x.count v := by
  have := Tally.sum_update hp (fun l => List.count v l) s.rtl x
  unfold placed
  simp only
  omega

/-- When a remote list of a processor changes, the places change by it. -/
theorem placed_rtlRemote {p : Nat} (hp : p < W.nproc) (x : List Td) (v : Td) :
    { s with rtlRemote := Function.update s.rtlRemote p x }.placed W v
        + (s.rtlRemote p).count v
      = s.placed W v + x.count v := by
  have := Tally.sum_update hp (fun l => List.count v l) s.rtlRemote x
  unfold placed
  simp only
  omega

/-- A theft puts the descriptor in the loop of the thief. -/
theorem placed_addStolen (m q : Nat) (td v : Td) :
    (s.addStolen m q td).placed W v
      = s.placed W v + if td = v then 1 else 0 := by
  have := Tally.sum_update_succ s.n (fun _ l => l.holds v) s.loop
    ⟨some m, q, [], 0, 0, .start td⟩
  have hholds : (⟨some m, q, [], 0, 0, .start td⟩ : Loop).holds v
      = if td = v then 1 else 0 := Nat.zero_add _
  unfold placed addStolen
  simp only
  omega

/-- A theft sends no signal. -/
theorem pending_addStolen (m q : Nat) (td v : Td) :
    (s.addStolen m q td).pending v = s.pending v := by
  have := Tally.sum_update_succ s.n (fun _ (l : Loop) => l.pending v) s.loop
    ⟨some m, q, [], 0, 0, .start td⟩
  exact this

-- ======== shape

/-- A step of a loop does not change the list that it counts for. -/
theorem owner_setLoop (hm : l.master = (s.loop i).master) (j : Nat) :
    (s.setLoop i l).owner j = s.owner j := by
  unfold owner
  by_cases hj : j = i
  · rw [hj, setLoop_self, hm]
  · rw [setLoop_ne s hj]

/-- A step of a loop on its processor, for its list, keeps the numbers. -/
theorem Shape.setLoop (h : s.Shape W) (hp : l.proc = (s.loop i).proc)
    (hm : l.master = (s.loop i).master) : (s.setLoop i l).Shape W := by
  refine ⟨h.1, fun j hj => ?_⟩
  obtain ⟨h₁, h₂, h₃⟩ := h.2 j hj
  rw [owner_setLoop hm]
  by_cases hji : j = i
  · subst hji
    rw [setLoop_self, hp, hm]
    exact ⟨h₁, h₂, h₃⟩
  · rw [setLoop_ne s hji]
    exact ⟨h₁, h₂, h₃⟩

/-- The loops that were there count for the lists they counted for. -/
theorem owner_addStolen {q : Nat} (hj : j < s.n) :
    (s.addStolen m q td).owner j = s.owner j := by
  unfold owner
  rw [addStolen_ne s m q td (Nat.ne_of_lt hj)]

/-- A theft keeps the numbers of the loops and processors in range. -/
theorem Shape.addStolen (h : s.Shape W) (hm : m < W.nmaster) {q : Nat}
    (hq : q < W.nproc) (td : Td) : (s.addStolen m q td).Shape W := by
  refine ⟨h.1.trans (Nat.le_succ _), fun j hj => ?_⟩
  rcases Nat.lt_or_eq_of_le (Nat.lt_succ_iff.mp hj) with hlt | rfl
  · rw [owner_addStolen hlt, addStolen_ne s m q td (Nat.ne_of_lt hlt)]
    exact h.2 j hlt
  · unfold owner
    rw [addStolen_self]
    exact ⟨hq, hm, iff_of_false nofun (not_lt.mpr h.1)⟩

end Lists

-- ======== pushready

/-- kaapi_readytasklist_pushready_td puts the descriptor in one place, and
changes nothing else that is counted. -/
theorem pushreadyTd_spec (h : s.Shape W) (hi : i < s.n) (td : Td) :
    (pushreadyTd W i td s).Shape W
      ∧ (∀ v, (pushreadyTd W i td s).placed W v
          = s.placed W v + if td = v then 1 else 0)
      ∧ (∀ v, (pushreadyTd W i td s).pending v = s.pending v)
      ∧ (pushreadyTd W i td s).counter = s.counter
      ∧ (pushreadyTd W i td s).executed = s.executed := by
  have hcons : ∀ (l : List Td) v,
      (td :: l).count v = l.count v + if td = v then 1 else 0 := by
    intro l v
    rw [List.count_cons]
    simp only [beq_iff_eq]
  have hown : ∀ l s', s.loop i = l → s'
    = s.setLoop i { l with rtl := td :: l.rtl } →
      s'.Shape W ∧ (∀ v, s'.placed W v = s.placed W v + if td = v then 1 else 0)
        ∧ (∀ v, s'.pending v = s.pending v) ∧ s'.counter = s.counter
        ∧ s'.executed = s.executed := by
    rintro l s' rfl rfl
    refine ⟨h.setLoop rfl rfl, fun v => ?_, fun v => ?_, rfl, rfl⟩
    · have hsum := Lists.placed_setLoop (W := W) hi
        { s.loop i with rtl := td :: (s.loop i).rtl } v
      unfold Loop.holds at hsum
      simp only [hcons] at hsum
      omega
    · exact Nat.add_right_cancel (Lists.pending_setLoop hi
        { s.loop i with rtl := td :: (s.loop i).rtl } v)
  unfold pushreadyTd
  simp only
  split
  · exact hown _ _ rfl rfl
  next p hsite =>
    split
    · refine ⟨h, fun v => ?_, fun v => rfl, rfl, rfl⟩
      have := s.placed_rtlRemote (W.site_lt td p hsite)
        (s.rtlRemote p ++ [td]) v
      rw [List.count_append, List.count_singleton] at this
      simp only [beq_iff_eq] at this
      omega
    · exact hown _ _ rfl rfl

-- ======== credit

/-- What a loop has executed, as far as its master list can count it. -/
def Loop.credit (l : Loop) : Nat :=
  l.cnt + if l.master ≠ none ∧ l.pc = .finished then 0 else l.cntExec

/-- The local count is in the counter of the list, and only a stolen list
reports it further. -/
def Loop.Added (l : Loop) : Prop :=
  match l.pc with
  | .test | .suspended | .finished => l.cnt = 0
  | .report => l.cnt = 0 ∧ l.master ≠ none
  | _ => True

/-- The executions that are counted for master list `m`, or will be. -/
def Lists.credit (s : Lists) (m : Nat) : Nat :=
  ∑ i ∈ Finset.range s.n, if s.owner i = m then (s.loop i).credit else 0

/-- What a loop holds belongs to the list it counts for, and it counts all
that it executes. -/
structure Books (W : Frames) (s : Lists) : Prop where
  own : ∀ i < s.n, ∀ v, 0 < (s.loop i).holds v + (s.loop i).pending v →
    v.1 = s.owner i
  credit : ∀ m, s.credit m = (s.executedOf m).length
  added : ∀ i < s.n, (s.loop i).Added
  complete : ∀ i < s.n, (s.loop i).master = none →
    (s.loop i).pc = .finished → W.total i ≤ (s.loop i).cntExec
  small : ∀ v ∈ s.executed, v.1 < W.nmaster

/-- When a loop changes, the count of its list changes by its credit. -/
theorem credit_setLoop (hi : i < s.n) (hm : l.master = (s.loop i).master)
    (m : Nat) :
    (s.setLoop i l).credit m + (if s.owner i = m then (s.loop i).credit else 0)
      = s.credit m + if s.owner i = m then l.credit else 0 := by
  have := Tally.sum_update_at hi
    (fun j (l : Loop) => if l.master.getD j = m then l.credit else 0) s.loop l
  simp only [hm] at this
  exact this

/-- A thief begins with no credit. -/
theorem credit_addStolen {q : Nat} (m' : Nat) :
    (s.addStolen m q td).credit m' = s.credit m' := by
  have := Tally.sum_update_succ s.n
    (fun j (l : Loop) => if l.master.getD j = m' then l.credit else 0) s.loop
    ⟨some m, q, [], 0, 0, .start td⟩
  have hnew : (⟨some m, q, [], 0, 0, .start td⟩ : Loop).credit = 0 := rfl
  rw [hnew, ite_self, Nat.add_zero] at this
  exact this

namespace Books

/-- A step of a loop that holds and signals only its own keeps the books. -/
theorem setLoop (h : Books W s) (hi : i < s.n)
    (hm : l.master = (s.loop i).master)
    (hown : ∀ v, 0 < l.holds v + l.pending v → v.1 = s.owner i)
    (hcredit : l.credit = (s.loop i).credit) (hadded : l.Added)
    (hcomplete : l.master = none → l.pc = .finished → W.total i ≤ l.cntExec) :
    Books W (s.setLoop i l) where
  own j hj v hv := by
    rw [Lists.owner_setLoop hm]
    by_cases hji : j = i
    · subst hji
      rw [Lists.setLoop_self] at hv
      exact hown v hv
    · rw [Lists.setLoop_ne s hji] at hv
      exact h.own j hj v hv
  credit m := by
    have hsum := credit_setLoop hi hm m
    rw [hcredit] at hsum
    exact (Nat.add_right_cancel hsum).trans (h.credit m)
  added j hj := by
    by_cases hji : j = i
    · subst hji
      rw [Lists.setLoop_self]
      exact hadded
    · rw [Lists.setLoop_ne s hji]
      exact h.added j hj
  complete j hj := by
    by_cases hji : j = i
    · subst hji
      rw [Lists.setLoop_self]
      exact hcomplete
    · rw [Lists.setLoop_ne s hji]
      exact h.complete j hj
  small := h.small

/-- A theft keeps the books: the thief counts for the list it took from. -/
theorem addStolen (h : Books W s) (hm : td.1 = m) (q : Nat) :
    Books W (s.addStolen m q td) where
  own j hj v hv := by
    rcases Nat.lt_or_eq_of_le (Nat.lt_succ_iff.mp hj) with hlt | rfl
    · rw [Lists.owner_addStolen hlt]
      rw [Lists.addStolen_ne s m q td (Nat.ne_of_lt hlt)] at hv
      exact h.own j hlt v hv
    · unfold Lists.owner
      rw [Lists.addStolen_self] at hv ⊢
      by_cases htd : td = v
      · rw [← htd]
        exact hm
      · unfold Loop.holds Loop.pending at hv
        simp only [if_neg htd] at hv
        exact absurd hv (Nat.lt_irrefl 0)
  credit m' := (credit_addStolen m').trans (h.credit m')
  added j hj := by
    rcases Nat.lt_or_eq_of_le (Nat.lt_succ_iff.mp hj) with hlt | rfl
    · rw [Lists.addStolen_ne s m q td (Nat.ne_of_lt hlt)]
      exact h.added j hlt
    · rw [Lists.addStolen_self]
      exact True.intro
  complete j hj := by
    rcases Nat.lt_or_eq_of_le (Nat.lt_succ_iff.mp hj) with hlt | rfl
    · rw [Lists.addStolen_ne s m q td (Nat.ne_of_lt hlt)]
      exact h.complete j hlt
    · rw [Lists.addStolen_self]
      exact nofun
  small := h.small

/-- A push of a descriptor of the loop's own list keeps the books. -/
theorem pushreadyTd (h : Books W s) (hi : i < s.n) (htd : td.1 = s.owner i) :
    Books W (pushreadyTd W i td s) := by
  have hown : ∀ l, s.loop i = l → Books W
    (s.setLoop i { l with rtl := td :: l.rtl }) := by
    rintro l rfl
    refine h.setLoop hi rfl (fun v hv => ?_) rfl (h.added i hi)
      (h.complete i hi)
    by_cases hv' : td = v
    · rw [← hv']
      exact htd
    · apply h.own i hi v
      unfold Loop.holds Loop.pending at hv ⊢
      simp only [List.count_cons_of_ne hv'] at hv
      exact hv
  unfold TaskList.pushreadyTd
  simp only
  split
  · exact hown _ rfl
  · split
    · exact ⟨h.own, h.credit, h.added, h.complete, h.small⟩
    · exact hown _ rfl

end Books

end XKaapi.TaskList
