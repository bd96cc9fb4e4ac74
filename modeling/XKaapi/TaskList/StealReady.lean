/-
Stealing from ready lists (workstealing/kaapi_sched_stealreadytasklist.c
and kaapi_sched_stealtasklist.c).

A thread that holds the lock of a victim answers the requests posted to
it, in the order of its iterator: with a task of the mailbox as long as
there is one, then with a descriptor of the victim's ready list, then of
its remote one. kaapi_readylist_steal filters by the processor it is
given: kaapi_sched_stealreadytasklist gives it the victim,
kaapi_sched_stealtasklist the processor of the request.

`offers` is the order in which the descriptors leave, from the queues and
the policies alone, and the replies are the offers. `Offerable` is what
leaves the queues sooner or later: all that the policy takes, for the
architecture it filters for. `steal_supported_iff` says for which lists
every reply suits its requester, whoever asks.
-/
import XKaapi.TaskList.ReadyListRuns

namespace XKaapi.ReadyList

open LinkedList

variable {ι : Type} [DecidableEq ι]

-- ======== the code

/-- What a request is replied: a task of the mailbox, or a descriptor. -/
inductive Reply (ι : Type)
  | task (t : Nat)
  | descr (td : ι)
deriving DecidableEq

/-- The victim: its mailbox and its two ready lists, over one heap of
descriptors, which both lists carry. -/
structure Kproc (ι : Type) where
  mailbox : List Nat
  rtl : Readytasklist ι
  rtlRemote : Readytasklist ι

/-- The ready list and the heap after an operation on it. -/
def Kproc.setRtl (k : Kproc ι) (rtl : Readytasklist ι) : Kproc ι where
  mailbox := k.mailbox
  rtl := rtl
  rtlRemote := { k.rtlRemote with heap := rtl.heap }

/-- The same for the remote one. -/
def Kproc.setRtlRemote (k : Kproc ι) (rtl : Readytasklist ι) : Kproc ι where
  mailbox := k.mailbox
  rtl := { k.rtl with heap := rtl.heap }
  rtlRemote := rtl

/-- kaapi_sched_stealreadytasklist, run by a processor of type `cur`;
`victim` is what kaapi_readylist_steal is told to filter for. -/
def stealreadytasklist (affinity : StealAffinity) (cur : Nat) (victim : Thief ι) :
    List Nat → Kproc ι → Option (List (Nat × Reply ι) × Kproc ι)
  | [], k => some ([], k)
  | request :: requests, k =>
    match k.mailbox with
    | taskwl :: mailbox => do
        let (rs, k') ← stealreadytasklist affinity cur victim requests
          { k with mailbox := mailbox }
        return ((request, .task taskwl) :: rs, k')
    | [] => do
        let (r, rtl) ← k.rtl.steal affinity cur victim
        match r with
        | some td => do
            let (rs, k') ← stealreadytasklist affinity cur victim requests
              (k.setRtl rtl)
            return ((request, .descr td) :: rs, k')
        | none => do
            let (r, rtl) ← k.rtlRemote.steal affinity cur victim
            match r with
            | some td => do
                let (rs, k') ← stealreadytasklist affinity cur victim requests
                  (k.setRtlRemote rtl)
                return ((request, .descr td) :: rs, k')
            | none => return ([], k)

/-- kaapi_sched_stealtasklist; `kprocessors` are all the processors. -/
def stealtasklist (affinity : StealAffinity) (cur : Nat)
    (kprocessors : Nat → Thief ι) :
    List Nat → Readytasklist ι → Option (List (Nat × Reply ι) × Readytasklist ι)
  | [], rtl => some ([], rtl)
  | request :: requests, rtl => do
      let (r, rtl') ← rtl.steal affinity cur (kprocessors request)
      match r with
      | some td => do
          let (rs, rtl'') ← stealtasklist affinity cur kprocessors requests rtl'
          return ((request, .descr td) :: rs, rtl'')
      | none => return ([], rtl)

-- ======== supported replies

/-- The descriptors among the replies. -/
def replied (replies : List (Nat × Reply ι)) : List ι :=
  replies.filterMap fun
    | (_, .descr td) => some td
    | (_, .task _) => none

/-- Every descriptor replied has a body for the architecture of the
processor that asked. -/
def Supported (kprocessors : Nat → Thief ι) (d : ι → Taskdescr)
    (replies : List (Nat × Reply ι)) : Prop :=
  ∀ request td, (request, Reply.descr td) ∈ replies →
    (d td).eligible (kprocessors request).arch = true

/-- The others stay in their queues. -/
def without (q : Nat → List ι) (out : List ι) : Nat → List ι :=
  fun p => (q p).filter (· ∉ out)

/-- The order in which the descriptors of two ready lists leave, for the
requests in turn, each served with the filter of one thief. -/
def offers (affinity : StealAffinity) (cur : Nat) (thiefOf : Nat → Thief ι)
    (d : ι → Taskdescr) :
    List Nat → (Nat → List ι) → (Nat → List ι) → List (Nat × ι)
  | [], _, _ => []
  | request :: requests, q, q' =>
    match pick cur (affinity.choose (thiefOf request)) d q with
    | some td =>
      (request, td)
        :: offers affinity cur thiefOf d requests (without q [td]) q'
    | none =>
      match pick cur (affinity.choose (thiefOf request)) d q' with
      | some td =>
        (request, td)
          :: offers affinity cur thiefOf d requests q (without q' [td])
      | none => []

/-- What the policy takes from a queue, for this architecture, once it
has taken what comes before: static tasks pass the scan of the first one
whatever they run on, internal ones the other two scans. In maxctpath
these wait for the first scan to find an older one. -/
def StealAffinity.Takes (affinity : StealAffinity) (arch : Nat)
    (d : ι → Taskdescr) (l : List ι) (td : ι) : Prop :=
  match affinity with
  | .first | .writer => (d td).staticsched = true ∨ (d td).eligible arch = true
  | .maxhit => (d td).valid arch = true
  | .maxctpath =>
    ((d td).staticsched = true ∨ (d td).eligible arch = true)
      ∨ (d td).valid arch = true
        ∧ ∃ i ∈ l, ((d i).staticsched = true ∨ (d i).eligible arch = true)
          ∧ (d i).date < (d td).date

/-- A descriptor of the queues that leaves them. -/
def Offerable (affinity : StealAffinity) (arch : Nat) (d : ι → Taskdescr)
    (q : Nat → List ι) (td : ι) : Prop :=
  ∃ p, td ∈ q p ∧ affinity.Takes arch d (q p) td

/-- The two lists of a victim, over one heap. -/
structure Kproc.WellFormed (k : Kproc ι) (q q' : Nat → List ι) : Prop where
  rtl : ReadyList.WellFormed k.rtl q
  rtlRemote : ReadyList.WellFormed k.rtlRemote q'
  heap : k.rtlRemote.heap = k.rtl.heap
  disjoint : ∀ p, ∀ td ∈ q p, td ∉ q' p

/-- kaapi_sched_stealreadytasklist replies with descriptors that suit the
requesters, and all the others stay in the lists. -/
def ReadyServes (affinity : StealAffinity) (cur : Nat) (victim : Thief ι)
    (kprocessors : Nat → Thief ι) (requests : List Nat) (k : Kproc ι)
    (q q' : Nat → List ι) : Prop :=
  ∃ rs k', stealreadytasklist affinity cur victim requests k = some (rs, k')
    ∧ Supported kprocessors (descr k.rtl.heap) rs
    ∧ k'.WellFormed (without q (replied rs)) (without q' (replied rs))

/-- The same for kaapi_sched_stealtasklist. -/
def TasklistServes (affinity : StealAffinity) (cur : Nat)
    (kprocessors : Nat → Thief ι) (requests : List Nat) (rtl : Readytasklist ι)
    (q : Nat → List ι) : Prop :=
  ∃ rs rtl', stealtasklist affinity cur kprocessors requests rtl = some (rs, rtl')
    ∧ Supported kprocessors (descr rtl.heap) rs
    ∧ ReadyList.WellFormed rtl' (without q (replied rs))

/-- Requests of different processors, all of a machine with these
architectures. -/
def Posted (archs : Nat → Prop) (kprocessors : Nat → Thief ι)
    (requests : List Nat) : Prop :=
  (∀ i, archs (kprocessors i).arch) ∧ requests.Nodup

-- ======== steps

section steps

variable {k : Kproc ι} {q q' : Nat → List ι} {td : ι}

theorem filter_some_eq (q : Nat → List ι) (td : ι) :
    (fun p => (q p).filter (some · ≠ some td)) = without q [td] := by
  funext p
  refine List.filter_congr fun i _ => ?_
  simp

omit [DecidableEq ι] in
/-- A list is not touched by what happens to the descriptors of another
one. -/
theorem WellFormed.congr {s : Readytasklist ι} (h : ReadyList.WellFormed s q)
    (heap : Heap ι Taskdescr) (hv : SameVals s.heap heap)
    (heq : ∀ p, ∀ i ∈ q p, heap i = s.heap i) :
    ReadyList.WellFormed { s with heap := heap } q where
  isList p := (h.isList p).congr (heq p)
  size := h.size
  priority p td htd := by
    show (heap td).isSome ∧ (descr heap td).priority = p
    rw [hv.isSome_eq, descr_congr hv]
    exact h.priority p td htd
  range := h.range
  cnt := h.cnt

omit [DecidableEq ι] in
/-- No descriptor is in queues of both lists, whatever their priorities. -/
theorem Kproc.WellFormed.not_mem (h : k.WellFormed q q') {p p' : Nat} (htd : td ∈ q p) :
    td ∉ q' p' := by
  intro htd'
  have hp := (h.rtl.priority p td htd).2
  have hp' := (h.rtlRemote.priority p' td htd').2
  rw [h.heap] at hp'
  have hpp : p = p' := hp.symm.trans hp'
  subst hpp
  exact h.disjoint p td htd htd'

/-- A descriptor is taken out of the local list. -/
theorem Kproc.WellFormed.setRtl (h : k.WellFormed q q') {rtl : Readytasklist ι}
    (ht : TookOut k.rtl rtl q (some td)) :
    (k.setRtl rtl).WellFormed (without q [td]) q' where
  rtl := filter_some_eq q td ▸ ht.wellFormed
  rtlRemote := by
    refine h.rtlRemote.congr rtl.heap (h.heap ▸ ht.vals) fun p i hi => ?_
    rw [h.heap]
    exact ht.frame i fun p' hi' => h.not_mem hi' hi
  heap := rfl
  disjoint p i hi := h.disjoint p i (List.mem_of_mem_filter hi)

/-- A descriptor is taken out of the remote list. -/
theorem Kproc.WellFormed.setRtlRemote (h : k.WellFormed q q') {rtl : Readytasklist ι}
    (ht : TookOut k.rtlRemote rtl q' (some td)) :
    (k.setRtlRemote rtl).WellFormed q (without q' [td]) where
  rtl := by
    have hv := ht.vals
    rw [h.heap] at hv
    refine h.rtl.congr rtl.heap hv fun p i hi => ?_
    have hframe := ht.frame i fun p' hi' => h.not_mem hi hi'
    rwa [h.heap] at hframe
  rtlRemote := filter_some_eq q' td ▸ ht.wellFormed
  heap := rfl
  disjoint p i hi hi' := h.disjoint p i hi (List.mem_of_mem_filter hi')

theorem without_without (q : Nat → List ι) (td : ι) (out : List ι) :
    without (without q [td]) out = without q (td :: out) := by
  funext p
  show ((q p).filter (· ∉ [td])).filter (· ∉ out) = (q p).filter (· ∉ td :: out)
  rw [List.filter_filter]
  refine List.filter_congr fun i _ => ?_
  simp [Bool.and_comm]

theorem without_nil (q : Nat → List ι) : without q [] = q := by
  funext p
  show (q p).filter _ = q p
  rw [List.filter_eq_self]
  intro i _
  exact decide_eq_true List.not_mem_nil

theorem without_of_not_mem (h : ∀ p, td ∉ q p) (out : List ι) :
    without q (td :: out) = without q out := by
  funext p
  refine List.filter_congr fun i hi => ?_
  have hne : i ≠ td := fun hit => h p (hit ▸ hi)
  simp [hne]

end steps

-- ======== policies

section policies

variable {thief : Thief ι} {d : ι → Taskdescr} {l l' : List ι} {td x : ι}
  {affinity : StealAffinity}

omit [DecidableEq ι] in
/-- The first policy finds a descriptor that it may take. -/
theorem chooseFirst_some (h : chooseFirst thief d l = some x) :
    x ∈ l ∧ ((d x).staticsched = true ∨ (d x).eligible thief.arch = true) := by
  have hfinds := chooseFirst_finds thief d l
  rw [h] at hfinds
  exact ⟨hfinds.1, hfinds.2.symm⟩

omit [DecidableEq ι] in
/-- It finds nothing only when there is none. -/
theorem chooseFirst_none (h : chooseFirst thief d l = none) (htd : td ∈ l) :
    ¬ ((d td).staticsched = true ∨ (d td).eligible thief.arch = true) := by
  unfold chooseFirst at h
  rw [List.find?_eq_none] at h
  rw [← Bool.or_eq_true]
  exact h td (List.mem_reverse.mpr htd)

/-- The loop of maxctpath keeps its candidate or takes a later one. -/
def maxctpathBody (arch : Nat) (d : ι → Taskdescr) (best : ι × Nat) (i : ι) :
    ι × Nat :=
  if (d i).valid arch && best.2 < (d i).date then (i, (d i).date) else best

omit [DecidableEq ι] in
/-- It ends with the latest of the valid ones and its first candidate. -/
theorem maxctpath_fold (arch : Nat) (d : ι → Taskdescr) (l : List ι)
    (best : ι × Nat) {b : ι × Nat} (hbest : best.2 = (d best.1).date)
    (h : l.foldl (maxctpathBody arch d) best = b) :
    b.2 = (d b.1).date ∧ best.2 ≤ b.2
      ∧ (b = best ∨ b.1 ∈ l ∧ (d b.1).valid arch = true ∧ best.2 < b.2)
      ∧ ∀ j ∈ l, (d j).valid arch = true → (d j).date ≤ b.2 := by
  induction l generalizing best with
  | nil =>
    subst h
    exact ⟨hbest, Nat.le_refl _, .inl rfl, fun j hj => absurd hj List.not_mem_nil⟩
  | cons i l ih =>
    rw [List.foldl_cons] at h
    by_cases htake : ((d i).valid arch && best.2 < (d i).date) = true
    · rw [maxctpathBody, if_pos htake] at h
      rw [Bool.and_eq_true, decide_eq_true_eq] at htake
      obtain ⟨hdate, hle, hfrom, hmax⟩ := ih _ rfl h
      have hlt : best.2 < b.2 := Nat.lt_of_lt_of_le htake.2 hle
      refine ⟨hdate, Nat.le_of_lt hlt, .inr ?_, fun j hj hv => ?_⟩
      · rcases hfrom with rfl | ⟨hmem, hv, -⟩
        · exact ⟨List.mem_cons_self, htake.1, hlt⟩
        · exact ⟨List.mem_cons_of_mem i hmem, hv, hlt⟩
      · rcases List.mem_cons.mp hj with rfl | hj
        · exact hle
        · exact hmax j hj hv
    · rw [maxctpathBody, if_neg htake] at h
      rw [Bool.and_eq_true, decide_eq_true_eq, not_and, Nat.not_lt] at htake
      obtain ⟨hdate, hle, hfrom, hmax⟩ := ih best hbest h
      refine ⟨hdate, hle, hfrom.imp_right fun hr =>
        ⟨List.mem_cons_of_mem i hr.1, hr.2⟩, fun j hj hv => ?_⟩
      rcases List.mem_cons.mp hj with rfl | hj
      · exact Nat.le_trans (htake hv) hle
      · exact hmax j hj hv

omit [DecidableEq ι] in
/-- What maxctpath picks, and that nothing valid is later. -/
theorem maxctpath_some (h : StealAffinity.choose .maxctpath thief d l = some x) :
    x ∈ l
      ∧ (((d x).staticsched = true ∨ (d x).eligible thief.arch = true)
        ∨ (d x).valid thief.arch = true
          ∧ ∃ i ∈ l, ((d i).staticsched = true ∨ (d i).eligible thief.arch = true)
            ∧ (d i).date < (d x).date)
      ∧ ∀ j ∈ l, (d j).valid thief.arch = true → (d j).date ≤ (d x).date := by
  unfold StealAffinity.choose at h
  simp only at h
  rw [Option.map_eq_some_iff] at h
  obtain ⟨i, hi, hx⟩ := h
  obtain ⟨hil, hif⟩ := chooseFirst_some hi
  obtain ⟨hdate, -, hfrom, hmax⟩ :=
    maxctpath_fold thief.arch d l.reverse (i, (d i).date) rfl rfl
  have hx' : ((l.reverse.foldl (maxctpathBody thief.arch d)
      (i, (d i).date)).1) = x := hx
  rw [hx'] at hdate hfrom
  rw [hdate] at hmax hfrom
  refine ⟨?_, ?_, fun j hj => hmax j (List.mem_reverse.mpr hj)⟩
  · rcases hfrom with heq | ⟨hmem, -⟩
    · rw [heq] at hx'
      exact hx' ▸ hil
    · exact List.mem_reverse.mp hmem
  · rcases hfrom with heq | ⟨-, hv, hlt⟩
    · rw [heq] at hx'
      exact .inl (hx' ▸ hif)
    · exact .inr ⟨hv, i, hil, hif, hlt⟩

omit [DecidableEq ι] in
/-- The policy of the hits finds a valid descriptor. -/
theorem maxhit_some (h : StealAffinity.choose .maxhit thief d l = some x) :
    x ∈ l ∧ (d x).valid thief.arch = true := by
  have hfinds := choose_finds .maxhit thief d l
  rw [h] at hfinds
  refine ⟨hfinds.1, valid_iff.mpr ?_⟩
  rcases hfinds.2 with he | ⟨hne, -⟩ | ⟨-, hf⟩
  · exact .inl he
  · exact absurd rfl hne
  · exact .inr hf

omit [DecidableEq ι] in
/-- It finds nothing only when there is none. -/
theorem maxhit_none (h : StealAffinity.choose .maxhit thief d l = none)
    (htd : td ∈ l) : ¬ (d td).valid thief.arch = true := by
  unfold StealAffinity.choose at h
  simp only at h
  rw [Option.map_eq_none_iff] at h
  refine (foldl_none _ (fun i => (d i).valid thief.arch = true) l.reverse
    (fun b i hb => ?_) h).2 td (List.mem_reverse.mpr htd)
  obtain ⟨hb, hv⟩ := maxhitBody_none hb
  exact ⟨hb, by rw [hv]; exact Bool.false_ne_true⟩

omit [DecidableEq ι] in
/-- What a policy finds is in the list, and may be taken. -/
theorem takes_of_choose (h : affinity.choose thief d l = some x) :
    x ∈ l ∧ affinity.Takes thief.arch d l x := by
  cases affinity with
  | first => exact chooseFirst_some h
  | maxctpath => exact ⟨(maxctpath_some h).1, (maxctpath_some h).2.1⟩
  | maxhit => exact maxhit_some h
  | writer =>
    have hfinds := choose_finds .writer thief d l
    rw [h] at hfinds
    refine ⟨hfinds.1, ?_⟩
    rcases hfinds.2 with he | ⟨-, hs⟩ | ⟨hor, -⟩
    · exact .inr he
    · exact .inl hs
    · rcases hor with h | h
      · cases h
      · cases h

omit [DecidableEq ι] in
/-- When a policy finds nothing, nothing may be taken. -/
theorem not_takes_of_choose (h : affinity.choose thief d l = none) (htd : td ∈ l) :
    ¬ affinity.Takes thief.arch d l td := by
  cases affinity with
  | first => exact chooseFirst_none h htd
  | maxctpath =>
    have hfirst := Option.map_eq_none_iff.mp h
    rintro (hf | ⟨-, i, hi, hf, -⟩)
    · exact chooseFirst_none hfirst htd hf
    · exact chooseFirst_none hfirst hi hf
  | maxhit => exact maxhit_none h htd
  | writer =>
    cases hfirst : chooseFirst thief d l with
    | none => exact chooseFirst_none hfirst htd
    | some i =>
      unfold StealAffinity.choose at h
      simp only [hfirst] at h
      split at h
      next => cases h
      next => cases h

omit [DecidableEq ι] in
theorem StealAffinity.Takes.mono {arch : Nat} (h : affinity.Takes arch d l' td)
    (hsub : ∀ i ∈ l', i ∈ l) : affinity.Takes arch d l td := by
  cases affinity with
  | first => exact h
  | maxctpath =>
    refine Or.imp_right (fun hr => ⟨hr.1, ?_⟩) h
    obtain ⟨-, i, hi, hr⟩ := hr
    exact ⟨i, hsub i hi, hr⟩
  | maxhit => exact h
  | writer => exact h

omit [DecidableEq ι] in
/-- A pick leaves what the policy takes, the pick itself apart: maxctpath
does not pick the older task that another one waits for. -/
theorem StealAffinity.Takes.persist (h : affinity.Takes thief.arch d l td)
    (hpick : affinity.choose thief d l = some x) (htd : td ∈ l)
    (hsub : ∀ i ∈ l, i ≠ x → i ∈ l') : affinity.Takes thief.arch d l' td := by
  cases affinity with
  | first => exact h
  | maxctpath =>
    refine Or.imp_right (fun hr => ⟨hr.1, ?_⟩) h
    obtain ⟨hv, i, hi, hf, hlt⟩ := hr
    refine ⟨i, hsub i hi ?_, hf, hlt⟩
    intro heq
    subst heq
    have hmax := (maxctpath_some hpick).2.2 td htd hv
    omega
  | maxhit => exact h
  | writer => exact h

end policies

-- ======== offers

/-- Queues of descriptors by priority. -/
structure Queues (d : ι → Taskdescr) (q : Nat → List ι) : Prop where
  priority : ∀ p, ∀ td ∈ q p, (d td).priority = p
  range : ∀ p, numPriority ≤ p → q p = []

section offers

variable {affinity : StealAffinity} {cur : Nat} {thief : Thief ι}
  {thiefOf : Nat → Thief ι} {d : ι → Taskdescr} {q q' : Nat → List ι}
  {td x : ι}

omit [DecidableEq ι] in
theorem WellFormed.queues {s : Readytasklist ι} (h : ReadyList.WellFormed s q) :
    Queues (descr s.heap) q where
  priority p td htd := (h.priority p td htd).2
  range := h.range

theorem mem_without {out : List ι} {p : Nat} :
    td ∈ without q out p ↔ td ∈ q p ∧ td ∉ out := by
  unfold without
  rw [List.mem_filter, decide_eq_true_eq]

/-- Queues without some descriptors. -/
theorem Queues.without (h : Queues d q) (out : List ι) :
    Queues d (without q out) where
  priority p td htd := h.priority p td (mem_without.mp htd).1
  range p hp := by
    show (q p).filter _ = []
    rw [h.range p hp]
    rfl

omit [DecidableEq ι] in
/-- What a steal picks may be offered. -/
theorem offerable_of_pick (h : pick cur (affinity.choose thief) d q = some x) :
    Offerable affinity thief.arch d q x := by
  unfold pick at h
  rw [List.findSome?_eq_some_iff] at h
  obtain ⟨-, p, -, -, hc, -⟩ := h
  exact ⟨p, takes_of_choose hc⟩

omit [DecidableEq ι] in
/-- When it picks nothing, nothing may be offered. -/
theorem not_offerable_of_pick (hq : Queues d q)
    (h : pick cur (affinity.choose thief) d q = none) (td : ι) :
    ¬ Offerable affinity thief.arch d q td := by
  intro ⟨p, htd, htakes⟩
  unfold pick at h
  rw [List.findSome?_eq_none_iff] at h
  have hp : p < numPriority := by
    by_contra hge
    rw [hq.range p (Nat.le_of_not_lt hge)] at htd
    exact List.not_mem_nil htd
  exact not_takes_of_choose (h p (mem_priorities hp)) htd htakes

omit [DecidableEq ι] in
theorem pick_empty :
    pick cur (affinity.choose thief) d (fun _ => []) = none := by
  cases h : pick cur (affinity.choose thief) d (fun _ => []) with
  | none => rfl
  | some x =>
    obtain ⟨p, hx, -⟩ := offerable_of_pick h
    exact absurd hx List.not_mem_nil

theorem Offerable.of_without {arch : Nat} {out : List ι}
    (h : Offerable affinity arch d (without q out) td) :
    Offerable affinity arch d q td := by
  obtain ⟨p, htd, htakes⟩ := h
  exact ⟨p, (mem_without.mp htd).1,
    htakes.mono fun i hi => (mem_without.mp hi).1⟩

/-- A descriptor may still be offered after another one is taken. -/
theorem Offerable.without (h : Offerable affinity thief.arch d q td)
    (hq : Queues d q) (hpick : pick cur (affinity.choose thief) d q = some x)
    (hne : td ≠ x) : Offerable affinity thief.arch d (without q [x]) td := by
  obtain ⟨p, htd, htakes⟩ := h
  unfold pick at hpick
  rw [List.findSome?_eq_some_iff] at hpick
  obtain ⟨-, p', -, -, hc, -⟩ := hpick
  have hkeep : ∀ i, i ≠ x → i ∉ [x] := by
    intro i hi hmem
    exact hi (List.mem_singleton.mp hmem)
  refine ⟨p, mem_without.mpr ⟨htd, hkeep td hne⟩, ?_⟩
  by_cases hpp : p = p'
  · subst hpp
    exact htakes.persist hc htd fun i hi hix => mem_without.mpr ⟨hi, hkeep i hix⟩
  · refine htakes.mono (l := ReadyList.without q [x] p) fun i hi =>
      mem_without.mpr ⟨hi, hkeep i ?_⟩
    intro heq
    subst heq
    exact hpp ((hq.priority p i hi).symm.trans
      (hq.priority p' i (takes_of_choose hc).1))

/-- Every offer is to a request, of a descriptor that may be offered. -/
theorem offers_offerable {requests : List Nat} {request : Nat}
    (h : (request, td) ∈ offers affinity cur thiefOf d requests q q') :
    request ∈ requests
      ∧ (Offerable affinity (thiefOf request).arch d q td
        ∨ Offerable affinity (thiefOf request).arch d q' td) := by
  induction requests generalizing q q' with
  | nil => exact absurd h List.not_mem_nil
  | cons r requests ih =>
    unfold offers at h
    split at h
    next x hpick =>
      rcases List.mem_cons.mp h with heq | h
      · cases heq
        exact ⟨List.mem_cons_self, .inl (offerable_of_pick hpick)⟩
      · obtain ⟨hr, ho⟩ := ih h
        exact ⟨List.mem_cons_of_mem r hr, ho.imp_left Offerable.of_without⟩
    next =>
      split at h
      next x hpick =>
        rcases List.mem_cons.mp h with heq | h
        · cases heq
          exact ⟨List.mem_cons_self, .inr (offerable_of_pick hpick)⟩
        · obtain ⟨hr, ho⟩ := ih h
          exact ⟨List.mem_cons_of_mem r hr, ho.imp_right Offerable.of_without⟩
      next => exact absurd h List.not_mem_nil

/-- Two disjoint families of queues, and the descriptors they hold. -/
structure Stock (d : ι → Taskdescr) (q q' : Nat → List ι) (U : Finset ι) :
    Prop where
  left : Queues d q
  right : Queues d q'
  disjoint : ∀ p p', ∀ i ∈ q p, i ∉ q' p'
  mem : ∀ p i, i ∈ q p ∨ i ∈ q' p → i ∈ U

section stock

variable {U : Finset ι}

omit [DecidableEq ι] in
theorem Stock.symm (h : Stock d q q' U) : Stock d q' q U where
  left := h.right
  right := h.left
  disjoint p p' i hi hi' := h.disjoint p' p i hi' hi
  mem p i hi := h.mem p i hi.symm

/-- The stock is one less after a pick. -/
theorem Stock.without (h : Stock d q q' U) {p : Nat} (hx : x ∈ q p) :
    Stock d (without q [x]) q' (U.erase x) where
  left := h.left.without [x]
  right := h.right
  disjoint p p' i hi := h.disjoint p p' i (mem_without.mp hi).1
  mem p' i hi := by
    rw [Finset.mem_erase]
    rcases hi with hi | hi
    · obtain ⟨hi, hix⟩ := mem_without.mp hi
      exact ⟨fun he => hix (he ▸ List.mem_singleton_self x), h.mem p' i (.inl hi)⟩
    · refine ⟨?_, h.mem p' i (.inr hi)⟩
      intro heq
      subst heq
      exact h.disjoint p p' i hx hi

theorem card_erase_lt {n : Nat} (hx : x ∈ U) (hlen : U.card < n + 1) :
    (U.erase x).card < n := by
  rw [Finset.card_erase_of_mem hx]
  have hpos := Finset.card_pos.mpr ⟨x, hx⟩
  omega

/-- All that is offerable for an architecture leaves, if the requests are
many and served for it. -/
theorem offers_drain {arch : Nat} (harch : ∀ i, (thiefOf i).arch = arch)
    {requests : List Nat} (hs : Stock d q q' U) (hlen : U.card < requests.length)
    (h : Offerable affinity arch d q td ∨ Offerable affinity arch d q' td) :
    ∃ request, (request, td) ∈ offers affinity cur thiefOf d requests q q' := by
  induction requests generalizing q q' U with
  | nil => exact absurd hlen (Nat.not_lt_zero _)
  | cons r requests ih =>
    rw [← harch r] at h
    unfold offers
    split
    next x hpick =>
      obtain ⟨p, hx, -⟩ := offerable_of_pick hpick
      by_cases htx : td = x
      · exact ⟨r, htx ▸ List.mem_cons_self⟩
      have hstays := h.imp_left fun ho => ho.without hs.left hpick htx
      rw [harch r] at hstays
      obtain ⟨request, hmem⟩ := ih (hs.without hx)
        (card_erase_lt (hs.mem p x (.inl hx)) hlen) hstays
      exact ⟨request, List.mem_cons_of_mem _ hmem⟩
    next hnone =>
      have ho := h.resolve_left (not_offerable_of_pick hs.left hnone td)
      split
      next x hpick =>
        obtain ⟨p, hx, -⟩ := offerable_of_pick hpick
        by_cases htx : td = x
        · exact ⟨r, htx ▸ List.mem_cons_self⟩
        have hstays := ho.without hs.right hpick htx
        rw [harch r] at hstays
        obtain ⟨request, hmem⟩ := ih (hs.symm.without hx).symm
          (card_erase_lt (hs.mem p x (.inr hx)) hlen) (.inr hstays)
        exact ⟨request, List.mem_cons_of_mem _ hmem⟩
      next hnone' => exact absurd ho (not_offerable_of_pick hs.right hnone' td)

end stock

end offers

-- ======== replies

/-- The replies from a list. -/
def described (os : List (Nat × ι)) : List (Nat × Reply ι) :=
  os.map fun o => (o.1, .descr o.2)

/-- The replies from a mailbox, as long as it lasts. -/
def mailed (requests mailbox : List Nat) : List (Nat × Reply ι) :=
  (requests.zip mailbox).map fun o => (o.1, .task o.2)

section replies

variable {k : Kproc ι} {q q' : Nat → List ι}

/-- What kaapi_sched_stealtasklist replies. -/
theorem stealtasklist_spec (affinity : StealAffinity) (cur : Nat)
    (kprocessors : Nat → Thief ι) {rtl : Readytasklist ι}
    (h : ReadyList.WellFormed rtl q) (requests : List Nat) :
    ∃ rtl', stealtasklist affinity cur kprocessors requests rtl
        = some (described (offers affinity cur kprocessors (descr rtl.heap)
            requests q fun _ => []), rtl')
      ∧ ReadyList.WellFormed rtl' (without q ((offers affinity cur kprocessors
          (descr rtl.heap) requests q fun _ => []).map Prod.snd)) := by
  induction requests generalizing rtl q with
  | nil => exact ⟨rtl, rfl, (without_nil q).symm ▸ h⟩
  | cons r requests ih =>
    obtain ⟨rtl', hsteal, htook⟩ := steal_spec h affinity cur (kprocessors r)
    unfold stealtasklist offers
    rw [hsteal]
    simp only [Option.bind_eq_bind, Option.bind_some]
    cases hpick : pick cur (affinity.choose (kprocessors r))
      (descr rtl.heap) q with
    | none =>
      rw [pick_empty]
      exact ⟨rtl, rfl, (without_nil q).symm ▸ h⟩
    | some td =>
      rw [hpick] at htook
      have hd : descr rtl'.heap = descr rtl.heap := descr_congr htook.vals
      obtain ⟨rtl'', hrun, hwf⟩ := ih (filter_some_eq q td ▸ htook.wellFormed)
      rw [hd] at hrun hwf
      simp only [hrun, Option.bind_some]
      refine ⟨rtl'', rfl, ?_⟩
      rw [without_without] at hwf
      exact hwf

/-- The mailbox first, then the offers of both ready lists. -/
theorem stealreadytasklist_spec (affinity : StealAffinity) (cur : Nat)
    (victim : Thief ι) (h : k.WellFormed q q') (requests : List Nat) :
    ∃ k', stealreadytasklist affinity cur victim requests k
        = some (mailed requests k.mailbox
            ++ described (offers affinity cur (fun _ => victim)
              (descr k.rtl.heap) (requests.drop k.mailbox.length) q q'), k')
      ∧ k'.WellFormed
        (without q ((offers affinity cur (fun _ => victim) (descr k.rtl.heap)
          (requests.drop k.mailbox.length) q q').map Prod.snd))
        (without q' ((offers affinity cur (fun _ => victim) (descr k.rtl.heap)
          (requests.drop k.mailbox.length) q q').map Prod.snd)) := by
  induction requests generalizing k q q' with
  | nil =>
    rw [List.drop_nil]
    refine ⟨k, rfl, ?_⟩
    show k.WellFormed (without q []) (without q' [])
    rw [without_nil, without_nil]
    exact h
  | cons r requests ih =>
    cases hmb : k.mailbox with
    | cons taskwl mailbox =>
      have h' : Kproc.WellFormed { k with mailbox := mailbox } q q' :=
        ⟨h.rtl, h.rtlRemote, h.heap, h.disjoint⟩
      obtain ⟨k', hrun, hwf⟩ := ih h'
      unfold stealreadytasklist
      simp only [hmb]
      rw [hrun]
      exact ⟨k', rfl, hwf⟩
    | nil =>
      unfold stealreadytasklist
      simp only [hmb]
      rw [List.length_nil, List.drop_zero]
      unfold offers
      obtain ⟨rtl', hsteal, htook⟩ := steal_spec h.rtl affinity cur victim
      rw [hsteal]
      simp only [Option.bind_eq_bind, Option.bind_some]
      cases hpick : pick cur (affinity.choose victim) (descr k.rtl.heap) q with
      | some td =>
        rw [hpick] at htook
        obtain ⟨p, hp, -⟩ := offerable_of_pick hpick
        have htd : ∀ p', td ∉ q' p' := fun p' => h.not_mem hp
        obtain ⟨k', hrun, hwf⟩ := ih (h.setRtl htook)
        have hd : descr (k.setRtl rtl').rtl.heap = descr k.rtl.heap :=
          descr_congr htook.vals
        have hmb' : (k.setRtl rtl').mailbox = [] := hmb
        rw [hd, hmb'] at hrun hwf
        rw [List.length_nil, List.drop_zero] at hrun hwf
        simp only [hrun, Option.bind_some]
        refine ⟨k', by cases requests <;> rfl, ?_⟩
        rw [without_without] at hwf
        rw [List.map_cons, without_of_not_mem htd]
        exact hwf
      | none =>
        simp only
        obtain ⟨rtl', hsteal, htook⟩ :=
          steal_spec h.rtlRemote affinity cur victim
        rw [h.heap] at hsteal htook
        rw [hsteal]
        simp only [Option.bind_some]
        cases hpick : pick cur (affinity.choose victim) (descr k.rtl.heap)
            q' with
        | some td =>
          rw [hpick] at htook
          obtain ⟨p, hp, -⟩ := offerable_of_pick hpick
          have htd : ∀ p', td ∉ q p' := fun p' hp' => h.not_mem hp' hp
          obtain ⟨k', hrun, hwf⟩ := ih (h.setRtlRemote htook)
          have hd : descr (k.setRtlRemote rtl').rtl.heap
              = descr k.rtl.heap := by
            rw [← h.heap]
            exact descr_congr htook.vals
          have hmb' : (k.setRtlRemote rtl').mailbox = [] := hmb
          rw [hd, hmb'] at hrun hwf
          rw [List.length_nil, List.drop_zero] at hrun hwf
          simp only [hrun, Option.bind_some]
          refine ⟨k', by cases requests <;> rfl, ?_⟩
          rw [without_without] at hwf
          rw [List.map_cons, without_of_not_mem htd]
          exact hwf
        | none =>
          refine ⟨k, rfl, ?_⟩
          show k.WellFormed (without q []) (without q' [])
          rw [without_nil, without_nil]
          exact h

omit [DecidableEq ι] in
theorem replied_eq (requests mailbox : List Nat) (os : List (Nat × ι)) :
    replied (mailed requests mailbox ++ described os) = os.map Prod.snd := by
  unfold replied mailed described
  rw [List.filterMap_append, List.filterMap_map, List.filterMap_map]
  have htasks : ∀ l : List (Nat × Nat),
      l.filterMap (fun _ => (none : Option ι)) = [] := by
    intro l
    induction l with
    | nil => rfl
    | cons o l ih => exact ih
  have hdescr : os.filterMap (fun o => some o.2) = os.map Prod.snd :=
    congrFun List.filterMap_eq_map' os
  exact (congrArg₂ (· ++ ·) (htasks _) hdescr).trans (List.nil_append _)

omit [DecidableEq ι] in
/-- A task of the mailbox is no descriptor. -/
theorem supported_iff (kprocessors : Nat → Thief ι) (d : ι → Taskdescr)
    (requests mailbox : List Nat) (os : List (Nat × ι)) :
    Supported kprocessors d (mailed requests mailbox ++ described os)
      ↔ ∀ o ∈ os, (d o.2).eligible (kprocessors o.1).arch = true := by
  constructor
  · intro h o ho
    refine h o.1 o.2 (List.mem_append_right _ ?_)
    exact List.mem_map.mpr ⟨o, ho, rfl⟩
  · intro h request td hmem
    rcases List.mem_append.mp hmem with hmem | hmem
    · obtain ⟨o, -, heq⟩ := List.mem_map.mp hmem
      cases heq
    · obtain ⟨o, ho, heq⟩ := List.mem_map.mp hmem
      cases heq
      exact h o ho

/-- The ready lists serve the requests iff every offer suits its thief. -/
theorem readyServes_iff (affinity : StealAffinity) (cur : Nat) (victim : Thief ι)
    (kprocessors : Nat → Thief ι) (h : k.WellFormed q q') (requests : List Nat) :
    ReadyServes affinity cur victim kprocessors requests k q q'
      ↔ ∀ o ∈ offers affinity cur (fun _ => victim) (descr k.rtl.heap)
          (requests.drop k.mailbox.length) q q',
        (descr k.rtl.heap o.2).eligible (kprocessors o.1).arch = true := by
  obtain ⟨k', hrun, hwf⟩ := stealreadytasklist_spec affinity cur victim h requests
  rw [← supported_iff kprocessors _ requests k.mailbox]
  constructor
  · intro ⟨rs, k'', hrun', hs, _⟩
    cases hrun.symm.trans hrun'
    exact hs
  · intro hs
    refine ⟨_, k', hrun, hs, ?_⟩
    rw [replied_eq]
    exact hwf

/-- The same for the list of a thread. -/
theorem tasklistServes_iff (affinity : StealAffinity) (cur : Nat)
    (kprocessors : Nat → Thief ι) {rtl : Readytasklist ι}
    (h : ReadyList.WellFormed rtl q) (requests : List Nat) :
    TasklistServes affinity cur kprocessors requests rtl q
      ↔ ∀ o ∈ offers affinity cur kprocessors (descr rtl.heap) requests q
          fun _ => [],
        (descr rtl.heap o.2).eligible (kprocessors o.1).arch = true := by
  obtain ⟨rtl', hrun, hwf⟩ := stealtasklist_spec affinity cur kprocessors h requests
  rw [← supported_iff kprocessors _ [] []]
  constructor
  · intro ⟨rs, rtl'', hrun', hs, _⟩
    cases hrun.symm.trans hrun'
    exact hs
  · intro hs
    refine ⟨_, rtl', hrun, hs, ?_⟩
    have heq := replied_eq [] [] (offers affinity cur kprocessors
      (descr rtl.heap) requests q fun _ => [])
    exact heq ▸ hwf

/-- The descriptors of some queues. -/
def Queues.all (q q' : Nat → List ι) : Finset ι :=
  (Finset.range numPriority).biUnion fun p => (q p ++ q' p).toFinset

theorem Queues.stock {d : ι → Taskdescr} (hq : Queues d q) (hq' : Queues d q')
    (hdisj : ∀ p p', ∀ i ∈ q p, i ∉ q' p') : Stock d q q' (Queues.all q q') where
  left := hq
  right := hq'
  disjoint := hdisj
  mem p i hi := by
    unfold Queues.all
    rw [Finset.mem_biUnion]
    refine ⟨p, Finset.mem_range.mpr ?_,
      List.mem_toFinset.mpr (List.mem_append.mpr hi)⟩
    by_contra hge
    have hge := Nat.le_of_not_lt hge
    rw [hq.range p hge, hq'.range p hge] at hi
    exact hi.elim List.not_mem_nil List.not_mem_nil

/-- Processors of one architecture. -/
def allOf (arch : Nat) : Nat → Thief ι :=
  fun _ => ⟨arch, fun _ => 0, fun _ => false⟩

/-- Requests enough to empty the queues. -/
def enough (q q' : Nat → List ι) (n : Nat) : List Nat :=
  List.range (n + ((Queues.all q q').card + 1))

theorem enough_drop (q q' : Nat → List ι) (n : Nat) :
    (Queues.all q q').card < ((enough q q' n).drop n).length := by
  unfold enough
  rw [List.length_drop, List.length_range]
  omega

end replies

-- The scan filters by the victim in one function and by the requester in
-- the other, so that the lists for which all replies suit are those whose
-- offerable descriptors run everywhere, or at least where the filter lets
-- them through.
theorem steal_supported_iff (affinity : StealAffinity) (cur : Nat)
    (victim : Thief ι) (archs : Nat → Prop) {k : Kproc ι} {q q' : Nat → List ι}
    (h : k.WellFormed q q') :
    ((∀ kprocessors requests, Posted archs kprocessors requests →
        ReadyServes affinity cur victim kprocessors requests k q q')
      ↔ ∀ arch, archs arch → ∀ td,
        Offerable affinity victim.arch (descr k.rtl.heap) q td
            ∨ Offerable affinity victim.arch (descr k.rtl.heap) q' td →
          (descr k.rtl.heap td).eligible arch = true)
    ∧ ((∀ kprocessors requests, Posted archs kprocessors requests →
        TasklistServes affinity cur kprocessors requests k.rtl q)
      ↔ ∀ arch, archs arch → ∀ td,
        Offerable affinity arch (descr k.rtl.heap) q td →
          (descr k.rtl.heap td).eligible arch = true) := by
  have hq := h.rtl.queues
  have hq' := h.rtlRemote.queues
  rw [h.heap] at hq'
  constructor
  · constructor
    · intro hserves arch harch td ho
      have hs := hserves (allOf arch) (enough q q' k.mailbox.length)
        ⟨fun _ => harch, List.nodup_range⟩
      rw [readyServes_iff affinity cur victim _ h] at hs
      have hdrain : ∃ request, (request, td) ∈ offers affinity cur (fun _ => victim)
          (descr k.rtl.heap) ((enough q q' k.mailbox.length).drop k.mailbox.length)
          q q' :=
        offers_drain (fun _ => rfl) (hq.stock hq' fun p p' i hi => h.not_mem hi)
          (enough_drop q q' _) ho
      obtain ⟨request, hmem⟩ := hdrain
      exact hs (request, td) hmem
    · intro hfits kprocessors requests hposted
      rw [readyServes_iff affinity cur victim _ h]
      intro o ho
      exact hfits _ (hposted.1 o.1) o.2 (offers_offerable ho).2
  · constructor
    · intro hserves arch harch td ho
      have hs := hserves (allOf arch) (enough q (fun _ => []) 0)
        ⟨fun _ => harch, List.nodup_range⟩
      rw [tasklistServes_iff affinity cur _ h.rtl] at hs
      have hnone : Queues (descr k.rtl.heap) (fun _ => ([] : List ι)) :=
        ⟨fun p i hi => absurd hi List.not_mem_nil, fun _ _ => rfl⟩
      have hdrain : ∃ request, (request, td) ∈ offers affinity cur (allOf arch)
          (descr k.rtl.heap) (enough q (fun _ => []) 0) q (fun _ => []) :=
        offers_drain (fun _ => rfl)
          (hq.stock hnone fun p p' i hi => List.not_mem_nil)
          (enough_drop q (fun _ => []) 0) (.inl ho)
      obtain ⟨request, hmem⟩ := hdrain
      exact hs (request, td) hmem
    · intro hfits kprocessors requests hposted
      rw [tasklistServes_iff affinity cur _ h.rtl]
      intro o ho
      refine hfits _ (hposted.1 o.1) o.2 ((offers_offerable ho).2.resolve_right ?_)
      intro ⟨p, hmem, _⟩
      exact List.not_mem_nil hmem

/-- Every descriptor is for CPUs only. -/
def cpuDescrs (_ : Nat) : Option (Node Nat Taskdescr) :=
  some ⟨⟨0, true, 2, (· == 1), false, 0⟩, none, none⟩

/-- A CPU whose ready list holds descriptor 5. -/
def cpuVictim : Kproc Nat :=
  let rtl := ((Readytasklist.init cpuDescrs).push 5).getD (.init cpuDescrs)
  ⟨[], rtl, .init rtl.heap⟩

/-- Its queues. -/
def cpuQueues : Nat → List Nat := Function.update (fun _ => []) 0 [5]

theorem cpuVictim_wellFormed :
    cpuVictim.WellFormed cpuQueues (fun _ => [])
      ∧ ∀ td, descr cpuVictim.rtl.heap td = descr cpuDescrs td := by
  obtain ⟨s', hpush, hv, hwf⟩ := (wellFormed_init cpuDescrs).push
    (show ((Readytasklist.init cpuDescrs).heap 5).isSome from rfl)
    (show 0 < numPriority by decide) List.not_mem_nil
  have hrtl : cpuVictim.rtl = s' := by
    show ((Readytasklist.init cpuDescrs).push 5).getD (.init cpuDescrs) = s'
    rw [hpush]
    rfl
  constructor
  · refine ⟨hrtl ▸ hwf, wellFormed_init _, rfl, fun _ _ _ => List.not_mem_nil⟩
  · intro td
    rw [hrtl]
    exact congrFun (descr_congr hv) td

/-- On a machine of CPUs its replies suit who asks. -/
theorem steal_supported_iff_cpus :
    ReadyServes .first 1 cpuThief (allOf 1) [0, 3] cpuVictim cpuQueues
      fun _ => [] := by
  refine (steal_supported_iff .first 1 cpuThief (· = 1)
    cpuVictim_wellFormed.1).1.mpr ?_ (allOf 1) [0, 3] ⟨fun _ => rfl, by decide⟩
  rintro arch rfl td -
  rw [cpuVictim_wellFormed.2 td]
  show (descr cpuDescrs 0).eligible 1 = true
  decide

/-- A GPU that asks is replied a descriptor that has no body for it. -/
theorem gpu_gets_cpu_task :
    (stealreadytasklist .first 1 cpuThief [0] cpuVictim).map Prod.fst
        = some [(0, .descr 5)]
      ∧ (descr cpuDescrs 5).eligible (allOf (ι := Nat) procTypeCuda 0).arch = false
      ∧ ¬ ReadyServes .first 1 cpuThief (allOf procTypeCuda) [0] cpuVictim
          cpuQueues fun _ => [] := by
  have hrun : (stealreadytasklist .first 1 cpuThief [0] cpuVictim).map Prod.fst
      = some [(0, .descr 5)] := rfl
  refine ⟨hrun, by decide, ?_⟩
  intro ⟨rs, k', hrun', hs, _⟩
  rw [hrun'] at hrun
  have hrs : rs = [(0, .descr 5)] := Option.some.inj hrun
  have helig := hs 0 5 (hrs ▸ List.mem_cons_self)
  rw [cpuVictim_wellFormed.2] at helig
  exact absurd helig (by decide)

end XKaapi.ReadyList
