/-
One ready list: what its operations do to the links.

`IsList h e l` (LinkedList) says that the links thread exactly the
descriptors of `l`. Pushing puts one at the head, a remote push at the
tail, and `takeOut` leaves the others in their order. The scans are the
searches of `l`, from the head or from the tail, because `Linked` lets
them follow either link.
-/
import XKaapi.TaskList.ReadyList
import Mathlib.Data.List.Induction

namespace XKaapi.ReadyList

open LinkedList

variable {ι : Type} {h : Heap ι Taskdescr}

-- ======== values

/-- The descriptor at a pointer. -/
def descr (h : Heap ι Taskdescr) (i : ι) : Taskdescr :=
  match h i with
  | some n => n.val
  | none => ⟨0, false, 0, fun _ => false, false, 0⟩

theorem descr_of_some {i : ι} {n : Node ι Taskdescr} (hn : h i = some n) :
    descr h i = n.val := by
  unfold descr
  rw [hn]

theorem descr_congr {h' : Heap ι Taskdescr} (hv : SameVals h h') :
    descr h' = descr h := by
  funext i
  have hi := hv i
  unfold descr
  cases hn : h i with
  | none =>
    rw [hn, Option.map_none, Option.map_eq_none_iff] at hi
    rw [hi]
  | some n =>
    rw [hn, Option.map_some, Option.map_eq_some_iff] at hi
    obtain ⟨n', hn', hval⟩ := hi
    rw [hn']
    exact hval

-- ======== scans

/-- Following `link` from the head of `l` visits `l`. -/
def Linked (h : Heap ι Taskdescr) (link : Node ι Taskdescr → Option ι) :
    List ι → Prop
  | [] => True
  | i :: l => (∃ n, h i = some n ∧ link n = l.head?) ∧ Linked h link l

/-- The links forwards of a segment. -/
theorem linked_next {p : Option ι} {l : List ι} (hs : Seg h p l none) :
    Linked h Node.next l := by
  induction l generalizing p with
  | nil => trivial
  | cons i l ih =>
    obtain ⟨⟨n, hn, -, hnext⟩, hs⟩ := hs
    exact ⟨⟨n, hn, by rw [hnext, Option.or_none]⟩, ih hs⟩

/-- The links backwards of a segment. -/
theorem linked_prev {x : Option ι} {l : List ι} (hs : Seg h none l x) :
    Linked h Node.prev l.reverse := by
  induction l using List.reverseRecOn generalizing x with
  | nil => trivial
  | append_singleton l i ih =>
    obtain ⟨hl, ⟨n, hn, hprev, -⟩, -⟩ := seg_append.mp hs
    rw [List.reverse_append, List.reverse_singleton, List.singleton_append]
    refine ⟨⟨n, hn, ?_⟩, ih hl⟩
    rw [hprev, Option.or_none, List.head?_reverse]

section scans

variable {h : Heap ι Taskdescr} {link : Node ι Taskdescr → Option ι} {l : List ι}

/-- A scan finds the first that stops it. -/
theorem scan_spec (hl : Linked h link l) (stop : ι → Taskdescr → Bool) {fuel : Nat}
    (hfuel : l.length < fuel) :
    scan h link stop fuel l.head? = some (l.find? fun i => stop i (descr h i)) := by
  induction l generalizing fuel with
  | nil =>
    obtain ⟨fuel, rfl⟩ := Nat.exists_eq_succ_of_ne_zero (Nat.ne_of_gt hfuel)
    rfl
  | cons i l ih =>
    obtain ⟨fuel, rfl⟩ := Nat.exists_eq_succ_of_ne_zero
      (Nat.ne_of_gt (Nat.zero_lt_of_lt hfuel))
    obtain ⟨⟨n, hn, hlink⟩, hl⟩ := hl
    rw [List.head?_cons, scan, hn, List.find?_cons, descr_of_some hn]
    simp only
    split
    next hstop => rw [hstop]
    next hstop =>
      rw [Bool.eq_false_iff.mpr hstop, hlink]
      exact ih hl (Nat.lt_of_succ_lt_succ hfuel)

/-- A fold visits the whole list. -/
theorem fold_spec {β : Type} (hl : Linked h link l) (f : β → ι → Taskdescr → β)
    {fuel : Nat} (hfuel : l.length < fuel) (acc : β) :
    fold h link f fuel l.head? acc
      = some (l.foldl (fun acc i => f acc i (descr h i)) acc) := by
  induction l generalizing fuel acc with
  | nil =>
    obtain ⟨fuel, rfl⟩ := Nat.exists_eq_succ_of_ne_zero (Nat.ne_of_gt hfuel)
    rfl
  | cons i l ih =>
    obtain ⟨fuel, rfl⟩ := Nat.exists_eq_succ_of_ne_zero
      (Nat.ne_of_gt (Nat.zero_lt_of_lt hfuel))
    obtain ⟨⟨n, hn, hlink⟩, hl⟩ := hl
    rw [List.head?_cons, fold, hn, List.foldl_cons, descr_of_some hn]
    simp only
    rw [hlink]
    exact ih hl (Nat.lt_of_succ_lt_succ hfuel) _

end scans

-- ======== policies

/-- What a policy may pick: besides the eligible ones, static scheduling
tasks and internal ones. -/
def StealAffinity.Accepts (affinity : StealAffinity) (arch : Nat)
    (td : Taskdescr) : Prop :=
  td.eligible arch = true
    ∨ (affinity ≠ .maxhit ∧ td.staticsched = true)
    ∨ ((affinity = .maxctpath ∨ affinity = .maxhit) ∧ td.fmt = false)

/-- A descriptor that the pop may take. -/
theorem eligible_iff {td : Taskdescr} {arch : Nat} :
    td.eligible arch = true
      ↔ td.hasArch arch = true ∧ (td.fmt = false ∨ td.body arch = true) := by
  unfold Taskdescr.eligible
  cases td.hasArch arch <;> cases td.fmt <;> cases td.body arch <;> decide

/-- A descriptor that a steal may take. -/
theorem valid_iff {td : Taskdescr} {arch : Nat} :
    td.valid arch = true ↔ td.eligible arch = true ∨ td.fmt = false := by
  unfold Taskdescr.eligible Taskdescr.valid
  cases td.hasArch arch <;> cases td.fmt <;> cases td.body arch <;> decide

/-- What a search has to find in the list `l`. -/
def Finds (accepts : Taskdescr → Prop) (arch : Nat) (d : ι → Taskdescr)
    (l : List ι) : Option ι → Prop
  | some td => td ∈ l ∧ accepts (d td)
  | none => ∀ td ∈ l, (d td).eligible arch = false

/-- The first one from the tail that is for this arch, or static. -/
def chooseFirst (thief : Thief ι) (d : ι → Taskdescr) (l : List ι) : Option ι :=
  l.reverse.find? fun i => (d i).staticsched || (d i).eligible thief.arch

/-- The pick of each policy, on the list. -/
def StealAffinity.choose (affinity : StealAffinity) (thief : Thief ι)
    (d : ι → Taskdescr) (l : List ι) : Option ι :=
  match affinity with
  | .first => chooseFirst thief d l
  | .maxctpath =>
    (chooseFirst thief d l).map fun i =>
      (l.reverse.foldl (fun (best : ι × Nat) i =>
        if (d i).valid thief.arch && best.2 < (d i).date then (i, (d i).date)
        else best) (i, (d i).date)).1
  | .maxhit =>
    (l.reverse.foldl (fun best i => maxhitBody thief best i (d i)) none).map
      Prod.fst
  | .writer =>
    match chooseFirst thief d l with
    | none => none
    | some i =>
      match l.reverse.find? fun j => (d j).fmt && (d j).hasArch thief.arch
          && (d j).body thief.arch && thief.hasValidWriter j with
      | some j => some j
      | none => some i

section policies

variable {h : Heap ι Taskdescr} {e : Ends ι} {l : List ι} {d : ι → Taskdescr}

theorem IsList.linked_reverse (hl : IsList h e l) :
    Linked h Node.prev l.reverse := linked_prev hl.seg

theorem IsList.last_eq (hl : IsList h e l) : e.last = l.reverse.head? := by
  rw [hl.last, List.head?_reverse]

theorem stealByAffinityFirst_eq (hl : IsList h e l) {fuel : Nat}
    (hfuel : l.length < fuel) (thief : Thief ι) :
    stealByAffinityFirst h fuel thief e.last
      = some (chooseFirst thief (descr h) l) := by
  unfold stealByAffinityFirst
  rw [IsList.last_eq hl]
  exact scan_spec (IsList.linked_reverse hl) _ (by simpa using hfuel)

/-- Every policy follows the links to its pick. -/
theorem stealByAffinity_eq (affinity : StealAffinity) (hl : IsList h e l)
    {fuel : Nat} (hfuel : l.length < fuel) (thief : Thief ι) :
    stealByAffinity affinity h fuel thief e.last
      = some (affinity.choose thief (descr h) l) := by
  have hfirst := stealByAffinityFirst_eq hl hfuel thief
  have hlen : l.reverse.length < fuel := by simpa using hfuel
  cases affinity with
  | first => exact hfirst
  | maxctpath =>
    show stealByAffinityMaxctpath h fuel thief e.last = _
    unfold stealByAffinityMaxctpath StealAffinity.choose
    simp only [hfirst, Option.bind_eq_bind, Option.bind_some]
    cases hc : chooseFirst thief (descr h) l with
    | none => rfl
    | some i =>
      have hi : i ∈ l :=
        List.mem_reverse.mp (List.mem_of_find?_eq_some hc)
      obtain ⟨n, hn⟩ := Option.isSome_iff_exists.mp (hl.seg.isSome hi)
      simp only [hn, Option.bind_some]
      rw [IsList.last_eq hl, fold_spec (IsList.linked_reverse hl) _ hlen,
        Option.bind_some, Option.map_some, descr_of_some hn]
      rfl
  | maxhit =>
    show stealByAffinityMaxhit h fuel thief e.last = _
    unfold stealByAffinityMaxhit
    rw [IsList.last_eq hl, fold_spec (IsList.linked_reverse hl) _ hlen]
    rfl
  | writer =>
    show stealByAffinityWriter h fuel thief e.last = _
    unfold stealByAffinityWriter StealAffinity.choose
    simp only [hfirst, Option.bind_eq_bind, Option.bind_some]
    cases hc : chooseFirst thief (descr h) l with
    | none => rfl
    | some i =>
      simp only
      rw [IsList.last_eq hl, scan_spec (IsList.linked_reverse hl) _ hlen,
        Option.bind_some]
      generalize (l.reverse.find? fun j => (descr h j).fmt
        && (descr h j).hasArch thief.arch && (descr h j).body thief.arch
        && thief.hasValidWriter j) = r
      cases r with
      | none => rfl
      | some j => rfl

/-- The first policy finds what it accepts. -/
theorem chooseFirst_finds (thief : Thief ι) (d : ι → Taskdescr) (l : List ι) :
    Finds (fun td => td.eligible thief.arch = true ∨ td.staticsched = true)
      thief.arch d l (chooseFirst thief d l) := by
  cases hfind : chooseFirst thief d l with
  | none =>
    intro td htd
    unfold chooseFirst at hfind
    rw [List.find?_eq_none] at hfind
    have hno := hfind td (List.mem_reverse.mpr htd)
    rw [Bool.or_eq_true] at hno
    exact Bool.eq_false_iff.mpr fun he => hno (.inr he)
  | some td =>
    have hstop := List.find?_some
      (p := fun i => (d i).staticsched || (d i).eligible thief.arch) hfind
    rw [Bool.or_eq_true] at hstop
    exact ⟨List.mem_reverse.mp (List.mem_of_find?_eq_some hfind), hstop.symm⟩

theorem foldl_picks {β : Type} (f : β → ι → β) (P : β → Prop) (l : List ι)
    (acc : β) (hacc : P acc) (hf : ∀ b, P b → ∀ i ∈ l, P (f b i)) :
    P (l.foldl f acc) := by
  induction l generalizing acc with
  | nil => exact hacc
  | cons i l ih =>
    exact ih _ (hf acc hacc i List.mem_cons_self)
      fun b hb j hj => hf b hb j (List.mem_cons_of_mem i hj)

/-- So does the policy of the critical path. -/
theorem maxctpath_finds (thief : Thief ι) (d : ι → Taskdescr) (l : List ι) :
    Finds (StealAffinity.Accepts .maxctpath thief.arch) thief.arch d l
      (StealAffinity.choose .maxctpath thief d l) := by
  have hfirst := chooseFirst_finds thief d l
  unfold StealAffinity.choose
  simp only
  cases hc : chooseFirst thief d l with
  | none =>
    rw [hc] at hfirst
    exact hfirst
  | some i =>
    rw [hc] at hfirst
    refine foldl_picks _ (fun best : ι × Nat => best.1 ∈ l
      ∧ StealAffinity.Accepts .maxctpath thief.arch (d best.1)) _ _ ?_ ?_
    · exact ⟨hfirst.1, hfirst.2.imp_right fun hs => .inl ⟨by decide, hs⟩⟩
    · intro best hbest j hj
      split
      next hvalid =>
        rw [Bool.and_eq_true, valid_iff] at hvalid
        exact ⟨List.mem_reverse.mp hj,
          hvalid.1.imp_right fun hf => .inr ⟨.inl rfl, hf⟩⟩
      next => exact hbest

theorem maxhitBody_some {thief : Thief ι} {best : Option (ι × Nat)} {i : ι}
    {td : Taskdescr} {p : ι × Nat} (hp : maxhitBody thief best i td = some p) :
    best = some p ∨ (p.1 = i ∧ td.valid thief.arch = true) := by
  unfold maxhitBody at hp
  unfold Taskdescr.valid
  split at hp
  next hfmt =>
    cases best with
    | none => exact .inr ⟨by rw [← Option.some.inj hp], by rw [hfmt]; rfl⟩
    | some b => exact .inl hp
  next hfmt =>
    split at hp
    next hbody =>
      have hvalid : (!td.fmt || (td.hasArch thief.arch && td.body thief.arch))
          = true := by
        rw [hbody, Bool.or_true]
      cases best with
      | none => exact .inr ⟨by rw [← Option.some.inj hp], hvalid⟩
      | some b =>
        simp only at hp
        split at hp
        next => exact .inr ⟨by rw [← Option.some.inj hp], hvalid⟩
        next => exact .inl hp
    next => exact .inl hp

theorem maxhitBody_none {thief : Thief ι} {best : Option (ι × Nat)} {i : ι}
    {td : Taskdescr} (hp : maxhitBody thief best i td = none) :
    best = none ∧ td.valid thief.arch = false := by
  unfold maxhitBody at hp
  unfold Taskdescr.valid
  split at hp
  next hfmt =>
    cases best with
    | none => cases hp
    | some b => cases hp
  next hfmt =>
    split at hp
    next hbody =>
      cases best with
      | none => cases hp
      | some b =>
        simp only at hp
        split at hp
        next => cases hp
        next => cases hp
    next hbody =>
      rw [Bool.eq_false_iff.mpr hfmt, Bool.eq_false_iff.mpr hbody]
      exact ⟨hp, rfl⟩

theorem foldl_none {β : Type} (f : Option β → ι → Option β) (V : ι → Prop)
    (l : List ι) {acc : Option β}
    (hf : ∀ b i, f b i = none → b = none ∧ ¬ V i) (h : l.foldl f acc = none) :
    acc = none ∧ ∀ i ∈ l, ¬ V i := by
  induction l generalizing acc with
  | nil => exact ⟨h, fun i hi => absurd hi List.not_mem_nil⟩
  | cons i l ih =>
    obtain ⟨hacc, hl⟩ := ih h
    obtain ⟨hacc, hi⟩ := hf acc i hacc
    refine ⟨hacc, fun j hj => ?_⟩
    rcases List.mem_cons.mp hj with rfl | hj
    · exact hi
    · exact hl j hj

/-- So does the policy of the hits. -/
theorem maxhit_finds (thief : Thief ι) (d : ι → Taskdescr) (l : List ι) :
    Finds (StealAffinity.Accepts .maxhit thief.arch) thief.arch d l
      (StealAffinity.choose .maxhit thief d l) := by
  unfold StealAffinity.choose
  simp only
  have hpicks := foldl_picks (fun best i => maxhitBody thief best i (d i))
    (fun best => ∀ p, best = some p → p.1 ∈ l
      ∧ StealAffinity.Accepts .maxhit thief.arch (d p.1)) l.reverse
    none (fun p hp => by cases hp) (by
      intro best hbest i hi p hp
      rcases maxhitBody_some hp with hp | ⟨hpi, hvalid⟩
      · exact hbest p hp
      · rw [hpi]
        exact ⟨List.mem_reverse.mp hi,
          (valid_iff.mp hvalid).imp_right fun hf => .inr ⟨.inr rfl, hf⟩⟩)
  cases hr : l.reverse.foldl
      (fun best i => maxhitBody thief best i (d i)) none with
  | some p => exact hpicks p hr
  | none =>
    have hnone := (foldl_none _ (fun i => (d i).valid thief.arch = true)
      l.reverse (fun b i hb => by
        obtain ⟨hb, hv⟩ := maxhitBody_none hb
        exact ⟨hb, by rw [hv]; exact Bool.false_ne_true⟩) hr).2
    intro td htd
    refine Bool.eq_false_iff.mpr fun he => ?_
    exact hnone td (List.mem_reverse.mpr htd) (valid_iff.mpr (.inl he))

/-- So does the policy of the writer. -/
theorem writer_finds (thief : Thief ι) (d : ι → Taskdescr) (l : List ι) :
    Finds (StealAffinity.Accepts .writer thief.arch) thief.arch d l
      (StealAffinity.choose .writer thief d l) := by
  have hfirst := chooseFirst_finds thief d l
  unfold StealAffinity.choose
  simp only
  split
  next hc =>
    rw [hc] at hfirst
    exact hfirst
  next i hc =>
    rw [hc] at hfirst
    split
    next j hj =>
      have hstop := List.find?_some hj
      simp only [Bool.and_eq_true] at hstop
      exact ⟨List.mem_reverse.mp (List.mem_of_find?_eq_some hj),
        .inl (eligible_iff.mpr ⟨hstop.1.1.2, .inr hstop.1.2⟩)⟩
    next => exact ⟨hfirst.1, hfirst.2.imp_right fun hs => .inl ⟨by decide, hs⟩⟩

/-- Every policy finds what it accepts. -/
theorem choose_finds (affinity : StealAffinity) (thief : Thief ι)
    (d : ι → Taskdescr) (l : List ι) :
    Finds (affinity.Accepts thief.arch) thief.arch d l
      (affinity.choose thief d l) := by
  cases affinity with
  | first =>
    have hfirst := chooseFirst_finds thief d l
    show Finds _ _ _ _ (chooseFirst thief d l)
    cases hc : chooseFirst thief d l with
    | none =>
      rw [hc] at hfirst
      exact hfirst
    | some td =>
      rw [hc] at hfirst
      exact ⟨hfirst.1, hfirst.2.imp_right fun hs => .inl ⟨by decide, hs⟩⟩
  | maxctpath => exact maxctpath_finds thief d l
  | maxhit => exact maxhit_finds thief d l
  | writer => exact writer_finds thief d l

end policies

-- ======== links

theorem ne_of_agreeOff_singleton {h' : Heap ι Taskdescr} {td : ι}
    (ha : AgreeOff [td] h h') {m : List ι} (htd : td ∉ m) : ∀ i ∈ m, h' i = h i :=
  fun i hi => ha i fun hit => htd (List.mem_singleton.mp hit ▸ hi)

section links

variable [DecidableEq ι] {h : Heap ι Taskdescr} {e : Ends ι} {l l₁ l₂ : List ι} {n : Int}
  {td : ι} {m : Node ι Taskdescr}

/-- The links of a node are cleared. -/
theorem clear_links (hm : h td = some m) :
    ∃ h₁ h₂, setPrev h td none = some h₁ ∧ setNext h₁ td none = some h₂
      ∧ Seg h₂ none [td] none ∧ SameVals h h₂ ∧ AgreeOff [td] h h₂ := by
  have hself : Seg h m.prev [td] m.next := ⟨⟨m, hm, rfl, rfl⟩, trivial⟩
  obtain ⟨h₁, hr₁, hs₁, hv₁, ha₁⟩ := hself.setPrev (by simp) none
  obtain ⟨h₂, hr₂, hs₂, hv₂, ha₂⟩ := Seg.setNext (l := []) hs₁ (by simp) none
  exact ⟨h₁, h₂, hr₁, hr₂, hs₂, hv₁.trans hv₂, ha₁.trans ha₂⟩

/-- A push puts the descriptor first. -/
theorem onereadytasklistPush_spec (hl : IsList h e l) (htd : td ∉ l)
    (halloc : (h td).isSome) :
    ∃ h' e', onereadytasklistPush (h, ⟨e, n⟩) td = some (h', ⟨e', n + 1⟩)
      ∧ IsList h' e' (td :: l) ∧ SameVals h h' ∧ AgreeOff (td :: l) h h' := by
  obtain ⟨m, hm⟩ := Option.isSome_iff_exists.mp halloc
  obtain ⟨h₁, h₂, hr₁, hr₂, hs₂, hv₂, ha₂⟩ := clear_links hm
  obtain ⟨h₃, hr₃, hs₃, hv₃, ha₃⟩ := Seg.setNext (l := []) hs₂ (by simp) e.beg
  have hv := hv₂.trans hv₃
  have ha := ha₂.trans ha₃
  have hl₃ : Seg h₃ none l none := hl.seg.congr (ne_of_agreeOff_singleton ha htd)
  unfold onereadytasklistPush
  simp only [hr₁, hr₂, hr₃, Option.bind_eq_bind, Option.bind_some]
  cases l with
  | nil =>
    have hbeg : e.beg = none := hl.beg
    rw [hbeg] at hs₃ ⊢
    exact ⟨h₃, ⟨some td, some td⟩, rfl,
      ⟨List.nodup_singleton td, rfl, rfl, hs₃⟩, hv, ha⟩
  | cons a l =>
    have hbeg : e.beg = some a := hl.beg
    obtain ⟨h₄, hr₄, hs₄, hv₄, ha₄⟩ :=
      hl₃.setPrev (List.nodup_cons.mp hl.nodup).1 (some td)
    have hne : td ≠ a := fun h => htd (h ▸ List.mem_cons_self)
    have hs : Seg h₄ none [td] e.beg := hs₃.congr fun i hi => ha₄ i fun hia =>
      hne ((List.mem_singleton.mp hi).symm.trans (List.mem_singleton.mp hia))
    rw [hbeg] at hs ⊢
    simp only [hr₄, Option.bind_some]
    refine ⟨h₄, ⟨some td, e.last⟩, rfl, ⟨List.nodup_cons.mpr ⟨htd, hl.nodup⟩,
      rfl, ?_, hs.1, hs₄⟩, hv.trans hv₄, ?_⟩
    · rw [show (⟨some td, e.last⟩ : Ends ι).last = e.last from rfl, hl.last]
      rfl
    · exact (ha.mono (by simp)).trans (ha₄.mono (by simp))

/-- A remote push puts it last. -/
theorem onereadytasklistRemotePush_spec (hl : IsList h e l) (htd : td ∉ l)
    (halloc : (h td).isSome) :
    ∃ h' e', onereadytasklistRemotePush (h, ⟨e, n⟩) td = some (h', ⟨e', n + 1⟩)
      ∧ IsList h' e' (l ++ [td]) ∧ SameVals h h' ∧ AgreeOff (l ++ [td]) h h' := by
  obtain ⟨m, hm⟩ := Option.isSome_iff_exists.mp halloc
  obtain ⟨h₁, h₂, hr₁, hr₂, hs₂, hv₂, ha₂⟩ := clear_links hm
  obtain ⟨h₃, hr₃, hs₃, hv₃, ha₃⟩ := hs₂.setPrev (by simp) e.last
  have hv := hv₂.trans hv₃
  have ha := ha₂.trans ha₃
  have hl₃ : Seg h₃ none l none := hl.seg.congr (ne_of_agreeOff_singleton ha htd)
  have hnodup : (l ++ [td]).Nodup :=
    (List.perm_append_singleton td l).nodup_iff.mpr
      (List.nodup_cons.mpr ⟨htd, hl.nodup⟩)
  unfold onereadytasklistRemotePush
  simp only [hr₁, hr₂, hr₃, Option.bind_eq_bind, Option.bind_some]
  rcases List.eq_nil_or_concat l with rfl | ⟨l', z, rfl⟩
  · have hlast : e.last = none := hl.last
    rw [hlast] at hs₃ ⊢
    exact ⟨h₃, ⟨some td, some td⟩, rfl, ⟨hnodup, rfl, rfl, hs₃⟩, hv, ha⟩
  · rw [List.concat_eq_append] at *
    have hlast : e.last = some z := by simp [hl.last]
    have hz : z ∉ l' := fun hz =>
      (List.nodup_append.mp hl.nodup).2.2 z hz z (by simp) rfl
    obtain ⟨h₄, hr₄, hs₄, hv₄, ha₄⟩ := hl₃.setNext hz (some td)
    have hne : td ≠ z := fun h => htd (by simp [h])
    have hs : Seg h₄ e.last [td] none := hs₃.congr fun i hi => ha₄ i fun hiz =>
      hne ((List.mem_singleton.mp hi).symm.trans (List.mem_singleton.mp hiz))
    rw [hlast] at hs ⊢
    simp only [hr₄, Option.bind_some]
    refine ⟨h₄, ⟨e.beg, some td⟩, rfl, ⟨hnodup, ?_, by simp, ?_⟩,
      hv.trans hv₄, ?_⟩
    · rw [show (⟨e.beg, some td⟩ : Ends ι).beg = e.beg from rfl, hl.beg]
      cases l' <;> simp
    · refine seg_append.mpr ⟨hs₄, ?_⟩
      rw [Option.or_none, List.getLast?_concat]
      exact hs
    · exact (ha.mono (by simp)).trans (ha₄.mono (by simp))

/-- The link of the node before. -/
theorem unlinkPrev_spec (hl : IsList h e (l₁ ++ td :: l₂)) (hp : m.prev = l₁.getLast?)
    (hx : m.next = l₂.head?) :
    ∃ h', unlinkPrev h e m = some (h', { e with beg := (l₁ ++ l₂).head? })
      ∧ Seg h' none l₁ l₂.head? ∧ Seg h' (some td) l₂ none
      ∧ SameVals h h' ∧ AgreeOff l₁ h h' := by
  obtain ⟨hs₁, -, hs₂⟩ := seg_append.mp hl.seg
  obtain ⟨hnd₁, hnd₂, hdisj⟩ := List.nodup_append.mp hl.nodup
  unfold unlinkPrev
  rcases List.eq_nil_or_concat l₁ with rfl | ⟨l₁, a, rfl⟩
  · rw [show m.prev = none from hp, hx]
    exact ⟨h, rfl, trivial, hs₂, SameVals.refl h, fun _ _ => rfl⟩
  · rw [List.concat_eq_append] at *
    have ha : a ∉ l₁ := fun ha =>
      (List.nodup_append.mp hnd₁).2.2 a ha a (by simp) rfl
    rw [show m.prev = some a by simp [hp]]
    obtain ⟨h', hr, hs, hv, hagree⟩ := hs₁.setNext ha m.next
    refine ⟨h', ?_, by rwa [hx] at hs, ?_, hv, hagree.mono (by simp)⟩
    · simp only [hr, Option.bind_eq_bind, Option.bind_some]
      have hbeg : e.beg = (l₁ ++ [a] ++ l₂).head? := by
        rw [hl.beg]
        cases l₁ <;> simp
      rw [← hbeg]
      rfl
    · refine hs₂.congr fun i hi => hagree i fun hia => ?_
      rw [List.mem_singleton] at hia
      exact hdisj a (by simp) i (List.mem_cons_of_mem td hi) hia.symm

/-- The link of the node after. -/
theorem unlinkNext_spec (hnd : (l₁ ++ l₂).Nodup) {q : Option ι}
    (hs₁ : Seg h none l₁ l₂.head?) (hs₂ : Seg h q l₂ none)
    (hlast : l₂ ≠ [] → e.last = l₂.getLast?) (hp : m.prev = l₁.getLast?)
    (hx : m.next = l₂.head?) :
    ∃ h', unlinkNext h e m = some (h', { e with last := (l₁ ++ l₂).getLast? })
      ∧ Seg h' none l₁ l₂.head? ∧ Seg h' l₁.getLast? l₂ none
      ∧ SameVals h h' ∧ AgreeOff l₂ h h' := by
  obtain ⟨hnd₁, hnd₂, hdisj⟩ := List.nodup_append.mp hnd
  unfold unlinkNext
  cases l₂ with
  | nil =>
    rw [show m.next = none from hx, hp, List.append_nil]
    exact ⟨h, rfl, hs₁, trivial, SameVals.refl h, fun _ _ => rfl⟩
  | cons c l₂ =>
    rw [show m.next = some c from hx]
    obtain ⟨h', hr, hs, hv, hagree⟩ :=
      hs₂.setPrev (List.nodup_cons.mp hnd₂).1 m.prev
    refine ⟨h', ?_, ?_, by rwa [hp] at hs, hv, hagree.mono (by simp)⟩
    · simp only [hr, Option.bind_eq_bind, Option.bind_some]
      have hend : e.last = (l₁ ++ c :: l₂).getLast? := by
        rw [hlast (by simp)]
        simp [List.getLast?_append, List.getLast?_cons]
      rw [← hend]
      rfl
    · refine hs₁.congr fun i hi => hagree i fun hic => ?_
      rw [List.mem_singleton] at hic
      exact hdisj i hi c (by simp) hic

/-- A descriptor is taken out. -/
theorem takeOut_spec (hl : IsList h e (l₁ ++ td :: l₂)) :
    ∃ h' e', takeOut (h, ⟨e, n⟩) td = some (h', ⟨e', n - 1⟩)
      ∧ IsList h' e' (l₁ ++ l₂) ∧ SameVals h h'
      ∧ AgreeOff (l₁ ++ td :: l₂) h h' := by
  obtain ⟨m, hm, hp, hx⟩ := hl.node
  obtain ⟨htd, hnd⟩ := List.nodup_cons.mp
    ((List.perm_middle.nodup_iff).mp hl.nodup)
  obtain ⟨h₁, hr₁, hs₁, hs₂, hv₁, ha₁⟩ := unlinkPrev_spec hl hp hx
  have hm₁ : h₁ td = some m := (ha₁ td fun hmem =>
    htd (List.mem_append_left l₂ hmem)).trans hm
  have hlast : l₂ ≠ [] → e.last = l₂.getLast? := by
    intro hne
    rw [hl.last]
    cases l₂ with
    | nil => exact absurd rfl hne
    | cons c l₂ => simp [List.getLast?_append, List.getLast?_cons]
  obtain ⟨h₂, hr₂, ht₁, ht₂, hv₂, ha₂⟩ :=
    unlinkNext_spec (e := { e with beg := (l₁ ++ l₂).head? }) hnd hs₁ hs₂
      hlast hp hx
  have hm₂ : h₂ td = some m := (ha₂ td fun hmem =>
    htd (List.mem_append_right l₁ hmem)).trans hm₁
  -- the links of the descriptor itself, which the others no longer reach
  have hself : Seg h₂ m.prev [td] m.next := ⟨⟨m, hm₂, rfl, rfl⟩, trivial⟩
  obtain ⟨h₃, hr₃, hs₃, hv₃, ha₃⟩ := Seg.setNext (l := []) hself (by simp) none
  obtain ⟨h₄, hr₄, -, hv₄, ha₄⟩ := hs₃.setPrev (by simp) none
  have hagree := ne_of_agreeOff_singleton (ha₃.trans ha₄) htd
  refine ⟨h₄, ⟨(l₁ ++ l₂).head?, (l₁ ++ l₂).getLast?⟩, ?_, ?_,
    ((hv₁.trans hv₂).trans hv₃).trans hv₄, ?_⟩
  · unfold takeOut
    simp only [hm, hr₁, hm₁, hr₂, hr₃, hr₄, Option.bind_eq_bind, Option.bind_some]
    rfl
  · refine ⟨hnd, rfl, rfl, Seg.congr (seg_append.mpr ⟨?_, ?_⟩) hagree⟩
    · rwa [Option.or_none]
    · rwa [Option.or_none]
  · refine ((ha₁.mono ?_).trans (ha₂.mono ?_)).trans ((ha₃.trans ha₄).mono ?_)
    · exact fun i hi => List.mem_append_left _ hi
    · exact fun i hi => List.mem_append_right _ (List.mem_cons_of_mem td hi)
    · intro i hi
      rw [List.mem_singleton.mp hi]
      exact List.mem_append_right _ List.mem_cons_self

end links

end XKaapi.ReadyList
