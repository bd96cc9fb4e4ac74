/-
`kaapi_processor_computetopo` makes the levels it should iff its writes
stay in their arrays.

The kids of a set are the images of its cpus, in order. The count of the
others of a level is a difference of two such counts, and `others` is the
xor of the two sets, because one includes the other. So the array of the
others is full when its last kprocessor is written: `kids_fit_iff`.
-/
import XKaapi.Steal.SelfTopo

namespace XKaapi.Steal

open InPlace
open Suspended (Cpuset)

-- ======== cpusets

variable {c i nproc : Nat} {is : List Nat} {sets : List AffinitySet} {ls : List HLevel}

/-- The cpus of a set. -/
theorem mem_cpus {s : Cpuset} : c ∈ cpus s ↔ c < 256 ∧ s.has c = true := by
  unfold cpus
  rw [List.mem_filter, List.mem_range]

theorem bit_ne_zero (w : BitVec 64) (hi : i < 64) :
    (w &&& 1#64 <<< i != 0) = w.getLsbD i := by
  rw [← BitVec.twoPow_eq, BitVec.and_twoPow]
  cases hw : w.getLsbD i with
  | false => rfl
  | true =>
    rw [if_pos rfl, bne_iff_ne]
    intro hzero
    have hbit := congrArg (BitVec.getLsbD · i) hzero
    simp [hi] at hbit

theorem bit_xor (v w : BitVec 64) (hi : i < 64) :
    ((v ^^^ w) &&& 1#64 <<< i != 0)
      = ((v &&& 1#64 <<< i != 0) ^^ (w &&& 1#64 <<< i != 0)) := by
  rw [bit_ne_zero _ hi, bit_ne_zero _ hi, bit_ne_zero _ hi, BitVec.getLsbD_xor]

/-- What the code computes is the symmetric difference. -/
theorem has_notand (s s' : Cpuset) (hc : c < 256) :
    (notand s s').has c = (s.has c ^^ s'.has c) := by
  unfold Cpuset.has notand
  split
  next h => exact bit_xor _ _ h
  next =>
    split
    next h => exact bit_xor _ _ (by omega)
    next =>
      split
      next h => exact bit_xor _ _ (by omega)
      next => exact bit_xor _ _ (by omega)

/-- Of included sets it is the difference. -/
theorem cpus_notand {s s' : AffinitySet} (hin : Included s s') :
    cpus (notand s'.who s.who) = others s s' := by
  unfold cpus others
  refine List.filter_congr fun c hc => ?_
  have hc := List.mem_range.mp hc
  rw [has_notand _ _ hc]
  cases hs : s.who.has c with
  | false => rw [Bool.xor_false, Bool.not_false, Bool.and_true]
  | true => rw [hin c hc hs]; rfl

theorem mem_others {s s' : AffinitySet} : c ∈ others s s' ↔
    c < 256 ∧ s'.who.has c = true ∧ s.who.has c = false := by
  unfold others
  rw [List.mem_filter, List.mem_range, Bool.and_eq_true, Bool.not_eq_true']

-- ======== the loop

variable {f : Nat → Option Nat} {cpuset : Cpuset}

/-- What the loop leaves: the images of the cpus that are left, after the
entries that were written. -/
theorem kidsLoop_spec {j : Nat} {kids : List (Option Nat)} {r : List (Option Nat) × Nat}
    (hn : (is.filter cpuset.has).length ≤ nproc) (hj : j ≤ kids.length)
    (hr : kidsLoop f cpuset is nproc kids j = some r) :
    r.1.take r.2
        = kids.take j ++ ((is.filter cpuset.has).filterMap f).map some
      ∧ r.2 = j + ((is.filter cpuset.has).filterMap f).length := by
  induction is generalizing nproc j kids with
  | nil =>
    cases hr
    exact ⟨(List.append_nil _).symm, rfl⟩
  | cons i rest ih =>
    cases nproc with
    | zero =>
      have hnil : (i :: rest).filter cpuset.has = [] :=
        List.eq_nil_of_length_eq_zero (Nat.le_zero.mp hn)
      unfold kidsLoop at hr
      cases hr
      rw [hnil]
      exact ⟨(List.append_nil _).symm, rfl⟩
    | succ nproc =>
      unfold kidsLoop at hr
      by_cases hi : cpuset.has i = true
      · rw [if_pos hi] at hr
        rw [List.filter_cons_of_pos hi] at hn ⊢
        obtain ⟨hlt, hr⟩ := Option.ite_none_right_eq_some.mp hr
        cases hk : f i with
        | none =>
          rw [hk] at hr
          have hr : kidsLoop f cpuset rest nproc (kids.set j none) j = some r :=
            hr
          obtain ⟨htake, hcount⟩ := ih (Nat.le_of_succ_le_succ hn)
            (by rw [List.length_set]; exact hj) hr
          rw [List.filterMap_cons_none hk]
          rw [List.take_set_of_le (Nat.le_refl j)] at htake
          exact ⟨htake, hcount⟩
        | some k =>
          rw [hk] at hr
          have hr : kidsLoop f cpuset rest nproc (kids.set j (some k)) (j + 1)
            = some r := hr
          obtain ⟨htake, hcount⟩ := ih (Nat.le_of_succ_le_succ hn)
            (by rw [List.length_set]; exact hlt) hr
          rw [List.filterMap_cons_some hk, List.map_cons, List.length_cons]
          rw [List.take_add_one, List.take_set_of_le (Nat.le_refl j),
            List.getElem?_set_self hlt, Option.toList_some, List.append_assoc,
            List.singleton_append] at htake
          exact ⟨htake, by omega⟩
      · rw [if_neg hi] at hr
        rw [List.filter_cons_of_neg hi] at hn ⊢
        exact ih hn hj hr

/-- The last cpu is written after the images of the others. -/
theorem kidsLoop_isSome_iff (j : Nat) (kids : List (Option Nat))
    (hn : (is.filter cpuset.has).length ≤ nproc) :
    (∃ r, kidsLoop f cpuset is nproc kids j = some r)
      ↔ is.filter cpuset.has = []
        ∨ j + ((is.filter cpuset.has).dropLast.filterMap f).length
          < kids.length := by
  induction is generalizing nproc j kids with
  | nil => exact iff_of_true ⟨_, rfl⟩ (.inl rfl)
  | cons i rest ih =>
    cases nproc with
    | zero =>
      have hnil : (i :: rest).filter cpuset.has = [] :=
        List.eq_nil_of_length_eq_zero (Nat.le_zero.mp hn)
      exact iff_of_true ⟨_, rfl⟩ (.inl hnil)
    | succ nproc =>
      unfold kidsLoop
      by_cases hi : cpuset.has i = true
      · rw [if_pos hi]
        rw [List.filter_cons_of_pos hi] at hn ⊢
        have hrest := ih (if (f i).isSome then j + 1 else j)
          (kids.set j (f i)) (Nat.le_of_succ_le_succ hn)
        rw [List.length_set] at hrest
        rw [or_iff_right (List.cons_ne_nil _ _)]
        by_cases hlt : j < kids.length
        · rw [if_pos hlt, hrest]
          cases hD : rest.filter cpuset.has with
          | nil => exact iff_of_true (.inl rfl) hlt
          | cons d D =>
            rw [or_iff_right (List.cons_ne_nil _ _),
              List.dropLast_cons_of_ne_nil (List.cons_ne_nil d D)]
            cases hk : f i with
            | none => rw [List.filterMap_cons_none hk]; rfl
            | some k =>
              rw [List.filterMap_cons_some hk, List.length_cons]
              show j + 1 + _ < _ ↔ _
              rw [Nat.add_assoc, Nat.add_comm 1]
        · rw [if_neg hlt]
          refine iff_of_false (fun ⟨r, hr⟩ => nomatch hr) fun h => hlt ?_
          exact Nat.lt_of_le_of_lt (Nat.le_add_right _ _) h
      · rw [if_neg hi]
        rw [List.filter_cons_of_neg hi] at hn ⊢
        exact ih j kids hn

/-- The images of a list of cpus. -/
def images (f : Nat → Option Nat) (cs : List Nat) : List Nat := cs.filterMap f

/-- The kids of a set of cpus. -/
theorem cpuset2kids_spec {size : Nat} {r : List (Option Nat) × Nat}
    (hn : (cpus cpuset).length ≤ nproc) (hr : cpuset2kids f cpuset size nproc = some r) :
    r.1.take r.2 = (images f (cpus cpuset)).map some
      ∧ r.2 = (images f (cpus cpuset)).length := by
  obtain ⟨htake, hcount⟩ := kidsLoop_spec hn (Nat.zero_le _) hr
  rw [Nat.zero_add] at hcount
  exact ⟨htake, hcount⟩

/-- They fit iff the last cpu has its place. -/
theorem cpuset2kids_isSome_iff {size : Nat} (hn : (cpus cpuset).length ≤ nproc) :
    (∃ r, cpuset2kids f cpuset size nproc = some r)
      ↔ cpus cpuset = []
        ∨ (images f (cpus cpuset).dropLast).length < size := by
  refine (kidsLoop_isSome_iff _ _ hn).trans ?_
  rw [List.length_replicate, Nat.zero_add]
  rfl

theorem images_length_le (cs : List Nat) : (images f cs).length ≤ cs.length :=
  List.length_filterMap_le f cs

/-- A list of the size of the set is enough. -/
theorem kids_fit (hn : (cpus cpuset).length ≤ nproc) :
    ∃ r, cpuset2kids f cpuset (cpus cpuset).length nproc = some r := by
  refine (cpuset2kids_isSome_iff hn).mpr ?_
  rcases List.eq_nil_or_concat (cpus cpuset) with hnil | ⟨L, b, hL⟩
  · exact .inl hnil
  · refine .inr (Nat.lt_of_le_of_lt (images_length_le _) ?_)
    rw [hL, List.concat_eq_append, List.dropLast_concat, List.length_append,
      List.length_singleton]
    exact Nat.lt_succ_self _

theorem kids_fit_iff (hn : (cpus cpuset).length ≤ nproc)
    (hpos : 0 < (images f (cpus cpuset)).length) :
    (∃ r, cpuset2kids f cpuset (images f (cpus cpuset)).length nproc = some r)
      ↔ ∀ c, (cpus cpuset).getLast? = some c → (f c).isSome = true := by
  rw [cpuset2kids_isSome_iff hn]
  rcases List.eq_nil_or_concat (cpus cpuset) with hnil | ⟨L, b, hL⟩
  · rw [hnil] at hpos
    exact absurd hpos (Nat.lt_irrefl 0)
  · rw [hL, List.concat_eq_append, List.dropLast_concat, List.getLast?_concat,
      or_iff_right (List.append_ne_nil_of_right_ne_nil L (List.cons_ne_nil b []))]
    unfold images
    rw [List.filterMap_append, List.length_append]
    constructor
    · intro hlt c hc
      cases hc
      by_contra hnone
      rw [Bool.not_eq_true, Option.isSome_eq_false_iff,
        Option.isNone_iff_eq_none] at hnone
      rw [List.filterMap_cons_none hnone] at hlt
      exact Nat.lt_irrefl _ hlt
    · intro hall
      obtain ⟨k, hk⟩ := Option.isSome_iff_exists.mp (hall b rfl)
      rw [List.filterMap_cons_some hk]
      exact Nat.lt_succ_self _

-- ======== the levels

/-- The level of a set, whatever its others. -/
structure IsLevel (f : Nat → Option Nat) (s : AffinitySet) (l : HLevel) :
    Prop where
  set : l.set = s
  nkids : l.nkids = (images f (cpus s.who)).length
  kids : l.kidsList = (images f (cpus s.who)).map some

/-- The others of a level are those of a set that includes its own. -/
structure HasOthers (f : Nat → Option Nat) (l next : HLevel) : Prop where
  included : Included l.set next.set
  nnotself : l.nnotself = (images f (others l.set next.set)).length
  notself : l.notselfList = (images f (others l.set next.set)).map some

variable {s s' : AffinitySet} {l next : HLevel} {cpucount : Nat}

/-- The level of a set. -/
theorem newLevel_spec (f : Nat → Option Nat) (s : AffinitySet) :
    ∃ l, newLevel f s = some l ∧ IsLevel f s l := by
  have hn : (cpus s.who).length ≤ s.ncpu := Nat.le_of_eq s.ncpu_eq.symm
  obtain ⟨r, hr⟩ := kids_fit (f := f) hn
  rw [← s.ncpu_eq] at hr
  obtain ⟨htake, hcount⟩ := cpuset2kids_spec hn hr
  unfold newLevel
  rw [hr]
  exact ⟨_, rfl, rfl, hcount, htake⟩

/-- The levels of the sets, from the first on. -/
theorem newLevels_spec (f : Nat → Option Nat) (sets : List AffinitySet)
    (depth : Nat) (h : depth + sets.length ≤ 8) :
    ∃ ls, newLevels f sets depth = some ls
      ∧ List.Forall₂ (IsLevel f) sets ls := by
  induction sets generalizing depth with
  | nil => exact ⟨[], rfl, .nil⟩
  | cons s rest ih =>
    rw [List.length_cons] at h
    obtain ⟨l, hl, hlevel⟩ := newLevel_spec f s
    obtain ⟨ls, hls, hall⟩ := ih (depth + 1) (by omega)
    unfold newLevels
    rw [if_pos (by omega), hl, Option.bind_some, hls]
    exact ⟨l :: ls, rfl, .cons hlevel hall⟩

/-- The kprocessors of a part of a list and those of the rest of it. -/
theorem images_length_add {p q : Nat → Bool} (hpq : ∀ i ∈ is, p i = true → q i = true) :
    (images f (is.filter q)).length = (images f (is.filter p)).length
      + (images f (is.filter fun i => q i && !p i)).length := by
  unfold images
  induction is with
  | nil => rfl
  | cons i is ih =>
    have ih := ih fun j hj => hpq j (List.mem_cons_of_mem i hj)
    have hi := hpq i List.mem_cons_self
    cases hp : p i with
    | true =>
      rw [List.filter_cons_of_pos (hi hp), List.filter_cons_of_pos hp,
        List.filter_cons_of_neg (by rw [hp, hi hp]; decide)]
      cases hk : f i with
      | none =>
        rw [List.filterMap_cons_none hk, List.filterMap_cons_none hk]
        exact ih
      | some k =>
        rw [List.filterMap_cons_some hk, List.filterMap_cons_some hk,
          List.length_cons, List.length_cons]
        omega
    | false =>
      rw [List.filter_cons_of_neg (by rw [hp]; decide) (p := p)]
      cases hq : q i with
      | false =>
        rw [List.filter_cons_of_neg (by rw [hq]; decide) (p := q),
          List.filter_cons_of_neg (by rw [hq, hp]; decide)]
        exact ih
      | true =>
        rw [List.filter_cons_of_pos hq,
          List.filter_cons_of_pos (by rw [hq, hp]; decide)]
        cases hk : f i with
        | none =>
          rw [List.filterMap_cons_none hk, List.filterMap_cons_none hk]
          exact ih
        | some k =>
          rw [List.filterMap_cons_some hk, List.filterMap_cons_some hk,
            List.length_cons, List.length_cons]
          omega

/-- The kids of a set and the others of the next one. -/
theorem nkids_add (hin : Included s s') :
    (images f (cpus s'.who)).length = (images f (cpus s.who)).length
      + (images f (others s s')).length :=
  images_length_add fun c hc => hin c (List.mem_range.mp hc)

theorem others_length_le (s s' : AffinitySet) :
    (others s s').length ≤ s'.ncpu := by
  rw [s'.ncpu_eq]
  have hsub : (others s s').Sublist (cpus s'.who) :=
    List.monotone_filter_right _ fun c hc => (Bool.and_eq_true _ _ ▸ hc).1
  exact hsub.length_le

/-- The others fit in their array iff the last of the cpus carries a
kprocessor. -/
theorem setNotself_spec (hl : IsLevel f s l) (hnext : IsLevel f s' next)
    (hin : Included s s') (hn : s'.ncpu ≤ cpucount) :
    ((∃ l', setNotself f cpucount l next = some l') ↔ LastMapped f s s')
      ∧ ∀ l', setNotself f cpucount l next = some l' →
        IsLevel f s l' ∧ HasOthers f l' next := by
  have hadd := nkids_add (f := f) hin
  rw [← hl.nkids, ← hnext.nkids] at hadd
  have hmem : (∃ c ∈ others s s', (f c).isSome = true)
      ↔ 0 < (images f (others s s')).length := by
    rw [List.length_pos_iff_exists_mem]
    constructor
    · rintro ⟨c, hc, hsome⟩
      obtain ⟨k, hk⟩ := Option.isSome_iff_exists.mp hsome
      exact ⟨k, List.mem_filterMap.mpr ⟨c, hc, hk⟩⟩
    · rintro ⟨k, hk⟩
      obtain ⟨c, hc, hk⟩ := List.mem_filterMap.mp hk
      exact ⟨c, hc, Option.isSome_iff_exists.mpr ⟨k, hk⟩⟩
  unfold setNotself LastMapped
  rw [if_neg (by omega), hmem]
  by_cases heq : next.nkids = l.nkids
  · have hzero : (images f (others s s')).length = 0 := by omega
    rw [if_pos heq]
    refine ⟨iff_of_true ⟨_, rfl⟩ fun hpos => by omega, fun l' hl' => ?_⟩
    cases hl'
    refine ⟨⟨hl.set, hl.nkids, hl.kids⟩, ?_⟩
    have hnil := List.eq_nil_of_length_eq_zero hzero
    refine ⟨?_, ?_, ?_⟩
    · show Included l.set next.set
      rw [hl.set, hnext.set]
      exact hin
    · show 0 = (images f (others l.set next.set)).length
      rw [hl.set, hnext.set, hzero]
    · show l.notself.take 0 = (images f (others l.set next.set)).map some
      rw [hl.set, hnext.set, hnil]
      rfl
  · have hsize : next.nkids - l.nkids = (images f (others s s')).length := by
      omega
    have hpos : 0 < (images f (others s s')).length := by omega
    have hcpus : cpus (notand next.set.who l.set.who) = others s s' := by
      rw [hnext.set, hl.set]
      exact cpus_notand hin
    have hlen : (cpus (notand next.set.who l.set.who)).length ≤ cpucount := by
      rw [hcpus]
      exact Nat.le_trans (others_length_le s s') hn
    have hfit := kids_fit_iff (f := f) hlen (by rw [hcpus]; exact hpos)
    rw [hcpus] at hfit
    rw [if_neg heq, hsize, forall_prop_of_true hpos, ← hfit]
    refine ⟨?_, fun l' hl' => ?_⟩
    · constructor
      · rintro ⟨l', hl'⟩
        obtain ⟨r, hr, -⟩ := Option.map_eq_some_iff.mp hl'
        exact ⟨r, hr⟩
      · rintro ⟨r, hr⟩
        exact ⟨_, Option.map_eq_some_iff.mpr ⟨r, hr, rfl⟩⟩
    · obtain ⟨r, hr, rfl⟩ := Option.map_eq_some_iff.mp hl'
      obtain ⟨htake, hcount⟩ := cpuset2kids_spec hlen hr
      rw [hcpus] at htake hcount
      refine ⟨⟨hl.set, hl.nkids, hl.kids⟩, ?_, ?_, ?_⟩
      · show Included l.set next.set
        rw [hl.set, hnext.set]
        exact hin
      · show r.2 = (images f (others l.set next.set)).length
        rw [hl.set, hnext.set, hcount]
      · show r.1.take r.2 = (images f (others l.set next.set)).map some
        rw [hl.set, hnext.set, htake]

/-- The others of every level, or a fault. -/
theorem setNotselfs_spec (hls : List.Forall₂ (IsLevel f) sets ls)
    (hin : sets.IsChain Included) (hn : ∀ s ∈ sets, s.ncpu ≤ cpucount) :
    ((∃ ls', setNotselfs f cpucount ls = some ls')
        ↔ sets.IsChain (LastMapped f))
      ∧ ∀ ls', setNotselfs f cpucount ls = some ls' →
        List.Forall₂ (IsLevel f) sets ls' ∧ ls'.IsChain (HasOthers f) := by
  induction hls with
  | nil =>
    refine ⟨iff_of_true ⟨[], rfl⟩ .nil, fun ls' h => ?_⟩
    cases h
    exact ⟨.nil, .nil⟩
  | @cons s l sets ls hl hls ih =>
    cases hls with
    | nil =>
      refine ⟨iff_of_true ⟨[l], rfl⟩ (.singleton s), fun ls' h => ?_⟩
      cases h
      exact ⟨.cons hl .nil, .singleton l⟩
    | @cons s' next sets ls hnext hls =>
      obtain ⟨hss, hin⟩ := List.isChain_cons_cons.mp hin
      obtain ⟨hiff, hspec⟩ := setNotself_spec hl hnext hss
        (hn s' (List.mem_cons_of_mem _ List.mem_cons_self))
      obtain ⟨ihiff, ihspec⟩ := ih hin
        fun x hx => hn x (List.mem_cons_of_mem _ hx)
      rw [List.isChain_cons_cons, ← hiff, ← ihiff]
      constructor
      · constructor
        · rintro ⟨ls', h⟩
          obtain ⟨l', hl', h⟩ := Option.bind_eq_some_iff.mp h
          obtain ⟨rest, hrest, -⟩ := Option.map_eq_some_iff.mp h
          exact ⟨⟨l', hl'⟩, rest, hrest⟩
        · rintro ⟨⟨l', hl'⟩, rest, hrest⟩
          refine ⟨l' :: rest, Option.bind_eq_some_iff.mpr ⟨l', hl', ?_⟩⟩
          exact Option.map_eq_some_iff.mpr ⟨rest, hrest, rfl⟩
      · intro ls' h
        obtain ⟨l', hl', h⟩ := Option.bind_eq_some_iff.mp h
        obtain ⟨rest, hrest, rfl⟩ := Option.map_eq_some_iff.mp h
        obtain ⟨hlevel, hothers⟩ := hspec l' hl'
        obtain ⟨hall, hchain⟩ := ihspec rest hrest
        refine ⟨.cons hlevel hall, ?_⟩
        cases hall with
        | @cons _ next' _ rest' hnext' hall' =>
          refine List.isChain_cons_cons.mpr ⟨?_, hchain⟩
          -- the next level has the same set as before
          have hset : next'.set = next.set := hnext'.set.trans hnext.set.symm
          exact ⟨hset ▸ hothers.included, hset ▸ hothers.nnotself,
            hset ▸ hothers.notself⟩

-- ======== the kprocessors

/-- The kids of a set are those mapped to it. -/
theorem mem_images_cpus {k : Nat} :
    k ∈ images f (cpus s.who) ↔ Mapped f s k := by
  unfold images Mapped
  rw [List.mem_filterMap]
  constructor
  · rintro ⟨c, hc, hk⟩
    obtain ⟨hlt, hhas⟩ := mem_cpus.mp hc
    exact ⟨c, hlt, hhas, hk⟩
  · rintro ⟨c, hlt, hhas, hk⟩
    exact ⟨c, mem_cpus.mpr ⟨hlt, hhas⟩, hk⟩

/-- No kprocessor is mapped to two cpus. -/
def OneToOne (f : Nat → Option Nat) : Prop :=
  ∀ c c' k, f c = some k → f c' = some k → c = c'

theorem mem_images_others (hf : OneToOne f) {k : Nat} :
    k ∈ images f (others s s') ↔ Mapped f s' k ∧ ¬ Mapped f s k := by
  unfold images
  rw [List.mem_filterMap]
  constructor
  · rintro ⟨c, hc, hk⟩
    obtain ⟨hlt, hhas', hhas⟩ := mem_others.mp hc
    refine ⟨⟨c, hlt, hhas', hk⟩, ?_⟩
    rintro ⟨c', -, hc', hk'⟩
    rw [hf c' c k hk' hk, hhas] at hc'
    cases hc'
  · rintro ⟨⟨c, hlt, hhas', hk⟩, hnot⟩
    refine ⟨c, mem_others.mpr ⟨hlt, hhas', ?_⟩, hk⟩
    rw [Bool.eq_false_iff]
    exact fun hhas => hnot ⟨c, hlt, hhas, hk⟩

/-- Each of them is listed once. -/
theorem lists_images (hf : OneToOne f) {cs : List Nat} (hcs : cs.Nodup)
    {P : Nat → Prop} (hP : ∀ k, k ∈ images f cs ↔ P k) :
    Lists ((images f cs).map some) P := by
  constructor
  · refine List.Nodup.map (fun _ _ he => Option.some.inj he) ?_
    exact hcs.filterMap fun c c' k hc hc' => hf c c' k hc hc'
  · intro e
    rw [List.mem_map]
    constructor
    · rintro ⟨k, hk, rfl⟩
      exact ⟨k, rfl, (hP k).mp hk⟩
    · rintro ⟨k, rfl, hk⟩
      exact ⟨k, (hP k).mpr hk, rfl⟩

/-- A level lists its kids. -/
theorem IsLevel.holdsKids (hf : OneToOne f) (h : IsLevel f s l) :
    HoldsKids f l := by
  unfold HoldsKids
  rw [h.kids, h.set]
  exact lists_images hf (List.nodup_range.filter _) fun _ => mem_images_cpus

/-- It lists the others of the next level. -/
theorem HasOthers.holdsOthers (hf : OneToOne f) (h : HasOthers f l next)
    {l' : HLevel} (hsame : ∀ k, Mapped f l'.set k ↔ Mapped f next.set k) :
    HoldsOthers f l l' := by
  unfold HoldsOthers
  rw [h.notself]
  refine lists_images hf (List.nodup_range.filter _) fun k => ?_
  rw [hsame k]
  exact mem_images_others hf

theorem HasOthers.same_of_none (hf : OneToOne f) (h : HasOthers f l next)
    (hnone : l.nnotself = 0) (k : Nat) :
    Mapped f next.set k ↔ Mapped f l.set k := by
  constructor
  · intro hk
    by_contra hnot
    have hmem := (mem_images_others hf).mpr ⟨hk, hnot⟩
    rw [h.nnotself] at hnone
    rw [List.eq_nil_of_length_eq_zero hnone] at hmem
    cases hmem
  · rintro ⟨c, hlt, hhas, hk⟩
    exact ⟨c, hlt, h.included c hlt hhas, hk⟩

-- ======== compaction

/-- What the compaction leaves of the levels from one on: the first one has
the same kprocessors. -/
structure Compacted (f : Nat → Option Nat) (l : HLevel) (ls : List HLevel)
    (out : List HLevel) : Prop where
  head : ∃ l' rest, out = l' :: rest ∧ ∀ k, Mapped f l'.set k ↔ Mapped f l.set k
  sub : ∀ x ∈ out, x ∈ l :: ls
  chain : out.IsChain (HoldsOthers f)
  union : ∀ k, (∃ x ∈ l :: ls, Mapped f x.set k) → ∃ x ∈ out, Mapped f x.set k

/-- The levels that are kept. -/
theorem kept_compacted (hf : OneToOne f) {n : Nat} (hn : n = i + (ls.length + 1))
    (hchain : (l :: ls).IsChain (HasOthers f)) :
    Compacted f l ls (kept (keeps n) i (l :: ls)) := by
  induction ls generalizing l i with
  | nil =>
    have hlast : i = n - 1 := by
      rw [List.length_nil] at hn
      omega
    have hkeep : keeps n i l = true := by
      unfold keeps
      rw [hlast, beq_self_eq_true, Bool.or_true]
    have hkept : kept (keeps n) i [l] = [l] := if_pos hkeep
    rw [hkept]
    exact ⟨⟨l, [], rfl, fun _ => Iff.rfl⟩, fun _ hx => hx, .singleton l,
      fun _ hx => hx⟩
  | cons next ls ih =>
    obtain ⟨hnext, hchain⟩ := List.isChain_cons_cons.mp hchain
    rw [List.length_cons] at hn
    have hrest := ih (i := i + 1) (by omega) hchain
    obtain ⟨l', rest, hout, hsame⟩ := hrest.head
    have hcons : kept (keeps n) i (l :: next :: ls) = if keeps n i l
        then l :: kept (keeps n) (i + 1) (next :: ls)
        else kept (keeps n) (i + 1) (next :: ls) := rfl
    rw [hcons]
    by_cases hkeep : keeps n i l = true
    · rw [if_pos hkeep]
      refine ⟨⟨l, _, rfl, fun _ => Iff.rfl⟩, fun x hx => ?_, ?_, fun k hk => ?_⟩
      · rcases List.mem_cons.mp hx with rfl | hx
        · exact List.mem_cons_self
        · exact List.mem_cons_of_mem _ (hrest.sub x hx)
      · have htail := hrest.chain
        rw [hout] at htail ⊢
        exact List.isChain_cons_cons.mpr ⟨hnext.holdsOthers hf hsame, htail⟩
      · obtain ⟨x, hx, hk⟩ := hk
        rcases List.mem_cons.mp hx with rfl | hx
        · exact ⟨x, List.mem_cons_self, hk⟩
        · obtain ⟨y, hy, hk⟩ := hrest.union k ⟨x, hx, hk⟩
          exact ⟨y, List.mem_cons_of_mem _ hy, hk⟩
    · rw [if_neg hkeep]
      have hnone : l.nnotself = 0 := by
        unfold keeps at hkeep
        rw [Bool.or_eq_true, not_or, bne_iff_ne, Classical.not_not] at hkeep
        exact hkeep.1
      have heq := hnext.same_of_none hf hnone
      refine ⟨⟨l', rest, hout, fun k => (hsame k).trans (heq k)⟩,
        fun x hx => List.mem_cons_of_mem _ (hrest.sub x hx), hrest.chain,
        fun k hk => ?_⟩
      obtain ⟨x, hx, hk⟩ := hk
      rcases List.mem_cons.mp hx with rfl | hx
      · exact hrest.union k ⟨next, List.mem_cons_self, (heq k).mpr hk⟩
      · exact hrest.union k ⟨x, hx, hk⟩

-- ======== the result

theorem setsOf_length_le (cpuid : Nat) {memory : List (List AffinitySet)}
    (hone : ∀ level ∈ memory,
      (level.filter fun s => s.who.has cpuid).length ≤ 1) :
    (setsOf cpuid memory).length ≤ memory.length := by
  unfold setsOf
  induction memory with
  | nil => exact Nat.le_refl 0
  | cons level memory ih =>
    rw [List.flatMap_cons, List.length_append, List.length_cons]
    have h₁ := hone level List.mem_cons_self
    have h₂ := ih fun x hx => hone x (List.mem_cons_of_mem _ hx)
    omega

theorem exists_set (hall : List.Forall₂ (IsLevel f) sets ls) (hl : l ∈ ls) :
    ∃ s ∈ sets, IsLevel f s l := by
  induction hall with
  | nil => cases hl
  | cons h _ ih =>
    rcases List.mem_cons.mp hl with rfl | hl
    · exact ⟨_, List.mem_cons_self, h⟩
    · obtain ⟨s, hs, hlevel⟩ := ih hl
      exact ⟨s, List.mem_cons_of_mem _ hs, hlevel⟩

theorem exists_level (hall : List.Forall₂ (IsLevel f) sets ls) (hs : s ∈ sets) :
    ∃ l ∈ ls, l.set = s := by
  induction hall with
  | nil => cases hs
  | cons h _ ih =>
    rcases List.mem_cons.mp hs with rfl | hs
    · exact ⟨_, List.mem_cons_self, h.set⟩
    · obtain ⟨l, hl, hset⟩ := ih hs
      exact ⟨l, List.mem_cons_of_mem _ hl, hset⟩

/-- The levels give a good topology. -/
theorem goodTopo_of_levels {t : Topology}
    (hall : List.Forall₂ (IsLevel t.cpu2kid) (setsOf t.cpuid t.memory) ls)
    (hchain : ls.IsChain (HasOthers t.cpu2kid)) : GoodTopo t (compactLevels ls) := by
  have hf : OneToOne t.cpu2kid := t.injective
  have hcompact : compactLevels ls = kept (keeps ls.length) 0 ls :=
    compact_spec ls
  have hsub : ∀ x ∈ compactLevels ls, x ∈ ls := by
    intro x hx
    rw [hcompact] at hx
    obtain ⟨j, hj, -⟩ := mem_kept.mp hx
    exact List.mem_of_getElem? hj
  have hkids : ∀ x ∈ compactLevels ls, HoldsKids t.cpu2kid x := by
    intro x hx
    obtain ⟨s, -, hlevel⟩ := exists_set hall (hsub x hx)
    exact hlevel.holdsKids hf
  have hunion : (compactLevels ls).IsChain (HoldsOthers t.cpu2kid)
      ∧ ∀ k, (∃ x ∈ ls, Mapped t.cpu2kid x.set k) →
        ∃ x ∈ compactLevels ls, Mapped t.cpu2kid x.set k := by
    cases ls with
    | nil => exact ⟨.nil, fun k ⟨x, hx, _⟩ => nomatch hx⟩
    | cons l ls =>
      have h := kept_compacted hf (i := 0) (n := (l :: ls).length)
        (Nat.zero_add _).symm hchain
      rw [hcompact]
      exact ⟨h.chain, h.union⟩
  refine ⟨fun x hx => ?_, hkids, hunion.1, fun k => ?_⟩
  · obtain ⟨s, hs, hlevel⟩ := exists_set hall (hsub x hx)
    rw [hlevel.set]
    exact hs
  · constructor
    · rintro ⟨x, hx, hk⟩
      obtain ⟨k', hk', hmapped⟩ := ((hkids x hx).2 _).mp hk
      cases hk'
      obtain ⟨s, hs, hlevel⟩ := exists_set hall (hsub x hx)
      exact ⟨s, hs, hlevel.set ▸ hmapped⟩
    · rintro ⟨s, hs, hmapped⟩
      obtain ⟨l, hl, rfl⟩ := exists_level hall hs
      obtain ⟨x, hx, hmapped⟩ := hunion.2 k ⟨l, hl, hmapped⟩
      exact ⟨x, hx, ((hkids x hx).2 _).mpr ⟨k, rfl, hmapped⟩⟩

/-- For every hierarchy of sets and every partial one-to-one map from cpus
to kids: no write is outside of its array and the levels are as they should
be, after the compaction, iff the last cpu that a level adds carries a
kprocessor (or none that it adds does). -/
theorem computetopo_iff (t : Topology) :
    (∃ ls, computetopo t = some ls ∧ GoodTopo t ls) ↔ t.Fits := by
  have hlen := setsOf_length_le t.cpuid t.one
  have hdepth := t.depth_lt
  obtain ⟨ls, hls, hall⟩ := newLevels_spec t.cpu2kid
    (setsOf t.cpuid t.memory) 0 (by omega)
  obtain ⟨hiff, hspec⟩ := setNotselfs_spec hall t.included t.ncpu_le
  unfold Topology.Fits computetopo
  rw [hls, ← hiff]
  constructor
  · rintro ⟨out, hout, -⟩
    obtain ⟨ls', hls', -⟩ := Option.map_eq_some_iff.mp hout
    exact ⟨ls', hls'⟩
  · rintro ⟨ls', hls'⟩
    obtain ⟨hall', hchain⟩ := hspec ls' hls'
    refine ⟨compactLevels ls', ?_, goodTopo_of_levels hall' hchain⟩
    exact Option.map_eq_some_iff.mpr ⟨ls', hls', rfl⟩

/-- Two caches of two cpus; the cpu 3 carries no kprocessor. -/
def threeOfFour : Topology where
  cpu2kid c := if c < 3 then some c else none
  memory :=
    [[⟨⟨fun i => if i = 0 then 3 else 0⟩, 2, by decide +kernel⟩,
      ⟨⟨fun i => if i = 0 then 12 else 0⟩, 2, by decide +kernel⟩],
      [⟨⟨fun i => if i = 0 then 15 else 0⟩, 4, by decide +kernel⟩]]
  cpuid := 0
  cpucount := 4
  injective c c' k hc hc' := by
    obtain ⟨-, hc⟩ := Option.ite_none_right_eq_some.mp hc
    obtain ⟨-, hc'⟩ := Option.ite_none_right_eq_some.mp hc'
    exact (Option.some.inj hc).trans (Option.some.inj hc').symm
  depth_lt := by decide
  one := by decide
  included := by decide +kernel
  ncpu_le := by decide

/-- The entry of the cpu 3 is written after the end of `notself`. -/
theorem threeOfFour_overflows :
    ¬ ∃ ls, computetopo threeOfFour = some ls ∧ GoodTopo threeOfFour ls := by
  have hnone : (computetopo threeOfFour).isNone = true := by decide +kernel
  rintro ⟨ls, hls, -⟩
  rw [hls] at hnone
  cases hnone

end XKaapi.Steal
