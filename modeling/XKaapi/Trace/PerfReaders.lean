/-
Which calls that read or accumulate performance counters give the counters
they are asked for: exactly those of `Meets`.

In one direction the loop is run on the set that was built. In the other,
each call that is left out is run on registers for which its error shows:
equal in both banks when the wrong register is read, different when the
wrong bank is.
-/
import XKaapi.Trace.PerfCounters

namespace XKaapi.Trace.Perf

-- ======== where the values are right

/-- The functions read the right counters of a set that was built, of ids of
the map, where it may lie: those that accumulate over the kprocessors, the
reading one for the user counters only; those for one kprocessor, of the
empty set only. -/
def Meets (r : Reader) (b : Banks) : Request → Prop
  | .single _ => False
  | .built address ids =>
    (∀ id ∈ ids, id < KAAPI_PERF_ID_MAX) ∧ Placed address ids ∧ match r with
      | .accumCounters => True
      | .readCounters => b = .usr
      | .readRegister => b = .usr ∧ ids = []
      | .accumRegister => ids = []

variable {counter : List Counter} {ids : List Nat} {r : Reader} {req : Request}
  {b : Banks}

theorem accum_counters_eq {mem : Nat → Option IdSet} {storage set : IdSet} {address : Nat}
    (hget : get_perf_idset mem address storage = some set) (hsel : Selects set ids)
    (b : Banks) (procs : List Kproc) (hlen : (selected ids).length ≤ counter.length) :
    _kaapi_perf_accum_counters mem storage procs address b.isuser counter
      = some (fill (fun i v => v + (procs.map (b.value · i)).sum) (selected ids)
          counter) := by
  unfold _kaapi_perf_accum_counters
  rw [if_pos (by cases b <;> decide), hget]
  refine hsel.loop (fun i v => ?_) hlen
  rw [accumAll_eq]

theorem fill_cleared (f : Nat → Counter) (hlen : ids.length ≤ counter.length) :
    fill (fun i v => v + f i) ids
        (List.replicate ids.length 0 ++ counter.drop ids.length)
      = fill (fun i _ => f i) ids counter := by
  induction ids generalizing counter with
  | nil => simp [fill]
  | cons i ids ih =>
    cases counter with
    | nil => cases hlen
    | cons v counter =>
      have hrest := ih (Nat.le_of_succ_le_succ hlen)
      simpa [fill, List.replicate_succ] using hrest

theorem Meets.right (h : Meets r b req) : Right r b req := by
  intro storage procs self counter hstorage hself hlen
  cases req with
  | single id => exact h.elim
  | built address ids =>
    obtain ⟨hids, hplaced, hr⟩ := h
    obtain ⟨set, hbuild, hset⟩ := build_marks hids
    simp only [Request.mem, hbuild, Option.map_some, Option.bind_some, Request.param,
      Request.ids] at hlen ⊢
    generalize hm : (fun a => if a = address then some set else none) = mem
    have hmem : mem address = some set := by simp [← hm]
    obtain ⟨set', hget, hsel⟩ := get_perf_idset_selects hset hmem hplaced hstorage
    cases r with
    | accumCounters => exact accum_counters_eq hget hsel b procs hlen
    | readCounters =>
      obtain rfl : b = .usr := hr
      simp only [Reader.call, _kaapi_perf_read_counters]
      have hcount : set.count = (selected ids).length := hset.selects.count
      rw [if_pos (.inr rfl), hmem, Option.bind_some, hcount, if_pos hlen]
      refine (accum_counters_eq hget hsel .usr procs (by simp)).trans ?_
      rw [fill_cleared _ hlen]
      rfl
    | readRegister =>
      obtain ⟨rfl, rfl⟩ := hr
      simp only [Reader.call, _kaapi_perf_read_register]
      rw [if_pos (.inr rfl), hget, Option.bind_some,
        show set'.count = 0 from hsel.count,
        filterLoop_done (Nat.le_refl 0)]
      rfl
    | accumRegister =>
      obtain rfl : ids = [] := hr
      simp only [Reader.call, _kaapi_perf_accum_register]
      rw [hget, Option.bind_some, show set'.count = 0 from hsel.count,
        filterLoop_done (Nat.le_refl 0)]
      rfl

-- ======== where they are not

/-- Registers for which a wrong counter shows: the same in both banks. -/
def alike (f : Nat → Counter) : Kproc := ⟨fun _ => f⟩

/-- The local set when its bytes happen to be zero. -/
def cleared : IdSet := kaapi_perf_idset_zero

/-- The array before the call. -/
def zeros : List Counter := List.replicate KAAPI_PERF_ID_MAX 0

/-- The set made from a listed id marks nothing when the id is 0, and the
counter 0 otherwise. -/
theorem loop_listed {upd : Nat → Counter → Option Counter} {c : Nat} {y : List Counter}
    (hc : c ∈ listedIds)
    (h : filterLoop 1 upd (cleared.idmap.set 0 (UInt8.ofNat c)) 0 0 zeros = some y) :
    c ≠ 0 ∧ ∃ x, upd 0 0 = some x ∧ y = x :: List.replicate 18 0 := by
  have hset : cleared.idmap.set 0 (UInt8.ofNat c) = UInt8.ofNat c :: List.replicate 18 0 :=
    rfl
  rw [hset] at h
  by_cases h0 : c = 0
  · subst h0
    cases h
  · refine ⟨h0, ?_⟩
    have hcell : zeros[0]? = some 0 := rfl
    unfold filterLoop at h
    rw [if_pos Nat.zero_lt_one, if_pos (toUInt8_ne_zero c hc h0), hcell] at h
    dsimp only at h
    cases hu : upd 0 0 with
    | none => rw [hu] at h; cases h
    | some x =>
      rw [hu] at h
      dsimp only at h
      rw [filterLoop_done (Nat.le_refl 1)] at h
      exact ⟨x, rfl, (Option.some.inj h).symm⟩

/-- At a listed id, a call that returns has written the counter 0 in the
first cell, and nothing else. -/
theorem call_listed {f : Nat → Counter} {mem : Nat → Option IdSet} {param : Nat}
    (hl : casted param ∈ listedIds) {y : List Counter}
    (h : r.call mem cleared [alike f] (alike f) param b.isuser zeros = some y) :
    casted param ≠ 0
      ∧ ∃ x, (x = f 0 ∨ x = f 0 + f 0) ∧ y = x :: List.replicate 18 0 := by
  have haccum : ∀ {y}, _kaapi_perf_accum_counters mem cleared [alike f] param b.isuser
      zeros = some y → casted param ≠ 0
        ∧ ∃ x, (x = f 0 ∨ x = f 0 + f 0) ∧ y = x :: List.replicate 18 0 := by
    intro y h
    unfold _kaapi_perf_accum_counters get_perf_idset at h
    rw [if_pos (by cases b <;> decide), if_pos hl] at h
    obtain ⟨h0, x, hx, hy⟩ := loop_listed hl h
    refine ⟨h0, x, ?_, hy⟩
    rw [← Option.some.inj hx, accumAll_eq]
    cases b with
    | usr => simp [Banks.value, alike]
    | sys => simp [Banks.value, alike]
    | both => simp [Banks.value, alike]
  have hreg : ∀ {upd : Nat → Counter → Option Counter} {y},
      (∀ x, upd 0 0 = some x → x = f 0) →
      ((get_perf_idset mem param cleared).bind fun set =>
        filterLoop set.count upd set.idmap 0 0 zeros) = some y →
      casted param ≠ 0
        ∧ ∃ x, (x = f 0 ∨ x = f 0 + f 0) ∧ y = x :: List.replicate 18 0 := by
    intro upd y hupd h
    unfold get_perf_idset at h
    rw [if_pos hl] at h
    obtain ⟨h0, x, hx, hy⟩ := loop_listed hl h
    exact ⟨h0, x, .inl (hupd x hx), hy⟩
  cases r with
  | accumCounters => exact haccum h
  | readCounters =>
    simp only [Reader.call, _kaapi_perf_read_counters] at h
    split at h
    · obtain ⟨set, -, h⟩ := Option.bind_eq_some_iff.1 h
      split at h
      · next hle =>
        have hz : List.replicate set.count 0 ++ zeros.drop set.count = zeros := by
          have hle : set.count ≤ KAAPI_PERF_ID_MAX := by simpa [zeros] using hle
          rw [zeros, List.drop_replicate, List.replicate_append_replicate,
            Nat.add_sub_cancel' hle]
        rw [hz] at h
        exact haccum h
      · cases h
    · cases h
  | readRegister =>
    simp only [Reader.call, _kaapi_perf_read_register] at h
    split at h
    · refine hreg (fun x hx => ?_) h
      obtain ⟨bank, -, rfl⟩ := Option.map_eq_some_iff.1 hx
      rfl
    · cases h
  | accumRegister =>
    refine hreg (fun x hx => ?_) h
    obtain ⟨bank, -, rfl⟩ := Option.map_eq_some_iff.1 hx
    exact BitVec.zero_add _

theorem selected_length_le (ids : List Nat) :
    (selected ids).length ≤ zeros.length := by
  simpa [selected, zeros] using
    List.length_filter_le (· ∈ ids) (List.range KAAPI_PERF_ID_MAX)

theorem mem_fill (value : Nat → Counter → Counter) {w : Nat} (hw : w ∈ ids)
    (hlen : ids.length ≤ counter.length) :
    ∃ v ∈ counter, value w v ∈ fill value ids counter := by
  induction ids generalizing counter with
  | nil => cases hw
  | cons i ids ih =>
    cases counter with
    | nil => cases hlen
    | cons v counter =>
      rcases List.mem_cons.1 hw with rfl | hw
      · exact ⟨v, List.mem_cons_self, List.mem_cons_self⟩
      · obtain ⟨u, hu, hfill⟩ := ih hw (Nat.le_of_succ_le_succ hlen)
        exact ⟨u, List.mem_cons_of_mem _ hu, List.mem_cons_of_mem _ hfill⟩

theorem value_alike (r : Reader) (b : Banks) {f : Nat → Counter} {i : Nat} (h : f i = 1) :
    r.value b [alike f] (alike f) i 0 ≠ 0 := by
  cases r <;> cases b <;> simp [Reader.value, Banks.value, alike, h]

/-- A listed id selects the counter 0: that is wrong for every selection but
that one. -/
theorem not_right_of_listed (hl : casted req.param ∈ listedIds)
    (h : casted req.param = 0 ∨ req.ids = []
      ∨ ∃ w ∈ req.ids, w < KAAPI_PERF_ID_MAX ∧ w ≠ 0) : ¬ Right r b req := by
  intro hright
  have hcall : ∀ f : Nat → Counter, casted req.param ≠ 0
      ∧ ∃ x, (x = f 0 ∨ x = f 0 + f 0)
        ∧ fill (r.value b [alike f] (alike f)) (selected req.ids) zeros
          = x :: List.replicate 18 0 := by
    intro f
    have hrun := hright cleared [alike f] (alike f) zeros rfl List.mem_cons_self
      (selected_length_le _)
    obtain ⟨mem, -, hrun⟩ := Option.bind_eq_some_iff.1 hrun
    exact call_listed hl hrun
  rcases h with h | h | ⟨w, hw, hlt, hw0⟩
  · exact (hcall fun _ => 0).1 h
  · obtain ⟨-, x, hx, hfill⟩ := hcall fun _ => 1
    rw [h] at hfill
    have h0 : (0 : Counter) = x := (List.cons.inj hfill).1
    subst h0
    rcases hx with hx | hx <;> simp at hx
  · obtain ⟨-, x, hx, hfill⟩ := hcall fun i => if i = 0 then 0 else 1
    have h0 : x = 0 := by simpa using hx
    have hsel : w ∈ selected req.ids :=
      List.mem_filter.2 ⟨List.mem_range.2 hlt, decide_eq_true hw⟩
    obtain ⟨v, hv, hmem⟩ := mem_fill (r.value b _ _) hsel (selected_length_le req.ids)
    obtain rfl : v = 0 := List.eq_of_mem_replicate hv
    rw [hfill, h0] at hmem
    refine value_alike r b (f := fun i => if i = 0 then 0 else 1) (if_neg hw0) ?_
    exact List.eq_of_mem_replicate (n := KAAPI_PERF_ID_MAX) hmem

/-- The first cell shows which register was read. -/
theorem fill_head {value value' : Nat → Counter → Counter} (hne : ids ≠ [])
    (hlen : ids.length ≤ zeros.length) (h : ∀ i, value i 0 ≠ value' i 0) :
    fill value ids zeros ≠ fill value' ids zeros := by
  obtain ⟨i, ids, rfl⟩ := List.exists_cons_of_ne_nil hne
  exact fun heq => h i (List.cons.inj heq).1

theorem selected_ne_nil (hids : ∀ id ∈ ids, id < KAAPI_PERF_ID_MAX) (hne : ids ≠ []) :
    selected ids ≠ [] := by
  obtain ⟨id, rest, rfl⟩ := List.exists_cons_of_ne_nil hne
  refine List.ne_nil_of_mem (a := id) (List.mem_filter.2 ⟨List.mem_range.2 ?_, by simp⟩)
  exact hids id List.mem_cons_self

/-- The user registers hold 0 and the scheduler's 1. -/
def banksApart : Kproc := ⟨fun bank _ => if bank = .user then 0 else 1⟩

theorem Right.meets (h : Right r b req) : Meets r b req := by
  cases req with
  | single id =>
    exfalso
    have hcast : casted id = id := Nat.mod_eq_of_lt (id.2.trans (by decide))
    by_cases hl : casted id ∈ listedIds
    · refine absurd h (not_right_of_listed hl ?_)
      by_cases h0 : id.1 = 0
      · exact .inl (hcast.trans h0)
      · exact .inr (.inr ⟨id, List.mem_cons_self, id.2, h0⟩)
    · -- the id is used as an address, where nothing lies
      have hrun := h cleared [alike 0] (alike 0) zeros rfl List.mem_cons_self
        (selected_length_le _)
      have hget : get_perf_idset (fun _ => none) id cleared = none := if_neg hl
      cases r <;> cases b <;>
        simp [Request.mem, Request.param, Reader.call, hget, Banks.isuser,
          _kaapi_perf_accum_counters, _kaapi_perf_read_counters,
          _kaapi_perf_read_register, _kaapi_perf_accum_register] at hrun
  | built address ids =>
    have hids : ∀ id ∈ ids, id < KAAPI_PERF_ID_MAX := by
      by_contra hids
      have hnone : build ids = none := marks_zero.addAll_none hids
      have hrun := h cleared [alike 0] (alike 0) zeros rfl List.mem_cons_self
        (selected_length_le _)
      simp [Request.mem, hnone] at hrun
    have hplaced : Placed address ids := by
      by_contra hplaced
      obtain ⟨hl, hnot⟩ := not_or.1 hplaced
      refine absurd h (not_right_of_listed (not_not.1 hl) ?_)
      by_contra hcases
      obtain ⟨h0, hne, hw⟩ := not_or.1 hcases |>.imp_right not_or.1
      refine hnot ⟨h0, hne, fun id hid => ?_⟩
      by_contra hid0
      exact hw ⟨id, hid, hids id hid, hid0⟩
    refine ⟨hids, hplaced, ?_⟩
    obtain ⟨set, hbuild, hset⟩ := build_marks hids
    have hrun := h cleared [banksApart] banksApart zeros rfl List.mem_cons_self
      (selected_length_le _)
    simp only [Request.mem, hbuild, Option.map_some, Option.bind_some, Request.param,
      Request.ids] at hrun
    generalize hm : (fun a => if a = address then some set else none) = mem at hrun
    have hmem : mem address = some set := by simp [← hm]
    obtain ⟨set', hget, hsel⟩ := get_perf_idset_selects hset hmem hplaced
      (rfl : cleared.idmap.length = KAAPI_PERF_ID_MAX)
    cases r with
    | accumCounters => trivial
    | readCounters =>
      cases b with
      | usr => rfl
      | sys => cases hrun
      | both => cases hrun
    | readRegister =>
      cases b with
      | usr =>
        refine ⟨rfl, ?_⟩
        by_contra hne
        simp only [Reader.call, _kaapi_perf_read_register] at hrun
        rw [if_pos (.inr rfl), hget, Option.bind_some] at hrun
        have hloop : _ = some (fill (fun i _ => banksApart.perf_regs .schedule i)
            (selected ids) zeros) :=
          hsel.loop (fun _ _ => rfl) (selected_length_le ids)
        exact fill_head (selected_ne_nil hids hne) (selected_length_le _)
          (fun i => by simp [Reader.value, Banks.value, banksApart])
          (Option.some.inj (hloop.symm.trans hrun))
      | sys => cases hrun
      | both => cases hrun
    | accumRegister =>
      show ids = []
      by_contra hne
      have hne' := selected_ne_nil hids hne
      have hpos : 0 < set'.count := by
        rw [hsel.count]
        exact List.length_pos_of_ne_nil hne'
      simp only [Reader.call, _kaapi_perf_accum_register] at hrun
      rw [hget, Option.bind_some] at hrun
      cases b with
      | usr =>
        have hloop : _ = some (fill (fun i v => v + banksApart.perf_regs .schedule i)
            (selected ids) zeros) :=
          hsel.loop (fun _ _ => rfl) (selected_length_le ids)
        exact fill_head hne' (selected_length_le _)
          (fun i => by simp [Reader.value, Banks.value, banksApart])
          (Option.some.inj (hloop.symm.trans hrun))
      | sys => cases (filterLoop_none (fun _ _ => rfl) hpos _ _ _).symm.trans hrun
      | both => cases (filterLoop_none (fun _ _ => rfl) hpos _ _ _).symm.trans hrun

/-- Which calls read or accumulate the counters they are asked for. -/
theorem counters_right_iff (r : Reader) (b : Banks) (req : Request) :
    Right r b req ↔ Meets r b req :=
  ⟨Right.meets, Meets.right⟩

/-- The single id 1, `KAAPI_PERF_ID_STEALREQOK`, on one kprocessor whose
register 1 is 1 and whose register 0 is 0: the call writes 0, not 1. -/
theorem single_id_reads_tasks :
    ¬ ∀ (r : Reader) (b : Banks) (req : Request), Right r b req := by
  intro h
  have hrun := h .accumCounters .usr (.single ⟨1, by decide⟩) cleared
    [alike fun i => if i = 1 then 1 else 0] _ [0] rfl List.mem_cons_self (by decide)
  revert hrun
  decide

end XKaapi.Trace.Perf
