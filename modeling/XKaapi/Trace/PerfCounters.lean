/-
Reading the performance counters: the sets of counter ids, and the four
functions that read or accumulate the counters of a set, of
`kaapi_perf_trace.c`.

A set is an id map and the number of ids in it. The functions are given
its address or, cast to an address, one counter id, and
`get_perf_idset` tells the two apart by the low half of the word. The
loop that fills the caller's array has no bound but the number of ids, so
it reads past the map when the map marks fewer.

A single id fails: the set made from it stores the id in the first byte
of the map, where the map marks the ids by position. And the functions
for one kprocessor take the flag of the user counters as the index of a
register bank, which is the bank of the scheduler.

Not modelled: the counters are `int64_t`, whose sums are taken modulo
`2 ^ 64`; the uninitialised bytes of the local set are an argument.
-/
import Mathlib.Data.BitVec

namespace XKaapi.Trace.Perf

-- ======== sets of ids

def KAAPI_PERF_ID_MAX : Nat := 19

abbrev Counter := BitVec 64

/-- `kaapi_perf_idset_t`; `idmap` has `KAAPI_PERF_ID_MAX` bytes. -/
structure IdSet where
  count : Nat
  idmap : List UInt8
deriving DecidableEq

/-- `kaapi_perf_idset_zero`. -/
def kaapi_perf_idset_zero : IdSet :=
  ⟨0, List.replicate KAAPI_PERF_ID_MAX 0⟩

/-- `kaapi_perf_idset_add`; `none` when the id is past the map. -/
def kaapi_perf_idset_add (set : IdSet) (id : Nat) : Option IdSet :=
  match set.idmap[id]? with
  | none => none
  | some b =>
    if b ≠ 0 then some set
    else some ⟨set.count + 1, set.idmap.set id 1⟩

/-- The set a program builds, one id after the other. -/
def build (ids : List Nat) : Option IdSet :=
  ids.foldlM kaapi_perf_idset_add kaapi_perf_idset_zero

/-- The ids of the `switch` of `get_perf_idset`. -/
def listedIds : List Nat := [0, 1, 2, 3, 5, 6, 7, 11, 16, 17, 18]

/-- `(kaapi_perf_id_t)(uintptr_t)param`. -/
def casted (param : Nat) : Nat := param % 2 ^ 32

/-- `get_perf_idset`, and the set that the address it returns points to:
`mem` is what the addresses hold, `storage` the caller's local set. -/
def get_perf_idset (mem : Nat → Option IdSet) (param : Nat) (storage : IdSet) :
    Option IdSet :=
  if casted param ∈ listedIds then
    some ⟨1, storage.idmap.set 0 (UInt8.ofNat (casted param))⟩
  else mem param

-- ======== the registers

/-- `KAAPI_PERF_USER_STATE`, `KAAPI_PERF_SCHEDULE_STATE`. -/
inductive Bank
  | user
  | schedule
deriving DecidableEq

/-- The bank at an index of `perf_regs`. -/
def Bank.ofIndex : Nat → Option Bank
  | 0 => some .user
  | 1 => some .schedule
  | _ => none

/-- The registers of a kprocessor; an id comes from a byte of a map. -/
structure Kproc where
  perf_regs : Bank → Nat → Counter

def KAAPI_PERF_USR_COUNTER : Nat := 1
def KAAPI_PERF_SYS_COUNTER : Nat := 2

/-- The loop over the kprocessors of `_kaapi_perf_accum_counters`. -/
def accumAll (isuser : Nat) (procs : List Kproc) : Nat → Counter :=
  procs.foldl (fun accum kproc i =>
    if isuser = KAAPI_PERF_USR_COUNTER then accum i + kproc.perf_regs .user i
    else if isuser = KAAPI_PERF_SYS_COUNTER then
      accum i + kproc.perf_regs .schedule i
    else accum i + (kproc.perf_regs .user i + kproc.perf_regs .schedule i))
    (fun _ => 0)

/-- `for (j = 0, i = 0; j < idset->count; ++i) if (idset->idmap[i]) …`, the
bytes of the map from `i` on being given: `upd` is the assignment to
`counter[j++]`. It fails past the end of the map or of the array. -/
def filterLoop (count : Nat) (upd : Nat → Counter → Option Counter) :
    List UInt8 → Nat → Nat → List Counter → Option (List Counter)
  | [], _, j, counter => if j < count then none else some counter
  | b :: idmap, i, j, counter =>
    if j < count then
      if b ≠ 0 then
        match counter[j]? with
        | none => none
        | some v =>
          match upd i v with
          | none => none
          | some v' => filterLoop count upd idmap (i + 1) (j + 1) (counter.set j v')
      else filterLoop count upd idmap (i + 1) j counter
    else some counter

section

variable (mem : Nat → Option IdSet) (local_idset : IdSet) (procs : List Kproc)
  (kproc : Kproc) (idset isuser : Nat) (counter : List Counter)

/-- `_kaapi_perf_accum_counters`. -/
def _kaapi_perf_accum_counters : Option (List Counter) :=
  if isuser = KAAPI_PERF_USR_COUNTER ∨ isuser = KAAPI_PERF_SYS_COUNTER
      ∨ isuser = KAAPI_PERF_SYS_COUNTER ||| KAAPI_PERF_USR_COUNTER then
    (get_perf_idset mem idset local_idset).bind fun set =>
      filterLoop set.count (fun i v => some (v + accumAll isuser procs i))
        set.idmap 0 0 counter
  else none

/-- `_kaapi_perf_read_counters`: the `memset` reads the count at the
address it was given. -/
def _kaapi_perf_read_counters : Option (List Counter) :=
  if isuser = 0 ∨ isuser = 1 then
    (mem idset).bind fun set =>
      if set.count ≤ counter.length then
        _kaapi_perf_accum_counters mem local_idset procs idset isuser
          (List.replicate set.count 0 ++ counter.drop set.count)
      else none
  else none

/-- `_kaapi_perf_read_register`. -/
def _kaapi_perf_read_register : Option (List Counter) :=
  if isuser = 0 ∨ isuser = 1 then
    (get_perf_idset mem idset local_idset).bind fun set =>
      filterLoop set.count
        (fun i _ => (Bank.ofIndex isuser).map (kproc.perf_regs · i))
        set.idmap 0 0 counter
  else none

/-- `_kaapi_perf_accum_register`. -/
def _kaapi_perf_accum_register : Option (List Counter) :=
  (get_perf_idset mem idset local_idset).bind fun set =>
    filterLoop set.count
      (fun i v => (Bank.ofIndex isuser).map (v + kproc.perf_regs · i))
      set.idmap 0 0 counter

end

-- ======== what is asked for

/-- The functions that read or accumulate counters. -/
inductive Reader
  | accumCounters
  | readCounters
  | readRegister
  | accumRegister
deriving DecidableEq

def Reader.call : Reader → (Nat → Option IdSet) → IdSet → List Kproc → Kproc →
    Nat → Nat → List Counter → Option (List Counter)
  | .accumCounters, mem, storage, procs, _ =>
    _kaapi_perf_accum_counters mem storage procs
  | .readCounters, mem, storage, procs, _ =>
    _kaapi_perf_read_counters mem storage procs
  | .readRegister, mem, storage, _, self =>
    _kaapi_perf_read_register mem storage self
  | .accumRegister, mem, storage, _, self =>
    _kaapi_perf_accum_register mem storage self

/-- The banks a caller asks for, by the flags `KAAPI_PERF_USR_COUNTER` and
`KAAPI_PERF_SYS_COUNTER`. -/
inductive Banks
  | usr
  | sys
  | both
deriving DecidableEq

def Banks.isuser : Banks → Nat
  | .usr => KAAPI_PERF_USR_COUNTER
  | .sys => KAAPI_PERF_SYS_COUNTER
  | .both => KAAPI_PERF_SYS_COUNTER ||| KAAPI_PERF_USR_COUNTER

/-- The counter `i` of a kprocessor in the banks asked for. -/
def Banks.value (b : Banks) (p : Kproc) (i : Nat) : Counter :=
  match b with
  | .usr => p.perf_regs .user i
  | .sys => p.perf_regs .schedule i
  | .both => p.perf_regs .user i + p.perf_regs .schedule i

/-- The argument of a call: the address of a set that was built, or one
predefined id. -/
inductive Request
  | built (address : Nat) (ids : List Nat)
  | single (id : Fin KAAPI_PERF_ID_MAX)

def Request.ids : Request → List Nat
  | .built _ ids => ids
  | .single id => [id]

def Request.param : Request → Nat
  | .built address _ => address
  | .single id => id

/-- The memory the call finds: nothing lies at the small addresses that a
single id stands for. -/
def Request.mem : Request → Option (Nat → Option IdSet)
  | .built address ids =>
    (build ids).map fun set a => if a = address then some set else none
  | .single _ => some fun _ => none

/-- The distinct ids, in increasing order. -/
def selected (ids : List Nat) : List Nat :=
  (List.range KAAPI_PERF_ID_MAX).filter (· ∈ ids)

/-- The value of the cell for the id `i`, `v` being what it held. -/
def Reader.value (r : Reader) (b : Banks) (procs : List Kproc) (self : Kproc)
    (i : Nat) (v : Counter) : Counter :=
  match r with
  | .accumCounters => v + (procs.map (b.value · i)).sum
  | .readCounters => (procs.map (b.value · i)).sum
  | .readRegister => b.value self i
  | .accumRegister => v + b.value self i

/-- One cell for each id; the cells behind them keep their values. -/
def fill (value : Nat → Counter → Counter) : List Nat → List Counter → List Counter
  | i :: ids, v :: counter => value i v :: fill value ids counter
  | _, counter => counter

/-- The call writes the value of each selected id, in increasing order, and
nothing else, whatever the registers, the array and the bytes of the local
set hold. -/
def Right (r : Reader) (b : Banks) (req : Request) : Prop :=
  ∀ (storage : IdSet) (procs : List Kproc) (self : Kproc) (counter : List Counter),
    storage.idmap.length = KAAPI_PERF_ID_MAX → self ∈ procs →
    (selected req.ids).length ≤ counter.length →
    (req.mem.bind fun mem =>
        r.call mem storage procs self req.param b.isuser counter)
      = some (fill (r.value b procs self) (selected req.ids) counter)

-- ======== the filter loop

/-- The positions that a map marks, the first byte being at `i`. -/
def marked : Nat → List UInt8 → List Nat
  | _, [] => []
  | i, b :: idmap => if b ≠ 0 then i :: marked (i + 1) idmap else marked (i + 1) idmap

variable {upd : Nat → Counter → Option Counter} {idmap : List UInt8} {P : Nat → Prop}
  {set : IdSet} {ids : List Nat}

/-- The loop fills a cell for each of the first `n` positions marked, `n`
being the number of cells that the count still asks for. -/
theorem filterLoop_eq {value : Nat → Counter → Counter}
    (hupd : ∀ i v, upd i v = some (value i v)) {i n : Nat} {pre post : List Counter}
    (hn : n ≤ (marked i idmap).length) (hpost : n ≤ post.length) :
    filterLoop (pre.length + n) upd idmap i pre.length (pre ++ post)
      = some (pre ++ fill value ((marked i idmap).take n) post) := by
  induction idmap generalizing i n pre post with
  | nil =>
    obtain rfl : n = 0 := Nat.le_zero.1 hn
    simp [filterLoop, marked, fill]
  | cons b idmap ih =>
    cases n with
    | zero => simp [filterLoop, fill]
    | succ n =>
      unfold filterLoop
      rw [if_pos (by omega)]
      by_cases hb : b = 0
      · have hm : marked i (b :: idmap) = marked (i + 1) idmap := by simp [marked, hb]
        rw [hm] at hn ⊢
        rw [if_neg (by simp [hb])]
        exact ih hn hpost
      · have hm : marked i (b :: idmap) = i :: marked (i + 1) idmap := by
          simp [marked, hb]
        rw [hm] at hn ⊢
        rw [if_pos hb]
        cases post with
        | nil => cases hpost
        | cons v post =>
          have hstep : filterLoop ((pre ++ [value i v]).length + n) upd idmap (i + 1)
              (pre ++ [value i v]).length (pre ++ [value i v] ++ post) = _ :=
            ih (Nat.le_of_succ_le_succ hn) (Nat.le_of_succ_le_succ hpost)
          rw [List.length_append, List.length_singleton, List.append_assoc,
            List.append_assoc, Nat.add_assoc, Nat.add_comm 1 n] at hstep
          simpa [hupd, fill] using hstep

theorem filterLoop_none (hupd : ∀ i v, upd i v = none) {count j : Nat} (hj : j < count)
    (idmap : List UInt8) (i : Nat) (counter : List Counter) :
    filterLoop count upd idmap i j counter = none := by
  induction idmap generalizing i with
  | nil => exact if_pos hj
  | cons b idmap ih =>
    unfold filterLoop
    rw [if_pos hj]
    split
    · cases counter[j]? with
      | none => rfl
      | some v => simp only [hupd]
    · exact ih (i + 1)

theorem filterLoop_done {count j : Nat} (hj : count ≤ j)
    (upd : Nat → Counter → Option Counter) (idmap : List UInt8) (i : Nat)
    (counter : List Counter) :
    filterLoop count upd idmap i j counter = some counter := by
  cases idmap with
  | nil => exact if_neg (Nat.not_lt.2 hj)
  | cons b idmap => exact if_neg (Nat.not_lt.2 hj)

-- ======== the sets that are built

/-- The map marks the ids of `P`, and the count is their number. -/
structure Marks (set : IdSet) (P : Nat → Prop) : Prop where
  length : set.idmap.length = KAAPI_PERF_ID_MAX
  mem : ∀ {i b}, set.idmap[i]? = some b → (b ≠ 0 ↔ P i)
  count : set.count = (marked 0 set.idmap).length

theorem marks_zero : Marks kaapi_perf_idset_zero fun _ => False where
  length := rfl
  mem h := by
    rw [kaapi_perf_idset_zero, List.getElem?_replicate] at h
    simp at h
    simp [← h.2]
  count := rfl

theorem length_marked_set {k : Nat} (hk : idmap[k]? = some 0) (i : Nat) :
    (marked i (idmap.set k 1)).length = (marked i idmap).length + 1 := by
  induction idmap generalizing i k with
  | nil => cases hk
  | cons b idmap ih =>
    cases k with
    | zero =>
      obtain rfl : b = 0 := Option.some.inj hk
      simp [marked]
    | succ k =>
      have hstep := ih hk (i + 1)
      by_cases hb : b = 0
      · simpa [marked, hb] using hstep
      · simpa [marked, hb] using hstep

theorem Marks.add {id : Nat} (h : Marks set P) (hid : id < KAAPI_PERF_ID_MAX) :
    ∃ set', kaapi_perf_idset_add set id = some set'
      ∧ Marks set' fun i => P i ∨ i = id := by
  have hlt : id < set.idmap.length := by rw [h.length]; exact hid
  have hget : set.idmap[id]? = some set.idmap[id] := List.getElem?_eq_getElem hlt
  unfold kaapi_perf_idset_add
  rw [hget]
  dsimp only
  by_cases hb : set.idmap[id] = 0
  · rw [if_neg (by simp [hb])]
    rw [hb] at hget
    refine ⟨_, rfl, by simpa using h.length, fun {i b} hi => ?_, ?_⟩
    · by_cases he : i = id
      · subst he
        rw [List.getElem?_set_self hlt] at hi
        simp [← Option.some.inj hi]
      · rw [List.getElem?_set_ne (Ne.symm he)] at hi
        simpa [he] using h.mem hi
    · rw [length_marked_set hget, h.count]
  · have hP : P id := (h.mem hget).1 hb
    rw [if_pos hb]
    refine ⟨_, rfl, h.length, fun {i b} hi => (h.mem hi).trans ?_, h.count⟩
    exact ⟨.inl, fun hor => hor.elim (fun hp => hp) fun he => he ▸ hP⟩

theorem Marks.addAll (h : Marks set P) (hids : ∀ id ∈ ids, id < KAAPI_PERF_ID_MAX) :
    ∃ set', ids.foldlM kaapi_perf_idset_add set = some set'
      ∧ Marks set' fun i => P i ∨ i ∈ ids := by
  induction ids generalizing set P with
  | nil => exact ⟨set, rfl, h.length, fun hi => (h.mem hi).trans (by simp), h.count⟩
  | cons id ids ih =>
    obtain ⟨set₁, hadd, h₁⟩ := h.add (hids id List.mem_cons_self)
    obtain ⟨set', hrest, h'⟩ := ih h₁ fun j hj => hids j (List.mem_cons_of_mem _ hj)
    refine ⟨set', ?_, h'.length, fun {i b} hi => (h'.mem hi).trans ?_, h'.count⟩
    · rw [List.foldlM_cons, hadd]
      exact hrest
    · rw [List.mem_cons, or_assoc]

/-- An id past the map makes `kaapi_perf_idset_add` read past it. -/
theorem Marks.addAll_none (h : Marks set P) (hids : ¬ ∀ id ∈ ids, id < KAAPI_PERF_ID_MAX) :
    ids.foldlM kaapi_perf_idset_add set = none := by
  induction ids generalizing set P with
  | nil => exact absurd (fun _ hid => nomatch hid) hids
  | cons id ids ih =>
    rw [List.foldlM_cons]
    by_cases hid : id < KAAPI_PERF_ID_MAX
    · obtain ⟨set₁, hadd, h₁⟩ := h.add hid
      rw [hadd]
      refine ih h₁ fun hall => hids fun j hj => ?_
      rcases List.mem_cons.1 hj with rfl | hj
      · exact hid
      · exact hall j hj
    · have hnone : set.idmap[id]? = none :=
        List.getElem?_eq_none (by rw [h.length]; exact Nat.le_of_not_lt hid)
      rw [kaapi_perf_idset_add, hnone]
      rfl

/-- What the set lets the loop find is the selection. -/
structure Selects (set : IdSet) (ids : List Nat) : Prop where
  count : set.count = (selected ids).length
  found : (marked 0 set.idmap).take set.count = selected ids

theorem marked_eq_filter {i : Nat}
    (h : ∀ {k b}, idmap[k]? = some b → (b ≠ 0 ↔ i + k ∈ ids)) :
    marked i idmap = (List.range' i idmap.length).filter (· ∈ ids) := by
  induction idmap generalizing i with
  | nil => rfl
  | cons b idmap ih =>
    have hb : b ≠ 0 ↔ i ∈ ids := h (k := 0) rfl
    have hrest := ih (i := i + 1) fun {k c} hk => by
      have := h (k := k + 1) (b := c) hk
      rwa [Nat.add_right_comm]
    rw [List.length_cons, List.range'_succ]
    by_cases hi : i ∈ ids
    · simp [marked, hb, hi, hrest]
    · simp [marked, hb, hi, hrest]

theorem Marks.selects (h : Marks set (· ∈ ids)) : Selects set ids := by
  have hm : marked 0 set.idmap = selected ids := by
    have hfilter : marked 0 set.idmap
        = (List.range' 0 set.idmap.length).filter (· ∈ ids) :=
      marked_eq_filter fun hk => by simpa using h.mem hk
    rw [hfilter, h.length, selected, List.range_eq_range']
  refine ⟨by rw [h.count, hm], ?_⟩
  rw [h.count, List.take_length, hm]

-- ======== what the argument selects

/-- Where a set may lie: not where the low half of its address is one of the
listed ids. There, only the set of the id 0 is read right, and by chance:
every other listed id selects the counter 0 as well. -/
def Placed (address : Nat) (ids : List Nat) : Prop :=
  casted address ∉ listedIds
    ∨ casted address ≠ 0 ∧ ids ≠ [] ∧ ∀ id ∈ ids, id = 0

theorem selected_zero (hne : ids ≠ []) (h : ∀ id ∈ ids, id = 0) : selected ids = [0] := by
  obtain ⟨id, rest, rfl⟩ := List.exists_cons_of_ne_nil hne
  have h0 : ∀ i, i ∈ id :: rest ↔ i = 0 := by
    intro i
    refine ⟨h i, ?_⟩
    rintro rfl
    exact h id List.mem_cons_self ▸ List.mem_cons_self
  simp [selected, h0, KAAPI_PERF_ID_MAX, List.range_succ_eq_map]

theorem toUInt8_ne_zero : ∀ c ∈ listedIds, c ≠ 0 → UInt8.ofNat c ≠ 0 := by
  decide

/-- In a memory that holds the set of `ids` where it may lie, the set that
is resolved selects `ids`. -/
theorem get_perf_idset_selects {address : Nat} {storage : IdSet}
    {mem : Nat → Option IdSet} (hset : Marks set (· ∈ ids))
    (hmem : mem address = some set) (hplaced : Placed address ids)
    (hstorage : storage.idmap.length = KAAPI_PERF_ID_MAX) :
    ∃ set', get_perf_idset mem address storage = some set' ∧ Selects set' ids := by
  unfold get_perf_idset
  rcases hplaced with hl | ⟨h0, hne, hzero⟩
  · rw [if_neg hl, hmem]
    exact ⟨set, rfl, hset.selects⟩
  · by_cases hl : casted address ∈ listedIds
    · rw [if_pos hl]
      refine ⟨_, rfl, ?_, ?_⟩
      · rw [selected_zero hne hzero]
        rfl
      · rw [selected_zero hne hzero]
        obtain ⟨b, idmap, hb⟩ : ∃ b idmap, storage.idmap = b :: idmap := by
          cases hs : storage.idmap with
          | nil => rw [hs] at hstorage; cases hstorage
          | cons b idmap => exact ⟨b, idmap, rfl⟩
        simp [hb, marked, toUInt8_ne_zero _ hl h0]
    · rw [if_neg hl, hmem]
      exact ⟨set, rfl, hset.selects⟩

theorem accumAll_eq (b : Banks) (procs : List Kproc) (i : Nat) :
    accumAll b.isuser procs i = (procs.map (b.value · i)).sum := by
  have hfold : ∀ acc : Nat → Counter,
      procs.foldl (fun accum kproc i => accum i + b.value kproc i) acc i
        = acc i + (procs.map (b.value · i)).sum := by
    induction procs with
    | nil => simp
    | cons p procs ih =>
      intro acc
      rw [List.foldl_cons, ih, List.map_cons, List.sum_cons, BitVec.add_assoc]
  have hsum := (hfold fun _ => 0).trans (BitVec.zero_add _)
  rw [← hsum]
  cases b <;> rfl

theorem Selects.loop (h : Selects set ids) {value : Nat → Counter → Counter}
    (hupd : ∀ i v, upd i v = some (value i v)) {counter : List Counter}
    (hlen : (selected ids).length ≤ counter.length) :
    filterLoop set.count upd set.idmap 0 0 counter
      = some (fill value (selected ids) counter) := by
  have hle : set.count ≤ (marked 0 set.idmap).length := by
    have := congrArg List.length h.found
    rw [List.length_take, ← h.count] at this
    omega
  have hloop : filterLoop (([] : List Counter).length + set.count) upd set.idmap 0
      ([] : List Counter).length ([] ++ counter) = _ :=
    filterLoop_eq hupd hle (by rw [h.count]; exact hlen)
  rw [h.found] at hloop
  simpa using hloop

theorem build_marks (hids : ∀ id ∈ ids, id < KAAPI_PERF_ID_MAX) :
    ∃ set, build ids = some set ∧ Marks set (· ∈ ids) := by
  obtain ⟨set, hb, hset⟩ := marks_zero.addAll hids
  exact ⟨set, hb, hset.length, fun hi => (hset.mem hi).trans (by simp),
    hset.count⟩

end XKaapi.Trace.Perf
