/-
What comes of a string of processors (kaapi_procinfo_list_parse_string),
for any text, any `max_count` and any type of processor.

The string follows the grammar iff `procinfo_denotes_iff`, and no access is
outside of an array iff `procinfo_safe_iff`: nothing in the code compares
an index with `max_count` or a cpu with the size of a cpuset, so both are
up to the string.

# Method

`outcome` tells apart what the parser can do with a text that is cut into
fields (`Lexed`): stop outside of the arrays, stop at the syntax, or go on
to the list, which may be outside of the cpuset (`Fit`) or is the one of
`placed`. The two results read off it.
-/
import XKaapi.Machine.ProcDenotes

namespace XKaapi.Machine

-- ======== the list

/-- For cpus there are kids and the cpuset. -/
def Fit (procType : Nat) (s : List (Nat × Nat)) : Prop :=
  procType = procTypeCpu → (∀ e ∈ s, e.2 < 256) ∧ s.length ≤ 256

/-- The list has the entries `s`, and gives cpus the kids from 0 on. -/
structure Lists (procType : Nat) (s : List (Nat × Nat)) (l : List ProcInfo)
    (q : Params) : Prop where
  entries : l.map (fun e => (e.procIndex, e.boundCpu)) = s
  kids : procType = procTypeCpu → ∀ j (hj : j < l.length), l[j].kid = some j
  params : procType = procTypeCpu →
    q = Params.init.withKids (l.map ProcInfo.boundCpu) 0

variable {str : List Char} {max procType kid : Nat} {p : Parser} {es : List ProcExpr}
variable {fs : List Field} {ok : Bool} {l : List ProcInfo} {q : Params}
variable {s : List (Nat × Nat)}

theorem cpuEntries_entries (p : Parser) (is : List Nat) (kid : Nat) :
    (cpuEntries p is kid).map (fun e => (e.procIndex, e.boundCpu))
      = is.map fun i => (i, p.procBinding i) := by
  induction is generalizing kid with
  | nil => rfl
  | cons i is ih => exact congrArg (List.cons _) (ih (kid + 1))

theorem cpuEntries_kids (p : Parser) (is : List Nat) (kid j : Nat)
    (hj : j < (cpuEntries p is kid).length) :
    (cpuEntries p is kid)[j].kid = some (kid + j) := by
  induction is generalizing kid j with
  | nil => exact absurd hj (Nat.not_lt_zero j)
  | cons i is ih =>
    cases j with
    | zero => rfl
    | succ j =>
      have hsum : kid + (j + 1) = kid + 1 + j := by omega
      rw [hsum]
      exact ih (kid + 1) j (Nat.lt_of_succ_lt_succ hj)

theorem Marked.usables_eq (h : Marked max es p) :
    usables p 0 max = (List.range max).filter (used es) := by
  unfold usables
  rw [← List.range_eq_range']
  exact List.filter_congr fun i hi => h.usable i (List.mem_range.mp hi)

theorem Marked.entries (h : Marked max es p) :
    (usables p 0 max).map (fun i => (i, p.procBinding i)) = placed max es := by
  rw [h.usables_eq]
  refine List.map_congr_left fun i hi => ?_
  obtain ⟨hi, hu⟩ := List.mem_filter.mp hi
  have hsome := (Bool.and_eq_true_iff.mp hu).2
  unfold cpuBy
  cases hfirst : firstEnabled es i with
  | none =>
    rw [hfirst] at hsome
    cases hsome
  | some e => exact congrArg (Prod.mk i) (h.binding i (List.mem_range.mp hi) hu e hfirst)

theorem Marked.count_eq (h : Marked max es p) :
    p.procCount = (usables p 0 max).length := by
  rw [h.ok.count, List.countP_eq_length_filter, List.range_eq_range']
  rfl

/-- The loop makes the list, or is outside of the cpuset or of the kids. -/
theorem Marked.listLoop (h : Marked max es p) (procType : Nat) :
    (Fit procType (placed max es) ∧ ∃ l q,
        Machine.listLoop p procType max 0 p.procCount 0 Params.init = .ok (l, q)
          ∧ Lists procType (placed max es) l q)
      ∨ (¬ Fit procType (placed max es)
        ∧ Machine.listLoop p procType max 0 p.procCount 0 Params.init = .error .fault) := by
  have hentries := h.entries
  by_cases htype : procType = procTypeCpu
  · subst htype
    have hfit : Fit procTypeCpu (placed max es)
        ↔ (∀ j ∈ usables p 0 max, p.procBinding j < 256)
          ∧ 0 + (usables p 0 max).length ≤ 256 := by
      unfold Fit
      rw [← hentries, List.forall_mem_map, List.length_map, Nat.zero_add]
      exact ⟨fun h => h rfl, fun h _ => h⟩
    have hcpu := listLoop_cpu (q := Params.init) (Nat.zero_le 256) h.count_eq
    by_cases hc : Fit procTypeCpu (placed max es)
    · rw [if_pos (hfit.mp hc)] at hcpu
      refine .inl ⟨hc, _, _, hcpu, ?_, fun _ j hj => ?_, fun _ => ?_⟩
      · rw [cpuEntries_entries, hentries]
      · rw [cpuEntries_kids, Nat.zero_add]
      · have hcpus := congrArg (List.map Prod.snd)
          (cpuEntries_entries p (usables p 0 max) 0)
        rw [List.map_map, List.map_map] at hcpus
        exact congrArg (fun cs => Params.init.withKids cs 0) hcpus.symm
    · rw [if_neg fun h => hc (hfit.mpr h)] at hcpu
      exact .inr ⟨hc, hcpu⟩
  · refine .inl ⟨fun h => absurd h htype, _, _, listLoop_plain htype h.count_eq, ?_,
      fun h => absurd h htype, fun h => absurd h htype⟩
    rw [← hentries]
    exact List.map_map

-- ======== the outcome

/-- `kaapi_procinfo_list_parse_string`, from what `kaapi_hw_standardinit`
sets. -/
def parseAtStart (binding : Nat → Nat) (procType maxCount : Nat) (str : List Char) :
    Except Stop (List ProcInfo × Params) :=
  procinfoListParseString binding procType maxCount str Params.init

/-- What comes of a string that is not empty. -/
inductive Outcome (procType max : Nat) (fs : List Field) :
    Bool → Except Stop (List ProcInfo × Params) → Prop
  | outside {ok : Bool} (hmarks : ¬ StaysAll max [] (fs.map (Field.expr max))) :
    Outcome procType max fs ok (.error .fault)
  | rejected (hmarks : StaysAll max [] (fs.map (Field.expr max))) :
    Outcome procType max fs false (.error .einval)
  | tooMany (hmarks : StaysAll max [] (fs.map (Field.expr max)))
      (hfit : ¬ Fit procType (placed max (fs.map (Field.expr max)))) :
    Outcome procType max fs true (.error .fault)
  | listed (hmarks : StaysAll max [] (fs.map (Field.expr max)))
      (hfit : Fit procType (placed max (fs.map (Field.expr max))))
      {l : List ProcInfo} {q : Params}
      (hlist : Lists procType (placed max (fs.map (Field.expr max))) l q) :
    Outcome procType max fs true (.ok (l, q))

variable {binding : Nat → Nat}

theorem parseAtStart_eq (hne : str ≠ []) : parseAtStart binding procType max str
    = (parseString max str (initParser binding) >>= fun p =>
      listLoop p procType max 0 p.procCount 0 Params.init) := by
  unfold parseAtStart procinfoListParseString
  rw [if_neg hne]

theorem outcome (hmax : max < 2 ^ 32) (hne : str ≠ []) (h : Lexed str fs ok)
    (binding : Nat → Nat) (procType : Nat) :
    Outcome procType max fs ok (parseAtStart binding procType max str) := by
  rw [parseAtStart_eq hne]
  rcases parseString_spec hmax h binding with ⟨hmarks, rfl, p, hp, hm⟩ |
    ⟨hmarks, rfl, hp⟩ | ⟨hmarks, hp⟩
  · rw [hp]
    change Outcome procType max fs true (listLoop p procType max 0 p.procCount 0 Params.init)
    rcases hm.listLoop procType with ⟨hfit, l, q, hl, hlist⟩ | ⟨hfit, hl⟩
    · rw [hl]
      exact .listed hmarks hfit hlist
    · rw [hl]
      exact .tooMany hmarks hfit
  · rw [hp]
    exact .rejected hmarks
  · rw [hp]
    exact .outside hmarks

theorem parseAtStart_nil (binding : Nat → Nat) (procType max : Nat) :
    parseAtStart binding procType max [] = .ok ([], Params.init) := by
  cases max <;> rfl

theorem staysAll_of_inRange (hmax : max < 2 ^ 32) {prev : List ProcExpr}
    (h : ∀ f ∈ fs, f.InRange max) : StaysAll max prev (fs.map (Field.expr max)) := by
  induction fs generalizing prev with
  | nil => trivial
  | cons f fs ih =>
    refine ⟨.inl ((h f List.mem_cons_self).expr_high hmax), ?_⟩
    exact ih fun f' hf' => h f' (List.mem_cons_of_mem f hf')

-- ======== kids and cpus

/-- `cpu2kid` and `kid2cpu` are inverse of each other on the cpus that are
used, which are those of the list. -/
structure Inverse (l : List ProcInfo) (q : Params) : Prop where
  used : ∀ c < 256, q.usedcpu.has c = true ↔ ∃ e ∈ l, e.boundCpu = c
  cpu : ∀ c < 256, q.usedcpu.has c = true → q.kid2cpu (q.cpu2kid c) = c
  kid : ∀ e ∈ l, ∃ k, e.kid = some k ∧ q.kid2cpu k = e.boundCpu
    ∧ q.cpu2kid (q.kid2cpu k) = k

theorem has_init (c : Nat) (hc : c < 256) : Params.init.usedcpu.has c = false := by
  rw [has_eq _ hc]
  exact BitVec.getLsbD_zero

/-- The kids are inverse to the cpus when no two of them share a cpu. -/
theorem Lists.inverse_iff (h : Lists procTypeCpu s l q) (hcpus : ∀ e ∈ s, e.2 < 256) :
    Inverse l q ↔ (l.map ProcInfo.boundCpu).Nodup := by
  have hkids := h.kids rfl
  have hq := h.params rfl
  have hlt : ∀ c ∈ l.map ProcInfo.boundCpu, c < 256 := by
    intro c hc
    obtain ⟨e, he, rfl⟩ := List.mem_map.mp hc
    refine hcpus (e.procIndex, e.boundCpu) ?_
    rw [← h.entries]
    exact List.mem_map_of_mem he
  have hkid2cpu : ∀ j (hj : j < l.length), q.kid2cpu j = l[j].boundCpu := by
    intro j hj
    have hj' : j < (l.map ProcInfo.boundCpu).length := by rwa [List.length_map]
    have hget := kid2cpu_withKids _ 0 Params.init j hj'
    rw [Nat.zero_add, List.getElem_map, ← hq] at hget
    exact hget
  have hcpu2kid : ∀ c ∈ l.map ProcInfo.boundCpu,
      ∃ j, ∃ hj : j < l.length, l[j].boundCpu = c ∧ q.cpu2kid c = j := by
    intro c hc
    obtain ⟨j, hj, hcj, hkid⟩ := cpu2kid_withKids hc 0 Params.init
    rw [List.getElem_map] at hcj
    rw [Nat.zero_add, ← hq] at hkid
    rw [List.length_map] at hj
    exact ⟨j, hj, hcj, hkid⟩
  have hused : ∀ c < 256, q.usedcpu.has c = true ↔ ∃ e ∈ l, e.boundCpu = c := by
    intro c hc
    rw [hq, has_withKids hlt 0 _ hc, has_init c hc, List.mem_map]
    exact or_iff_left Bool.false_ne_true
  rw [List.nodup_iff_injective_getElem]
  constructor
  · -- the kid of a cpu is the place of its entry
    intro hinv ⟨i, hi⟩ ⟨j, hj⟩ hij
    rw [List.length_map] at hi hj
    dsimp only at hij
    rw [List.getElem_map, List.getElem_map] at hij
    have hplace : ∀ k (hk : k < l.length), q.cpu2kid l[k].boundCpu = k := by
      intro k hk
      obtain ⟨k', hk', -, hback⟩ := hinv.kid l[k] (List.getElem_mem hk)
      obtain rfl := Option.some.inj ((hkids k hk).symm.trans hk')
      rw [hkid2cpu k hk] at hback
      exact hback
    have hi' := hplace i hi
    rw [hij, hplace j hj] at hi'
    exact Fin.ext hi'.symm
  · intro hinj
    refine ⟨hused, fun c hc hu => ?_, fun e he => ?_⟩
    · obtain ⟨e, he, rfl⟩ := (hused c hc).mp hu
      obtain ⟨j, hj, hcj, hkid⟩ := hcpu2kid _ (List.mem_map_of_mem he)
      rw [hkid, hkid2cpu j hj, hcj]
    · obtain ⟨i, hi, rfl⟩ := List.getElem_of_mem he
      obtain ⟨j, hj, hcj, hkid⟩ := hcpu2kid _ (List.mem_map_of_mem he)
      refine ⟨i, hkids i hi, hkid2cpu i hi, ?_⟩
      rw [hkid2cpu i hi, hkid]
      have hi' : i < (l.map ProcInfo.boundCpu).length := by rwa [List.length_map]
      have hj' : j < (l.map ProcInfo.boundCpu).length := by rwa [List.length_map]
      have hsame : (⟨j, hj'⟩ : Fin _) = ⟨i, hi'⟩ := by
        refine hinj ?_
        dsimp only
        rw [List.getElem_map, List.getElem_map, hcj]
      exact congrArg Fin.val hsame

-- ======== the grammar

/-- The string is read by the grammar: an error is one of the syntax or of
an index, and the list is the set that it denotes. -/
def FollowsGrammar (procType maxCount : Nat) (str : List Char) :
    Except Stop (List ProcInfo × Params) → Prop
  | .error .fault => False
  | .error .einval => ¬ ∃ fs, Valid maxCount str fs
  | .ok (l, q) => ∃ fs, Valid maxCount str fs
      ∧ l.map (fun e => (e.procIndex, (e.boundCpu : Int))) = denoted maxCount fs
      ∧ (procType = procTypeCpu → Inverse l q)

/-- The cpus of the set are some: of 32 bits, and for cpus those of a
cpuset, no two processors on one. -/
structure CpusFit (procType maxCount : Nat) (fs : List Field) : Prop where
  bound : ∀ e ∈ denoted maxCount fs,
    0 ≤ e.2 ∧ e.2 < if procType = procTypeCpu then 256 else 2 ^ 32
  distinct : procType = procTypeCpu → ((denoted maxCount fs).map Prod.snd).Nodup

/-- The parser stops at the syntax, with no access outside of the arrays
before. -/
def Rejected (maxCount : Nat) (str : List Char) : Prop :=
  str ≠ [] ∧ ∃ fs, Lexed str fs false ∧ StaysAll maxCount [] (fs.map (Field.expr maxCount))

theorem Field.Plain.text_ne {f : Field} (h : f.Plain) : f.text ≠ [] := by
  intro hnil
  unfold Field.text at hnil
  obtain ⟨hlow, hrest⟩ := List.append_eq_nil_iff.mp (List.append_eq_nil_iff.mp hnil).2
  obtain ⟨hrange, -⟩ := List.append_eq_nil_iff.mp hrest
  refine h.proc_list.elim (fun hne => hne hlow) fun hne => ?_
  match hr : f.range with
  | none => exact hne hr
  | some none =>
    rw [hr] at hrange
    cases hrange
  | some (some n) =>
    rw [hr] at hrange
    cases hrange

theorem Valid.str_ne (h : Valid max str fs) : str ≠ [] := by
  rw [h.text]
  cases hfs : fs with
  | nil => exact absurd hfs h.ne
  | cons f gs =>
    have hne := (h.plain f (by rw [hfs]; exact List.mem_cons_self)).text_ne
    cases gs with
    | nil => exact hne
    | cons g gs => exact fun hnil => hne (List.append_eq_nil_iff.mp hnil).1

theorem Valid.not_ok (hmax : max < 2 ^ 32) (h : Valid max str fs)
    (hopen : ∃ f ∈ fs, f.OpenBound) (r : List ProcInfo × Params) :
    parseAtStart binding procType max str ≠ .ok r := by
  obtain ⟨gs, hgs⟩ := lexed_openBound hopen
  rw [← h.text] at hgs
  have hout := outcome hmax h.str_ne hgs binding procType
  intro hr
  rw [hr] at hout
  cases hout

theorem Valid.not_followsGrammar (hmax : max < 2 ^ 32) (h : Valid max str fs)
    (hopen : ∃ f ∈ fs, f.OpenBound) (binding : Nat → Nat) (procType : Nat) :
    ¬ FollowsGrammar procType max str (parseAtStart binding procType max str) := by
  intro hfollows
  match hr : parseAtStart binding procType max str with
  | .error .fault =>
    rw [hr] at hfollows
    exact hfollows
  | .error .einval =>
    rw [hr] at hfollows
    exact hfollows ⟨fs, h⟩
  | .ok r => exact h.not_ok hmax hopen r hr

theorem Lists.written_entries (h : Lists procType s l q) :
    l.map (fun e => (e.procIndex, (e.boundCpu : Int))) = s.map written := by
  rw [← h.entries, List.map_map]
  rfl

theorem fit_of_cpus (hmax : max < 2 ^ 32) (hin : ∀ f ∈ fs, f.InRange max)
    (hcpus : ∀ e ∈ denoted max fs, 0 ≤ e.2 ∧ e.2 < 256)
    (hlen : (denoted max fs).length ≤ 256) :
    (∀ e ∈ placed max (fs.map (Field.expr max)), e.2 < 256)
      ∧ (placed max (fs.map (Field.expr max))).length ≤ 256 := by
  have hbits : ∀ e ∈ denoted max fs, 0 ≤ e.2 ∧ e.2 < 2 ^ 32 := by
    intro e he
    have := hcpus e he
    omega
  have heq := placed_eq_denoted hmax hin hbits
  refine ⟨fun e he => ?_, ?_⟩
  · exact Int.ofNat_lt.mp (hcpus (written e) (heq ▸ List.mem_map_of_mem he)).2
  · rw [length_placed hmax hin]
    exact hlen

theorem length_le_of_nodup {es : List (Nat × Int)} (hcpus : ∀ e ∈ es, 0 ≤ e.2 ∧ e.2 < 256)
    (hnodup : (es.map Prod.snd).Nodup) : es.length ≤ 256 := by
  have hsub : es.map Prod.snd ⊆ (List.range 256).map Int.ofNat := by
    intro c hc
    obtain ⟨e, he, rfl⟩ := List.mem_map.mp hc
    obtain ⟨hpos, hlt⟩ := hcpus e he
    refine List.mem_map.mpr ⟨e.2.toNat, List.mem_range.mpr ?_, Int.toNat_of_nonneg hpos⟩
    omega
  have hlen := hnodup.length_le_of_subset hsub
  rw [List.length_map, List.length_map, List.length_range] at hlen
  exact hlen

theorem CpusFit.fit (hmax : max < 2 ^ 32) (hin : ∀ f ∈ fs, f.InRange max)
    (h : CpusFit procType max fs) :
    Fit procType (placed max (fs.map (Field.expr max)))
      ∧ (placed max (fs.map (Field.expr max))).map written = denoted max fs := by
  constructor
  · intro htype
    have hcpus := h.bound
    rw [if_pos htype] at hcpus
    exact fit_of_cpus hmax hin hcpus (length_le_of_nodup hcpus (h.distinct htype))
  · refine placed_eq_denoted hmax hin fun e he => ?_
    have hbound := h.bound e he
    split at hbound <;> omega

theorem Lists.distinct_iff (h : Lists procTypeCpu s l q) :
    (l.map ProcInfo.boundCpu).Nodup ↔ ((s.map written).map Prod.snd).Nodup := by
  have hcpus : (s.map written).map Prod.snd
      = (l.map ProcInfo.boundCpu).map fun c : Nat => (c : Int) := by
    rw [← h.entries, List.map_map, List.map_map, List.map_map]
    rfl
  rw [hcpus]
  exact ⟨List.Nodup.map fun _ _ => Int.ofNat.inj, List.Nodup.of_map _⟩

theorem followsGrammar_of_valid (hmax : max < 2 ^ 32) (h : Valid max str fs)
    (hopen : ∀ f ∈ fs, ¬ f.OpenBound) (hcpus : CpusFit procType max fs)
    (binding : Nat → Nat) :
    FollowsGrammar procType max str (parseAtStart binding procType max str) := by
  have hlex := lexed_fieldsText h.ne hopen
  rw [← h.text] at hlex
  have hmarks : StaysAll max [] (fs.map (Field.expr max)) :=
    staysAll_of_inRange hmax h.inRange
  obtain ⟨hfit, heq⟩ := hcpus.fit hmax h.inRange
  have hout := outcome hmax h.str_ne hlex binding procType
  revert hout
  generalize parseAtStart binding procType max str = out
  intro hout
  cases hout with
  | outside hno => exact absurd hmarks hno
  | tooMany _ hno => exact absurd hfit hno
  | listed _ _ hlist =>
    refine ⟨fs, h, hlist.written_entries.trans heq, fun htype => ?_⟩
    subst htype
    rw [hlist.inverse_iff (hfit rfl).1, hlist.distinct_iff, heq]
    exact hcpus.distinct rfl

theorem Lists.cpusFit (h : Lists procType (placed max es) l q)
    (hfit : Fit procType (placed max es))
    (hlist : l.map (fun e => (e.procIndex, (e.boundCpu : Int))) = denoted max fs)
    (hinv : procType = procTypeCpu → Inverse l q) : CpusFit procType max fs := by
  have heq := h.written_entries.symm.trans hlist
  constructor
  · intro e he
    rw [← heq] at he
    obtain ⟨e', he', rfl⟩ := List.mem_map.mp he
    refine ⟨Int.natCast_nonneg e'.2, ?_⟩
    split
    next htype => exact Int.ofNat_lt.mpr ((hfit htype).1 e' he')
    next => exact Int.ofNat_lt.mpr (lt_of_mem_placed he')
  · intro htype
    subst htype
    rw [← heq, ← h.distinct_iff]
    exact (h.inverse_iff (hfit rfl).1).mp (hinv rfl)

/-- The parser follows its grammar on the strings without a cpu after an
open range, with cpus that there are, and on those others that it rejects
before an index is outside of the arrays. -/
theorem procinfo_denotes_iff (binding : Nat → Nat) (procType : Nat) (maxCount : UInt32)
    (str : List Char) :
    FollowsGrammar procType maxCount.toNat str
        (parseAtStart binding procType maxCount.toNat str)
      ↔ (∃ fs, Valid maxCount.toNat str fs ∧ (∀ f ∈ fs, ¬ f.OpenBound)
          ∧ CpusFit procType maxCount.toNat fs)
        ∨ ((¬ ∃ fs, Valid maxCount.toNat str fs) ∧ Rejected maxCount.toNat str) := by
  have hmax := maxCount.toNat_lt
  generalize maxCount.toNat = max at hmax ⊢
  constructor
  · intro hfollows
    by_cases hne : str = []
    · subst hne
      rw [parseAtStart_nil] at hfollows
      obtain ⟨fs, hvalid, -⟩ := hfollows
      exact absurd rfl hvalid.str_ne
    · obtain ⟨fs, ok, hlex⟩ := exists_lexed str
      have hout := outcome hmax hne hlex binding procType
      have hok : ∀ gs, Valid max str gs → (∃ f ∈ gs, f.OpenBound) →
          ∀ r, parseAtStart binding procType max str ≠ .ok r :=
        fun gs h hopen => h.not_ok hmax hopen
      revert hout hfollows hok
      generalize parseAtStart binding procType max str = out
      intro hfollows hout hok
      cases hout with
      | outside => exact hfollows.elim
      | tooMany => exact hfollows.elim
      | rejected hmarks => exact .inr ⟨hfollows, hne, fs, hlex, hmarks⟩
      | listed hmarks hfit hlist =>
        obtain ⟨gs, hvalid, heq, hinv⟩ := hfollows
        refine .inl ⟨gs, hvalid, fun f hf hopen => ?_, hlist.cpusFit hfit heq hinv⟩
        exact hok gs hvalid ⟨f, hf, hopen⟩ _ rfl
  · rintro (⟨fs, hvalid, hopen, hcpus⟩ | ⟨hno, hne, fs, hlex, hmarks⟩)
    · exact followsGrammar_of_valid hmax hvalid hopen hcpus binding
    · have hout := outcome hmax hne hlex binding procType
      revert hout
      generalize parseAtStart binding procType max str = out
      intro hout
      cases hout with
      | outside hout => exact absurd hmarks hout
      | rejected => exact hno

/-- All processors, the first one on the cpu 0: a form of the grammar. -/
theorem open_range_bound :
    ¬ FollowsGrammar procTypeCpu 4 ":~0".toList
      (parseAtStart (fun _ => 0) procTypeCpu 4 ":~0".toList) := by
  let n : Num := ⟨[], none, ['0'], by simp, List.forall_mem_singleton.mpr rfl, by simp⟩
  let f : Field := ⟨0, [], some none, some n, by simp⟩
  have hvalid : Valid 4 ":~0".toList [f] := by
    refine ⟨by decide, ?_, by decide, ?_⟩
    · intro g hg
      obtain rfl := List.mem_singleton.mp hg
      refine ⟨.inr (by decide), (fun m hm => by cases hm), fun m hm => ?_⟩
      cases hm
      exact ⟨rfl, rfl⟩
    · intro g hg
      obtain rfl := List.mem_singleton.mp hg
      exact ⟨by decide, by decide, by decide⟩
  exact hvalid.not_followsGrammar (by decide)
    ⟨f, List.mem_singleton_self f, rfl, nofun⟩ _ _

-- ======== the bounds

/-- The indices of the string are below `max_count`, and the cpus that it
gives to cpus are those of a cpuset. -/
structure InBounds (procType maxCount : Nat) (fs : List Field) : Prop where
  indices : ∀ f ∈ fs, f.InRange maxCount
  cpus : procType = procTypeCpu → ∀ e ∈ denoted maxCount fs, 0 ≤ e.2 ∧ e.2 < 256

/-- As far as the string is read, it is in the bounds. -/
def IndicesInRange (procType maxCount : Nat) (str : List Char) : Prop :=
  str ≠ [] → ∀ fs ok, Lexed str fs ok → InBounds procType maxCount fs

/-- Nothing is accessed outside of its array, and an index out of range is
an error. -/
structure Safe (procType maxCount : Nat) (str : List Char)
    (out : Except Stop (List ProcInfo × Params)) : Prop where
  inside : out ≠ .error .fault
  rejects : ¬ IndicesInRange procType maxCount str → out = .error .einval

/-- There is a kid for each cpu that is used. -/
def KidsFit (procType maxCount : Nat) (str : List Char) : Prop :=
  procType = procTypeCpu → str ≠ [] →
    ∀ fs, Lexed str fs true → (denoted maxCount fs).length ≤ 256

/-- Of the strings that are read to their end, those in the bounds are
harmless. -/
theorem procinfo_safe_iff (binding : Nat → Nat) (procType : Nat) (maxCount : UInt32)
    (str : List Char) :
    Safe procType maxCount.toNat str (parseAtStart binding procType maxCount.toNat str)
      ↔ Rejected maxCount.toNat str
        ∨ (IndicesInRange procType maxCount.toNat str
          ∧ KidsFit procType maxCount.toNat str) := by
  have hmax := maxCount.toNat_lt
  generalize maxCount.toNat = max at hmax ⊢
  by_cases hne : str = []
  · subst hne
    rw [parseAtStart_nil]
    refine iff_of_true ⟨nofun, fun h => ?_⟩ (.inr ⟨?_, ?_⟩)
    · exact absurd (fun hne => absurd rfl hne) h
    · exact fun hne => absurd rfl hne
    · exact fun _ hne => absurd rfl hne
  have hout : ∀ fs ok, Lexed str fs ok →
      Outcome procType max fs ok (parseAtStart binding procType max str) :=
    fun fs ok hlex => outcome hmax hne hlex binding procType
  revert hout
  generalize parseAtStart binding procType max str = out
  intro hout
  obtain ⟨fs, ok, hlex⟩ := exists_lexed str
  constructor
  · intro hsafe
    cases hout fs ok hlex with
    | outside => exact absurd rfl hsafe.inside
    | tooMany => exact absurd rfl hsafe.inside
    | rejected hmarks => exact .inl ⟨hne, fs, hlex, hmarks⟩
    | listed hmarks hfit hlist =>
      have hin : IndicesInRange procType max str := by
        by_contra hout
        cases hsafe.rejects hout
      refine .inr ⟨hin, fun htype _ gs hgs => ?_⟩
      rw [← length_placed hmax (hin hne gs true hgs).indices]
      cases hout gs true hgs with
      | listed _ hfit _ => exact (hfit htype).2
  · rintro (⟨-, gs, hgs, hmarks⟩ | ⟨hin, hkids⟩)
    · cases hout gs false hgs with
      | outside hno => exact absurd hmarks hno
      | rejected => exact ⟨nofun, fun _ => rfl⟩
    · have hbounds := hin hne fs ok hlex
      cases hout fs ok hlex with
      | outside hno => exact absurd (staysAll_of_inRange hmax hbounds.indices) hno
      | rejected => exact ⟨nofun, fun _ => rfl⟩
      | tooMany _ hno =>
        refine absurd (fun htype => ?_) hno
        exact fit_of_cpus hmax hbounds.indices (hbounds.cpus htype)
          (hkids htype hne fs hlex)
      | listed => exact ⟨nofun, fun h => absurd hin h⟩

/-- The index that is `max_count`. -/
theorem index_past_arrays :
    ¬ Safe procTypeCpu 4 "4".toList (parseAtStart (fun _ => 0) procTypeCpu 4 "4".toList) := by
  let f : Field := ⟨0, ['4'], none, none, List.forall_mem_singleton.mpr rfl⟩
  have hlex : Lexed (fieldsText [f]) [f] true :=
    lexed_fieldsText (List.cons_ne_nil f []) fun g hg hopen => by
      obtain rfl := List.mem_singleton.mp hg
      cases hopen.1
  have hmarks : ¬ StaysAll 4 [] [f.expr 4] := by
    rintro ⟨hlt | hfills, -⟩
    · exact absurd hlt (by decide)
    · obtain ⟨j, hlow, hj, -⟩ := hfills.some_left
      exact absurd (Nat.lt_of_le_of_lt hlow hj) (by decide)
  have hout := outcome (by decide : 4 < 2 ^ 32) (by decide) hlex (fun _ => 0) procTypeCpu
  intro hsafe
  have hinside := hsafe.inside
  change parseAtStart (fun _ => 0) procTypeCpu 4 (fieldsText [f]) ≠ _ at hinside
  revert hout hinside
  generalize parseAtStart (fun _ => 0) procTypeCpu 4 (fieldsText [f]) = out
  intro hout hinside
  cases hout with
  | outside => exact hinside rfl
  | tooMany => exact hinside rfl
  | listed hstays => exact hmarks hstays

end XKaapi.Machine
