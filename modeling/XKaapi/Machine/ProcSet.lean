/-
The list of processors that a string makes (kaapi_procinfo_list_parse_string):
the parser against its fields, then the loop that gives the kids.
-/
import XKaapi.Machine.ProcGrammar
import XKaapi.Machine.ProcMarks
import XKaapi.Steal.SelfTopoLevels

namespace XKaapi.Machine

open XKaapi.Suspended (Cpuset)
open XKaapi.Steal (bit_ne_zero)

-- ======== the parser

variable {str rest : List Char} {max : Nat} {p : Parser} {fs : List Field} {ok : Bool}
  {s : Stop} {c : Nat}

theorem parseNumber_error (h : parseNumber str = .error s) : s = .einval := by
  unfold parseNumber at h
  split at h
  next =>
    cases h
    rfl
  next => cases h

theorem bind_eq_error {α β : Type} {x : Except Stop α} {f : α → Except Stop β}
    (h : (x >>= f) = .error s) : x = .error s ∨ ∃ a, x = .ok a ∧ f a = .error s := by
  cases x with
  | error e =>
    cases h
    exact .inl rfl
  | ok a => exact .inr ⟨a, rfl, h⟩

theorem parseHigh_error {low : Nat} (h : parseHigh max low str = .error s) :
    s = .einval := by
  unfold parseHigh at h
  split at h
  next =>
    split at h
    next => cases h
    next => exact parseNumber_error h
  next => cases h

theorem parseBound_error {low : Nat} (h : parseBound low str = .error s) :
    s = .einval := by
  unfold parseBound at h
  split at h
  next => exact parseNumber_error h
  next => cases h

theorem readProcExpr_error (h : readProcExpr max str = .error s) : s = .einval := by
  unfold readProcExpr at h
  rcases bind_eq_error h with h | ⟨r, -, h⟩
  · unfold parseProcList at h
    rw [parseLow_eq] at h
    rcases bind_eq_error h with h | ⟨r, -, h⟩
    · cases h
    · rcases bind_eq_error h with h | ⟨r', -, h⟩
      · exact parseHigh_error h
      · cases h
  · rcases bind_eq_error h with h | ⟨r', -, h⟩
    · exact parseBound_error h
    · cases h

/-- A string is read expression by expression. -/
theorem parseString_eq (max : Nat) (str : List Char) (p : Parser) :
    parseString max str p = (parseProcExpr max str p >>= fun r =>
      match r.2 with
      | [] => .ok r.1
      | c :: rest => if c = ',' then parseString max rest r.1 else .error .einval) := by
  rw [parseString]
  split
  next e he =>
    rw [he]
    rfl
  next p' he =>
    rw [he]
    rfl
  next p' c r he =>
    rw [he]
    rfl

theorem parseProcExpr_of_reads {f : Field} (hf : f.Reads str rest) (max : Nat)
    (p : Parser) : parseProcExpr max str p
      = ((f.expr max).mark max p >>= fun p => .ok (p, rest)) := by
  unfold parseProcExpr
  rw [hf.readProcExpr max]
  rfl

/-- Its expressions are marked in order. -/
theorem parseString_of_lexed (h : Lexed str fs ok) (max : Nat) (p : Parser) :
    parseString max str p
      = (markAll max (fs.map (Field.expr max)) p >>= fun p =>
        if ok then .ok p else .error .einval) := by
  induction h generalizing p with
  | @bad s hnone =>
    rw [parseString_eq]
    unfold parseProcExpr
    cases hread : readProcExpr max s with
    | error e =>
      rw [readProcExpr_error hread]
      rfl
    | ok r =>
      obtain ⟨f, hf, -⟩ := readProcExpr_iff.mp
        (show readProcExpr max s = .ok (r.1, r.2) from hread)
      exact absurd hf (hnone f r.2)
  | @garbage s r c f hf hc =>
    rw [parseString_eq, parseProcExpr_of_reads hf]
    change _ = ((f.expr max).mark max p >>= markAll max []) >>= _
    cases (f.expr max).mark max p with
    | error e => rfl
    | ok p' => exact if_neg hc
  | @last s f hf =>
    rw [parseString_eq, parseProcExpr_of_reads hf]
    change _ = ((f.expr max).mark max p >>= markAll max []) >>= _
    cases (f.expr max).mark max p with
    | error e => rfl
    | ok p' => rfl
  | @next s r f fs ok hf hrest ih =>
    rw [parseString_eq, parseProcExpr_of_reads hf]
    change _ = ((f.expr max).mark max p >>= markAll max (fs.map (Field.expr max))) >>= _
    cases (f.expr max).mark max p with
    | error e => rfl
    | ok p' => exact ih p'

theorem Num.stored_lt (n : Num) : n.stored < 2 ^ 32 := Nat.mod_lt _ (by decide)

theorem lastIndex_lt (h : max < 2 ^ 32) : lastIndex max < 2 ^ 32 := by
  unfold lastIndex
  split <;> omega

theorem Field.expr_stored (h : max < 2 ^ 32) (f : Field) : (f.expr max).Stored := by
  have hlow : ulong false (decimal f.low) % 2 ^ 32 < 2 ^ 32 := Nat.mod_lt _ (by decide)
  have hhigh : highOf max (ulong false (decimal f.low) % 2 ^ 32) f.range < 2 ^ 32 := by
    match f.range with
    | none => exact hlow
    | some none => exact lastIndex_lt h
    | some (some n) => exact n.stored_lt
  have hbound : ∀ {low : Nat}, low < 2 ^ 32 → boundOf low f.binding < 2 ^ 32 := by
    intro low hlt
    cases f.binding with
    | none => exact hlt
    | some n => exact n.stored_lt
  unfold Field.expr
  dsimp only
  generalize ulong false (decimal f.low) % 2 ^ 32 = low at hlow hhigh ⊢
  generalize highOf max low f.range = high at hhigh ⊢
  split
  next hlt => exact ⟨Nat.le_of_lt hlt, hbound hhigh⟩
  next hge => exact ⟨Nat.le_of_not_lt hge, hbound hlow⟩

/-- So a string is parsed iff all its marks stay in range. -/
theorem parseString_spec (hmax : max < 2 ^ 32) (h : Lexed str fs ok) (binding : Nat → Nat) :
    (StaysAll max [] (fs.map (Field.expr max)) ∧ ok = true ∧ ∃ p,
        parseString max str (initParser binding) = .ok p
          ∧ Marked max (fs.map (Field.expr max)) p)
      ∨ (StaysAll max [] (fs.map (Field.expr max)) ∧ ok = false
        ∧ parseString max str (initParser binding) = .error .einval)
      ∨ (¬ StaysAll max [] (fs.map (Field.expr max))
        ∧ parseString max str (initParser binding) = .error .fault) := by
  have hes : ∀ e ∈ fs.map (Field.expr max), e.Stored := by
    intro e he
    obtain ⟨f, -, rfl⟩ := List.mem_map.mp he
    exact f.expr_stored hmax
  rw [parseString_of_lexed h]
  rcases markAll_spec (initParser_marked max binding) hes with ⟨hall, p, hp, hm⟩ | ⟨hno, hf⟩
  · rw [hp]
    cases ok with
    | true => exact .inl ⟨hall, rfl, p, rfl, hm⟩
    | false => exact .inr (.inl ⟨hall, rfl, rfl⟩)
  · rw [hf]
    exact .inr (.inr ⟨hno, rfl⟩)

-- ======== the cpusets

/-- The set with one more cpu. -/
def withCpu (s : Cpuset) (c : Nat) : Cpuset where
  bits64 w := if w.val = c / 64 then s.bits64 w ||| 1#64 <<< (c % 64) else s.bits64 w

theorem has_eq (s : Cpuset) (hc : c < 256) :
    s.has c = (s.bits64 ⟨c / 64, Nat.div_lt_of_lt_mul hc⟩).getLsbD (c % 64) := by
  have hword : ∀ (w : Fin 4) (n : Nat), c = 64 * w.val + n → n < 64 →
      (s.bits64 w &&& 1#64 <<< n != 0)
        = (s.bits64 ⟨c / 64, Nat.div_lt_of_lt_mul hc⟩).getLsbD (c % 64) := by
    intro w n hcn hn
    rw [bit_ne_zero _ hn]
    have hw : (⟨c / 64, Nat.div_lt_of_lt_mul hc⟩ : Fin 4) = w := Fin.ext (by dsimp only; omega)
    have hmod : c % 64 = n := by omega
    rw [hw, hmod]
  unfold Cpuset.has
  split
  next h => exact hword 0 c (by omega) h
  next h =>
    split
    next h' => exact hword 1 (c - 64) (by change c = 64 * 1 + _; omega) (by omega)
    next h' =>
      split
      next h'' => exact hword 2 (c - 128) (by change c = 64 * 2 + _; omega) (by omega)
      next h'' => exact hword 3 (c - 192) (by change c = 64 * 3 + _; omega) (by omega)

/-- A set after one more cpu. -/
theorem has_withCpu (s : Cpuset) {c' : Nat} (hc : c < 256) (hc' : c' < 256) :
    (withCpu s c).has c' = (c' == c || s.has c') := by
  rw [has_eq _ hc', has_eq _ hc']
  unfold withCpu
  dsimp only
  by_cases hw : c' / 64 = c / 64
  · have hlt : c' % 64 < 64 := Nat.mod_lt _ (by decide)
    rw [if_pos hw, BitVec.getLsbD_or, ← BitVec.twoPow_eq, BitVec.getLsbD_twoPow, Bool.or_comm]
    congr 1
    by_cases hcc : c' = c
    · subst hcc
      rw [beq_self_eq_true, decide_eq_true hlt, decide_eq_true rfl]
      rfl
    · rw [beq_eq_false_iff_ne.mpr hcc, decide_eq_false (by omega : ¬ c % 64 = c' % 64)]
      exact Bool.and_false _
  · have hne : c' ≠ c := fun h => hw (by rw [h])
    rw [if_neg hw, beq_eq_false_iff_ne.mpr hne, Bool.false_or]

theorem cpusetSet_eq (s : Cpuset) (c : Nat) :
    cpusetSet s c = if c < 256 then .ok (withCpu s c) else .error .fault := by
  have hset : ∀ (w : Fin 4) (n : Nat), c = 64 * w.val + n → n < 64 →
      (⟨Function.update s.bits64 w (s.bits64 w ||| 1#64 <<< n)⟩ : Cpuset) = withCpu s c := by
    intro w n hcn hn
    unfold withCpu
    congr 1
    funext v
    rw [Function.update_apply]
    by_cases hv : v = w
    · subst hv
      have hmod : c % 64 = n := by omega
      rw [if_pos rfl, if_pos (by omega), hmod]
    · rw [if_neg hv, if_neg]
      intro hdiv
      exact hv (Fin.ext (by omega))
  unfold cpusetSet
  dsimp only
  by_cases h₀ : c < 64
  · rw [if_pos h₀, if_pos (by omega), hset 0 c (by omega) h₀]
  · rw [if_neg h₀]
    by_cases h₁ : c < 128
    · rw [if_pos h₁, if_pos (by omega),
        hset 1 (c - 64) (by change c = 64 * 1 + _; omega) (by omega)]
    · rw [if_neg h₁]
      by_cases h₂ : c < 192
      · rw [if_pos h₂, if_pos (by omega),
          hset 2 (c - 128) (by change c = 64 * 2 + _; omega) (by omega)]
      · rw [if_neg h₂]
        by_cases h₃ : c < 256
        · rw [if_pos h₃, if_pos h₃,
            hset 3 (c - 192) (by change c = 64 * 3 + _; omega) (by omega)]
        · rw [if_neg h₃, if_neg h₃]

-- ======== the kids

/-- The parameters after a cpu got its kid. -/
def Params.withKid (kid cpu : Nat) (q : Params) : Params where
  usedcpu := withCpu q.usedcpu cpu
  kid2cpu := Function.update q.kid2cpu kid cpu
  cpu2kid := Function.update q.cpu2kid cpu kid

/-- The cpus get the kids from `kid` on. -/
def Params.withKids : List Nat → Nat → Params → Params
  | [], _, q => q
  | c :: cs, kid, q => withKids cs (kid + 1) (q.withKid kid c)

theorem setKid_eq (kid cpu : Nat) (q : Params) : q.setKid kid cpu
    = if kid < 256 ∧ cpu < 256 then .ok (q.withKid kid cpu) else .error .fault := by
  unfold Params.setKid
  rw [cpusetSet_eq]
  by_cases hcpu : cpu < 256
  · rw [if_pos hcpu]
    rfl
  · rw [if_neg hcpu, if_neg (fun h => hcpu h.2)]
    rfl

variable {q : Params} {cs : List Nat} {kid : Nat}

theorem kid2cpu_below (cs : List Nat) {k : Nat} (hk : k < kid) (q : Params) :
    (q.withKids cs kid).kid2cpu k = q.kid2cpu k := by
  induction cs generalizing kid q with
  | nil => rfl
  | cons c cs ih =>
    refine (ih (Nat.lt_succ_of_lt hk) _).trans ?_
    exact Function.update_of_ne (Nat.ne_of_lt hk) _ _

/-- The cpu of each new kid. -/
theorem kid2cpu_withKids (cs : List Nat) (kid : Nat) (q : Params) (j : Nat)
    (hj : j < cs.length) : (q.withKids cs kid).kid2cpu (kid + j) = cs[j] := by
  induction cs generalizing kid q j with
  | nil => exact absurd hj (Nat.not_lt_zero j)
  | cons c cs ih =>
    cases j with
    | zero =>
      refine (kid2cpu_below cs (Nat.lt_succ_self kid) _).trans ?_
      exact Function.update_self kid c q.kid2cpu
    | succ j =>
      have hsum : kid + (j + 1) = kid + 1 + j := by omega
      rw [hsum]
      exact ih (kid + 1) _ j (Nat.lt_of_succ_lt_succ hj)

theorem cpu2kid_of_notMem (hc : c ∉ cs) (kid : Nat) (q : Params) :
    (q.withKids cs kid).cpu2kid c = q.cpu2kid c := by
  induction cs generalizing kid q with
  | nil => rfl
  | cons c' cs ih =>
    refine (ih (fun h => hc (List.mem_cons_of_mem c' h)) _ _).trans ?_
    refine Function.update_of_ne ?_ _ _
    rintro rfl
    exact hc List.mem_cons_self

/-- The kid of each new cpu. -/
theorem cpu2kid_withKids (hc : c ∈ cs) (kid : Nat) (q : Params) :
    ∃ j, ∃ hj : j < cs.length, cs[j] = c ∧ (q.withKids cs kid).cpu2kid c = kid + j := by
  induction cs generalizing kid q with
  | nil => exact absurd hc List.not_mem_nil
  | cons c' cs ih =>
    by_cases htail : c ∈ cs
    · obtain ⟨j, hj, hcj, hkid⟩ := ih htail (kid + 1) (q.withKid kid c')
      refine ⟨j + 1, Nat.succ_lt_succ hj, hcj, hkid.trans ?_⟩
      omega
    · obtain rfl : c = c' := (List.mem_cons.mp hc).resolve_right htail
      refine ⟨0, Nat.succ_pos _, rfl, (cpu2kid_of_notMem htail _ _).trans ?_⟩
      exact Function.update_self c kid q.cpu2kid

theorem has_withKids (hcs : ∀ c ∈ cs, c < 256) (kid : Nat) (q : Params) (hc : c < 256) :
    (q.withKids cs kid).usedcpu.has c = true ↔ c ∈ cs ∨ q.usedcpu.has c = true := by
  induction cs generalizing kid q with
  | nil => exact ⟨.inr, fun h => h.resolve_left List.not_mem_nil⟩
  | cons c' cs ih =>
    have hc' := hcs c' List.mem_cons_self
    refine (ih (fun c h => hcs c (List.mem_cons_of_mem c' h)) _ _).trans ?_
    change c ∈ cs ∨ (withCpu q.usedcpu c').has c = true ↔ _
    rw [has_withCpu _ hc' hc, Bool.or_eq_true, beq_iff_eq, List.mem_cons]
    tauto

-- ======== the loop

/-- The processors from `i` on that are used. -/
def usables (p : Parser) (i left : Nat) : List Nat :=
  (List.range' i left).filter fun j => (p.procBits j).usable

/-- The entries of processors that are no cpus. -/
def plainEntries (p : Parser) (procType : Nat) (is : List Nat) : List ProcInfo :=
  is.map fun i => ⟨p.procBinding i, procType, i, none⟩

/-- The entries of cpus, with the kids from `kid` on. -/
def cpuEntries (p : Parser) : List Nat → Nat → List ProcInfo
  | [], _ => []
  | i :: is, kid =>
    ⟨p.procBinding i, procTypeCpu, i, some kid⟩ :: cpuEntries p is (kid + 1)

variable {i left count procType : Nat}

theorem usables_succ (p : Parser) (i left : Nat) : usables p i (left + 1)
    = if (p.procBits i).usable then i :: usables p (i + 1) left
      else usables p (i + 1) left := by
  unfold usables
  rw [List.range'_succ, List.filter_cons]

theorem listLoop_skip (hu : (p.procBits i).usable = false) :
    listLoop p procType (left + 1) i (count + 1) kid q
      = listLoop p procType left (i + 1) (count + 1) kid q := by
  refine (show listLoop p procType (left + 1) i (count + 1) kid q = ite _ _ _ from rfl).trans
    (if_pos ?_)
  rw [hu]
  rfl

theorem listLoop_add (hu : (p.procBits i).usable = true)
    (htype : procType ≠ procTypeCpu) :
    listLoop p procType (left + 1) i (count + 1) kid q
      = (listLoop p procType left (i + 1) count kid q >>= fun r =>
        .ok (⟨p.procBinding i, procType, i, none⟩ :: r.1, r.2)) := by
  refine (show listLoop p procType (left + 1) i (count + 1) kid q = ite _ _ _ from rfl).trans
    ((if_neg ?_).trans (if_neg htype))
  rw [hu]
  exact Bool.false_ne_true

theorem listLoop_addCpu (hu : (p.procBits i).usable = true) :
    listLoop p procTypeCpu (left + 1) i (count + 1) kid q
      = (q.setKid kid (p.procBinding i) >>= fun q =>
        listLoop p procTypeCpu left (i + 1) count (kid + 1) q >>= fun r =>
          .ok (⟨p.procBinding i, procTypeCpu, i, some kid⟩ :: r.1, r.2)) := by
  refine (show listLoop p procTypeCpu (left + 1) i (count + 1) kid q = ite _ _ _
    from rfl).trans ((if_neg ?_).trans (if_pos rfl))
  rw [hu]
  exact Bool.false_ne_true

/-- The loop for processors that are not CPUs. -/
theorem listLoop_plain (htype : procType ≠ procTypeCpu)
    (hcount : count = (usables p i left).length) :
    listLoop p procType left i count kid q
      = .ok (plainEntries p procType (usables p i left), q) := by
  induction left generalizing i count with
  | zero => rfl
  | succ left ih =>
    rw [usables_succ] at hcount ⊢
    cases hu : (p.procBits i).usable with
    | false =>
      rw [hu, if_neg Bool.false_ne_true] at hcount
      rw [if_neg Bool.false_ne_true]
      cases count with
      | zero =>
        rw [List.length_eq_zero_iff.mp hcount.symm]
        rfl
      | succ count => exact (listLoop_skip hu).trans (ih hcount)
    | true =>
      rw [hu, if_pos rfl, List.length_cons] at hcount
      rw [if_pos rfl, hcount, listLoop_add hu htype, ih rfl]
      rfl

/-- The loop for cpus: there is a kid for each of them, and each one is in
the cpuset, or an access is outside. -/
theorem listLoop_cpu (hkid : kid ≤ 256) (hcount : count = (usables p i left).length) :
    listLoop p procTypeCpu left i count kid q
      = if (∀ j ∈ usables p i left, p.procBinding j < 256)
          ∧ kid + (usables p i left).length ≤ 256
        then .ok (cpuEntries p (usables p i left) kid,
          q.withKids ((usables p i left).map p.procBinding) kid)
        else .error .fault := by
  induction left generalizing i count kid q with
  | zero => exact (if_pos ⟨fun _ h => absurd h List.not_mem_nil, hkid⟩).symm
  | succ left ih =>
    rw [usables_succ] at hcount ⊢
    cases hu : (p.procBits i).usable with
    | false =>
      rw [hu, if_neg Bool.false_ne_true] at hcount
      rw [if_neg Bool.false_ne_true]
      cases count with
      | zero =>
        rw [List.length_eq_zero_iff.mp hcount.symm]
        exact (if_pos ⟨fun _ h => absurd h List.not_mem_nil, hkid⟩).symm
      | succ count => exact (listLoop_skip hu).trans (ih hkid hcount)
    | true =>
      rw [hu, if_pos rfl, List.length_cons] at hcount
      rw [if_pos rfl, hcount, listLoop_addCpu hu, setKid_eq]
      by_cases hfit : kid < 256 ∧ p.procBinding i < 256
      · rw [if_pos hfit]
        change (listLoop p procTypeCpu left (i + 1) _ (kid + 1) _ >>= _) = _
        rw [ih hfit.1 rfl]
        by_cases hrest : (∀ j ∈ usables p (i + 1) left, p.procBinding j < 256)
            ∧ kid + 1 + (usables p (i + 1) left).length ≤ 256
        · rw [if_pos hrest, if_pos]
          · rfl
          · refine ⟨List.forall_mem_cons.mpr ⟨hfit.2, hrest.1⟩, ?_⟩
            rw [List.length_cons]
            omega
        · rw [if_neg hrest, if_neg]
          · rfl
          · rintro ⟨hall, hlen⟩
            rw [List.length_cons] at hlen
            exact hrest ⟨(List.forall_mem_cons.mp hall).2, by omega⟩
      · rw [if_neg hfit, if_neg]
        · rfl
        · rintro ⟨hall, hlen⟩
          rw [List.length_cons] at hlen
          exact hfit ⟨by omega, (List.forall_mem_cons.mp hall).1⟩

end XKaapi.Machine
