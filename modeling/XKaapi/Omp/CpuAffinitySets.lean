/-
The set that KAAPI_CPUSET denotes for the entries of GOMP_CPU_AFFINITY. An
entry becomes fields of the grammar of the processor sets (`Entry.fields`):
one for a cpu or a range, one for each turn of the loop of a stride. On the
entries of `Entry.Sound` these cover the cpus of the entry.
-/
import XKaapi.Omp.CpuAffinity

namespace XKaapi.Omp.Affinity

open XKaapi.Machine

-- ======== the strings of the grammar

/-- A decimal number. -/
structure Digits where
  text : List Char
  digit : ∀ c ∈ text, c.isDigit = true
  ne : text ≠ []

def Digits.value (d : Digits) : Nat := decimal d.text

inductive Entry
  | one (a : Digits)
  | range (a b : Digits)
  | strided (a b s : Digits)

def Entry.text : Entry → List Char
  | .one a => a.text
  | .range a b => a.text ++ '-' :: b.text
  | .strided a b s => a.text ++ '-' :: (b.text ++ ':' :: s.text)

/-- The cpus of an entry. -/
def Entry.cpu : Entry → Nat → Prop
  | .one a, c => c = a.value
  | .range a b, c => a.value ≤ c ∧ c ≤ b.value
  | .strided a b s, c => a.value ≤ c ∧ c ≤ b.value ∧ s.value ∣ c - a.value

/-- Entries, each with the blanks after it, behind some blanks. -/
structure Entries where
  lead : List Char
  items : List (Entry × List Char)

def Entries.text (es : Entries) : List Char :=
  es.lead ++ es.items.flatMap fun i => i.1.text ++ i.2

def Entries.cpu (es : Entries) (c : Nat) : Prop := ∃ i ∈ es.items, i.1.cpu c

/-- The blanks are some, between two entries, and the strides at least 1. -/
structure Entries.WellFormed (es : Entries) : Prop where
  lead : ∀ c ∈ es.lead, isBlank c = true
  blanks : ∀ i ∈ es.items, ∀ c ∈ i.2, isBlank c = true
  between : ∀ i ∈ es.items.dropLast, i.2 ≠ []
  stride : ∀ i ∈ es.items, ∀ a b s, i.1 = .strided a b s → 0 < s.value

/-- A range goes up. A range with a stride, of numbers that are an `int`,
does not reach its last cpu. -/
def Entry.Sound : Entry → Prop
  | .one _ => True
  | .range a b => a.value ≤ b.value
  | .strided a b s =>
    (a.value < 2 ^ 31 ∧ b.value < 2 ^ 31 ∧ s.value < 2 ^ 31)
      ∧ ¬ (a.value ≤ b.value ∧ s.value ∣ b.value - a.value)

/-- There is one blank between two entries, none around them, and the
processors are there. -/
structure Entries.Sound (max : Nat) (es : Entries) : Prop where
  single : [] ∉ tokens es.text
  cpus : ∀ c, es.cpu c → c < max
  entry : ∀ i ∈ es.items, i.1.Sound

/-- The parser of the processor sets accepts the set, and enables the
processors of `cpu`. -/
def Denotes (max : Nat) (set : List Char) (cpu : Nat → Prop) : Prop :=
  ∀ binding, ∃ p, parseString max set (initParser binding) = .ok p
    ∧ ∀ i < max, (p.procBits i).usable = true ↔ cpu i

-- ======== the tokens

variable {l : List Char} {e : Entry} {fs : List Field} {es : Entries}

theorem strsep_append {delim : Char → Bool} (hl : ∀ c ∈ l, delim c = false) {d : Char}
    (hd : delim d = true) (r : List Char) : strsep delim (l ++ d :: r) = (l, some r) := by
  have hrun : Scan.IsRun (!delim ·) l (d :: r) :=
    ⟨fun c hc => by simp [hl c hc], by simp [hd]⟩
  rw [strsep, hrun.takeWhile, hrun.dropWhile]
  rfl

theorem strsep_all {delim : Char → Bool} (hl : ∀ c ∈ l, delim c = false) :
    strsep delim l = (l, none) := by
  have hrun : Scan.IsRun (!delim ·) l [] := ⟨fun c hc => by simp [hl c hc], rfl⟩
  have htake := hrun.takeWhile
  have hdrop := hrun.dropWhile
  rw [List.append_nil] at htake hdrop
  rw [strsep, htake, hdrop]
  rfl

/-- A blank ends a token. -/
theorem tokens_append (hl : ∀ c ∈ l, isBlank c = false) {c : Char} (hc : isBlank c = true)
    (r : List Char) : tokens (l ++ c :: r) = l :: tokens r := by
  rw [tokens, strsep_append hl hc r]

theorem tokens_all (hl : ∀ c ∈ l, isBlank c = false) : tokens l = [l] := by
  rw [tokens, strsep_all hl]

theorem not_delim_of_digit {c : Char} (h : c.isDigit = true) :
    isBlank c = false ∧ (c == '-') = false ∧ (c == ':') = false := by
  have hne : ∀ d : Char, d.isDigit = false → (c == d) = false := fun d hd =>
    beq_eq_false_iff_ne.2 fun heq => by rw [heq, hd] at h; cases h
  exact ⟨by rw [isBlank, hne ' ' rfl, hne '\t' rfl]; rfl, hne '-' rfl, hne ':' rfl⟩

theorem Entry.not_blank (e : Entry) : ∀ c ∈ e.text, isBlank c = false := by
  have hdigit : ∀ (d : Digits) c, c ∈ d.text → isBlank c = false :=
    fun d c hc => (not_delim_of_digit (d.digit c hc)).1
  intro c hc
  cases e with
  | one a => exact hdigit a c hc
  | range a b =>
    simp only [Entry.text, List.mem_append, List.mem_cons] at hc
    rcases hc with hc | rfl | hc
    · exact hdigit a c hc
    · rfl
    · exact hdigit b c hc
  | strided a b s =>
    simp only [Entry.text, List.mem_append, List.mem_cons] at hc
    rcases hc with hc | rfl | hc | rfl | hc
    · exact hdigit a c hc
    · rfl
    · exact hdigit b c hc
    · rfl
    · exact hdigit s c hc

/-- A blank at the front leaves an empty token. -/
theorem tokens_blanks {bs r : List Char} (hbs : ∀ c ∈ bs, isBlank c = true)
    (h : [] ∉ tokens (bs ++ r)) : bs = [] := by
  cases bs with
  | nil => rfl
  | cons c bs =>
    have hcons := tokens_append (l := []) (by simp) (hbs c List.mem_cons_self) (bs ++ r)
    rw [List.nil_append] at hcons
    rw [List.cons_append, hcons] at h
    exact absurd List.mem_cons_self h

/-- Without an empty token, the tokens are the entries. -/
theorem tokens_items {items : List (Entry × List Char)} (hne : items ≠ [])
    (hblanks : ∀ i ∈ items, ∀ c ∈ i.2, isBlank c = true)
    (hbetween : ∀ i ∈ items.dropLast, i.2 ≠ [])
    (h : [] ∉ tokens (items.flatMap fun i => i.1.text ++ i.2)) :
    tokens (items.flatMap fun i => i.1.text ++ i.2) = items.map (·.1.text) := by
  induction items with
  | nil => exact absurd rfl hne
  | cons i items ih =>
    obtain ⟨e, bs⟩ := i
    rw [List.flatMap_cons, List.append_assoc] at h ⊢
    cases bs with
    | nil =>
      cases items with
      | nil => simpa using tokens_all e.not_blank
      | cons i items => exact absurd rfl (hbetween _ List.mem_cons_self)
    | cons c bs =>
      have hbs : ∀ d ∈ bs, isBlank d = true :=
        fun d hd => hblanks _ List.mem_cons_self d (List.mem_cons_of_mem _ hd)
      rw [List.cons_append,
        tokens_append e.not_blank (hblanks _ List.mem_cons_self c List.mem_cons_self)]
        at h ⊢
      have h' := fun hmem => h (List.mem_cons_of_mem _ hmem)
      obtain rfl := tokens_blanks hbs h'
      rw [List.nil_append] at h' ⊢
      cases items with
      | nil => exact absurd (by simp [tokens_all]) h'
      | cons i items =>
        rw [ih (List.cons_ne_nil _ _) (fun j hj => hblanks j (List.mem_cons_of_mem _ hj))
          (fun j hj => hbetween j (List.mem_cons_of_mem _ hj)) h']
        rfl

-- ======== the fields of an entry

theorem decimal_toDigits (n : Nat) : decimal (Nat.toDigits 10 n) = n := by
  induction n using Nat.strongRecOn with
  | ind n ih =>
    rw [Nat.toDigits_eq_if (by decide)]
    by_cases hn : n < 10
    · rw [if_pos hn]
      simpa [decimal] using Nat.toNat_digitChar_sub_48_of_lt_ten hn
    · have hrec := ih (n / 10) (by omega)
      have hlast := Nat.toNat_digitChar_sub_48_of_lt_ten (Nat.mod_lt n (by decide : 0 < 10))
      unfold decimal at hrec ⊢
      rw [if_neg hn, List.foldl_append, hrec, List.foldl_cons, List.foldl_nil, hlast]
      omega

/-- `%d` of a number. -/
def number (n : Nat) : Digits where
  text := Nat.toDigits 10 n
  digit _ hc := Nat.isDigit_of_mem_toDigits (by decide) (by decide) hc
  ne := Nat.toDigits_ne_nil

def cpuField (d : Digits) : Field := ⟨0, d.text, none, none, d.digit⟩

def rangeField (a b : Digits) : Field :=
  ⟨0, a.text, some (some ⟨[], none, b.text, by simp, b.digit, b.ne⟩), none, a.digit⟩

/-- What an entry is translated to. -/
def Entry.fields : Entry → List Field
  | .one a => [cpuField a]
  | .range a b => [rangeField a b]
  | .strided a b s => (List.range (turns a.value b.value s.value)).map fun k =>
    cpuField (number (a.value + k * s.value))

/-- atoi reads digits below 2^31. -/
theorem atoi_digits (d : Digits) (h : d.value < 2 ^ 31) : atoi d.text = d.value := by
  have hhead : ∀ c ∈ d.text.head?, c.isDigit = true :=
    fun c hc => d.digit c (List.mem_of_mem_head? hc)
  have hspace : Scan.IsRun isSpace [] d.text := by
    refine ⟨by simp, ?_⟩
    cases hc : d.text.head? with
    | none => rfl
    | some c => exact not_isSpace_of_isDigit (hhead c hc)
  have hsign : readSign d.text = (false, d.text) := by
    refine readSign_text none fun c hc => ?_
    have hd := hhead c hc
    constructor
    · rintro rfl
      cases hd
    · rintro rfl
      cases hd
  have hrun : Scan.IsRun Char.isDigit d.text [] := ⟨d.digit, rfl⟩
  have htake := hrun.takeWhile
  rw [List.append_nil] at htake
  unfold atoi
  rw [hspace.dropWhile_rest, hsign]
  dsimp only
  rw [htake, ← Digits.value, if_neg Bool.false_ne_true, Nat.min_eq_left (by omega)]
  exact Int.bmod_eq_of_le (by omega) (by omega)

/-- An entry is cut in its numbers. -/
theorem cut_text (e : Entry) : cut e.text = match e with
    | .one a => ⟨a.text, none, none⟩
    | .range a b => ⟨a.text, some b.text, none⟩
    | .strided a b s => ⟨a.text, some b.text, some s.text⟩ := by
  have hdash : ∀ (d : Digits) c, c ∈ d.text → (c == '-') = false :=
    fun d c hc => (not_delim_of_digit (d.digit c hc)).2.1
  have hcolon : ∀ (d : Digits) c, c ∈ d.text → (c == ':') = false :=
    fun d c hc => (not_delim_of_digit (d.digit c hc)).2.2
  cases e with
  | one a => rw [cut, Entry.text, strsep_all (hdash a)]
  | range a b =>
    rw [cut, Entry.text, strsep_append (hdash a) rfl]
    dsimp only
    rw [strsep_all (hcolon b)]
  | strided a b s =>
    rw [cut, Entry.text, strsep_append (hdash a) rfl]
    dsimp only
    rw [strsep_append (hcolon b) rfl]

/-- A field and its comma. -/
def comma (f : Field) : List Char := f.text ++ [',']

/-- The pieces that the code writes for it. -/
theorem pieces_text (h : e.Sound) : (cut e.text).pieces = e.fields.map comma := by
  rw [cut_text]
  cases e with
  | one a => simp [Token.pieces, Entry.fields, comma, cpuField, Field.text, rangeText,
      bindingText]
  | range a b => simp [Token.pieces, Entry.fields, comma, rangeField, Field.text,
      rangeText, bindingText, Num.text, signText]
  | strided a b s =>
    obtain ⟨⟨ha, hb, hs⟩, -⟩ := h
    simp only [Token.pieces, Entry.fields, atoi_digits a ha, atoi_digits b hb,
      atoi_digits s hs, List.map_map]
    refine List.map_congr_left fun k _ => ?_
    have hcast : (a.value : Int) + k * s.value = (a.value + k * s.value : Nat) := by
      push_cast
      rfl
    rw [hcast, decimalOf, if_neg (by omega), Int.natAbs_natCast]
    simp [comma, cpuField, number, Field.text, rangeText, bindingText]

-- ======== the cpus of the fields

variable {max : Nat}

theorem covers_cpuField (d : Digits) (i : Nat) :
    (cpuField d).covers max i = true ↔ i = d.value := by
  have hlow : (cpuField d).lowValue = d.value := rfl
  have hhigh : (cpuField d).highValue max = d.value := rfl
  simp only [Field.covers, Field.first, Field.last, hlow, hhigh, Bool.and_eq_true,
    decide_eq_true_eq]
  omega

theorem covers_rangeField {a b : Digits} (hab : a.value ≤ b.value) (i : Nat) :
    (rangeField a b).covers max i = true ↔ a.value ≤ i ∧ i ≤ b.value := by
  have hlow : (rangeField a b).lowValue = a.value := rfl
  have hhigh : (rangeField a b).highValue max = b.value := rfl
  simp only [Field.covers, Field.first, Field.last, hlow, hhigh, Bool.and_eq_true,
    decide_eq_true_eq]
  omega

/-- The turns of a loop with a stride. -/
theorem lt_turns_iff {first last hop : Int} (hpos : 0 < hop) (k : Nat) :
    k < turns first last hop ↔ first + k * hop < last := by
  unfold turns
  have hk : 0 ≤ (k : Int) * hop := Int.mul_nonneg (by omega) hpos.le
  split
  · omega
  · rw [CountedLoop.lt_ceilDiv_iff hpos]
    omega

/-- The fields of an entry cover its cpus. -/
theorem covers_fields (h : e.Sound) (hstride : ∀ a b s, e = .strided a b s → 0 < s.value)
    (i : Nat) : (∃ f ∈ e.fields, f.covers max i = true) ↔ e.cpu i := by
  cases e with
  | one a => simp [Entry.fields, Entry.cpu, covers_cpuField]
  | range a b => simp [Entry.fields, Entry.cpu, covers_rangeField h]
  | strided a b s =>
    have hpos := hstride a b s rfl
    simp only [Entry.fields, Entry.cpu, List.mem_map, List.mem_range,
      exists_exists_and_eq_and, covers_cpuField, lt_turns_iff (Int.natCast_pos.2 hpos)]
    have hvalue : ∀ k, (number (a.value + k * s.value)).value = a.value + k * s.value :=
      fun k => decimal_toDigits _
    constructor
    · rintro ⟨k, hk, rfl⟩
      rw [hvalue]
      refine ⟨Nat.le_add_right _ _, by omega, ?_⟩
      rw [Nat.add_sub_cancel_left]
      exact Nat.dvd_mul_left _ _
    · rintro ⟨hle, hleb, k, hk⟩
      refine ⟨k, ?_, by rw [hvalue, Nat.mul_comm, ← hk]; omega⟩
      -- the last cpu is not one of the cpus of the entry
      have hne : i ≠ b.value := by
        rintro rfl
        exact h.2 ⟨hle, k, hk⟩
      have hcast : (k : Int) * s.value = (s.value * k : Nat) := by
        push_cast
        ring
      rw [hcast, ← hk]
      omega

/-- The cpus of a sound entry are in range. -/
theorem inRange_fields (h : e.Sound) (hstride : ∀ a b s, e = .strided a b s → 0 < s.value)
    (hcpus : ∀ c, e.cpu c → c < max) : ∀ f ∈ e.fields, f.InRange max := by
  have hcpu : ∀ d : Digits, cpuField d ∈ e.fields → (cpuField d).InRange max := by
    intro d hd
    have hcov : (cpuField d).covers max d.value = true := (covers_cpuField d _).2 rfl
    have hlt := hcpus d.value ((covers_fields h hstride _).1 ⟨_, hd, hcov⟩)
    have hlow : (cpuField d).lowValue = d.value := rfl
    have hhigh : (cpuField d).highValue max = d.value := rfl
    exact ⟨by rw [hlow]; omega, by rw [hhigh]; omega, by rw [hhigh]; omega⟩
  cases e with
  | one a =>
    intro f hf
    obtain rfl := List.mem_singleton.1 hf
    exact hcpu a hf
  | range a b =>
    intro f hf
    obtain rfl := List.mem_singleton.1 hf
    have hb : b.value < max := hcpus b.value ⟨h, Nat.le_refl _⟩
    have hab : a.value ≤ b.value := h
    have hlow : (rangeField a b).lowValue = a.value := rfl
    have hhigh : (rangeField a b).highValue max = b.value := rfl
    exact ⟨by rw [hlow]; omega, by rw [hhigh]; omega, by rw [hhigh]; omega⟩
  | strided a b s =>
    intro f hf
    obtain ⟨k, -, rfl⟩ := List.mem_map.1 hf
    exact hcpu _ hf

theorem usedIn_of_enabled (hfs : ∀ f ∈ fs, f.bangs = 0) (i : Nat) :
    usedIn max fs i = true ↔ ∃ f ∈ fs, f.covers max i = true := by
  have hen : ∀ f ∈ fs, f.enables = true := by
    intro f hf
    rw [Field.enables, hfs f hf]
    rfl
  have hdis : disabledIn max fs i = false :=
    List.any_eq_false.2 fun f hf => by simp [hen f hf]
  rw [usedIn, hdis, Bool.not_false, Bool.true_and, enabledIn, List.find?_isSome]
  exact exists_congr fun f => and_congr_right fun hf => by simp [hen f hf]

theorem flatten_comma (hne : fs ≠ []) :
    (fs.map comma).flatten = fieldsText fs ++ [','] := by
  induction fs with
  | nil => exact absurd rfl hne
  | cons f fs ih =>
    cases fs with
    | nil => simp [comma, fieldsText]
    | cons g fs =>
      rw [List.map_cons, List.flatten_cons, ih (List.cons_ne_nil g fs)]
      simp [comma, fieldsText]

/-- The parser reads fields that enable processors there are. -/
theorem denotes_fields {max : UInt32} (hne : fs ≠ [])
    (hplain : ∀ f ∈ fs, f.bangs = 0 ∧ f.binding = none)
    (hin : ∀ f ∈ fs, f.InRange max.toNat) :
    Denotes max.toNat (fieldsText fs) fun i => ∃ f ∈ fs, f.covers max.toNat i = true := by
  intro binding
  have hlexed : Lexed (fieldsText fs) fs true :=
    lexed_fieldsText hne fun f hf hopen => hopen.2 (hplain f hf).2
  have hstays : StaysAll max.toNat [] (fs.map (Field.expr max.toNat)) :=
    staysAll_of_inRange max.toNat_lt hin
  rcases parseString_spec max.toNat_lt hlexed binding with
    ⟨-, -, p, hp, hmarked⟩ | ⟨-, hok, -⟩ | ⟨hnot, -⟩
  · refine ⟨p, hp, fun i hi => ?_⟩
    rw [hmarked.usable i hi, used_eq max.toNat_lt hin]
    exact usedIn_of_enabled (fun f hf => (hplain f hf).1) i
  · cases hok
  · exact absurd hstays hnot

-- ======== the translation

def Entries.fields (es : Entries) : List Field := es.items.flatMap (·.1.fields)

/-- The tokens of a text are its entries. -/
theorem Entries.tokens_eq (hwf : es.WellFormed) (h : [] ∉ tokens es.text) :
    tokens es.text = es.items.map (·.1.text) := by
  obtain ⟨lead, items⟩ := es
  obtain rfl : lead = [] := tokens_blanks hwf.lead h
  refine tokens_items ?_ hwf.blanks hwf.between h
  rintro rfl
  exact h (by simp [Entries.text, tokens_all])

theorem Entries.pieces_eq (hwf : es.WellFormed) (h : es.Sound max) :
    pieces es.text = es.fields.map comma := by
  rw [pieces, es.tokens_eq hwf h.single, List.flatMap_map, Entries.fields,
    List.map_flatMap]
  refine List.flatMap_congr fun i hi => ?_
  exact pieces_text (h.entry i hi)

theorem Entry.fields_plain (e : Entry) :
    ∀ f ∈ e.fields, f.bangs = 0 ∧ f.binding = none := by
  intro f hf
  cases e with
  | one a =>
    obtain rfl := List.mem_singleton.1 hf
    exact ⟨rfl, rfl⟩
  | range a b =>
    obtain rfl := List.mem_singleton.1 hf
    exact ⟨rfl, rfl⟩
  | strided a b s =>
    obtain ⟨k, -, rfl⟩ := List.mem_map.1 hf
    exact ⟨rfl, rfl⟩

/-- The set that a sound text denotes. -/
theorem Entries.denotes {max : UInt32} (hwf : es.WellFormed) (h : es.Sound max.toNat)
    (hne : es.fields ≠ []) : Denotes max.toNat (fieldsText es.fields) es.cpu := by
  have hcpu : ∀ i, (∃ f ∈ es.fields, f.covers max.toNat i = true) ↔ es.cpu i := by
    intro i
    have hentry : ∀ j ∈ es.items,
        ((∃ f ∈ j.1.fields, f.covers max.toNat i = true) ↔ j.1.cpu i) :=
      fun j hj => covers_fields (h.entry j hj) (hwf.stride j hj) i
    constructor
    · rintro ⟨f, hf, hcov⟩
      obtain ⟨j, hj, hf⟩ := List.mem_flatMap.1 hf
      exact ⟨j, hj, (hentry j hj).1 ⟨f, hf, hcov⟩⟩
    · rintro ⟨j, hj, hcpu⟩
      obtain ⟨f, hf, hcov⟩ := (hentry j hj).2 hcpu
      exact ⟨f, List.mem_flatMap.2 ⟨j, hj, hf⟩, hcov⟩
  intro binding
  obtain ⟨p, hp, husable⟩ := denotes_fields hne
    (fun f hf => by
      obtain ⟨j, -, hf⟩ := List.mem_flatMap.1 hf
      exact j.1.fields_plain f hf)
    (fun f hf => by
      obtain ⟨j, hj, hf⟩ := List.mem_flatMap.1 hf
      exact inRange_fields (h.entry j hj) (hwf.stride j hj)
        (fun c hc => h.cpus c ⟨j, hj, hc⟩) f hf)
    binding
  exact ⟨p, hp, fun i hi => (husable i hi).trans (hcpu i)⟩

/-- A string that fits is translated without a write outside of the buffers,
and to the set of its entries when it has sound ones. -/
theorem cpu_affinity_translated (max : UInt32) {env : List Char} (h : Fits env) :
    ∃ fuel set, komp_parse_cpu_affinity fuel env = some set
      ∧ ∀ es : Entries, es.WellFormed → es.text = env → es.Sound max.toNat →
        Denotes max.toNat set es.cpu := by
  obtain ⟨fuel, hset⟩ := komp_parse_cpu_affinity_eq h
  refine ⟨fuel, _, hset, ?_⟩
  rintro es hwf rfl hsound
  have hpieces := es.pieces_eq hwf hsound
  have hne : es.fields ≠ [] := by
    intro hnil
    have hpos := h.pos
    rw [hpieces, hnil] at hpos
    exact absurd hpos (Nat.lt_irrefl 0)
  rw [hpieces, flatten_comma hne, List.dropLast_concat]
  exact es.denotes hwf hsound hne

/-- The string `0-1 3`. -/
def twoEntries : Entries :=
  ⟨[], [(.range (number 0) (number 1), [' ']), (.one (number 3), [])]⟩

theorem tokens_twoEntries : tokens twoEntries.text = [['0', '-', '1'], ['3']] := by
  show tokens ((Entry.range (number 0) (number 1)).text
    ++ ' ' :: (Entry.one (number 3)).text) = _
  rw [tokens_append (Entry.not_blank _) rfl, tokens_all (Entry.not_blank _)]
  rfl

theorem fits_twoEntries : Fits twoEntries.text := by
  have hp : pieces twoEntries.text = [['0', ':', '1', ','], ['3', ',']] := by
    rw [pieces, tokens_twoEntries]
    rfl
  refine ⟨?_, by rw [hp]; decide, by rw [hp]; decide, by rw [hp]; decide⟩
  rw [tokens_twoEntries]
  intro tok htok last stride _ hs
  rcases List.mem_cons.1 htok with rfl | htok
  · cases hs
  · obtain rfl := List.mem_singleton.1 htok
    cases hs

theorem cpu_affinity_two_entries : ∃ fuel set,
    komp_parse_cpu_affinity fuel twoEntries.text = some set
      ∧ Denotes 4 set twoEntries.cpu := by
  obtain ⟨fuel, set, hset, hden⟩ := cpu_affinity_translated 4 fits_twoEntries
  refine ⟨fuel, set, hset, hden twoEntries ?_ rfl ?_⟩
  · refine ⟨nofun, ?_, ?_, ?_⟩ <;> simp [twoEntries, isBlank]
  · refine ⟨by rw [tokens_twoEntries]; decide, ?_, ?_⟩
    · rintro c ⟨i, hi, hc⟩
      rcases List.mem_cons.1 hi with rfl | hi
      · exact Nat.lt_of_le_of_lt hc.2 (by decide)
      · obtain rfl := List.mem_singleton.1 hi
        exact hc ▸ by decide
    · intro i hi
      rcases List.mem_cons.1 hi with rfl | hi
      · exact (by decide : (number 0).value ≤ (number 1).value)
      · obtain rfl := List.mem_singleton.1 hi
        trivial

/-- The string `1-1:1`, of the cpu 1: nothing is appended, and the last
comma is cut off in front of the buffer. -/
def emptyRange : Entries := ⟨[], [(.strided (number 1) (number 1) (number 1), [])]⟩

theorem cpu_affinity_empty_range : ¬ ∀ (max : UInt32) (es : Entries), es.WellFormed →
    (∀ c, es.cpu c → c < max.toNat) →
    ∃ fuel set, komp_parse_cpu_affinity fuel es.text = some set
      ∧ Denotes max.toNat set es.cpu := by
  intro h
  obtain ⟨fuel, set, hset, -⟩ := h 2 emptyRange
    (by
      refine ⟨nofun, ?_, ?_, ?_⟩ <;>
        simp [emptyRange, Digits.value, number, decimal_toDigits])
    (by
      rintro c ⟨i, hi, hc⟩
      obtain rfl := List.mem_singleton.1 hi
      exact Nat.lt_of_le_of_lt hc.2.1 (by decide))
  have htok : tokens emptyRange.text = [['1', '-', '1', ':', '1']] :=
    tokens_all (Entry.not_blank (.strided (number 1) (number 1) (number 1)))
  rw [komp_parse_cpu_affinity, htok] at hset
  cases fuel with
  | zero => cases hset
  | succ fuel => cases hset

end XKaapi.Omp.Affinity
