/-
The texts that the parser of processor sets reads.

A `Field` is what stands between two commas, with all that `strtoul` lets
through. `Field.Reads` cuts the text where the parser looks at the next
character, and `readProcExpr_iff` says that the parser reads nothing else.
`Lexed` goes on to the end of the text or to the first error.

The grammar of the source is the fields that are `Plain`. One of them is
not read: with nothing between the `:` and the `~`.
-/
import XKaapi.Lib.Scan
import XKaapi.Machine.ProcInfo

namespace XKaapi.Machine

open Scan

-- ======== numbers

/-- What `strtoul` reads. -/
structure Num where
  blanks : List Char
  sign : Option Bool
  digits : List Char
  blanks_spec : ∀ c ∈ blanks, isSpace c = true
  digits_spec : ∀ c ∈ digits, c.isDigit = true
  digits_ne : digits ≠ []

/-- `some true` is the minus sign. -/
def signText : Option Bool → List Char
  | none => []
  | some true => ['-']
  | some false => ['+']

def Num.text (n : Num) : List Char := n.blanks ++ (signText n.sign ++ n.digits)

/-- The number that is written. -/
def Num.value (n : Num) : Int :=
  if n.sign = some true then -(decimal n.digits : Int) else decimal n.digits

/-- The number that the parser stores. -/
def Num.stored (n : Num) : Nat :=
  ulong (n.sign == some true) (decimal n.digits) % 2 ^ 32

theorem not_isSpace_of_isDigit {c : Char} (h : c.isDigit = true) :
    isSpace c = false := by
  unfold Char.isDigit at h
  unfold isSpace Char.toNat
  rw [Bool.and_eq_true, decide_eq_true_eq, decide_eq_true_eq] at h
  have hlow : 48 ≤ c.val.toNat := UInt32.le_iff_toNat_le.mp h.1
  rw [Bool.or_eq_false_iff, Bool.and_eq_false_iff]
  refine ⟨?_, .inr ?_⟩
  · exact beq_eq_false_iff_ne.mpr (by omega)
  · exact decide_eq_false (by omega)

variable {rest : List Char}

theorem readSign_text (sign : Option Bool) (hrest : ∀ c ∈ rest.head?, c ≠ '-' ∧ c ≠ '+') :
    readSign (signText sign ++ rest) = (sign == some true, rest) := by
  match sign with
  | some true => rfl
  | some false => rfl
  | none =>
    change readSign rest = (false, rest)
    cases rest with
    | nil => rfl
    | cons c rest =>
      obtain ⟨hminus, hplus⟩ := hrest c rfl
      unfold readSign
      split
      next heq => exact absurd (List.cons.inj heq).1 hminus
      next heq => exact absurd (List.cons.inj heq).1 hplus
      next => rfl

theorem readSign_cut (str : List Char) :
    ∃ sign, str = signText sign ++ (readSign str).2
      ∧ (readSign str).1 = (sign == some true) := by
  unfold readSign
  split
  next r => exact ⟨some true, rfl, rfl⟩
  next r => exact ⟨some false, rfl, rfl⟩
  next => exact ⟨none, rfl, rfl⟩

theorem strtoul_text (n : Num) (hstop : isDigit rest = false) :
    strtoul (n.text ++ rest)
      = some (ulong (n.sign == some true) (decimal n.digits), rest) := by
  obtain ⟨blanks, sign, digits, hblanks, hdigits, hne⟩ := n
  have hrun : IsRun Char.isDigit digits rest := ⟨hdigits, hstop⟩
  have hhead : ∀ c ∈ (digits ++ rest).head?, c.isDigit = true := by
    intro c hc
    cases digits with
    | nil => exact absurd rfl hne
    | cons d ds =>
      cases hc
      exact hdigits c List.mem_cons_self
  have hspace : IsRun isSpace blanks (signText sign ++ (digits ++ rest)) := by
    refine ⟨hblanks, ?_⟩
    match sign with
    | some true => rfl
    | some false => rfl
    | none =>
      change (digits ++ rest).head?.any isSpace = false
      cases h : (digits ++ rest).head? with
      | none => rfl
      | some c => exact not_isSpace_of_isDigit (hhead c h)
  have hsign : readSign (signText sign ++ (digits ++ rest))
      = (sign == some true, digits ++ rest) := by
    refine readSign_text sign fun c hc => ?_
    have hd := hhead c hc
    constructor
    · rintro rfl
      cases hd
    · rintro rfl
      cases hd
  unfold strtoul Num.text
  dsimp only
  rw [List.append_assoc, List.append_assoc, hspace.dropWhile, hsign]
  dsimp only
  rw [hrun.takeWhile, hrun.dropWhile, if_neg hne]

theorem strtoul_iff {str : List Char} {v : Nat} :
    strtoul str = some (v, rest)
      ↔ ∃ n : Num, str = n.text ++ rest ∧ isDigit rest = false
        ∧ v = ulong (n.sign == some true) (decimal n.digits) := by
  constructor
  · intro h
    have hblanks := isRun_cut isSpace str
    have hcat : str.takeWhile isSpace ++ str.dropWhile isSpace = str :=
      List.takeWhile_append_dropWhile
    obtain ⟨sign, hs, hneg⟩ := readSign_cut (str.dropWhile isSpace)
    unfold strtoul at h
    dsimp only at h
    rw [hneg] at h
    generalize (readSign (str.dropWhile isSpace)).2 = s at hs h
    obtain ⟨hne, h⟩ := Option.ite_none_left_eq_some.mp h
    have hrun := isRun_cut Char.isDigit s
    have hdigits : s.takeWhile Char.isDigit ++ s.dropWhile Char.isDigit = s :=
      List.takeWhile_append_dropWhile
    cases h
    refine ⟨⟨_, sign, _, hblanks.all, hrun.all, hne⟩, ?_, hrun.stop, rfl⟩
    unfold Num.text
    rw [List.append_assoc, List.append_assoc, hdigits, ← hs, hcat]
  · rintro ⟨n, rfl, hstop, rfl⟩
    exact strtoul_text n hstop

theorem parseNumber_iff {str : List Char} {v : Nat} :
    parseNumber str = .ok (v, rest)
      ↔ ∃ n : Num, str = n.text ++ rest ∧ isDigit rest = false ∧ v = n.stored := by
  unfold parseNumber
  constructor
  · intro h
    split at h
    next => cases h
    next w r hw =>
      cases h
      obtain ⟨n, hstr, hstop, hval⟩ := strtoul_iff.mp hw
      exact ⟨n, hstr, hstop, by rw [hval]; rfl⟩
  · rintro ⟨n, rfl, hstop, rfl⟩
    rw [strtoul_text n hstop]
    rfl

theorem isEol_text (n : Num) (rest : List Char) : isEol (n.text ++ rest) = false := by
  obtain ⟨blanks, sign, digits, hblanks, hdigits, hne⟩ := n
  unfold Num.text
  dsimp only
  cases blanks with
  | cons c blanks =>
    have hc := hblanks c List.mem_cons_self
    refine beq_eq_false_iff_ne.mpr ?_
    rintro rfl
    cases hc
  | nil =>
    match sign with
    | some true => rfl
    | some false => rfl
    | none =>
      cases digits with
      | nil => exact absurd rfl hne
      | cons d ds =>
        have hd := hdigits d List.mem_cons_self
        refine beq_eq_false_iff_ne.mpr ?_
        rintro rfl
        cases hd

-- ======== fields

/-- What stands between two commas: `!`s, the lower index, a `:` and the
upper index, a `~` and the cpu. -/
structure Field where
  bangs : Nat
  low : List Char
  range : Option (Option Num)
  binding : Option Num
  low_spec : ∀ c ∈ low, c.isDigit = true

def rangeText : Option (Option Num) → List Char
  | none => []
  | some none => [':']
  | some (some n) => ':' :: n.text

def bindingText : Option Num → List Char
  | none => []
  | some n => '~' :: n.text

def Field.text (f : Field) : List Char :=
  List.replicate f.bangs '!' ++ (f.low ++ (rangeText f.range ++ bindingText f.binding))

/-- The upper index that the parser stores. -/
def highOf (maxCount low : Nat) : Option (Option Num) → Nat
  | none => low
  | some none => lastIndex maxCount
  | some (some n) => n.stored

def boundOf (low : Nat) : Option Num → Nat
  | none => low
  | some n => n.stored

/-- The expression that the parser makes of a field. -/
def Field.expr (maxCount : Nat) (f : Field) : ProcExpr :=
  let low := ulong false (decimal f.low) % 2 ^ 32
  let high := highOf maxCount low f.range
  let r := if high < low then (high, low) else (low, high)
  { isEnabled := f.bangs % 2 == 0
    low := r.1
    high := r.2
    binding := boundOf r.1 f.binding }

-- The parts of a field, each up to the character that ends it.

def ReadsNot (bangs : Nat) (str rest : List Char) : Prop :=
  str = List.replicate bangs '!' ++ rest ∧ rest.head? ≠ some '!'

def ReadsLow (low str rest : List Char) : Prop :=
  str = low ++ rest ∧ isDigit rest = false

def ReadsRange : Option (Option Num) → List Char → List Char → Prop
  | none, str, rest => str = rest ∧ rest.head? ≠ some ':'
  | some none, str, rest => str = ':' :: rest ∧ isEol rest = true
  | some (some n), str, rest => str = ':' :: (n.text ++ rest) ∧ isDigit rest = false

def ReadsBinding : Option Num → List Char → List Char → Prop
  | none, str, rest => str = rest ∧ rest.head? ≠ some '~'
  | some n, str, rest => str = '~' :: (n.text ++ rest) ∧ isDigit rest = false

/-- The field in front of a text, when each of its parts is read as far as
it goes. -/
def Field.Reads (f : Field) (str rest : List Char) : Prop :=
  ∃ s₁ s₂ s₃, ReadsNot f.bangs str s₁ ∧ ReadsLow f.low s₁ s₂
    ∧ ReadsRange f.range s₂ s₃ ∧ ReadsBinding f.binding s₃ rest

variable {str rest : List Char} {max low v : Nat}

theorem parseNot_replicate (b : Bool) (n : Nat) (hrest : rest.head? ≠ some '!') :
    parseNot b (List.replicate n '!' ++ rest) = (b == (n % 2 == 0), rest) := by
  induction n generalizing b with
  | zero =>
    cases rest with
    | nil => cases b <;> rfl
    | cons c rest =>
      change parseNot b (c :: rest) = _
      unfold parseNot
      split
      next heq =>
        cases heq
        exact absurd rfl hrest
      next => cases b <;> rfl
  | succ n ih =>
    refine (ih (!b)).trans ?_
    rcases Nat.mod_two_eq_zero_or_one n with h | h
    · have h' : (n + 1) % 2 = 1 := by omega
      rw [h, h']
      cases b <;> rfl
    · have h' : (n + 1) % 2 = 0 := by omega
      rw [h, h']
      cases b <;> rfl

theorem exists_readsNot (str : List Char) : ∃ n rest, ReadsNot n str rest := by
  induction str with
  | nil => exact ⟨0, [], rfl, nofun⟩
  | cons c str ih =>
    by_cases hc : c = '!'
    · obtain ⟨n, rest, hstr, hrest⟩ := ih
      exact ⟨n + 1, rest, by rw [hc, hstr]; rfl, hrest⟩
    · exact ⟨0, c :: str, rfl, fun h => hc (Option.some.inj h)⟩

theorem parseLow_eq (str : List Char) :
    parseLow str = .ok (ulong false (decimal (str.takeWhile Char.isDigit)) % 2 ^ 32,
      str.dropWhile Char.isDigit) := by
  have hrun := isRun_cut Char.isDigit str
  have hcat : str.takeWhile Char.isDigit ++ str.dropWhile Char.isDigit = str :=
    List.takeWhile_append_dropWhile
  unfold parseLow
  split
  next hd =>
    have hne : str.takeWhile Char.isDigit ≠ [] := by
      intro hnil
      rw [hnil, List.nil_append] at hcat
      have hstop := hrun.stop
      rw [hcat] at hstop
      exact absurd (hd.symm.trans hstop) (by decide)
    refine parseNumber_iff.mpr ⟨⟨[], none, _, ?_, hrun.all, hne⟩, hcat.symm, hrun.stop, rfl⟩
    exact fun _ hc => absurd hc List.not_mem_nil
  next hd =>
    have hstr : IsRun Char.isDigit [] str :=
      ⟨fun _ hc => absurd hc List.not_mem_nil, Bool.eq_false_iff.mpr hd⟩
    rw [hstr.takeWhile_rest, hstr.dropWhile_rest]
    rfl

theorem parseLow_iff : parseLow str = .ok (v, rest)
    ↔ ∃ low, (∀ c ∈ low, c.isDigit = true) ∧ ReadsLow low str rest
      ∧ v = ulong false (decimal low) % 2 ^ 32 := by
  rw [parseLow_eq]
  constructor
  · intro h
    cases h
    have hrun := isRun_cut Char.isDigit str
    exact ⟨_, hrun.all, ⟨List.takeWhile_append_dropWhile.symm, hrun.stop⟩, rfl⟩
  · rintro ⟨low, hall, ⟨rfl, hstop⟩, rfl⟩
    have hrun : IsRun Char.isDigit low rest := ⟨hall, hstop⟩
    rw [hrun.takeWhile, hrun.dropWhile]

theorem parseHigh_iff : parseHigh max low str = .ok (v, rest)
    ↔ ∃ range, ReadsRange range str rest ∧ v = highOf max low range := by
  constructor
  · intro h
    unfold parseHigh at h
    split at h
    next r =>
      split at h
      next heol =>
        cases h
        exact ⟨some none, ⟨rfl, heol⟩, rfl⟩
      next =>
        obtain ⟨n, rfl, hstop, rfl⟩ := parseNumber_iff.mp h
        exact ⟨some (some n), ⟨rfl, hstop⟩, rfl⟩
    next hnot =>
      cases h
      refine ⟨none, ⟨rfl, fun hhead => ?_⟩, rfl⟩
      obtain ⟨r, hr⟩ := List.head?_eq_some_iff.mp hhead
      exact hnot r hr
  · rintro ⟨range, hreads, rfl⟩
    match range, hreads with
    | none, ⟨hstr, hhead⟩ =>
      subst hstr
      unfold parseHigh
      split
      next r => exact absurd rfl hhead
      next => rfl
    | some none, ⟨hstr, heol⟩ =>
      subst hstr
      exact if_pos heol
    | some (some n), ⟨hstr, hstop⟩ =>
      subst hstr
      have hnot : ¬ isEol (n.text ++ rest) = true := by
        rw [isEol_text]
        exact Bool.false_ne_true
      exact (if_neg hnot).trans (parseNumber_iff.mpr ⟨n, rfl, hstop, rfl⟩)

theorem parseBound_iff : parseBound low str = .ok (v, rest)
    ↔ ∃ binding, ReadsBinding binding str rest ∧ v = boundOf low binding := by
  constructor
  · intro h
    unfold parseBound at h
    split at h
    next r =>
      obtain ⟨n, rfl, hstop, rfl⟩ := parseNumber_iff.mp h
      exact ⟨some n, ⟨rfl, hstop⟩, rfl⟩
    next hnot =>
      cases h
      refine ⟨none, ⟨rfl, fun hhead => ?_⟩, rfl⟩
      obtain ⟨r, hr⟩ := List.head?_eq_some_iff.mp hhead
      exact hnot r hr
  · rintro ⟨binding, hreads, rfl⟩
    match binding, hreads with
    | none, ⟨hstr, hhead⟩ =>
      subst hstr
      unfold parseBound
      split
      next r => exact absurd rfl hhead
      next => rfl
    | some n, ⟨hstr, hstop⟩ =>
      subst hstr
      exact parseNumber_iff.mpr ⟨n, rfl, hstop, rfl⟩

/-- The parser reads the fields, and nothing else. -/
theorem readProcExpr_iff {e : ProcExpr} :
    readProcExpr max str = .ok (e, rest)
      ↔ ∃ f : Field, f.Reads str rest ∧ e = f.expr max := by
  constructor
  · intro h
    obtain ⟨n, s₁, hnot⟩ := exists_readsNot str
    have hparse := parseNot_replicate true n hnot.2
    rw [← hnot.1, Bool.true_beq] at hparse
    unfold readProcExpr at h
    rw [hparse] at h
    obtain ⟨⟨⟨lo, hi⟩, s₃⟩, hlist, h⟩ := bind_eq_ok.mp h
    obtain ⟨⟨binding, s₄⟩, hbound, hexpr⟩ := bind_eq_ok.mp h
    obtain ⟨⟨low, s₂⟩, hlow, hlist⟩ := bind_eq_ok.mp hlist
    obtain ⟨⟨high, s₃'⟩, hhigh, hswap⟩ := bind_eq_ok.mp hlist
    obtain ⟨ds, hds, hreadsLow, rfl⟩ := parseLow_iff.mp hlow
    obtain ⟨range, hreadsRange, rfl⟩ := parseHigh_iff.mp hhigh
    obtain ⟨b, hreadsBinding, rfl⟩ := parseBound_iff.mp hbound
    have hswap := Except.ok.inj hswap
    obtain rfl := congrArg Prod.snd hswap
    have hr := congrArg Prod.fst hswap
    have hexpr := Except.ok.inj hexpr
    obtain rfl := congrArg Prod.snd hexpr
    refine ⟨⟨n, ds, range, b, hds⟩,
      ⟨s₁, s₂, s₃', hnot, hreadsLow, hreadsRange, hreadsBinding⟩, ?_⟩
    have he := congrArg Prod.fst hexpr
    dsimp only at hr he
    rw [← he]
    unfold Field.expr
    dsimp only
    rw [hr]
  · rintro ⟨⟨n, ds, range, b, hds⟩, ⟨s₁, s₂, s₃, hnot, hlow, hrange, hbinding⟩, rfl⟩
    have hparse := parseNot_replicate true n hnot.2
    rw [← hnot.1, Bool.true_beq] at hparse
    unfold readProcExpr
    rw [hparse]
    have hlow := parseLow_iff.mpr ⟨ds, hds, hlow, rfl⟩
    have hhigh : parseHigh max (ulong false (decimal ds) % 2 ^ 32) s₂
        = .ok (highOf max (ulong false (decimal ds) % 2 ^ 32) range, s₃) :=
      parseHigh_iff.mpr ⟨range, hrange, rfl⟩
    refine bind_eq_ok.mpr ⟨_, bind_eq_ok.mpr ⟨_, hlow, bind_eq_ok.mpr ⟨_, hhigh, rfl⟩⟩, ?_⟩
    refine bind_eq_ok.mpr ⟨_, parseBound_iff.mpr ⟨b, hbinding, rfl⟩, ?_⟩
    rfl

theorem Field.Reads.readProcExpr {f : Field} (h : f.Reads str rest) (max : Nat) :
    Machine.readProcExpr max str = .ok (f.expr max, rest) :=
  readProcExpr_iff.mpr ⟨f, h, rfl⟩

/-- A field in front of a comma or of the end is read, unless the cpu comes
right after the `:`. -/
def Field.OpenBound (f : Field) : Prop := f.range = some none ∧ f.binding ≠ none

theorem head_of_isEol (h : isEol rest = true) {c : Char} (hc : c ≠ ',') :
    rest.head? ≠ some c := by
  intro hhead
  unfold isEol at h
  rw [hhead] at h
  exact hc (beq_iff_eq.mp h)

theorem isDigit_of_isEol (h : isEol rest = true) : isDigit rest = false := by
  unfold isEol at h
  unfold isDigit
  cases hh : rest.head? with
  | none => rfl
  | some c =>
    rw [hh] at h
    rw [beq_iff_eq.mp (show (c == ',') = true from h)]
    rfl

theorem Field.reads_text (f : Field) (hopen : ¬ f.OpenBound)
    (heol : isEol rest = true) : f.Reads (f.text ++ rest) rest := by
  obtain ⟨bangs, low, range, binding, hlow⟩ := f
  have hdigit := isDigit_of_isEol heol
  have hhead : ∀ {c : Char}, c ≠ ',' → rest.head? ≠ some c := head_of_isEol heol
  have htail : isDigit (bindingText binding ++ rest) = false
      ∧ (bindingText binding ++ rest).head? ≠ some ':'
      ∧ (bindingText binding ++ rest).head? ≠ some '!' := by
    cases binding with
    | none => exact ⟨hdigit, hhead (by decide), hhead (by decide)⟩
    | some n =>
      refine ⟨rfl, fun h => ?_, fun h => ?_⟩
      · cases h
      · cases h
  have hrange : isDigit (rangeText range ++ (bindingText binding ++ rest)) = false
      ∧ (rangeText range ++ (bindingText binding ++ rest)).head? ≠ some '!' := by
    match range with
    | none => exact ⟨htail.1, htail.2.2⟩
    | some none => exact ⟨rfl, nofun⟩
    | some (some n) => exact ⟨rfl, nofun⟩
  refine ⟨low ++ (rangeText range ++ (bindingText binding ++ rest)),
    rangeText range ++ (bindingText binding ++ rest), bindingText binding ++ rest,
    ⟨?_, ?_⟩, ⟨rfl, hrange.1⟩, ?_, ?_⟩
  · unfold Field.text
    dsimp only
    rw [List.append_assoc, List.append_assoc, List.append_assoc]
  · cases low with
    | nil => exact hrange.2
    | cons d ds =>
      have hd := hlow d List.mem_cons_self
      intro h
      cases h
      cases hd
  · match range with
    | none => exact ⟨rfl, htail.2.1⟩
    | some none =>
      refine ⟨rfl, ?_⟩
      cases binding with
      | none => exact heol
      | some n => exact absurd ⟨rfl, nofun⟩ hopen
    | some (some n) =>
      refine ⟨?_, htail.1⟩
      change ':' :: (n.text ++ _) = _
      rfl
  · cases binding with
    | none => exact ⟨rfl, hhead (by decide)⟩
    | some n => exact ⟨rfl, hdigit⟩

/-- Without a number after the `:`, the cpu is taken for one. -/
theorem Field.not_reads_text (f : Field) (hopen : f.OpenBound) (tail : List Char) :
    ∀ (g : Field) rest, ¬ g.Reads (f.text ++ tail) rest := by
  obtain ⟨bangs, low, range, binding, hlow⟩ := f
  obtain ⟨hrange, hbinding⟩ := hopen
  dsimp only at hrange hbinding
  subst hrange
  obtain ⟨n, rfl⟩ := Option.ne_none_iff_exists'.mp hbinding
  intro g rest hg
  have hread := hg.readProcExpr 1
  have htext : Field.text ⟨bangs, low, some none, some n, hlow⟩ ++ tail
      = List.replicate bangs '!' ++ (low ++ ':' :: '~' :: (n.text ++ tail)) := by
    unfold Field.text
    dsimp only
    rw [List.append_assoc, List.append_assoc]
    rfl
  have hnot : (low ++ ':' :: '~' :: (n.text ++ tail)).head? ≠ some '!' := by
    cases low with
    | nil => exact nofun
    | cons d ds =>
      have hd := hlow d List.mem_cons_self
      intro h
      cases h
      cases hd
  have hrun : IsRun Char.isDigit low (':' :: '~' :: (n.text ++ tail)) := ⟨hlow, rfl⟩
  unfold Machine.readProcExpr at hread
  rw [htext, parseNot_replicate true bangs hnot] at hread
  obtain ⟨_, hlist, -⟩ := bind_eq_ok.mp hread
  unfold parseProcList at hlist
  rw [parseLow_eq, hrun.dropWhile] at hlist
  obtain ⟨r, hlow', hlist⟩ := bind_eq_ok.mp hlist
  rw [← Except.ok.inj hlow'] at hlist
  obtain ⟨_, hhigh, -⟩ := bind_eq_ok.mp hlist
  have herr (m : Nat) : parseHigh 1 m (':' :: '~' :: (n.text ++ tail))
      = .error .einval := rfl
  have hno := (herr _).symm.trans hhigh
  cases hno

-- ======== texts

/-- The fields of a text, as far as the parser reads them, and whether it
gets to the end. -/
inductive Lexed : List Char → List Field → Bool → Prop
  | bad {s : List Char} (hnone : ∀ (f : Field) r, ¬ f.Reads s r) : Lexed s [] false
  | garbage {s r : List Char} {c : Char} {f : Field} (hf : f.Reads s (c :: r))
      (hc : c ≠ ',') : Lexed s [f] false
  | last {s : List Char} {f : Field} (hf : f.Reads s []) : Lexed s [f] true
  | next {s r : List Char} {f : Field} {fs : List Field} {ok : Bool}
      (hf : f.Reads s (',' :: r)) (hrest : Lexed r fs ok) : Lexed s (f :: fs) ok

theorem exists_lexed (str : List Char) : ∃ fs ok, Lexed str fs ok := by
  induction hn : str.length using Nat.strongRecOn generalizing str with
  | ind n ih =>
    cases hread : readProcExpr 1 str with
    | error e =>
      refine ⟨[], false, .bad fun f rest hf => ?_⟩
      rw [hf.readProcExpr] at hread
      cases hread
    | ok r =>
      obtain ⟨e, rest⟩ := r
      have hlen := length_readProcExpr hread
      obtain ⟨f, hf, -⟩ := readProcExpr_iff.mp hread
      cases rest with
      | nil => exact ⟨[f], true, .last hf⟩
      | cons c rest =>
        by_cases hc : c = ','
        · subst hc
          obtain ⟨fs, ok, hfs⟩ := ih rest.length (hn ▸ hlen) rest rfl
          exact ⟨f :: fs, ok, .next hf hfs⟩
        · exact ⟨[f], false, .garbage hf hc⟩

/-- The fields with a comma between them. -/
def fieldsText : List Field → List Char
  | [] => []
  | [f] => f.text
  | f :: g :: fs => f.text ++ ',' :: fieldsText (g :: fs)

theorem lexed_fieldsText {fs : List Field} (hne : fs ≠ [])
    (hopen : ∀ f ∈ fs, ¬ f.OpenBound) : Lexed (fieldsText fs) fs true := by
  induction fs with
  | nil => exact absurd rfl hne
  | cons f fs ih =>
    have hf := hopen f List.mem_cons_self
    cases fs with
    | nil =>
      refine .last ?_
      have hreads : f.Reads (f.text ++ []) [] := f.reads_text hf rfl
      rw [List.append_nil] at hreads
      exact hreads
    | cons g fs =>
      refine .next (f.reads_text hf rfl) (ih (List.cons_ne_nil g fs) ?_)
      exact fun f' hf' => hopen f' (List.mem_cons_of_mem f hf')

theorem lexed_openBound {fs : List Field} (hopen : ∃ f ∈ fs, f.OpenBound) :
    ∃ gs, Lexed (fieldsText fs) gs false := by
  induction fs with
  | nil =>
    obtain ⟨f, hf, -⟩ := hopen
    exact absurd hf List.not_mem_nil
  | cons f fs ih =>
    by_cases hf : f.OpenBound
    · refine ⟨[], .bad ?_⟩
      cases fs with
      | nil =>
        have hnot := f.not_reads_text hf []
        rw [List.append_nil] at hnot
        exact hnot
      | cons g fs => exact f.not_reads_text hf _
    · obtain ⟨f', hmem, hf'⟩ := hopen
      have htail : f' ∈ fs := by
        rcases List.mem_cons.mp hmem with rfl | htail
        · exact absurd hf' hf
        · exact htail
      obtain ⟨gs, hgs⟩ := ih ⟨f', htail, hf'⟩
      cases fs with
      | nil => exact absurd htail List.not_mem_nil
      | cons g fs => exact ⟨f :: gs, .next (f.reads_text hf rfl) hgs⟩

end XKaapi.Machine
