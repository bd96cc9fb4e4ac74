/-
What the loops of the parser leave in `proc_bits` and `proc_binding`.

An expression marks each index of its range (`ProcBits.after`), and the
loop may stop early: when `proc_count` has become `max_count`, all the
processors are used and the rest of the range has nothing to change. For
the same reason a range that goes past the arrays is harmless when the
last processor is marked by it: `mark_isOk_iff`.

`markAll_spec` is the meaning of a list of expressions: a processor is
used iff one of them enables it and none disables it, on the cpu that the
first one says.
-/
import XKaapi.Machine.ProcInfo

namespace XKaapi.Machine

open Function (update update_apply update_of_ne update_self)

-- ======== counting

/-- The count after one mark. -/
theorem countP_update {u : Nat → Bool} {i max : Nat} (hi : i < max) (v : Bool) :
    (List.range max).countP (update u i v) + (if u i then 1 else 0)
      = (List.range max).countP u + if v then 1 else 0 := by
  induction max with
  | zero => exact absurd hi (Nat.not_lt_zero i)
  | succ max ih =>
    rw [List.range_succ, List.countP_append, List.countP_append, List.countP_singleton,
      List.countP_singleton]
    rcases Nat.lt_succ_iff_lt_or_eq.mp hi with hlt | rfl
    · rw [update_of_ne (Nat.ne_of_gt hlt)]
      have := ih hlt
      omega
    · have hsame : (List.range i).countP (update u i v)
          = (List.range i).countP u := by
        refine List.countP_congr fun j hj => ?_
        rw [update_of_ne (Nat.ne_of_lt (List.mem_range.mp hj))]
      rw [hsame, update_self]
      omega

/-- All are counted iff all are marked. -/
theorem countP_eq_iff {u : Nat → Bool} {max : Nat} :
    (List.range max).countP u = max ↔ ∀ j < max, u j = true := by
  have h := List.countP_eq_length (p := u) (l := List.range max)
  rw [List.length_range] at h
  rw [h]
  exact ⟨fun h j hj => h j (List.mem_range.mpr hj), fun h j hj => h j (List.mem_range.mp hj)⟩

-- ======== one expression

/-- The flags after an expression whose range holds the processor. -/
def ProcBits.after (isEnabled : Bool) (b : ProcBits) : ProcBits :=
  if !isEnabled || b.disabled then ⟨true, false⟩ else { b with usable := true }

/-- A processor that is used is not disabled, and `proc_count` counts those
that are used. -/
structure Parser.Ok (max : Nat) (p : Parser) : Prop where
  excl : ∀ j < max, (p.procBits j).usable = true → (p.procBits j).disabled = false
  count : p.procCount = (List.range max).countP fun j => (p.procBits j).usable

/-- The indices from `lo` to `hi` are marked, the first one with the cpu
`b`. -/
structure Effect (max : Nat) (isEnabled : Bool) (lo hi b : Nat) (p p' : Parser) :
    Prop where
  bits : ∀ j < max, p'.procBits j
    = if lo ≤ j ∧ j < hi then (p.procBits j).after isEnabled else p.procBits j
  binding : ∀ j < max, p'.procBinding j
    = if (lo ≤ j ∧ j < hi) ∧ isEnabled = true ∧ (p.procBits j).disabled = false
        ∧ (p.procBits j).usable = false
      then (b + (j - lo)) % 2 ^ 32 else p.procBinding j

/-- The loop from `i` on stops before the end of the arrays: it enables the
last processors that were not used. -/
structure Saves (max : Nat) (isEnabled : Bool) (i : Nat) (p : Parser) : Prop where
  enables : isEnabled = true
  none_disabled : ∀ j < max, (p.procBits j).disabled = false
  below : ∀ j < i, j < max → (p.procBits j).usable = true
  some_left : ∃ j, i ≤ j ∧ j < max ∧ (p.procBits j).usable = false

variable {max left i hi b : Nat} {isEnabled : Bool} {p p' : Parser}

theorem disable_bits (i j : Nat) (p : Parser) : (p.disable i).procBits j
    = if j = i then ⟨true, false⟩ else p.procBits j :=
  update_apply ..

theorem use_bits (i b j : Nat) (p : Parser) : (p.use i b).procBits j
    = if j = i then { p.procBits i with usable := true } else p.procBits j :=
  update_apply ..

theorem usable_disable (i : Nat) (p : Parser) :
    (fun j => ((p.disable i).procBits j).usable)
      = update (fun j => (p.procBits j).usable) i false := by
  funext j
  rw [disable_bits, update_apply]
  split <;> rfl

theorem usable_use (i b : Nat) (p : Parser) :
    (fun j => ((p.use i b).procBits j).usable)
      = update (fun j => (p.procBits j).usable) i true := by
  funext j
  rw [use_bits, update_apply]
  split <;> rfl

/-- A processor is disabled. -/
theorem Parser.Ok.disable (h : p.Ok max) (hi : i < max) : (p.disable i).Ok max where
  excl j hj hu := by
    rw [disable_bits] at hu ⊢
    split at hu
    next => cases hu
    next hne =>
      rw [if_neg hne]
      exact h.excl j hj hu
  count := by
    have hcount := countP_update (u := fun j => (p.procBits j).usable) hi false
    rw [usable_disable]
    change (if (p.procBits i).usable then p.procCount - 1 else p.procCount) = _
    rw [h.count]
    rw [if_neg Bool.false_ne_true] at hcount
    split at hcount
    next hu =>
      rw [if_pos hu]
      omega
    next hu =>
      rw [if_neg hu]
      omega

/-- A free processor is used. -/
theorem Parser.Ok.use (h : p.Ok max) (hi : i < max) (b : Nat)
    (hdis : (p.procBits i).disabled = false) (hus : (p.procBits i).usable = false) :
    (p.use i b).Ok max where
  excl j hj hu := by
    rw [use_bits] at hu ⊢
    split at hu
    next hji =>
      rw [if_pos hji]
      exact hdis
    next hne =>
      rw [if_neg hne]
      exact h.excl j hj hu
  count := by
    have hcount := countP_update (u := fun j => (p.procBits j).usable) hi true
    rw [usable_use]
    change p.procCount + 1 = _
    rw [h.count]
    rw [hus] at hcount
    exact hcount.symm

theorem after_of_usable {bits : ProcBits} (hu : bits.usable = true)
    (hd : bits.disabled = false) : bits.after true = bits := by
  obtain ⟨d, u⟩ := bits
  dsimp only at hu hd
  subst hu hd
  rfl

/-- One round, then the others. -/
theorem Effect.cons {p₁ : Parser} (hlt : i < hi)
    (hstep : Effect max isEnabled i (i + 1) b p p₁)
    (hrest : Effect max isEnabled (i + 1) hi ((b + 1) % 2 ^ 32) p₁ p') :
    Effect max isEnabled i hi b p p' where
  bits j hj := by
    rw [hrest.bits j hj, hstep.bits j hj]
    rcases Nat.lt_trichotomy j i with h | h | h
    · rw [if_neg (by omega), if_neg (by omega), if_neg (by omega)]
    · rw [if_neg (by omega), if_pos (by omega), if_pos (by omega)]
    · rw [if_neg (by omega : ¬ (i ≤ j ∧ j < i + 1))]
      by_cases hlt : j < hi
      · rw [if_pos (by omega), if_pos (by omega)]
      · rw [if_neg (by omega), if_neg (by omega)]
  binding j hj := by
    rw [hrest.binding j hj, hstep.bits j hj, hstep.binding j hj]
    rcases Nat.lt_trichotomy j i with h | h | h
    · rw [if_neg (by omega), if_neg (by omega), if_neg (by omega)]
    · rw [if_neg (by omega)]
      subst h
      by_cases hc : isEnabled = true ∧ (p.procBits j).disabled = false
          ∧ (p.procBits j).usable = false
      · rw [if_pos ⟨by omega, hc⟩, if_pos ⟨by omega, hc⟩]
      · rw [if_neg (fun h => hc h.2), if_neg (fun h => hc h.2)]
    · have hne : ¬ (i ≤ j ∧ j < i + 1) := by omega
      have hnot : ¬ ((i ≤ j ∧ j < i + 1) ∧ isEnabled = true
          ∧ (p.procBits j).disabled = false ∧ (p.procBits j).usable = false) :=
        fun h => hne h.1
      rw [if_neg hne, if_neg hnot]
      have hcpu : ((b + 1) % 2 ^ 32 + (j - (i + 1))) % 2 ^ 32
          = (b + (j - i)) % 2 ^ 32 := by omega
      rw [hcpu]
      by_cases hc : isEnabled = true ∧ (p.procBits j).disabled = false
          ∧ (p.procBits j).usable = false
      · by_cases hlt : j < hi
        · rw [if_pos ⟨by omega, hc⟩, if_pos ⟨by omega, hc⟩]
        · rw [if_neg (fun h => hlt h.1.2), if_neg (fun h => hlt h.1.2)]
      · rw [if_neg (fun h => hc h.2), if_neg (fun h => hc h.2)]

theorem Effect.refl (h : ∀ j < max, i ≤ j → j < hi → (p.procBits j).usable = true
    ∧ (p.procBits j).disabled = false ∧ isEnabled = true) :
    Effect max isEnabled i hi b p p where
  bits j hj := by
    split
    next hr =>
      obtain ⟨hu, hd, rfl⟩ := h j hj hr.1 hr.2
      exact (after_of_usable hu hd).symm
    next => rfl
  binding j hj := by
    refine (if_neg ?_).symm
    rintro ⟨hr, -, -, hu⟩
    rw [(h j hj hr.1 hr.2).1] at hu
    cases hu

theorem effect_disable (hen : (!isEnabled || (p.procBits i).disabled) = true) :
    Effect max isEnabled i (i + 1) b p (p.disable i) where
  bits j hj := by
    rw [disable_bits]
    by_cases hji : j = i
    · subst hji
      rw [if_pos rfl, if_pos (by omega)]
      exact (if_pos hen).symm
    · rw [if_neg hji, if_neg (by omega)]
  binding j hj := by
    refine (if_neg ?_).symm
    rintro ⟨hr, rfl, hd, -⟩
    obtain rfl : j = i := by omega
    rw [hd] at hen
    cases hen

theorem effect_use (hb : b < 2 ^ 32) (hen : isEnabled = true)
    (hd : (p.procBits i).disabled = false) (hu : (p.procBits i).usable = false) :
    Effect max isEnabled i (i + 1) b p (p.use i b) where
  bits j hj := by
    rw [use_bits]
    by_cases hji : j = i
    · subst hji
      rw [if_pos rfl, if_pos (by omega)]
      cases hbits : p.procBits j with
      | mk d u =>
        rw [hbits] at hd
        have hd : d = false := hd
        rw [hd, hen]
        rfl
    · rw [if_neg hji, if_neg (by omega)]
  binding j hj := by
    change update p.procBinding i b j = _
    rw [update_apply]
    by_cases hji : j = i
    · subst hji
      rw [if_pos rfl, if_pos ⟨by omega, hen, hd, hu⟩]
      omega
    · rw [if_neg hji, if_neg]
      rintro ⟨hr, -⟩
      omega

-- The three rounds of the loop.

/-- A round of the loop that disables. -/
theorem markLoop_disable (hi : i < max)
    (hen : (!isEnabled || (p.procBits i).disabled) = true) :
    markLoop max isEnabled (left + 1) i b p
      = markLoop max isEnabled left (i + 1) ((b + 1) % 2 ^ 32) (p.disable i) :=
  (if_pos hi).trans (if_pos hen)

/-- A round that uses. -/
theorem markLoop_use (hi : i < max) (hen : isEnabled = true)
    (hd : (p.procBits i).disabled = false) (hu : (p.procBits i).usable = false) :
    markLoop max isEnabled (left + 1) i b p
      = if (p.use i b).procCount = max then .ok (p.use i b)
        else markLoop max isEnabled left (i + 1) ((b + 1) % 2 ^ 32) (p.use i b) := by
  refine (if_pos hi).trans ((if_neg ?_).trans (if_pos ?_))
  · rw [hd, hen]
    exact Bool.false_ne_true
  · rw [hu]
    rfl

/-- A round that keeps what there is. -/
theorem markLoop_keep (hi : i < max) (hen : isEnabled = true)
    (hd : (p.procBits i).disabled = false) (hu : (p.procBits i).usable = true) :
    markLoop max isEnabled (left + 1) i b p
      = markLoop max isEnabled left (i + 1) ((b + 1) % 2 ^ 32) p := by
  refine (if_pos hi).trans ((if_neg ?_).trans (if_neg ?_))
  · rw [hd, hen]
    exact Bool.false_ne_true
  · rw [hu]
    exact Bool.false_ne_true

/-- A round disables, uses or keeps. -/
theorem round_cases (isEnabled : Bool) (i : Nat) (p : Parser) :
    (!isEnabled || (p.procBits i).disabled) = true
      ∨ (isEnabled = true ∧ (p.procBits i).disabled = false
        ∧ (p.procBits i).usable = false)
      ∨ (isEnabled = true ∧ (p.procBits i).disabled = false
        ∧ (p.procBits i).usable = true) := by
  cases isEnabled <;> cases (p.procBits i).disabled <;> cases (p.procBits i).usable <;> decide

/-- What the loop has done when it ends. -/
theorem markLoop_effect (h : p.Ok max) (hb : b < 2 ^ 32)
    (hm : markLoop max isEnabled left i b p = .ok p') :
    p'.Ok max ∧ Effect max isEnabled i (i + left) b p p' := by
  induction left generalizing i b p with
  | zero =>
    cases hm
    exact ⟨h, .refl fun j _ _ _ => by omega⟩
  | succ left ih =>
    have hb' : (b + 1) % 2 ^ 32 < 2 ^ 32 := Nat.mod_lt _ (by decide)
    have hend : i + 1 + left = i + (left + 1) := by omega
    by_cases hi : i < max
    · rcases round_cases isEnabled i p with hen | ⟨hen, hd, hu⟩ | ⟨hen, hd, hu⟩
      · rw [markLoop_disable hi hen] at hm
        obtain ⟨hok, heff⟩ := ih (h.disable hi) hb' hm
        rw [hend] at heff
        exact ⟨hok, (effect_disable hen).cons (by omega) heff⟩
      · rw [markLoop_use hi hen hd hu] at hm
        have huse := h.use hi b hd hu
        have hstep : Effect max isEnabled i (i + 1) b p (p.use i b) :=
          effect_use hb hen hd hu
        split at hm
        next hfull =>
          -- all the processors are used: the rest of the range is as it should be
          cases hm
          have hall := countP_eq_iff.mp (huse.count.symm.trans hfull)
          refine ⟨huse, hstep.cons (by omega) (.refl fun j hj _ _ => ?_)⟩
          exact ⟨hall j hj, huse.excl j hj (hall j hj), hen⟩
        next =>
          obtain ⟨hok, heff⟩ := ih huse hb' hm
          rw [hend] at heff
          exact ⟨hok, hstep.cons (by omega) heff⟩
      · rw [markLoop_keep hi hen hd hu] at hm
        obtain ⟨hok, heff⟩ := ih h hb' hm
        rw [hend] at heff
        have hstep : Effect max isEnabled i (i + 1) b p p := .refl fun j _ hlo hhi => by
          obtain rfl : j = i := by omega
          exact ⟨hu, hd, hen⟩
        exact ⟨hok, hstep.cons (by omega) heff⟩
    · have hfault : markLoop max isEnabled (left + 1) i b p = .error .fault := if_neg hi
      rw [hfault] at hm
      cases hm

-- What a round does to the early stop.

theorem not_saves_disable (hi : i < max)
    (hen : (!isEnabled || (p.procBits i).disabled) = true) :
    ¬ Saves max isEnabled i p ∧ ¬ Saves max isEnabled (i + 1) (p.disable i) := by
  constructor
  · intro hs
    rw [hs.enables, hs.none_disabled i hi] at hen
    cases hen
  · intro hs
    have hdis := hs.none_disabled i hi
    rw [disable_bits, if_pos rfl] at hdis
    cases hdis

theorem saves_keep_iff (hu : (p.procBits i).usable = true) :
    Saves max isEnabled (i + 1) p ↔ Saves max isEnabled i p := by
  constructor
  · intro hs
    obtain ⟨j, hij, hj, hju⟩ := hs.some_left
    exact ⟨hs.enables, hs.none_disabled, fun j hlt hj => hs.below j (by omega) hj,
      j, by omega, hj, hju⟩
  · intro hs
    obtain ⟨j, hij, hj, hju⟩ := hs.some_left
    refine ⟨hs.enables, hs.none_disabled, fun j hlt hj => ?_, j, ?_, hj, hju⟩
    · by_cases hji : j = i
      · rw [hji]
        exact hu
      · exact hs.below j (by omega) hj
    · by_contra hlt
      obtain rfl : j = i := by omega
      rw [hu] at hju
      cases hju

theorem none_disabled_of_use (hd : (p.procBits i).disabled = false)
    (h : ∀ j < max, ((p.use i b).procBits j).disabled = false) :
    ∀ j < max, (p.procBits j).disabled = false := by
  intro j hj
  have hdis := h j hj
  rw [use_bits] at hdis
  split at hdis
  next hji =>
    rw [hji]
    exact hd
  next => exact hdis

theorem usable_of_use {j : Nat} (hne : j ≠ i)
    (h : ((p.use i b).procBits j).usable = true) : (p.procBits j).usable = true := by
  rw [use_bits, if_neg hne] at h
  exact h

theorem saves_of_full (hi : i < max) (hen : isEnabled = true)
    (hd : (p.procBits i).disabled = false) (hu : (p.procBits i).usable = false)
    (huse : (p.use i b).Ok max) (hfull : (p.use i b).procCount = max) :
    Saves max isEnabled i p := by
  have hall := countP_eq_iff.mp (huse.count.symm.trans hfull)
  refine ⟨hen, ?_, fun j hlt hj => ?_, i, Nat.le_refl i, hi, hu⟩
  · exact none_disabled_of_use hd fun j hj => huse.excl j hj (hall j hj)
  · exact usable_of_use (Nat.ne_of_lt hlt) (hall j hj)

/-- Whether a later round saves the loop. -/
theorem saves_use_iff (hi : i < max) (hd : (p.procBits i).disabled = false)
    (hu : (p.procBits i).usable = false) (huse : (p.use i b).Ok max)
    (hfull : (p.use i b).procCount ≠ max) :
    Saves max isEnabled (i + 1) (p.use i b) ↔ Saves max isEnabled i p := by
  constructor
  · intro hs
    refine ⟨hs.enables, none_disabled_of_use hd hs.none_disabled, fun j hlt hj => ?_,
      i, Nat.le_refl i, hi, hu⟩
    exact usable_of_use (Nat.ne_of_lt hlt) (hs.below j (by omega) hj)
  · intro hs
    have hbelow : ∀ j < i + 1, j < max → ((p.use i b).procBits j).usable = true := by
      intro j hlt hj
      rw [use_bits]
      split
      next => rfl
      next => exact hs.below j (by omega) hj
    refine ⟨hs.enables, fun j hj => ?_, hbelow, ?_⟩
    · rw [use_bits]
      split
      next => exact hs.none_disabled i hi
      next => exact hs.none_disabled j hj
    · -- somebody is still left, since the count is not full
      by_contra hnone
      refine hfull (huse.count.trans (countP_eq_iff.mpr fun j hj => ?_))
      by_contra hju
      refine hnone ⟨j, ?_, hj, Bool.eq_false_iff.mpr hju⟩
      by_contra hlt
      exact hju (hbelow j (by omega) hj)

/-- The loop ends, or goes past the arrays. -/
theorem markLoop_isOk_iff (h : p.Ok max) :
    (∃ p', markLoop max isEnabled left i b p = .ok p')
      ↔ left = 0 ∨ i + left ≤ max ∨ Saves max isEnabled i p := by
  induction left generalizing i b p with
  | zero => exact iff_of_true ⟨p, rfl⟩ (.inl rfl)
  | succ left ih =>
    have hnz : ¬ left + 1 = 0 := Nat.succ_ne_zero left
    have hround {p₁ : Parser} (hsave : Saves max isEnabled (i + 1) p₁
        ↔ Saves max isEnabled i p) (hi : i < max) :
        (left = 0 ∨ i + 1 + left ≤ max ∨ Saves max isEnabled (i + 1) p₁)
          ↔ (left + 1 = 0 ∨ i + (left + 1) ≤ max ∨ Saves max isEnabled i p) := by
      rw [hsave]
      by_cases hs : Saves max isEnabled i p
      · exact iff_of_true (.inr (.inr hs)) (.inr (.inr hs))
      · constructor
        · rintro (h0 | hle | hs')
          · exact .inr (.inl (by omega))
          · exact .inr (.inl (by omega))
          · exact absurd hs' hs
        · rintro (h0 | hle | hs')
          · exact absurd h0 hnz
          · exact .inr (.inl (by omega))
          · exact absurd hs' hs
    by_cases hi : i < max
    · rcases round_cases isEnabled i p with hen | ⟨hen, hd, hu⟩ | ⟨hen, hd, hu⟩
      · obtain ⟨hno, hno'⟩ := not_saves_disable hi hen
        rw [markLoop_disable hi hen, ih (h.disable hi)]
        exact hround (iff_of_false hno' hno) hi
      · have huse := h.use hi b hd hu
        rw [markLoop_use hi hen hd hu]
        by_cases hfull : (p.use i b).procCount = max
        · rw [if_pos hfull]
          exact iff_of_true ⟨_, rfl⟩ (.inr (.inr (saves_of_full hi hen hd hu huse hfull)))
        · rw [if_neg hfull, ih huse]
          exact hround (saves_use_iff hi hd hu huse hfull) hi
      · rw [markLoop_keep hi hen hd hu, ih h]
        exact hround (saves_keep_iff hu) hi
    · have hfault : markLoop max isEnabled (left + 1) i b p = .error .fault := if_neg hi
      rw [hfault]
      refine iff_of_false (fun ⟨_, h⟩ => by cases h) ?_
      rintro (h0 | hle | hs)
      · exact hnz h0
      · omega
      · obtain ⟨j, hij, hj, -⟩ := hs.some_left
        omega

/-- The loop stops with a fault. -/
theorem markLoop_error {e : Stop} (hm : markLoop max isEnabled left i b p = .error e) :
    e = .fault := by
  induction left generalizing i b p with
  | zero => cases hm
  | succ left ih =>
    by_cases hi : i < max
    · rcases round_cases isEnabled i p with hen | ⟨hen, hd, hu⟩ | ⟨hen, hd, hu⟩
      · rw [markLoop_disable hi hen] at hm
        exact ih hm
      · rw [markLoop_use hi hen hd hu] at hm
        split at hm
        next => cases hm
        next => exact ih hm
      · rw [markLoop_keep hi hen hd hu] at hm
        exact ih hm
    · have hfault : markLoop max isEnabled (left + 1) i b p = .error .fault := if_neg hi
      rw [hfault] at hm
      exact (Except.error.inj hm).symm

-- ======== expressions

/-- The range of the expression holds the processor. -/
def ProcExpr.covers (e : ProcExpr) (i : Nat) : Bool := e.low ≤ i && i ≤ e.high

/-- The cpu that the expression says for a processor of its range. -/
def ProcExpr.cpu (e : ProcExpr) (i : Nat) : Nat := (e.binding + (i - e.low)) % 2 ^ 32

def disabledBy (es : List ProcExpr) (i : Nat) : Bool :=
  es.any fun e => !e.isEnabled && e.covers i

def firstEnabled (es : List ProcExpr) (i : Nat) : Option ProcExpr :=
  es.find? fun e => e.isEnabled && e.covers i

def used (es : List ProcExpr) (i : Nat) : Bool :=
  !disabledBy es i && (firstEnabled es i).isSome

/-- The arrays say which processors the expressions use. -/
structure Marked (max : Nat) (es : List ProcExpr) (p : Parser) : Prop where
  ok : p.Ok max
  disabled : ∀ j < max, (p.procBits j).disabled = disabledBy es j
  usable : ∀ j < max, (p.procBits j).usable = used es j
  binding : ∀ j < max, used es j = true → ∀ e, firstEnabled es j = some e →
    p.procBinding j = e.cpu j

/-- What the parser stores: the indices in order, a cpu of 32 bits. -/
structure ProcExpr.Stored (e : ProcExpr) : Prop where
  ordered : e.low ≤ e.high
  bound : e.binding < 2 ^ 32

/-- The expression uses the last processors that the ones before do not,
so that the loop stops at `max_count`. -/
structure Fills (max : Nat) (prev : List ProcExpr) (e : ProcExpr) : Prop where
  enables : e.isEnabled = true
  none_disabled : ∀ j < max, disabledBy prev j = false
  below : ∀ j < e.low, j < max → used prev j = true
  some_left : ∃ j, e.low ≤ j ∧ j < max ∧ used prev j = false

/-- The loop of the expression stays in the arrays, after those of `prev`. -/
def Stays (max : Nat) (prev : List ProcExpr) (e : ProcExpr) : Prop :=
  e.high < max ∨ Fills max prev e

/-- So do the loops of all expressions. -/
def StaysAll (max : Nat) (prev : List ProcExpr) : List ProcExpr → Prop
  | [] => True
  | e :: es => Stays max prev e ∧ StaysAll max (prev ++ [e]) es

/-- The loops of all expressions. -/
def markAll (max : Nat) : List ProcExpr → Parser → Except Stop Parser
  | [], p => .ok p
  | e :: es, p => e.mark max p >>= markAll max es

variable {es prev : List ProcExpr} {e : ProcExpr}

theorem disabledBy_concat (es : List ProcExpr) (e : ProcExpr) (j : Nat) :
    disabledBy (es ++ [e]) j = (disabledBy es j || (!e.isEnabled && e.covers j)) := by
  unfold disabledBy
  rw [List.any_append, List.any_cons, List.any_nil, Bool.or_false]

theorem firstEnabled_concat (es : List ProcExpr) (e : ProcExpr) (j : Nat) :
    firstEnabled (es ++ [e]) j = (firstEnabled es j).or
      (if e.isEnabled && e.covers j then some e else none) := by
  unfold firstEnabled
  rw [List.find?_append, List.find?_singleton]

/-- Nothing is marked at the start. -/
theorem initParser_marked (max : Nat) (binding : Nat → Nat) :
    Marked max [] (initParser binding) where
  ok :=
    { excl _ _ h := nomatch h
      count := (List.countP_eq_zero.mpr fun _ _ => Bool.false_ne_true).symm }
  disabled _ _ := rfl
  usable _ _ := rfl
  binding _ _ h := nomatch h

/-- The flags and the binding of one processor, after one expression more. -/
theorem mark_one {bits bits' : ProcBits} {cpu cpu' j : Nat}
    (hd : bits.disabled = disabledBy es j) (hu : bits.usable = used es j)
    (hb : used es j = true → ∀ e, firstEnabled es j = some e → cpu = e.cpu j)
    (hbits : bits' = if e.covers j then bits.after e.isEnabled else bits)
    (hcpu : cpu' = if e.covers j = true ∧ e.isEnabled = true ∧ bits.disabled = false
      ∧ bits.usable = false then e.cpu j else cpu) :
    bits'.disabled = disabledBy (es ++ [e]) j ∧ bits'.usable = used (es ++ [e]) j
      ∧ (used (es ++ [e]) j = true → ∀ e', firstEnabled (es ++ [e]) j = some e' →
        cpu' = e'.cpu j) := by
  obtain ⟨d, u⟩ := bits
  dsimp only at hd hu
  unfold used at hu hb ⊢
  rw [disabledBy_concat, firstEnabled_concat]
  rw [hbits, hcpu]
  cases hcov : e.covers j with
  | false =>
    rw [Bool.and_false, Bool.and_false, Bool.or_false, if_neg Bool.false_ne_true,
      if_neg Bool.false_ne_true, Option.or_none, if_neg (fun h => nomatch h.1)]
    exact ⟨hd, hu, hb⟩
  | true =>
    rw [Bool.and_true, Bool.and_true, if_pos rfl]
    cases hen : e.isEnabled with
    | false =>
      rw [Bool.not_false, Bool.or_true]
      exact ⟨rfl, rfl, nofun⟩
    | true =>
      rw [Bool.not_true, Bool.or_false, if_pos rfl]
      cases hdis : disabledBy es j with
      | true =>
        rw [hdis] at hd
        subst hd
        exact ⟨rfl, rfl, nofun⟩
      | false =>
        rw [hdis] at hd hu hb
        subst hd
        refine ⟨rfl, ?_, fun _ e' he' => ?_⟩
        · cases firstEnabled es j <;> rfl
        · cases hfirst : firstEnabled es j with
          | none =>
            rw [hfirst] at hu he'
            subst hu
            rw [if_pos ⟨rfl, rfl, rfl, rfl⟩]
            cases he'
            rfl
          | some e₀ =>
            rw [hfirst] at hu he' hb
            subst hu
            rw [if_neg (fun h => nomatch h.2.2.2)]
            cases he'
            exact hb rfl _ rfl

/-- The marks after one expression. -/
theorem Marked.mark (h : Marked max es p) (he : e.Stored)
    (hm : e.mark max p = .ok p') : Marked max (es ++ [e]) p' := by
  obtain ⟨hok, heff⟩ := markLoop_effect h.ok he.bound hm
  have hhi : e.low + (e.high + 1 - e.low) = e.high + 1 := by
    have := he.ordered
    omega
  rw [hhi] at heff
  have hcov : ∀ j, (e.low ≤ j ∧ j < e.high + 1) ↔ e.covers j = true := by
    intro j
    unfold ProcExpr.covers
    rw [Bool.and_eq_true, decide_eq_true_eq, decide_eq_true_eq]
    omega
  have hone : ∀ j < max, (p'.procBits j).disabled = disabledBy (es ++ [e]) j
      ∧ (p'.procBits j).usable = used (es ++ [e]) j
      ∧ (used (es ++ [e]) j = true → ∀ e', firstEnabled (es ++ [e]) j = some e' →
        p'.procBinding j = e'.cpu j) := by
    intro j hj
    refine mark_one (h.disabled j hj) (h.usable j hj) (h.binding j hj) ?_ ?_
    · rw [heff.bits j hj]
      exact if_congr (hcov j) rfl rfl
    · rw [heff.binding j hj]
      exact if_congr (and_congr_left fun _ => hcov j) rfl rfl
  exact ⟨hok, fun j hj => (hone j hj).1, fun j hj => (hone j hj).2.1,
    fun j hj => (hone j hj).2.2⟩

/-- The loop is saved iff the processors fill up. -/
theorem Marked.saves_iff (h : Marked max prev p) :
    Saves max e.isEnabled e.low p ↔ Fills max prev e := by
  constructor
  · intro hs
    obtain ⟨j, hlow, hj, hju⟩ := hs.some_left
    refine ⟨hs.enables, fun j hj => ?_, fun j hlt hj => ?_, j, hlow, hj, ?_⟩
    · rw [← h.disabled j hj]
      exact hs.none_disabled j hj
    · rw [← h.usable j hj]
      exact hs.below j hlt hj
    · rw [← h.usable j hj]
      exact hju
  · intro hf
    obtain ⟨j, hlow, hj, hju⟩ := hf.some_left
    refine ⟨hf.enables, fun j hj => ?_, fun j hlt hj => ?_, j, hlow, hj, ?_⟩
    · rw [h.disabled j hj]
      exact hf.none_disabled j hj
    · rw [h.usable j hj]
      exact hf.below j hlt hj
    · rw [h.usable j hj]
      exact hju

/-- An expression is marked iff it stays in range. -/
theorem Marked.mark_isOk_iff (h : Marked max prev p) (he : e.Stored) :
    (∃ p', e.mark max p = .ok p') ↔ Stays max prev e := by
  have hord := he.ordered
  refine (markLoop_isOk_iff h.ok).trans ?_
  rw [h.saves_iff]
  unfold Stays
  constructor
  · rintro (h0 | hle | hs)
    · omega
    · exact .inl (by omega)
    · exact .inr hs
  · rintro (hlt | hs)
    · exact .inr (.inl (by omega))
    · exact .inr (.inr hs)

/-- All of them are marked iff each stays in range. -/
theorem markAll_spec (h : Marked max prev p) (hes : ∀ e ∈ es, e.Stored) :
    (StaysAll max prev es ∧ ∃ p', markAll max es p = .ok p' ∧ Marked max (prev ++ es) p')
      ∨ (¬ StaysAll max prev es ∧ markAll max es p = .error .fault) := by
  induction es generalizing prev p with
  | nil => exact .inl ⟨trivial, p, rfl, by rw [List.append_nil]; exact h⟩
  | cons e es ih =>
    have he := hes e List.mem_cons_self
    have hiff := h.mark_isOk_iff he
    have hrest := fun e' he' => hes e' (List.mem_cons_of_mem e he')
    cases hm : e.mark max p with
    | ok p₁ =>
      have hstay := hiff.mp ⟨p₁, hm⟩
      have hbind : markAll max (e :: es) p = markAll max es p₁ := by
        change e.mark max p >>= markAll max es = _
        rw [hm]
        rfl
      rw [hbind]
      rcases ih (h.mark he hm) hrest with ⟨hall, p', hp', hmarked⟩ | ⟨hno, hfault⟩
      · rw [List.append_assoc] at hmarked
        exact .inl ⟨⟨hstay, hall⟩, p', hp', hmarked⟩
      · exact .inr ⟨fun hall => hno hall.2, hfault⟩
    | error stop =>
      have hfault := markLoop_error hm
      subst hfault
      refine .inr ⟨fun hall => ?_, ?_⟩
      · obtain ⟨p', hp'⟩ := hiff.mpr hall.1
        rw [hm] at hp'
        cases hp'
      · change e.mark max p >>= markAll max es = _
        rw [hm]
        rfl

end XKaapi.Machine
