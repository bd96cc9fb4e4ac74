/-
What `load` makes of a file, and of a file that `store` has written
(`properties_iff`).

# Method

The loop is the sequence of the lines (`load_eq`): the line read twice at
the end of the file changes nothing the second time. A line is cut in one
way at most (`Parts.unique`), and `parseLine` follows the cut. What is left
of the assignments is the last one of each key.
-/
import Mathlib.Data.List.Nodup
import XKaapi.Lib.Scan
import XKaapi.Kaapixx.Properties

namespace XKaapi.Kaapixx

open LastWins

-- ======== the lines

/-- A text has a line. -/
theorem splitLines_ne_nil (text : Text) : splitLines text ≠ [] := by
  cases text with
  | nil => exact List.cons_ne_nil _ _
  | cons c cs =>
    unfold splitLines
    split
    · exact List.cons_ne_nil _ _
    · split
      · exact List.cons_ne_nil _ _
      · exact List.cons_ne_nil _ _

variable {c : Char} {a line b before v k : Text}

/-- A character goes in the first line. -/
theorem splitLines_cons (hc : c ≠ '\n') (cs : Text) :
    ∃ l ls, splitLines cs = l :: ls ∧ splitLines (c :: cs) = (c :: l) :: ls := by
  obtain ⟨l, ls, h⟩ := List.exists_cons_of_ne_nil (splitLines_ne_nil cs)
  refine ⟨l, ls, h, ?_⟩
  rw [splitLines, if_neg hc, h]

/-- A newline ends a line. -/
theorem splitLines_append (a b : Text) :
    splitLines (a ++ '\n' :: b) = splitLines a ++ splitLines b := by
  induction a with
  | nil => rfl
  | cons c a ih =>
    by_cases hc : c = '\n'
    · subst hc
      exact congrArg ([] :: ·) ih
    · obtain ⟨l, ls, h, hcons⟩ := splitLines_cons hc a
      obtain ⟨l', ls', h', hcons'⟩ := splitLines_cons hc (a ++ '\n' :: b)
      rw [ih, h] at h'
      cases h'
      rw [List.cons_append, hcons', hcons]
      rfl

/-- Without newline there is one line. -/
theorem splitLines_of_not_mem (h : '\n' ∉ a) : splitLines a = [a] := by
  induction a with
  | nil => rfl
  | cons c a ih =>
    obtain ⟨hc, ha⟩ := List.ne_and_not_mem_of_not_mem_cons h
    obtain ⟨l, ls, hl, hcons⟩ := splitLines_cons (Ne.symm hc) a
    rw [ih ha] at hl
    cases hl
    exact hcons

/-- The same for the lines that are read. -/
theorem textLines_append (a b : Text) :
    textLines (a ++ '\n' :: b) = textLines a ++ textLines b := by
  unfold textLines
  rw [splitLines_append, List.map_append, List.filter_append]

/-- A line that begins with no space is read whole. -/
theorem textLines_line (hc : isSpace c = false) (h : '\n' ∉ c :: a) :
    textLines (c :: a) = [c :: a] := by
  unfold textLines
  rw [splitLines_of_not_mem h, List.map_cons, List.map_nil,
    List.dropWhile_cons_of_neg (by rw [hc]; exact Bool.false_ne_true)]
  rfl

/-- Spaces before a line are passed. -/
theorem textLines_dropWhile (text : Text) :
    textLines (text.dropWhile isSpace) = textLines text := by
  induction text with
  | nil => rfl
  | cons c cs ih =>
    by_cases hs : isSpace c = true
    · rw [List.dropWhile_cons_of_pos hs, ih]
      unfold textLines
      by_cases hc : c = '\n'
      · subst hc
        rfl
      · obtain ⟨l, ls, h, hcons⟩ := splitLines_cons hc cs
        rw [hcons, h, List.map_cons, List.map_cons, List.dropWhile_cons_of_pos hs]
    · rw [List.dropWhile_cons_of_neg hs]

-- ======== the loop

/-- A line read twice assigns what it assigned once. -/
theorem loadLine_again {m m' : PropMap} (h : loadLine line m = .ok m') :
    loadLine line m' = .ok m' := by
  unfold loadLine at h ⊢
  cases hp : parseLine line with
  | error e =>
    rw [hp] at h
    cases h
  | ok r =>
    rw [hp] at h
    cases r with
    | none => rfl
    | some p =>
      cases h
      exact congrArg Except.ok (Function.update_idem ..)

/-- Where getline stops. -/
theorem cut_newline (hc : isSpace c = false) (cs : Text) :
    ∃ l, (c :: cs).takeWhile (· ≠ '\n') = c :: l ∧ '\n' ∉ c :: l := by
  have hne : c ≠ '\n' := by
    rintro rfl
    cases hc
  have htake : (c :: cs).takeWhile (· ≠ '\n') = c :: cs.takeWhile (· ≠ '\n') :=
    List.takeWhile_cons_of_pos (decide_eq_true hne)
  refine ⟨cs.takeWhile (· ≠ '\n'), htake, fun hmem => ?_⟩
  rw [← htake] at hmem
  have hp : decide ('\n' ≠ '\n') = true := List.mem_takeWhile_imp (p := (· ≠ '\n')) hmem
  exact of_decide_eq_true hp rfl

/-- The loop, which may read the last line twice, reads the lines in order.
-/
theorem loadLoop_eq (file line : Text) (m : PropMap) (hline : loadLine line m = .ok m) :
    loadLoop file line m = (textLines file).foldlM (fun m l => loadLine l m) m := by
  induction hn : file.length using Nat.strongRecOn generalizing file line m with
  | ind n ih =>
    rw [← textLines_dropWhile file]
    unfold loadLoop
    split
    next hd =>
      rw [hd]
      exact hline
    next c file' hd =>
      have hc : isSpace c = false := by
        have hnot := List.head?_dropWhile_not isSpace file
        rw [hd] at hnot
        exact hnot
      have hle := length_dropWhile_le isSpace file
      obtain ⟨l, htake, hl⟩ := cut_newline hc file'
      have hcut := List.takeWhile_append_dropWhile (p := (· ≠ '\n')) (l := c :: file')
      rw [hd, htake]
      rw [htake] at hcut
      dsimp only
      split
      next hrest =>
        rw [hrest, List.append_nil] at hcut
        rw [← hcut, textLines_line hc hl]
        exact (bind_pure _).symm
      next d rest hrest =>
        have hd' : d = '\n' := by
          have hnot := List.head?_dropWhile_not (· ≠ '\n') (c :: file')
          rw [hrest] at hnot
          exact not_not.mp (of_decide_eq_false hnot)
        subst hd'
        rw [hrest] at hcut
        have hlen : rest.length < n := by
          have hlen := congrArg List.length hcut
          rw [List.length_append] at hlen
          rw [hd] at hle
          simp only [List.length_cons] at hlen hle
          omega
        rw [← hcut, textLines_append, textLines_line hc hl, List.foldlM_append]
        change (loadLine (c :: l) m >>= fun m' => _) = (loadLine (c :: l) m >>= pure) >>= _
        rw [bind_pure]
        cases hload : loadLine (c :: l) m with
        | error e => rfl
        | ok m' => exact ih _ hlen rest _ m' (loadLine_again hload) rfl

/-- A load reads the lines in order. -/
theorem load_eq (file : Text) (m : PropMap) :
    load file m = (textLines file).foldlM (fun m l => loadLine l m) m :=
  loadLoop_eq file [] m rfl

-- ======== one line

/-- A text is cut at the first of a character. -/
theorem findIdx_cut (c : Char) (s : Text) :
    c ∉ s ∧ s.findIdx? (· = c) = none
      ∨ ∃ a b, s = a ++ c :: b ∧ c ∉ a ∧ s.findIdx? (· = c) = some a.length := by
  induction s with
  | nil => exact .inl ⟨List.not_mem_nil, rfl⟩
  | cons d s ih =>
    rw [List.findIdx?_cons]
    by_cases hd : d = c
    · refine .inr ⟨[], s, by rw [hd]; rfl, List.not_mem_nil, ?_⟩
      rw [if_pos (decide_eq_true hd)]
      rfl
    · rw [if_neg (fun h => hd (of_decide_eq_true h))]
      rcases ih with ⟨hno, hnone⟩ | ⟨a, b, rfl, hno, hsome⟩
      · refine .inl ⟨fun h => ?_, by rw [hnone]; rfl⟩
        exact (List.mem_cons.mp h).elim (fun h => hd h.symm) hno
      · refine .inr ⟨d :: a, b, rfl, fun h => ?_, by rw [hsome]; rfl⟩
        exact (List.mem_cons.mp h).elim (fun h => hd h.symm) hno

/-- That cut is the only one. -/
theorem cut_unique {a' b' : Text} (h : a ++ c :: b = a' ++ c :: b') (ha : c ∉ a)
    (ha' : c ∉ a') : a = a' ∧ b = b' := by
  induction a generalizing a' with
  | nil =>
    cases a' with
    | nil =>
      cases h
      exact ⟨rfl, rfl⟩
    | cons d a' =>
      cases h
      exact absurd List.mem_cons_self ha'
  | cons d a ih =>
    cases a' with
    | nil =>
      cases h
      exact absurd List.mem_cons_self ha
    | cons d' a' =>
      rw [List.cons_append, List.cons_append] at h
      injection h with hd h
      obtain ⟨rfl, rfl⟩ := ih h (fun h => ha (List.mem_cons_of_mem d h))
        fun h => ha' (List.mem_cons_of_mem d' h)
      exact ⟨by rw [hd], rfl⟩

/-- A line has one name and one value. -/
theorem Parts.unique {a' b' : Text} (h : Parts line a b) (h' : Parts line a' b') :
    a = a' ∧ b = b' := by
  obtain ⟨-, ⟨rest, hcut⟩, ha, hb⟩ := h
  obtain ⟨-, ⟨rest', hcut'⟩, ha', hb'⟩ := h'
  obtain ⟨rfl, htail⟩ := cut_unique (hcut.symm.trans hcut') ha ha'
  exact ⟨rfl, (cut_unique htail hb hb').1⟩

/-- find_first_not_of finds what dropping spaces leaves. -/
theorem findFirstNotOf_spec (s : Text) :
    (findFirstNotOf s ' ' = none ∧ ∀ c ∈ s, c = ' ')
      ∨ ∃ i, findFirstNotOf s ' ' = some i ∧ i ≤ s.length
        ∧ s.drop i = s.dropWhile (· = ' ') ∧ s.drop i ≠ [] := by
  unfold findFirstNotOf
  induction s with
  | nil => exact .inl ⟨rfl, fun _ h => (List.not_mem_nil h).elim⟩
  | cons c s ih =>
    rw [List.findIdx?_cons]
    by_cases hc : c = ' '
    · have hneg : ¬ decide (c ≠ ' ') = true := fun h => of_decide_eq_true h hc
      rw [if_neg hneg]
      rcases ih with ⟨hnone, hall⟩ | ⟨i, hsome, hle, hdrop, hne⟩
      · exact .inl ⟨by rw [hnone]; rfl, List.forall_mem_cons.mpr ⟨hc, hall⟩⟩
      · refine .inr ⟨i + 1, by rw [hsome]; rfl, Nat.succ_le_succ hle, ?_, hne⟩
        rw [List.drop_succ_cons, hdrop]
        exact (List.dropWhile_cons_of_pos (p := (· = ' ')) (decide_eq_true hc)).symm
    · rw [if_pos (decide_eq_true hc)]
      refine .inr ⟨0, rfl, Nat.zero_le _, ?_, List.cons_ne_nil c s⟩
      have hneg : ¬ decide (c = ' ') = true := fun h => hc (of_decide_eq_true h)
      exact (List.dropWhile_cons_of_neg (p := (· = ' ')) hneg).symm

/-- substr within the text. -/
theorem substr_some {s : Text} {pos : Nat} (h : pos ≤ s.length) (n : Nat) :
    substr s (some pos) (some n) = .ok ((s.drop pos).take n) := by
  unfold substr
  exact if_neg (Nat.not_lt_of_le h)

/-- The first of a character that is not before. -/
theorem findIdx_append (ha : c ∉ a) (b : Text) :
    (a ++ c :: b).findIdx? (· = c) = some a.length := by
  rcases findIdx_cut c (a ++ c :: b) with ⟨hno, -⟩ | ⟨a', b', h, ha', hsome⟩
  · exact absurd (List.mem_append_right _ List.mem_cons_self) hno
  · rw [hsome, (cut_unique h ha ha').1]

/-- find stops at the first sign. -/
theorem find_equals (tail : Text) (h : '=' ∉ before) :
    find (before ++ '=' :: tail) '=' 0 = some before.length
      ∧ substr (before ++ '=' :: tail) (some 0) (some before.length) = .ok before := by
  refine ⟨?_, ?_⟩
  · unfold find
    rw [List.drop_zero, findIdx_append h]
    exact congrArg some (Nat.zero_add _)
  · rw [substr_some (Nat.zero_le _), List.drop_zero, List.take_left]

/-- A line with a sign that is no comment. -/
theorem parseLine_equals {tail : Text} (h : '=' ∉ before)
    (hcom : isComment (before ++ '=' :: tail) = false) :
    parseLine (before ++ '=' :: tail)
      = parseValue (before ++ '=' :: tail) (firstWord before) before.length := by
  obtain ⟨hfind, hsub⟩ := find_equals tail h
  have hne : before ++ '=' :: tail ≠ [] :=
    List.append_ne_nil_of_right_ne_nil _ (List.cons_ne_nil _ _)
  unfold parseLine
  rw [if_neg hne, if_neg (by rw [hcom]; exact Bool.false_ne_true), hfind]
  dsimp only
  rw [hsub]
  rfl

/-- A line with a name, a sign and a delimiter. -/
theorem parseLine_parts {between : Text} (h : Parts line before between) :
    parseLine line = (do
      let value ← substr between (findFirstNotOf between ' ') none
      .ok (some (firstWord before, value))) := by
  obtain ⟨hcom, ⟨rest, rfl⟩, heq, hsemi⟩ := h
  have hsemi' : ';' ∉ '=' :: between := fun h =>
    (List.mem_cons.mp h).elim (fun h => absurd h (by decide)) hsemi
  have hfind : find (before ++ '=' :: (between ++ ';' :: rest)) ';' before.length
      = some (before.length + (between.length + 1)) := by
    unfold find
    rw [List.drop_left, ← List.cons_append, findIdx_append hsemi']
    rfl
  have hlen : before.length + (between.length + 1) - before.length - 1 = between.length := by
    omega
  have hsub : substr (before ++ '=' :: (between ++ ';' :: rest)) (some (before.length + 1))
      (some between.length) = .ok between := by
    rw [substr_some, List.drop_append, List.drop_of_length_le (Nat.le_succ _)]
    · rw [Nat.add_sub_cancel_left, List.nil_append, List.drop_succ_cons, List.drop_zero,
        List.take_left]
    · rw [List.length_append, List.length_cons]
      omega
  rw [parseLine_equals heq hcom]
  unfold parseValue
  rw [hfind]
  dsimp only
  rw [hlen, hsub]
  rfl

/-- Any other line is passed. -/
theorem parseLine_other (h : ∀ before between, ¬ Parts line before between) :
    parseLine line = .ok none := by
  by_cases hne : line = []
  · subst hne
    rfl
  by_cases hcom : isComment line = true
  · unfold parseLine
    rw [if_neg hne, if_pos hcom]
  rcases findIdx_cut '=' line with ⟨hno, hnone⟩ | ⟨before, tail, rfl, heq, -⟩
  · have hfind : find line '=' 0 = none := by
      unfold find
      rw [List.drop_zero, hnone]
      rfl
    unfold parseLine
    rw [if_neg hne, if_neg hcom, hfind]
  · have hcom := Bool.eq_false_iff.mpr hcom
    rcases findIdx_cut ';' tail with ⟨hno, hnone⟩ | ⟨between, rest, rfl, hsemi, -⟩
    · have hfind : find (before ++ '=' :: tail) ';' before.length = none := by
        unfold find
        rw [List.drop_left, List.findIdx?_cons, hnone]
        rfl
      rw [parseLine_equals heq hcom]
      unfold parseValue
      rw [hfind]
    · exact absurd ⟨hcom, ⟨rest, rfl⟩, heq, hsemi⟩ (h before between)

/-- The three outcomes of a line. -/
theorem parseLine_cases (line : Text) :
    (parseLine line = .ok none ∧ ∀ before between, ¬ Parts line before between)
      ∨ (∃ before between, Parts line before between ∧ (∀ c ∈ between, c = ' ')
        ∧ parseLine line = .error .outOfRange)
      ∨ ∃ before between, Parts line before between ∧ between.dropWhile (· = ' ') ≠ []
        ∧ parseLine line = .ok (some (firstWord before, between.dropWhile (· = ' '))) := by
  by_cases h : ∃ before between, Parts line before between
  · obtain ⟨before, between, h⟩ := h
    rcases findFirstNotOf_spec between with ⟨hnone, hall⟩ | ⟨i, hsome, hle, hdrop, hne⟩
    · refine .inr (.inl ⟨before, between, h, hall, ?_⟩)
      rw [parseLine_parts h, hnone]
      rfl
    · refine .inr (.inr ⟨before, between, h, hdrop ▸ hne, ?_⟩)
      have hsub : substr between (some i) none = .ok (between.drop i) :=
        if_neg (Nat.not_lt_of_le hle)
      rw [parseLine_parts h, hsome, hsub, ← hdrop]
      rfl
  · have h : ∀ before between, ¬ Parts line before between := fun before between hp =>
      h ⟨before, between, hp⟩
    exact .inl ⟨parseLine_other h, h⟩

/-- Nothing is left of spaces. -/
theorem dropWhile_spaces {s : Text} (h : ∀ c ∈ s, c = ' ') : s.dropWhile (· = ' ') = [] :=
  List.dropWhile_eq_nil_iff.mpr fun c hc => decide_eq_true (h c hc)

/-- A line is taken iff it is an assignment. -/
theorem parseLine_accepted : parseLine line = .ok (some (k, v)) ↔ Accepted line k v := by
  rcases parseLine_cases line with ⟨hp, hno⟩ | ⟨a, b, hab, hall, hp⟩ | ⟨a, b, hab, hne, hp⟩
  · rw [hp]
    exact iff_of_false nofun fun ⟨a, b, hab, _⟩ => hno a b hab
  · rw [hp]
    refine iff_of_false nofun ?_
    rintro ⟨a', b', hab', -, rfl, hv⟩
    rw [(hab'.unique hab).2] at hv
    exact hv (dropWhile_spaces hall)
  · rw [hp]
    constructor
    · intro h
      cases h
      exact ⟨a, b, hab, rfl, rfl, hne⟩
    · rintro ⟨a', b', hab', rfl, rfl, -⟩
      obtain ⟨rfl, rfl⟩ := hab'.unique hab
      rfl

/-- A line aborts the load iff nothing but spaces follows its sign. -/
theorem parseLine_aborts : parseLine line = .error .outOfRange ↔ Aborts line := by
  rcases parseLine_cases line with ⟨hp, hno⟩ | ⟨a, b, hab, hall, hp⟩ | ⟨a, b, hab, hne, hp⟩
  · rw [hp]
    exact iff_of_false nofun fun ⟨a, b, hab, _⟩ => hno a b hab
  · exact iff_of_true hp ⟨a, b, hab, hall⟩
  · rw [hp]
    refine iff_of_false nofun ?_
    rintro ⟨a', b', hab', hall⟩
    obtain ⟨rfl, rfl⟩ := hab'.unique hab
    exact hne (dropWhile_spaces hall)

/-- A line assigns one value to one name. -/
theorem accepted_functional : Functional Accepted := by
  intro line k v w h h'
  have h := parseLine_accepted.mpr h
  rw [parseLine_accepted.mpr h'] at h
  cases h
  rfl

/-- The name between spaces. -/
theorem firstWord_eq (hab : ∀ c ∈ a ++ b, isSpace c = true) (hk : k ≠ [])
    (hword : ∀ c ∈ k, isSpace c = false) : firstWord (a ++ k ++ b) = k := by
  obtain ⟨c, k', rfl⟩ := List.exists_cons_of_ne_nil hk
  have ha : Scan.IsRun isSpace a (c :: k' ++ b) :=
    ⟨fun x hx => hab x (List.mem_append_left _ hx), hword c List.mem_cons_self⟩
  have hb : Scan.IsRun (fun x => !isSpace x) (c :: k') b := by
    refine ⟨fun x hx => by rw [hword x hx]; rfl, ?_⟩
    cases b with
    | nil => rfl
    | cons d b =>
      change (!isSpace d) = false
      rw [hab d (List.mem_append_right _ List.mem_cons_self)]
      rfl
  unfold firstWord
  rw [List.append_assoc, ha.dropWhile, hb.takeWhile]

/-- A well formed line is an assignment. -/
theorem WellFormed.accepted (h : WellFormed line k v) : Accepted line k v := by
  obtain ⟨_, _, hparts, ⟨a, b, rfl, hab⟩, hk, hword, ⟨n, rfl⟩, hv, hhead⟩ := h
  refine ⟨_, _, hparts, (firstWord_eq hab hk hword).symm, ?_, hv⟩
  have hrun : Scan.IsRun (fun c => decide (c = ' ')) (List.replicate n ' ') v := by
    refine ⟨fun c hc => decide_eq_true (List.eq_of_mem_replicate hc), ?_⟩
    cases v with
    | nil => rfl
    | cons c v => exact decide_eq_false fun h => hhead (congrArg some h)
  exact hrun.dropWhile.symm

-- ======== the file

/-- What a line assigns. -/
def given (line : Text) : Option (Text × Text) :=
  match parseLine line with
  | .ok r => r
  | .error _ => none

theorem given_iff : given line = some (k, v) ↔ Accepted line k v := by
  rw [← parseLine_accepted]
  unfold given
  cases parseLine line with
  | error e => exact iff_of_false nofun nofun
  | ok r => exact ⟨fun h => congrArg Except.ok h, Except.ok.inj⟩

/-- A line that does not abort assigns what it gives. -/
theorem loadLine_ok (h : ¬ Aborts line) (m : PropMap) :
    loadLine line m = .ok (assignAll given m [line]) := by
  have hgiven : parseLine line = .ok (given line) := by
    unfold given
    cases hp : parseLine line with
    | error e => exact absurd (parseLine_aborts.mp hp) h
    | ok r => rfl
  unfold loadLine assignAll
  rw [hgiven, List.foldl_cons, List.foldl_nil]
  cases given line with
  | none => rfl
  | some p => rfl

/-- So do lines, in order. -/
theorem lines_ok {ls : List Text} (h : ∀ l ∈ ls, ¬ Aborts l) (m : PropMap) :
    ls.foldlM (fun m l => loadLine l m) m = .ok (assignAll given m ls) := by
  induction ls generalizing m with
  | nil => rfl
  | cons l ls ih =>
    rw [List.foldlM_cons, loadLine_ok (h l List.mem_cons_self)]
    exact ih (fun l' hl' => h l' (List.mem_cons_of_mem l hl')) _

/-- One line that aborts stops the load. -/
theorem lines_error {ls : List Text} {l : Text} (hl : l ∈ ls) (h : Aborts l) (m : PropMap) :
    ls.foldlM (fun m l => loadLine l m) m = .error .outOfRange := by
  induction ls generalizing m with
  | nil => cases hl
  | cons l' ls ih =>
    rw [List.foldlM_cons]
    by_cases hl' : Aborts l'
    · have herr : loadLine l' m = .error .outOfRange := by
        unfold loadLine
        rw [parseLine_aborts.mpr hl']
        rfl
      rw [herr]
      rfl
    · have hmem : l ∈ ls := by
        rcases List.mem_cons.mp hl with rfl | hl
        · exact absurd h hl'
        · exact hl
      rw [loadLine_ok hl']
      exact ih hmem _

/-- A load that ends leaves the last assignment to each name. -/
theorem load_iff {file : Text} {m m' : PropMap} :
    load file m = .ok m' ↔ (∀ l ∈ textLines file, ¬ Aborts l)
      ∧ ∀ k v, m' k = some v ↔ Left Accepted (textLines file) m k v := by
  have hleft : ∀ k v, assignAll given m (textLines file) k = some v
      ↔ Left Accepted (textLines file) m k v := by
    intro k v
    rw [assignAll_eq_some_iff]
    simp only [given_iff]
  rw [load_eq]
  constructor
  · intro hload
    have hno : ∀ l ∈ textLines file, ¬ Aborts l := by
      intro l hl hab
      rw [lines_error hl hab] at hload
      cases hload
    rw [lines_ok hno] at hload
    cases hload
    exact ⟨hno, hleft⟩
  · rintro ⟨hno, hm'⟩
    rw [lines_ok hno]
    refine congrArg Except.ok (funext fun k => Option.ext fun v => ?_)
    rw [hm', hleft]

-- ======== results

/-- The file is loaded: what is left in the map is the value of the last
property of each key. -/
def Loaded (m : PropMap) (file : Text) : Prop :=
  ∃ m', load file m = .ok m'
    ∧ ∀ k v, m' k = some v ↔ Left WellFormed (textLines file) m k v

/-- No line has only spaces between '=' and ';', and where the last line
taken for a key is no property (its key is not one word), its value is the
one the properties leave anyway. -/
structure Clean (m : PropMap) (file : Text) : Prop where
  value : ∀ l ∈ textLines file, ¬ Aborts l
  key : ∀ front l back k v, textLines file = front ++ l :: back → Accepted l k v →
    ¬ WellFormed l k v → (∀ l' ∈ back, ∀ w, ¬ Accepted l' k w) →
      Left WellFormed (textLines file) m k v

/-- A file is loaded right iff it is clean. -/
theorem loaded_iff (m : PropMap) (file : Text) : Loaded m file ↔ Clean m file := by
  have hle := left_iff_of_le (textLines file) accepted_functional
    (fun _ _ _ h => WellFormed.accepted h) m
  constructor
  · rintro ⟨m', hload, hm'⟩
    obtain ⟨hno, hacc⟩ := load_iff.mp hload
    exact ⟨hno, hle.mp fun k v => (hacc k v).symm.trans (hm' k v)⟩
  · rintro ⟨hno, hkey⟩
    have hload := lines_ok hno m
    rw [← load_eq] at hload
    refine ⟨_, hload, fun k v => ?_⟩
    rw [(load_iff.mp hload).2, hle.mpr hkey]

section Store

variable {entries : List (Text × Text)} {k v : Text}

/-- The line of a property. -/
def storedLine (p : Text × Text) : Text := p.1 ++ '=' :: (p.2 ++ [';'])

/-- A stored line is no comment. -/
theorem storedLine_comment (h : Storable k v) : isComment (storedLine (k, v)) = false := by
  obtain ⟨c, k', rfl⟩ := List.exists_cons_of_ne_nil h.key
  have hmark := h.mark
  cases k' with
  | nil =>
    unfold isComment at hmark ⊢
    simpa [storedLine] using hmark
  | cons d k' => exact hmark

/-- It is a well formed assignment. -/
theorem storedLine_wellFormed (h : Storable k v) : WellFormed (storedLine (k, v)) k v :=
  ⟨k, v, ⟨storedLine_comment h, ⟨[], rfl⟩, h.equals, h.semicolon⟩,
    ⟨[], [], (List.append_nil k).symm, fun _ hc => (List.not_mem_nil hc).elim⟩,
    h.key, h.word, ⟨0, rfl⟩, h.value, h.blank⟩

/-- It is read back as one line. -/
theorem storedLine_lines (h : Storable k v) (rest : Text) :
    textLines (storedLine (k, v) ++ '\n' :: rest) = storedLine (k, v) :: textLines rest := by
  obtain ⟨c, k', rfl⟩ := List.exists_cons_of_ne_nil h.key
  have hnl : '\n' ∉ storedLine (c :: k', v) := by
    unfold storedLine
    simp only [List.mem_append, List.mem_cons, not_or]
    refine ⟨?_, by decide, h.newline, by decide, List.not_mem_nil⟩
    rw [← not_or, ← List.mem_cons]
    intro hmem
    have hspace := h.word _ hmem
    cases hspace
  have hline := textLines_line (h.word c List.mem_cons_self) hnl
  rw [textLines_append, show storedLine (c :: k', v) = c :: (k' ++ '=' :: (v ++ [';'])) from rfl]
  exact congrArg (· ++ textLines rest) hline

theorem print_cons {p : Text × Text} (h : p.2 ≠ []) (ps : List (Text × Text)) :
    print (p :: ps) = storedLine p ++ '\n' :: print ps := by
  unfold print storedLine
  rw [List.flatMap_cons, if_neg h]
  simp only [List.append_assoc, List.cons_append, List.nil_append]

/-- A stored file is the header and one line for each entry. -/
theorem store_lines (hst : ∀ p ∈ entries, Storable p.1 p.2) (header : Text) :
    textLines (store header entries)
      = textLines ('#' :: ' ' :: header) ++ entries.map storedLine := by
  have hprint : textLines (print entries) = entries.map storedLine := by
    induction entries with
    | nil => rfl
    | cons p ps ih =>
      have hp := hst p List.mem_cons_self
      rw [print_cons hp.value, storedLine_lines hp,
        ih fun q hq => hst q (List.mem_cons_of_mem p hq)]
      rfl
  rw [← hprint]
  exact textLines_append ('#' :: ' ' :: header) (print entries)

/-- A map is given by entries of distinct names. -/
theorem ofEntries_iff (hnd : (entries.map Prod.fst).Nodup) :
    ofEntries entries k = some v ↔ (k, v) ∈ entries := by
  unfold ofEntries
  constructor
  · intro h
    obtain ⟨p, hp, rfl⟩ := Option.map_eq_some_iff.mp h
    have hfound : decide (p.1 = k) = true :=
      List.find?_some (p := fun q : Text × Text => q.1 = k) hp
    obtain rfl := of_decide_eq_true hfound
    exact List.mem_of_find?_eq_some hp
  · intro h
    have hsome : (entries.find? fun p => decide (p.1 = k)).isSome = true :=
      List.find?_isSome.mpr ⟨(k, v), h, decide_eq_true rfl⟩
    obtain ⟨p, hp⟩ := Option.isSome_iff_exists.mp hsome
    have hfound : decide (p.1 = k) = true :=
      List.find?_some (p := fun q : Text × Text => q.1 = k) hp
    have hk : p.1 = k := of_decide_eq_true hfound
    have heq := List.inj_on_of_nodup_map hnd (List.mem_of_find?_eq_some hp) h hk
    rw [hp, heq]
    rfl

/-- The header has no further line that the loader takes, but for a key of
the map. -/
def HeaderFits (header : Text) (entries : List (Text × Text)) : Prop :=
  ∀ l ∈ textLines ('#' :: ' ' :: header),
    ¬ Aborts l ∧ ∀ k v, Accepted l k v → k ∈ entries.map Prod.fst

/-- The last assignment of a stored file is the entry. -/
theorem last_stored (hnd : (entries.map Prod.fst).Nodup)
    (hst : ∀ p ∈ entries, Storable p.1 p.2) {ls : List Text}
    (hls : ∀ l ∈ ls, ∀ k v, Accepted l k v → k ∈ entries.map Prod.fst) :
    Last Accepted (ls ++ entries.map storedLine) k v ↔ (k, v) ∈ entries := by
  have hline : ∀ p ∈ entries, Accepted (storedLine p) p.1 p.2 := fun p hp =>
    (storedLine_wellFormed (hst p hp)).accepted
  have honly : ∀ l ∈ entries.map storedLine, ∀ k v, Accepted l k v → (k, v) ∈ entries := by
    intro l hl k v hacc
    obtain ⟨p, hp, rfl⟩ := List.mem_map.mp hl
    have heq := (given_iff.mpr (hline p hp)).symm.trans (given_iff.mpr hacc)
    cases heq
    exact hp
  rw [last_append_iff]
  constructor
  · rintro (hlast | ⟨hno, hlast⟩)
    · obtain ⟨l, hl, hacc⟩ := hlast.mem
      exact honly l hl k v hacc
    · obtain ⟨l, hl, hacc⟩ := hlast.mem
      obtain ⟨p, hp, rfl⟩ := List.mem_map.mp (hls l hl k v hacc)
      exact absurd (hline p hp) (hno _ (List.mem_map_of_mem hp) p.2)
  · intro hmem
    obtain ⟨w, hw⟩ := exists_last (List.mem_map_of_mem (f := storedLine) hmem) (hline _ hmem)
    obtain ⟨l, hl, hacc⟩ := hw.mem
    have heq := List.inj_on_of_nodup_map hnd (honly l hl k w hacc) hmem rfl
    cases heq
    exact .inl hw

/-- A stored map is read back iff its header fits. -/
theorem stored_iff (hnd : (entries.map Prod.fst).Nodup)
    (hst : ∀ p ∈ entries, Storable p.1 p.2) (header : Text) :
    load (store header entries) (fun _ => none) = .ok (ofEntries entries)
      ↔ HeaderFits header entries := by
  rw [load_iff, store_lines hst]
  simp only [left_empty_iff, ofEntries_iff hnd]
  constructor
  · rintro ⟨hno, hlast⟩ l hl
    refine ⟨hno l (List.mem_append_left _ hl), fun k v hacc => ?_⟩
    obtain ⟨w, hw⟩ := exists_last
      (List.mem_append_left (entries.map storedLine) hl) hacc
    exact List.mem_map.mpr ⟨(k, w), (hlast k w).mpr hw, rfl⟩
  · intro hfits
    refine ⟨fun l hl => ?_, fun k v => ?_⟩
    · rcases List.mem_append.mp hl with hl | hl
      · exact (hfits l hl).1
      · obtain ⟨p, hp, rfl⟩ := List.mem_map.mp hl
        intro hab
        have hacc := parseLine_accepted.mpr (storedLine_wellFormed (hst p hp)).accepted
        rw [parseLine_aborts.mpr hab] at hacc
        cases hacc
    · rw [last_stored hnd hst fun l hl => (hfits l hl).2]

end Store

/-- A stored map comes back, and a file is loaded, exactly so. -/
theorem properties_iff {entries : List (Text × Text)}
    (hnd : (entries.map Prod.fst).Nodup) (hst : ∀ p ∈ entries, Storable p.1 p.2)
    (header file : Text) (m : PropMap) :
    (load (store header entries) (fun _ => none) = .ok (ofEntries entries)
      ↔ HeaderFits header entries)
    ∧ (Loaded m file ↔ Clean m file) :=
  ⟨stored_iff hnd hst header, loaded_iff m file⟩

/-- Two properties, one of them with a blank and an equals sign in its value. -/
theorem properties_iff_two :
    load (store ['v', '1'] [(['a'], ['x', ' ', '=']), (['b', ';'], ['y'])]) (fun _ => none)
        = .ok (ofEntries [(['a'], ['x', ' ', '=']), (['b', ';'], ['y'])]) := by
  have hst : ∀ p ∈ [((['a'] : Text), (['x', ' ', '='] : Text)), (['b', ';'], ['y'])],
      Storable p.1 p.2 := by
    intro p hp
    rcases List.mem_cons.mp hp with rfl | hp
    · exact ⟨by decide, List.forall_mem_singleton.mpr rfl, by decide, rfl, by decide, by decide,
        by decide, by decide⟩
    · obtain rfl := List.mem_singleton.mp hp
      exact ⟨by decide, List.forall_mem_cons.mpr ⟨rfl, List.forall_mem_singleton.mpr rfl⟩,
        by decide, rfl, by decide, by decide, by decide, by decide⟩
  refine (properties_iff (by decide) hst ['v', '1'] [] fun _ => none).1.mpr ?_
  intro l hl
  obtain rfl := List.mem_singleton.mp (show l ∈ [['#', ' ', 'v', '1']] from hl)
  refine ⟨fun ⟨_, _, h, _⟩ => ?_, fun k v ⟨_, _, h, _⟩ => ?_⟩
  · cases h.comment
  · cases h.comment

/-- The file `k= ;`. -/
theorem properties_fail : ¬ ∀ (m : PropMap) (file : Text), Loaded m file := by
  intro h
  obtain ⟨m', hload, -⟩ := h (fun _ => none) ['k', '=', ' ', ';']
  rw [load_eq] at hload
  cases hload

end XKaapi.Kaapixx
