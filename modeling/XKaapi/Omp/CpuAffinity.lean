/-
GOMP_CPU_AFFINITY as a KAAPI_CPUSET (`komp_parse_cpu_affinity` of
`libgomp_init.c`): the tokens between the blanks, cut at `-` and `:`, and
what is appended for each of them to a buffer of 512 bytes.

A string for which the pieces fit into the buffers is translated to the end
(`komp_parse_cpu_affinity_eq`). What the translation then says is up to its
entries: a range with a stride leaves its last cpu out, and a blank too many
makes an empty entry, which the parser of the set takes for the cpu 0.

Not modelled: `strsep` also ends the tokens in the environment itself.
-/
import XKaapi.Lib.CountedLoop
import XKaapi.Machine.ProcOutcome

namespace XKaapi.Omp.Affinity

open CountedLoop (execFor Runs ceilDiv)
open XKaapi.Machine

-- ======== the function

/-- `strsep`: the characters before the delimiter, and those after it. -/
def strsep (delim : Char → Bool) (s : List Char) : List Char × Option (List Char) :=
  (s.takeWhile (!delim ·), (s.dropWhile (!delim ·)).tail?)

theorem length_strsep {delim : Char → Bool} {s tok rest : List Char}
    (h : strsep delim s = (tok, some rest)) : rest.length < s.length := by
  have htail : (s.dropWhile (!delim ·)).tail? = some rest := congrArg Prod.snd h
  have hle := length_dropWhile_le (!delim ·) s
  cases hd : s.dropWhile (!delim ·) with
  | nil => rw [hd] at htail; cases htail
  | cons c r =>
    rw [hd] at htail hle
    cases htail
    exact hle

/-- The delimiters `" \t"`. -/
def isBlank (c : Char) : Bool := c == ' ' || c == '\t'

/-- The values of `cpuset_string`. -/
def tokens (s : List Char) : List (List Char) :=
  match _h : strsep isBlank s with
  | (tok, none) => [tok]
  | (tok, some rest) => tok :: tokens rest
termination_by s.length
decreasing_by
  exact length_strsep _h

/-- `first_cpu`, `last_cpu` and `stride`. -/
structure Token where
  first : List Char
  last : Option (List Char)
  stride : Option (List Char)

def cut (tok : List Char) : Token :=
  match strsep (· == '-') tok with
  | (first, none) => ⟨first, none, none⟩
  | (first, some rest) =>
    let (last, stride) := strsep (· == ':') rest
    ⟨first, some last, stride⟩

/-- `atoi`: the value of `strtol` as an `int`. -/
def atoi (s : List Char) : Int :=
  let (negative, s) := readSign (s.dropWhile isSpace)
  let n := decimal (s.takeWhile Char.isDigit)
  (if negative then -(min n (2 ^ 63) : Nat) else (min n (2 ^ 63 - 1) : Nat) : Int).bmod
    (2 ^ 32)

/-- `%d` -/
def decimalOf (i : Int) : List Char :=
  if i < 0 then '-' :: Nat.toDigits 10 i.natAbs else Nat.toDigits 10 i.natAbs

/-- `__append_string_with_format`, with `tmp[16]` and `kaapi_cpuset[512]`;
`none` for a write outside of them. -/
def append (set piece : List Char) : Option (List Char) :=
  if piece.length < 16 ∧ set.length + piece.length < 512 then some (set ++ piece)
  else none

/-- `i += hop`; `none` when it overflows. -/
def addInt (i hop : Int) : Option Int :=
  if i + hop < 2 ^ 31 ∧ -2 ^ 31 ≤ i + hop then some (i + hop) else none

/-- The body of the `while`, with at most `fuel` turns of its loop. -/
def appendToken (fuel : Nat) (set tok : List Char) : Option (List Char) :=
  match cut tok with
  | ⟨first, some last, some stride⟩ =>
    (execFor (fun i => decide (i < atoi last)) (addInt · (atoi stride)) fuel
      (atoi first)).bind fun is =>
        is.foldlM (fun set i => append set (decimalOf i ++ [','])) set
  | ⟨first, some last, none⟩ => append set (first ++ ':' :: last ++ [','])
  | ⟨first, none, _⟩ => append set (first ++ [','])

/-- `komp_parse_cpu_affinity`: the value of KAAPI_CPUSET. -/
def komp_parse_cpu_affinity (fuel : Nat) (env : List Char) : Option (List Char) :=
  ((tokens env).foldlM (appendToken fuel) []).bind fun set =>
    if set = [] then none else some set.dropLast

-- ======== what fits

/-- The turns of the loop from `first` below `last`. -/
def turns (first last hop : Int) : Nat :=
  if last ≤ first then 0 else ceilDiv (last - first) hop

/-- What is appended for a token. -/
def Token.pieces (t : Token) : List (List Char) :=
  match t.last, t.stride with
  | some last, some stride =>
    (List.range (turns (atoi t.first) (atoi last) (atoi stride))).map fun k : Nat =>
      decimalOf (atoi t.first + k * atoi stride) ++ [',']
  | some last, none => [t.first ++ ':' :: last ++ [',']]
  | none, _ => [t.first ++ [',']]

/-- The loop of a stride has no turn, or it goes up and stays an `int`. -/
def EndsAt (first last hop : Int) : Prop :=
  first < last → 0 < hop ∧ first + turns first last hop * hop < 2 ^ 31

def Token.Ends (t : Token) : Prop :=
  ∀ last stride, t.last = some last → t.stride = some stride →
    EndsAt (atoi t.first) (atoi last) (atoi stride)

/-- The text that is appended. -/
def pieces (env : List Char) : List (List Char) :=
  (tokens env).flatMap fun tok => (cut tok).pieces

/-- The loops end, the pieces fit into the buffers, and there is a last
comma. -/
structure Fits (env : List Char) : Prop where
  ends : ∀ tok ∈ tokens env, (cut tok).Ends
  piece : ∀ p ∈ pieces env, p.length < 16
  pos : 0 < (pieces env).flatten.length
  length : (pieces env).flatten.length < 512

theorem append_all {ps : List (List Char)} {set : List Char}
    (hp : ∀ p ∈ ps, p.length < 16) (hlen : set.length + ps.flatten.length < 512) :
    ps.foldlM append set = some (set ++ ps.flatten) := by
  induction ps generalizing set with
  | nil => simp
  | cons p ps ih =>
    rw [List.flatten_cons, List.length_append] at hlen
    rw [List.foldlM_cons, append, if_pos ⟨hp p List.mem_cons_self, by omega⟩]
    have hrest : ps.foldlM append (set ++ p) = some (set ++ p ++ ps.flatten) :=
      ih (fun q hq => hp q (List.mem_cons_of_mem _ hq)) (by rw [List.length_append]; omega)
    rw [List.append_assoc] at hrest
    exact hrest

/-- The values of the variable in the loop of a stride. -/
theorem runs_stride {first last hop : Int} (hfirst : -2 ^ 31 ≤ first)
    (hends : EndsAt first last hop) :
    Runs (fun i => decide (i < last)) (addInt · hop) first
      ((List.range (turns first last hop)).map fun k : Nat => first + k * hop) := by
  by_cases hle : last ≤ first
  · rw [turns, if_pos hle]
    exact CountedLoop.runs_of_not (decide_eq_false (Int.not_lt.2 hle))
  obtain ⟨hpos, hend⟩ := hends (Int.not_le.1 hle)
  rw [turns, if_neg hle] at hend ⊢
  have hiff := CountedLoop.lt_ceilDiv_iff hpos (last - first)
  have h := CountedLoop.runs_of_values (fun i => decide (i < last)) (addInt · hop)
    (fun k : Nat => first + k * hop) (n := ceilDiv (last - first) hop) ?_ ?_ ?_
  · simpa using h
  · intro k hk
    have := (hiff k).1 hk
    exact decide_eq_true (by omega)
  · intro k hk
    have hmul : ((k + 1 : Nat) : Int) * hop ≤ ceilDiv (last - first) hop * hop :=
      Int.mul_le_mul_of_nonneg_right (by omega) hpos.le
    have hk0 : 0 ≤ ((k + 1 : Nat) : Int) * hop := Int.mul_nonneg (by omega) hpos.le
    have hsucc : first + k * hop + hop = first + ((k + 1 : Nat) : Int) * hop := by
      push_cast
      ring
    rw [addInt, hsucc, if_pos ⟨by omega, by omega⟩]
  · have := (hiff (ceilDiv (last - first) hop)).not.1 (Nat.lt_irrefl _)
    exact decide_eq_false (by omega)

theorem atoi_ge (s : List Char) : -2 ^ 31 ≤ atoi s := by
  have h := Int.le_bmod (m := 2 ^ 32)
    (x := if (readSign (s.dropWhile isSpace)).1 then
        -((min (decimal ((readSign (s.dropWhile isSpace)).2.takeWhile Char.isDigit))
          (2 ^ 63) : Nat) : Int)
      else ((min (decimal ((readSign (s.dropWhile isSpace)).2.takeWhile Char.isDigit))
          (2 ^ 63 - 1) : Nat) : Int)) (by decide)
  exact h

/-- A token whose pieces fit is appended, with any fuel from some on. -/
theorem appendToken_eq {set tok : List Char} (hends : (cut tok).Ends)
    (hp : ∀ p ∈ (cut tok).pieces, p.length < 16)
    (hlen : set.length + (cut tok).pieces.flatten.length < 512) :
    ∃ fuel, ∀ f, fuel ≤ f →
      appendToken f set tok = some (set ++ (cut tok).pieces.flatten) := by
  have hall := append_all hp hlen
  unfold appendToken
  generalize cut tok = t at hends hall
  obtain ⟨first, last, stride⟩ := t
  cases last with
  | none =>
    refine ⟨0, fun f _ => ?_⟩
    simpa [Token.pieces] using hall
  | some last =>
    cases stride with
    | none =>
      refine ⟨0, fun f _ => ?_⟩
      simpa [Token.pieces] using hall
    | some stride =>
      obtain ⟨fuel, hfuel⟩ := runs_stride (atoi_ge first) (hends last stride rfl rfl)
      refine ⟨fuel, fun f hf => ?_⟩
      dsimp only
      rw [CountedLoop.execFor_mono hf hfuel, Option.bind_some, List.foldlM_map]
      simpa [Token.pieces, List.foldlM_map] using hall

/-- The strings that fit are translated to the end, and nothing is written
outside of the buffers. -/
theorem komp_parse_cpu_affinity_eq {env : List Char} (h : Fits env) :
    ∃ fuel, komp_parse_cpu_affinity fuel env = some (pieces env).flatten.dropLast := by
  have hloop : ∀ (toks : List (List Char)) (set : List Char),
      (∀ tok ∈ toks, (cut tok).Ends) →
      (∀ p ∈ toks.flatMap fun tok => (cut tok).pieces, p.length < 16) →
      set.length + (toks.flatMap fun tok => (cut tok).pieces).flatten.length < 512 →
      ∃ fuel, ∀ f, fuel ≤ f → toks.foldlM (appendToken f) set
        = some (set ++ (toks.flatMap fun tok => (cut tok).pieces).flatten) := by
    intro toks
    induction toks with
    | nil => exact fun set _ _ _ => ⟨0, fun f _ => by simp⟩
    | cons tok toks ih =>
      intro set hends hp hlen
      rw [List.flatMap_cons, List.flatten_append] at hlen ⊢
      rw [List.length_append] at hlen
      obtain ⟨fuel₁, h₁⟩ : ∃ fuel, ∀ f, fuel ≤ f →
          appendToken f set tok = some (set ++ (cut tok).pieces.flatten) :=
        appendToken_eq (hends tok List.mem_cons_self)
          (fun p hpt => hp p (by simp [hpt])) (by omega)
      obtain ⟨fuel₂, h₂⟩ := ih (set ++ (cut tok).pieces.flatten)
        (fun t ht => hends t (List.mem_cons_of_mem _ ht))
        (fun p hpt => hp p (by rw [List.flatMap_cons]; exact List.mem_append_right _ hpt))
        (by rw [List.length_append]; omega)
      refine ⟨max fuel₁ fuel₂, fun f hf => ?_⟩
      rw [List.foldlM_cons, h₁ f (by omega)]
      refine (h₂ f (by omega)).trans ?_
      rw [List.append_assoc]
  obtain ⟨fuel, hfuel⟩ := hloop (tokens env) [] h.ends h.piece
    (by rw [List.length_nil, Nat.zero_add]; exact h.length)
  refine ⟨fuel, ?_⟩
  have hpos := h.pos
  unfold komp_parse_cpu_affinity
  rw [hfuel fuel (Nat.le_refl _), Option.bind_some, List.nil_append, if_neg ?_]
  · rfl
  · exact List.ne_nil_of_length_pos hpos

end XKaapi.Omp.Affinity
