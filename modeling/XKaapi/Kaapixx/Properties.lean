/-
Property files (kaapixx/ka_properties.cpp): `store` writes a line
`key=value;` for each property, `load` reads such lines.

A string is the list of its characters, a position `npos` is `none`, and
`substr` throws `std::out_of_range` past the end, which the exception
specification of `load` does not let through: the program is terminated.

What a line means is `WellFormed`, and what the code makes of it `Accepted`
or `Aborts`.
-/
import XKaapi.Lib.LastWins

namespace XKaapi.Kaapixx

abbrev Text := List Char

/-- A property map. -/
abbrev PropMap := Text → Option Text

-- ======== strings

/-- `isspace`, in the C locale. -/
def isSpace (c : Char) : Bool := c = ' ' || (9 ≤ c.toNat && c.toNat ≤ 13)

/-- `s.find(c, pos)` -/
def find (s : Text) (c : Char) (pos : Nat) : Option Nat :=
  ((s.drop pos).findIdx? (· = c)).map (pos + ·)

/-- `s.find_first_not_of(c)` -/
def findFirstNotOf (s : Text) (c : Char) : Option Nat := s.findIdx? (· ≠ c)

/-- `std::out_of_range` -/
inductive LoadStop
  | outOfRange
deriving DecidableEq, Repr

/-- `s.substr(pos, n)` -/
def substr (s : Text) (pos n : Option Nat) : Except LoadStop Text :=
  match pos with
  | none => .error .outOfRange
  | some pos =>
    if s.length < pos then .error .outOfRange
    else
      match n with
      | none => .ok (s.drop pos)
      | some n => .ok ((s.drop pos).take n)

/-- `f_tmp >> std::ws >> key`, with an empty key before. -/
def firstWord (s : Text) : Text := (s.dropWhile isSpace).takeWhile fun c => !isSpace c

-- ======== load

def isComment (s : Text) : Bool :=
  s[0]? = some '#' || s[0]? = some '!' || (s[0]? = some '/' && s[1]? = some '/')

/-- The value of a line, '=' being at `ipos1`: what is between it and the
next ';', from the first character that is not a space on. -/
def parseValue (line key : Text) (ipos1 : Nat) : Except LoadStop (Option (Text × Text)) :=
  match find line ';' ipos1 with
  | none => .ok none
  | some ipos2 => do
    let tmp ← substr line (some (ipos1 + 1)) (some (ipos2 - ipos1 - 1))
    let value ← substr tmp (findFirstNotOf tmp ' ') none
    .ok (some (key, value))

/-- The key and the value that a line assigns, if any. -/
def parseLine (line : Text) : Except LoadStop (Option (Text × Text)) :=
  if line = [] then .ok none
  else if isComment line then .ok none
  else
    match find line '=' 0 with
    | none => .ok none
    | some ipos1 => do
      let tmp ← substr line (some 0) (some ipos1)
      parseValue line (firstWord tmp) ipos1

def loadLine (line : Text) (m : PropMap) : Except LoadStop PropMap := do
  match ← parseLine line with
  | none => .ok m
  | some (key, value) => .ok (Function.update m key (some value))

theorem length_dropWhile_le {α : Type} (p : α → Bool) (l : List α) :
    (l.dropWhile p).length ≤ l.length := (List.dropWhile_sublist p).length_le

/-- The loop of `load`: what is left of the file and the line of the round
before. At the end of the file `getline` leaves that line as it is. -/
def loadLoop (file line : Text) (m : PropMap) : Except LoadStop PropMap :=
  match _ : file.dropWhile isSpace with
  | [] => loadLine line m
  | c :: file' =>
    let line := (c :: file').takeWhile (· ≠ '\n')
    match _ : (c :: file').dropWhile (· ≠ '\n') with
    | [] => loadLine line m
    | _ :: rest => do
      let m ← loadLine line m
      loadLoop rest line m
termination_by file.length
decreasing_by
  rename_i h₁ _ h₂
  have hle₁ := length_dropWhile_le isSpace file
  have hle₂ := length_dropWhile_le (· ≠ '\n') (c :: file')
  rw [h₁] at hle₁
  rw [h₂] at hle₂
  rw [List.length_cons] at hle₂
  omega

/-- `Properties::load`, of a file that is open. -/
def load (file : Text) (m : PropMap) : Except LoadStop PropMap := loadLoop file [] m

-- ======== store

/-- `Properties::print`, of the properties in the order of the map. -/
def print (entries : List (Text × Text)) : Text :=
  entries.flatMap fun p => if p.2 = [] then [] else p.1 ++ '=' :: p.2 ++ [';', '\n']

/-- `Properties::store`: the text of the file. -/
def store (header : Text) (entries : List (Text × Text)) : Text :=
  '#' :: ' ' :: header ++ '\n' :: print entries

/-- The map of some properties. -/
def ofEntries (entries : List (Text × Text)) : PropMap := fun k =>
  (entries.find? fun p => decide (p.1 = k)).map Prod.snd

-- ======== the file format

/-- The lines of a text. -/
def splitLines : Text → List Text
  | [] => [[]]
  | c :: cs =>
    if c = '\n' then [] :: splitLines cs
    else
      match splitLines cs with
      | [] => [[c]]
      | l :: ls => (c :: l) :: ls

/-- Its lines that are not blank, from their first character that is not a
blank on. -/
def textLines (text : Text) : List Text :=
  ((splitLines text).map (List.dropWhile isSpace)).filter (· ≠ [])

/-- The line, not a comment, is cut at its first '=' and at the first ';'
after it. -/
structure Parts (line before between : Text) : Prop where
  comment : isComment line = false
  cut : ∃ rest, line = before ++ '=' :: (between ++ ';' :: rest)
  equals : '=' ∉ before
  semicolon : ';' ∉ between

/-- A property: a key of one word, '=', and a value up to ';' that is not
blank. -/
def WellFormed (line k v : Text) : Prop :=
  ∃ before between, Parts line before between
    ∧ (∃ a b, before = a ++ k ++ b ∧ (∀ c ∈ a ++ b, isSpace c = true))
    ∧ k ≠ [] ∧ (∀ c ∈ k, isSpace c = false)
    ∧ (∃ n, between = List.replicate n ' ' ++ v) ∧ v ≠ [] ∧ v.head? ≠ some ' '

/-- What the code takes for a property: the key is the first word before
'=', and may be empty. -/
def Accepted (line k v : Text) : Prop :=
  ∃ before between, Parts line before between ∧ k = firstWord before
    ∧ v = between.dropWhile (· = ' ') ∧ v ≠ []

/-- The line ends the program: there are only spaces between '=' and ';'. -/
def Aborts (line : Text) : Prop :=
  ∃ before between, Parts line before between ∧ ∀ c ∈ between, c = ' '

/-- A property that survives the file: its line is its own. -/
structure Storable (k v : Text) : Prop where
  key : k ≠ []
  word : ∀ c ∈ k, isSpace c = false
  equals : '=' ∉ k
  mark : isComment k = false
  value : v ≠ []
  blank : v.head? ≠ some ' '
  semicolon : ';' ∉ v
  newline : '\n' ∉ v

end XKaapi.Kaapixx
