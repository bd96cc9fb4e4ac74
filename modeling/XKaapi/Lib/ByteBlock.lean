/-
A block of memory of a fixed size, with objects written at offsets in
it. Objects may overlap, and may stick out of the block: what lies past
the end belongs to somebody else and cannot be read back.

The one fact used outside: after a list of writes, every object reads
back as it was written iff each lies in the block and any two of them
agree on the cells they share (`read_writes_iff`).
-/
import Mathlib.Data.List.Basic

namespace XKaapi

/-- A block of `size` cells. -/
structure ByteBlock (β : Type) where
  size : Nat
  cells : Nat → β

namespace ByteBlock

variable {β : Type}

/-- An object and the offset it is written at. -/
abbrev Place (β : Type) := Nat × List β

/-- The cell `a` of an object placed somewhere, if it covers that cell. -/
def Place.cell (w : Place β) (a : Nat) : Option β :=
  if w.1 ≤ a then w.2[a - w.1]? else none

def write (b : ByteBlock β) (w : Place β) : ByteBlock β :=
  { b with cells := fun a => (w.cell a).getD (b.cells a) }

def writes (b : ByteBlock β) (ws : List (Place β)) : ByteBlock β :=
  ws.foldl write b

/-- The object of `n` cells at `off`, if it lies in the block. -/
def read (b : ByteBlock β) (off n : Nat) : Option (List β) :=
  if off + n ≤ b.size then some
    ((List.range n).map fun i => b.cells (off + i)) else none

/-- Two placed objects have the same content on the cells they share. -/
def Agree (w w' : Place β) : Prop :=
  ∀ a x y, w.cell a = some x → w'.cell a = some y → x = y

theorem Place.cell_add (w : Place β) (i : Nat) : w.cell (w.1 + i) = w.2[i]? := by
  unfold Place.cell
  rw [if_pos (Nat.le_add_right _ _), Nat.add_sub_cancel_left]

@[simp] theorem writes_cons (b : ByteBlock β) (w : Place β) (ws : List (Place β)) :
    b.writes (w :: ws) = (b.write w).writes ws := rfl

theorem writes_append (b : ByteBlock β) (ws ws' : List (Place β)) :
    b.writes (ws ++ ws') = (b.writes ws).writes ws' := List.foldl_append

@[simp] theorem size_write (b : ByteBlock β) (w : Place β) : (b.write w).size
  = b.size := rfl

@[simp] theorem size_writes (b : ByteBlock β) (ws : List (Place β)) :
    (b.writes ws).size = b.size := by
  induction ws generalizing b with
  | nil => rfl
  | cons w ws ih => rw [writes_cons, ih, size_write]

/-- A cell that all objects covering it agree on, and that one of them
or the block before them holds as `x`, is `x` in the end. -/
theorem cells_writes_of_agree
    (b : ByteBlock β) {ws : List (Place β)} {a : Nat} {x : β}
    (hall : ∀ w ∈ ws, ∀ y, w.cell a = some y → y = x)
    (hone : b.cells a = x ∨ ∃ w ∈ ws, w.cell a = some x) : (b.writes ws).cells
      a = x := by
  induction ws generalizing b with
  | nil =>
    rcases hone with hb | ⟨w, hw, -⟩
    · exact hb
    · cases hw
  | cons w ws ih =>
    rw [writes_cons]
    refine ih _ (fun w' hw' => hall w' (List.mem_cons_of_mem _ hw')) ?_
    cases hc : w.cell a with
    | some y =>
      refine .inl ?_
      show (w.cell a).getD (b.cells a) = x
      rw [hc, Option.getD_some, hall w List.mem_cons_self y hc]
    | none =>
      rcases hone with hb | ⟨w', hw', hx⟩
      · refine .inl ?_
        show (w.cell a).getD (b.cells a) = x
        rw [hc, Option.getD_none, hb]
      · rcases List.mem_cons.mp hw' with rfl | hmem
        · rw [hc] at hx
          cases hx
        · exact .inr ⟨w', hmem, hx⟩

theorem read_eq_some_iff (b : ByteBlock β) (w : Place β) :
    b.read w.1 w.2.length = some w.2 ↔
      w.1 + w.2.length ≤ b.size ∧ ∀ a x, w.cell a = some x → b.cells a = x := by
  unfold read
  split
  next hle =>
    rw [Option.some_inj]
    refine Iff.trans ⟨fun h a x hx => ?_, fun h => ?_⟩ (and_iff_right hle).symm
    · unfold Place.cell at hx
      split at hx
      next hoff =>
        rw [← h] at hx
        obtain ⟨hlt, hget⟩ := List.getElem?_eq_some_iff.mp hx
        rw [List.getElem_map, List.getElem_range] at hget
        rw [← hget, Nat.add_sub_cancel' hoff]
      next => cases hx
    · refine List.ext_getElem (by simp) fun i h1 h2 => ?_
      rw [List.getElem_map, List.getElem_range]
      exact h (w.1 + i) _ (by rw [Place.cell_add, List.getElem?_eq_getElem h2])
  next hle =>
    exact ⟨nofun, fun h => absurd h.1 hle⟩

/-- Every object reads back as it was written iff it lies in the block
and any two agree where they overlap. -/
theorem read_writes_iff (b : ByteBlock β) (ws : List (Place β)) :
    (∀ w ∈ ws, (b.writes ws).read w.1 w.2.length = some w.2) ↔
      (∀ w ∈ ws, w.1 + w.2.length ≤ b.size) ∧ ∀ w ∈ ws, ∀ w' ∈ ws, Agree w w' := by
  constructor
  · intro h
    have hcell : ∀ w ∈ ws, ∀ a x, w.cell a = some x → (b.writes ws).cells a = x :=
      fun w hw => ((read_eq_some_iff _ w).mp (h w hw)).2
    refine ⟨fun w hw => ?_, fun w hw w' hw' a x y hx hy => ?_⟩
    · have hle := ((read_eq_some_iff _ w).mp (h w hw)).1
      rwa [size_writes] at hle
    · rw [← hcell w hw a x hx, hcell w' hw' a y hy]
  · rintro ⟨hsize, hagree⟩ w hw
    refine (read_eq_some_iff _ w).mpr ⟨by rw [size_writes]; exact hsize w hw, ?_⟩
    intro a x hx
    exact cells_writes_of_agree b
      (fun w' hw' y hy => (hagree w hw w' hw' a x y hx hy).symm)
      (.inr ⟨w, hw, hx⟩)

end ByteBlock

end XKaapi
