/-
Contiguous tilings of a half-open interval.

`Tiles lo hi l` says that the ranges of `l`, read from left to right,
are nonempty and abut, the first starting at `lo` and the last ending at
`hi`. Partition statements about index ranges (pairwise disjoint, inside
the whole, covering it) are consequences of this one recursive shape,
and the shape is what a single update of a work pool preserves: a range
is appended on one side or consed on the other.

`Cuts lo hi l` allows empty ranges among them, which a request for zero
elements returns.
-/
import Mathlib.Order.CompletePartialOrder
import Mathlib.Order.Interval.Set.Disjoint

variable {α : Type*} [LinearOrder α] {r r' : α × α}

/-- The ranges of the list tile `[lo, hi)` from left to right. -/
def Tiles (lo hi : α) : List (α × α) → Prop
  | [] => lo = hi
  | r :: l => r.1 = lo ∧ r.1 < r.2 ∧ Tiles r.2 hi l

/-- Two half-open ranges share no index. -/
def RangeDisjoint (r r' : α × α) : Prop :=
  Disjoint (Set.Ico r.1 r.2) (Set.Ico r'.1 r'.2)

theorem RangeDisjoint.symm (h : RangeDisjoint r r') : RangeDisjoint r' r :=
  Disjoint.symm h

/-- A range that ends where the other begins, or before, shares nothing with
it. -/
theorem RangeDisjoint.of_le (h : r.2 ≤ r'.1) : RangeDisjoint r r' := by
  rw [RangeDisjoint, Set.Ico_disjoint_Ico]
  exact (min_le_left _ _).trans (h.trans (le_max_right _ _))

namespace Tiles

variable {lo mid hi : α} {l l' : List (α × α)}

@[simp] theorem nil_iff : Tiles lo hi [] ↔ lo = hi := Iff.rfl

/-- Two tilings that meet make one. -/
theorem append (h : Tiles lo mid l) (h' : Tiles mid hi l') :
    Tiles lo hi (l ++ l') := by
  induction l generalizing lo with
  | nil =>
    rw [nil_iff] at h
    rw [h]
    exact h'
  | cons r l ih => exact ⟨h.1, h.2.1, ih h.2.2⟩

/-- A range is appended on the right of a tiling. -/
theorem snoc (h : Tiles lo mid l) (hlt : mid < hi) :
    Tiles lo hi (l ++ [(mid, hi)]) :=
  h.append ⟨rfl, hlt, rfl⟩

/-- A range is put on the left of a tiling. -/
theorem cons (h : Tiles mid hi l) (hlt : lo < mid) :
    Tiles lo hi ((lo, mid) :: l) :=
  ⟨rfl, hlt, h⟩

/-- The ranges between the values of an increasing sequence tile. -/
theorem of_lt {e : Nat → α} {k : Nat} (h : ∀ p < k, e p < e (p + 1)) :
    Tiles (e 0) (e k) ((List.range k).map fun p => (e p, e (p + 1))) := by
  induction k with
  | zero => exact rfl
  | succ k ih =>
    rw [List.range_succ, List.map_append]
    exact (ih fun p hp => h p (Nat.lt_succ_of_lt hp)).snoc
      (h k (Nat.lt_succ_self k))

/-- A tiling is cut anywhere between two of its ranges. -/
theorem split (h : Tiles lo hi (l ++ l')) :
    ∃ mid, Tiles lo mid l ∧ Tiles mid hi l' := by
  induction l generalizing lo with
  | nil => exact ⟨lo, rfl, h⟩
  | cons r l ih =>
    obtain ⟨mid, h₁, h₂⟩ := ih h.2.2
    exact ⟨mid, ⟨h.1, h.2.1, h₁⟩, h₂⟩

/-- The ranges determine where they begin. -/
theorem lo_unique {lo' : α} (h : Tiles lo hi l) (h' : Tiles lo' hi l) :
    lo = lo' := by
  cases l with
  | nil => exact h.trans h'.symm
  | cons r l => exact h.1.symm.trans h'.1

/-- The ranges determine where they end. -/
theorem hi_unique {hi' : α} (h : Tiles lo hi l) (h' : Tiles lo hi' l) :
    hi = hi' := by
  induction l generalizing lo with
  | nil => exact h.symm.trans h'
  | cons r l ih => exact ih h.2.2 h'.2.2

/-- What is left of a tiling without its first ranges. -/
theorem append_right (h : Tiles lo mid l) (h' : Tiles lo hi (l ++ l')) :
    Tiles mid hi l' := by
  obtain ⟨mid', h₁, h₂⟩ := h'.split
  exact h.hi_unique h₁ ▸ h₂

/-- The bounds of a tiling are in order. -/
theorem le (h : Tiles lo hi l) : lo ≤ hi := by
  induction l generalizing lo with
  | nil => exact le_of_eq h
  | cons r l ih => exact h.1 ▸ (h.2.1.le.trans (ih h.2.2))

/-- Every range is nonempty and within the bounds. -/
theorem mem_bounds (h : Tiles lo hi l) {r : α × α} (hr : r ∈ l) :
    lo ≤ r.1 ∧ r.1 < r.2 ∧ r.2 ≤ hi := by
  induction l generalizing lo with
  | nil => cases hr
  | cons r' l ih =>
    obtain ⟨hlo, hlt, hl⟩ := h
    rcases List.mem_cons.mp hr with rfl | hr'
    · exact ⟨hlo.ge, hlt, hl.le⟩
    · obtain ⟨h₁, h₂, h₃⟩ := ih hl hr'
      exact ⟨hlo ▸ hlt.le.trans h₁, h₂, h₃⟩

/-- The ranges are disjoint two by two. -/
theorem pairwise (h : Tiles lo hi l) : l.Pairwise RangeDisjoint := by
  induction l generalizing lo with
  | nil => exact List.Pairwise.nil
  | cons r l ih =>
    refine List.Pairwise.cons (fun r' hr' => ?_) (ih h.2.2)
    exact .of_le (h.2.2.mem_bounds hr').1

/-- An index is within the bounds iff it is in one of the ranges. -/
theorem mem_Ico_iff (h : Tiles lo hi l) (i : α) :
    i ∈ Set.Ico lo hi ↔ ∃ r ∈ l, i ∈ Set.Ico r.1 r.2 := by
  induction l generalizing lo with
  | nil =>
    rw [nil_iff] at h
    simp [h]
  | cons r l ih =>
    obtain ⟨hlo, hlt, hl⟩ := h
    have hsplit : Set.Ico lo hi = Set.Ico r.1 r.2 ∪ Set.Ico r.2 hi := by
      rw [← hlo, Set.Ico_union_Ico_eq_Ico hlt.le hl.le]
    rw [hsplit, Set.mem_union, ih hl]
    simp

/-- Two tilings with a gap between them are disjoint. -/
theorem pairwise_append {mid' : α} (h : Tiles lo mid l)
    (hgap : mid ≤ mid') (h' : Tiles mid' hi l') :
    (l ++ l').Pairwise RangeDisjoint := by
  rw [List.pairwise_append]
  refine ⟨h.pairwise, h'.pairwise, fun r hr r' hr' => ?_⟩
  have h₁ := (h.mem_bounds hr).2.2
  have h₂ := (h'.mem_bounds hr').1
  exact .of_le (h₁.trans (hgap.trans h₂))

end Tiles

-- ======== with empty ranges

/-- The ranges of the list that hold something. -/
def nonemptyRanges (l : List (α × α)) : List (α × α) :=
  l.filter fun r => decide (r.1 < r.2)

/-- The ranges of the list cut `[lo, hi)`: those that hold something tile
it, and the empty ones among them stand inside. -/
structure Cuts (lo hi : α) (l : List (α × α)) : Prop where
  tiles : Tiles lo hi (nonemptyRanges l)
  bounds : ∀ r ∈ l, lo ≤ r.1 ∧ r.1 ≤ r.2 ∧ r.2 ≤ hi

/-- An empty range shares nothing. -/
theorem RangeDisjoint.of_empty_left (h : ¬ r.1 < r.2) : RangeDisjoint r r' := by
  rw [RangeDisjoint, Set.Ico_eq_empty h]
  exact Set.empty_disjoint _

/-- An empty range shares nothing. -/
theorem RangeDisjoint.of_empty_right (h : ¬ r'.1 < r'.2) : RangeDisjoint r r' := by
  rw [RangeDisjoint, Set.Ico_eq_empty h]
  exact Set.disjoint_empty _

/-- It is enough that the nonempty ranges are disjoint. -/
theorem pairwise_of_nonempty {l : List (α × α)}
    (h : (nonemptyRanges l).Pairwise RangeDisjoint) : l.Pairwise RangeDisjoint := by
  induction l with
  | nil => exact List.Pairwise.nil
  | cons r l ih =>
    by_cases hr : r.1 < r.2
    · rw [nonemptyRanges, List.filter_cons_of_pos (by simpa using hr),
        List.pairwise_cons] at h
      refine List.Pairwise.cons (fun r' hr' => ?_) (ih h.2)
      by_cases hr'' : r'.1 < r'.2
      · exact h.1 r' (List.mem_filter.mpr ⟨hr', by simpa using hr''⟩)
      · exact .of_empty_right hr''
    · rw [nonemptyRanges, List.filter_cons_of_neg (by simpa using hr)] at h
      exact List.Pairwise.cons (fun r' _ => .of_empty_left hr) (ih h)

namespace Cuts

variable {lo mid hi : α} {l l' : List (α × α)}

/-- No range, between equal bounds. -/
theorem nil (lo : α) : Cuts lo lo [] where
  tiles := rfl
  bounds r hr := by cases hr

/-- The bounds of a cut are in order. -/
theorem le (h : Cuts lo hi l) : lo ≤ hi := h.tiles.le

/-- A range, maybe empty, is appended on the right. -/
theorem snoc (h : Cuts lo mid l) (hle : mid ≤ hi) :
    Cuts lo hi (l ++ [(mid, hi)]) where
  tiles := by
    rw [nonemptyRanges, List.filter_append]
    rcases hle.lt_or_eq with hlt | rfl
    · rw [List.filter_cons_of_pos (by simpa using hlt)]
      exact h.tiles.snoc hlt
    · rw [List.filter_cons_of_neg (by simp), List.filter_nil, List.append_nil]
      exact h.tiles
  bounds r hr := by
    rcases List.mem_append.mp hr with hr | hr
    · obtain ⟨h₁, h₂, h₃⟩ := h.bounds r hr
      exact ⟨h₁, h₂, h₃.trans hle⟩
    · rw [List.mem_singleton] at hr
      subst hr
      exact ⟨h.le, hle, le_refl _⟩

/-- A range, maybe empty, is put on the left. -/
theorem cons (h : Cuts mid hi l) (hle : lo ≤ mid) :
    Cuts lo hi ((lo, mid) :: l) where
  tiles := by
    rcases hle.lt_or_eq with hlt | rfl
    · rw [nonemptyRanges, List.filter_cons_of_pos (by simpa using hlt)]
      exact h.tiles.cons hlt
    · rw [nonemptyRanges, List.filter_cons_of_neg (by simp)]
      exact h.tiles
  bounds r hr := by
    rcases List.mem_cons.mp hr with rfl | hr
    · exact ⟨le_refl _, hle, h.le⟩
    · obtain ⟨h₁, h₂, h₃⟩ := h.bounds r hr
      exact ⟨hle.trans h₁, h₂, h₃⟩

/-- The ranges determine where they end. -/
theorem hi_unique {hi' : α} (h : Cuts lo hi l) (h' : Cuts lo hi' l) : hi = hi' :=
  h.tiles.hi_unique h'.tiles

/-- The ranges determine where they begin. -/
theorem lo_unique {lo' : α} (h : Cuts lo hi l) (h' : Cuts lo' hi l) : lo = lo' :=
  h.tiles.lo_unique h'.tiles

/-- An index is within the bounds iff it is in one of the ranges. -/
theorem mem_Ico_iff (h : Cuts lo hi l) (i : α) :
    i ∈ Set.Ico lo hi ↔ ∃ r ∈ l, i ∈ Set.Ico r.1 r.2 := by
  rw [h.tiles.mem_Ico_iff]
  constructor
  · rintro ⟨r, hr, hi⟩
    exact ⟨r, (List.mem_filter.mp hr).1, hi⟩
  · rintro ⟨r, hr, hi⟩
    have hlt : r.1 < r.2 := lt_of_le_of_lt hi.1 hi.2
    exact ⟨r, List.mem_filter.mpr ⟨hr, by simpa using hlt⟩, hi⟩

/-- Two cuts with a gap between them are disjoint. -/
theorem pairwise_append {mid' : α} (h : Cuts lo mid l)
    (hgap : mid ≤ mid') (h' : Cuts mid' hi l') :
    (l ++ l').Pairwise RangeDisjoint := by
  rw [List.pairwise_append]
  refine ⟨pairwise_of_nonempty h.tiles.pairwise,
    pairwise_of_nonempty h'.tiles.pairwise, fun r hr r' hr' => ?_⟩
  exact .of_le ((h.bounds r hr).2.2.trans (hgap.trans (h'.bounds r' hr').1))

end Cuts
