/-
Assignments in sequence, of which the last one of a key wins.

`Last P ls k v` says that `v` is what the last item of `ls` that gives the
key `k` gives to it, `P l k v` being that the item `l` gives `v` to `k`. It
is the value that is left when the items are assigned one after the other
(`Left`, `assignAll_eq_some_iff`).
-/
import Mathlib.Data.List.Induction

namespace LastWins

variable {α κ β : Type*}

def Last (P : α → κ → β → Prop) (ls : List α) (k : κ) (v : β) : Prop :=
  ∃ front l back, ls = front ++ l :: back ∧ P l k v ∧ ∀ l' ∈ back, ∀ w, ¬ P l' k w

/-- An item gives a key one value at most. -/
def Functional (P : α → κ → β → Prop) : Prop := ∀ l k v w, P l k v → P l k w → v = w

section Last

variable {P Q : α → κ → β → Prop} {ls : List α} {l : α} {k : κ} {v w : β}
  {m : κ → Option β}

theorem not_last_nil : ¬ Last P [] k v := by
  rintro ⟨front, l, back, h, -⟩
  exact List.append_ne_nil_of_right_ne_nil front (List.cons_ne_nil l back) h.symm

theorem last_concat_iff :
    Last P (ls ++ [l]) k v ↔ P l k v ∨ (∀ w, ¬ P l k w) ∧ Last P ls k v := by
  constructor
  · rintro ⟨front, l', back, h, hl', hback⟩
    rcases List.eq_nil_or_concat back with rfl | ⟨back, l'', rfl⟩
    · obtain ⟨rfl, hcons⟩ := List.append_inj' h rfl
      cases hcons
      exact .inl hl'
    · rw [List.concat_eq_append, ← List.cons_append, ← List.append_assoc] at h
      obtain ⟨rfl, hcons⟩ := List.append_inj' h rfl
      cases hcons
      refine .inr ⟨hback l (by simp), front, l', back, rfl, hl', fun x hx => ?_⟩
      exact hback x (by simp [hx])
  · rintro (hl | ⟨hno, front, l', back, rfl, hl', hback⟩)
    · exact ⟨ls, l, [], rfl, hl, fun _ h => (List.not_mem_nil h).elim⟩
    · refine ⟨front, l', back ++ [l], by rw [List.append_assoc, List.cons_append], hl', ?_⟩
      intro x hx
      rcases List.mem_append.mp hx with hx | hx
      · exact hback x hx
      · exact List.mem_singleton.mp hx ▸ hno

theorem last_append_iff {ls' : List α} :
    Last P (ls ++ ls') k v
      ↔ Last P ls' k v ∨ (∀ l ∈ ls', ∀ w, ¬ P l k w) ∧ Last P ls k v := by
  induction ls' using List.reverseRecOn generalizing v with
  | nil =>
    rw [List.append_nil]
    refine ⟨fun h => .inr ⟨fun _ hl => (List.not_mem_nil hl).elim, h⟩, fun h => ?_⟩
    exact h.elim (fun h => absurd h not_last_nil) And.right
  | append_singleton ls' l ih =>
    rw [← List.append_assoc, last_concat_iff, last_concat_iff, ih]
    constructor
    · rintro (hl | ⟨hno, h | ⟨hno', h⟩⟩)
      · exact .inl (.inl hl)
      · exact .inl (.inr ⟨hno, h⟩)
      · refine .inr ⟨fun x hx => ?_, h⟩
        rcases List.mem_append.mp hx with hx | hx
        · exact hno' x hx
        · exact List.mem_singleton.mp hx ▸ hno
    · rintro ((hl | ⟨hno, h⟩) | ⟨hno, h⟩)
      · exact .inl hl
      · exact .inr ⟨hno, .inl h⟩
      · refine .inr ⟨hno l (List.mem_append_right _ List.mem_cons_self), .inr ⟨?_, h⟩⟩
        exact fun x hx => hno x (List.mem_append_left _ hx)

theorem exists_last (hl : l ∈ ls) (h : P l k v) : ∃ w, Last P ls k w := by
  induction ls using List.reverseRecOn with
  | nil => cases hl
  | append_singleton ls l' ih =>
    by_cases hno : ∃ w, P l' k w
    · obtain ⟨w, hw⟩ := hno
      exact ⟨w, last_concat_iff.mpr (.inl hw)⟩
    · have hno := not_exists.mp hno
      have hmem : l ∈ ls := by
        rcases List.mem_append.mp hl with hl | hl
        · exact hl
        · exact absurd (List.mem_singleton.mp hl ▸ h) (hno v)
      obtain ⟨w, hw⟩ := ih hmem
      exact ⟨w, last_concat_iff.mpr (.inr ⟨hno, hw⟩)⟩

theorem Last.mem (h : Last P ls k v) : ∃ l ∈ ls, P l k v := by
  obtain ⟨front, l, back, rfl, hl, -⟩ := h
  exact ⟨l, List.mem_append_right _ List.mem_cons_self, hl⟩

theorem Last.unique (hP : Functional P)
    (h : Last P ls k v) (h' : Last P ls k w) : v = w := by
  induction ls using List.reverseRecOn with
  | nil => exact absurd h not_last_nil
  | append_singleton ls l ih =>
    rcases last_concat_iff.mp h with hl | ⟨hno, h⟩
    · rcases last_concat_iff.mp h' with hl' | ⟨hno, -⟩
      · exact hP l k v w hl hl'
      · exact absurd hl (hno v)
    · rcases last_concat_iff.mp h' with hl' | ⟨-, h'⟩
      · exact absurd hl' (hno w)
      · exact ih h h'

/-- The value of a key after the items, `m` being the map before them. -/
def Left (P : α → κ → β → Prop) (ls : List α) (m : κ → Option β) (k : κ) (v : β) : Prop :=
  Last P ls k v ∨ (∀ l ∈ ls, ∀ w, ¬ P l k w) ∧ m k = some v

theorem left_empty_iff : Left P ls (fun _ => none) k v ↔ Last P ls k v :=
  ⟨fun h => h.resolve_right fun h => (by cases h.2), .inl⟩

theorem left_nil : Left P [] m k v ↔ m k = some v :=
  ⟨fun h => h.elim (fun h => absurd h not_last_nil) And.right,
    fun h => .inr ⟨fun _ hl => (List.not_mem_nil hl).elim, h⟩⟩

theorem left_concat_iff :
    Left P (ls ++ [l]) m k v ↔ P l k v ∨ (∀ w, ¬ P l k w) ∧ Left P ls m k v := by
  unfold Left
  rw [last_concat_iff, List.forall_mem_append, List.forall_mem_singleton]
  tauto

theorem Left.unique (hP : Functional P) (h : Left P ls m k v) (h' : Left P ls m k w) :
    v = w := by
  rcases h with h | ⟨hno, hm⟩
  · rcases h' with h' | ⟨hno, -⟩
    · exact h.unique hP h'
    · obtain ⟨l, hl, hp⟩ := h.mem
      exact absurd hp (hno l hl v)
  · rcases h' with h' | ⟨-, hm'⟩
    · obtain ⟨l, hl, hp⟩ := h'.mem
      exact absurd hp (hno l hl w)
    · exact Option.some.inj (hm.symm.trans hm')

/-- Some of the items count: what is left is what they leave iff this is so
of each last item of a key that does not count. -/
theorem left_iff_of_le (ls : List α) (hP : Functional P) (hQP : ∀ l k v, Q l k v → P l k v)
    (m : κ → Option β) :
    (∀ k v, Left P ls m k v ↔ Left Q ls m k v)
      ↔ ∀ front l back k v, ls = front ++ l :: back → P l k v → ¬ Q l k v →
        (∀ l' ∈ back, ∀ w, ¬ P l' k w) → Left Q ls m k v := by
  have hQ : Functional Q := fun l k v w h h' => hP l k v w (hQP l k v h) (hQP l k w h')
  constructor
  · intro h front l back k v hls hl _ hback
    exact (h k v).mp (.inl ⟨front, l, back, hls, hl, hback⟩)
  · intro h k v
    have hto : ∀ {v}, Left P ls m k v → Left Q ls m k v := by
      rintro v (⟨front, l, back, hls, hl, hback⟩ | ⟨hno, hm⟩)
      · by_cases hq : Q l k v
        · refine .inl ⟨front, l, back, hls, hq, fun l' hl' w hw => ?_⟩
          exact hback l' hl' w (hQP l' k w hw)
        · exact h front l back k v hls hl hq hback
      · exact .inr ⟨fun l hl w hw => hno l hl w (hQP l k w hw), hm⟩
    refine ⟨hto, fun hleft => ?_⟩
    by_cases hsome : ∃ l ∈ ls, ∃ w, P l k w
    · obtain ⟨l, hl, w, hp⟩ := hsome
      obtain ⟨w, hw⟩ := exists_last hl hp
      obtain rfl := hleft.unique hQ (hto (.inl hw))
      exact .inl hw
    · have hno : ∀ l ∈ ls, ∀ w, ¬ P l k w := fun l hl w hw => hsome ⟨l, hl, w, hw⟩
      rcases hleft with hlast | ⟨-, hm⟩
      · obtain ⟨l, hl, hq⟩ := hlast.mem
        exact absurd (hQP l k v hq) (hno l hl v)
      · exact .inr ⟨hno, hm⟩

end Last

section Assign

variable [DecidableEq κ]

/-- The items assigned one after the other, `f` being what each one gives. -/
def assignAll (f : α → Option (κ × β)) (m : κ → Option β) (ls : List α) : κ → Option β :=
  ls.foldl (fun m l => match f l with
    | none => m
    | some (k, v) => Function.update m k (some v)) m

theorem assignAll_concat (f : α → Option (κ × β)) (m : κ → Option β) (ls : List α) (l : α) :
    assignAll f m (ls ++ [l]) = match f l with
      | none => assignAll f m ls
      | some (k, v) => Function.update (assignAll f m ls) k (some v) :=
  List.foldl_append

theorem assignAll_eq_some_iff {f : α → Option (κ × β)} {m : κ → Option β} {ls : List α}
    {k : κ} {v : β} :
    assignAll f m ls k = some v ↔ Left (fun l k v => f l = some (k, v)) ls m k v := by
  induction ls using List.reverseRecOn generalizing v with
  | nil => exact left_nil.symm
  | append_singleton ls l ih =>
    rw [assignAll_concat, left_concat_iff, ← ih]
    cases hl : f l with
    | none =>
      refine ⟨fun h => .inr ⟨fun _ => nofun, h⟩, fun h => ?_⟩
      exact h.elim nofun And.right
    | some p =>
      obtain ⟨k', w⟩ := p
      dsimp only
      by_cases hk : k = k'
      · subst hk
        rw [Function.update_self]
        constructor
        · intro h
          cases h
          exact .inl rfl
        · rintro (h | ⟨hno, -⟩)
          · cases h
            rfl
          · exact absurd rfl (hno w)
      · rw [Function.update_of_ne hk]
        refine ⟨fun h => .inr ⟨fun u hu => hk ?_, h⟩, fun h => ?_⟩
        · cases hu
          rfl
        · rcases h with h | ⟨-, h⟩
          · cases h
            exact absurd rfl hk
          · exact h

end Assign

end LastWins
