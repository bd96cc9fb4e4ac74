/-
Occupation time: how long a level that events raise and lower has been
above zero.

An event has a date and a change of the level. `level l t` counts the events
of `l` up to the instant `t`, and `time l T` is the number of instants before
`T` at which the level is positive. `time_append` is the step of an account
kept event by event: between two events the level does not change.
-/
import Mathlib.Algebra.Ring.Int.Defs
import Mathlib.Order.Interval.Finset.Nat

namespace Occupation

variable {ε : Type*} (date : ε → Nat) (delta : ε → Int)

/-- The level at the instant `t`. -/
def level (l : List ε) (t : Nat) : Int :=
  ((l.filter fun e => date e ≤ t).map delta).sum

/-- The instants before `T` at which the level is positive. -/
def time (l : List ε) (T : Nat) : Nat :=
  ((Finset.range T).filter fun t => 0 < level date delta l t).card

variable {date delta} {l : List ε} {e : ε} {t T T' : Nat}

@[simp] theorem time_nil : time date delta [] T = 0 := by
  simp [time, level]

theorem level_append_of_lt (ht : t < date e) :
    level date delta (l ++ [e]) t = level date delta l t := by
  have hnot : ¬ date e ≤ t := Nat.not_le.mpr ht
  simp [level, List.filter_append, hnot]

theorem level_append_of_eq_zero (hz : delta e = 0) :
    level date delta (l ++ [e]) t = level date delta l t := by
  by_cases ht : date e ≤ t
  · simp [level, List.filter_append, ht, hz]
  · simp [level, List.filter_append, ht]

theorem level_eq_sum (h : ∀ e ∈ l, delta e ≠ 0 → date e ≤ t) :
    level date delta l t = (l.map delta).sum := by
  induction l with
  | nil => rfl
  | cons e l ih =>
    have hl := ih fun x hx => h x (List.mem_cons_of_mem e hx)
    unfold level at hl ⊢
    by_cases ht : date e ≤ t
    · rw [List.filter_cons_of_pos (by simpa using ht), List.map_cons, List.sum_cons, hl,
        List.map_cons, List.sum_cons]
    · have hz : delta e = 0 := by
        by_contra hne
        exact ht (h e List.mem_cons_self hne)
      rw [List.filter_cons_of_neg (by simpa using ht), hl, List.map_cons, List.sum_cons, hz,
        zero_add]

theorem time_congr {l' : List ε}
    (h : ∀ t < T, level date delta l t = level date delta l' t) :
    time date delta l T = time date delta l' T := by
  unfold time
  congr 1
  refine Finset.filter_congr fun t ht => ?_
  rw [h t (Finset.mem_range.mp ht)]

theorem time_append_of_eq_zero (hz : delta e = 0) :
    time date delta (l ++ [e]) T = time date delta l T :=
  time_congr fun _ _ => level_append_of_eq_zero hz

theorem time_extend {c : Int} (hle : T ≤ T')
    (h : ∀ t, T ≤ t → t < T' → level date delta l t = c) :
    time date delta l T' = time date delta l T + if 0 < c then T' - T else 0 := by
  have hsplit : (Finset.range T').filter (fun t => 0 < level date delta l t)
      = (Finset.range T).filter (fun t => 0 < level date delta l t)
        ∪ (Finset.Ico T T').filter fun _ => 0 < c := by
    ext t
    simp only [Finset.mem_filter, Finset.mem_range, Finset.mem_union, Finset.mem_Ico]
    by_cases ht : t < T
    · constructor
      · exact fun hp => .inl ⟨ht, hp.2⟩
      · rintro (hp | hp)
        · exact ⟨by omega, hp.2⟩
        · omega
    · constructor
      · intro hp
        rw [h t (by omega) hp.1] at hp
        exact .inr ⟨⟨by omega, hp.1⟩, hp.2⟩
      · rintro (hp | hp)
        · omega
        · rw [h t hp.1.1 hp.1.2]
          exact ⟨hp.1.2, hp.2⟩
  have hdisj : Disjoint ((Finset.range T).filter fun t => 0 < level date delta l t)
      ((Finset.Ico T T').filter fun _ => 0 < c) := by
    rw [Finset.disjoint_left]
    intro t hp hq
    have h₁ := Finset.mem_range.mp (Finset.mem_filter.mp hp).1
    have h₂ := Finset.mem_Ico.mp (Finset.mem_filter.mp hq).1
    omega
  unfold time
  rw [hsplit, Finset.card_union_of_disjoint hdisj]
  split
  · next hc => rw [Finset.filter_true_of_mem fun _ _ => hc, Nat.card_Ico]
  · next hc => rw [Finset.filter_false_of_mem fun _ _ => hc, Finset.card_empty]

theorem time_append (hlast : ∀ x ∈ l, delta x ≠ 0 → date x ≤ T) (hle : T ≤ date e) :
    time date delta (l ++ [e]) (date e)
      = time date delta l T + if 0 < (l.map delta).sum then date e - T else 0 := by
  have hbefore : time date delta (l ++ [e]) (date e) = time date delta l (date e) :=
    time_congr fun _ ht => level_append_of_lt ht
  rw [hbefore]
  refine time_extend hle fun t hTt _ => ?_
  exact level_eq_sum fun x hx hne => (hlast x hx hne).trans hTt

end Occupation
