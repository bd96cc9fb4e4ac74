/-
A singly linked FIFO queue with a pointer to each end: push in tail, pop
in head. The links are a field of the nodes, so that several queues live
in one `next` and keep out of each other's way as long as their nodes
differ.

`Holds next q l` says that the queue is the list `l`; a push appends
(`Holds.pushTail`), a pop takes the head (`Holds.popHead`), and a queue
does not notice writes to other nodes (`Holds.congr`).
-/
import Mathlib.Data.List.Basic

namespace XKaapi

open Function (update update_of_ne update_self)

/-- The two ends; both null when the queue is empty. -/
structure Fifo (ν : Type) where
  head : Option ν
  tail : Option ν
deriving DecidableEq, Repr

namespace Fifo

variable {ν : Type} [DecidableEq ν]

/-- Link a fresh node behind the tail. -/
def pushTail (next : ν → Option ν) (q : Fifo ν) (r : ν) : (ν → Option ν) × Fifo ν :=
  let next := update next r none
  match q.tail with
  | none => (next, ⟨some r, some r⟩)
  | some last => (update next last (some r), ⟨q.head, some r⟩)

/-- Unlink the head, if there is one. -/
def popHead (next : ν → Option ν) (q : Fifo ν) : Option (ν × Fifo ν) :=
  match q.head with
  | none => none
  | some r => some (r, ⟨next r, if q.tail = some r then none else q.tail⟩)

/-- The nodes are linked in this order, the last one to nothing. -/
def Links (next : ν → Option ν) : List ν → Prop
  | [] => True
  | [a] => next a = none
  | a :: b :: l => next a = some b ∧ Links next (b :: l)

/-- The queue is the list `l`. -/
structure Holds (next : ν → Option ν) (q : Fifo ν) (l : List ν) : Prop where
  head : q.head = l.head?
  tail : q.tail = l.getLast?
  links : Links next l

variable {next next' : ν → Option ν} {q : Fifo ν} {l : List ν} {a r : ν}

omit [DecidableEq ν] in
theorem Links.congr (h : Links next l)
    (heq : ∀ a ∈ l, next' a = next a) : Links next' l := by
  induction l with
  | nil => trivial
  | cons a l ih =>
    cases l with
    | nil => exact (heq a List.mem_cons_self).trans h
    | cons b l =>
      exact ⟨(heq a List.mem_cons_self).trans h.1,
        ih h.2 fun c hc => heq c (List.mem_cons_of_mem _ hc)⟩

omit [DecidableEq ν] in
theorem Holds.congr (h : Holds next q l) (heq : ∀ a ∈ l, next' a = next a) :
    Holds next' q l :=
  ⟨h.head, h.tail, h.links.congr heq⟩

omit [DecidableEq ν] in
theorem Links.head (h : Links next (a :: l)) : next a = l.head?
    ∧ Links next l := by
  cases l with
  | nil => exact ⟨h, trivial⟩
  | cons b l => exact h

theorem Links.push {last : ν} (h : Links next (l ++ [last])) (hl : last ∉ l)
    (hr : r ∉ l ++ [last]) :
    Links (update (update next r none) last (some r))
      (l ++ [last, r]) := by
  induction l with
  | nil =>
    have hne : r ≠ last := fun heq => hr (by simp [heq])
    refine ⟨update_self .., ?_⟩
    show update (update next r none) last (some r) r = none
    rw [update_of_ne hne, update_self]
  | cons a l ih =>
    have ha : a ≠ last := fun heq => hl (heq ▸ List.mem_cons_self)
    have har : a ≠ r := fun heq => hr (heq ▸ List.mem_cons_self)
    have ih' := ih (Links.head h).2 (fun hmem => hl (List.mem_cons_of_mem _ hmem))
      (fun hmem => hr (List.mem_cons_of_mem _ hmem))
    have hnext : update (update next r none) last (some r) a
      = next a := by
      rw [update_of_ne ha, update_of_ne har]
    cases l with
    | nil => exact ⟨hnext.trans (Links.head h).1, ih'⟩
    | cons b l => exact ⟨hnext.trans (Links.head h).1, ih'⟩

theorem Holds.pushTail (h : Holds next q l) (hnd : l.Nodup) (hr : r ∉ l) :
    Holds (Fifo.pushTail next q r).1 (Fifo.pushTail next q r).2 (l ++ [r]) := by
  unfold Fifo.pushTail
  rcases List.eq_nil_or_concat l with rfl | ⟨l', last, rfl⟩
  · rw [h.tail]
    exact ⟨rfl, rfl, update_self ..⟩
  · rw [List.concat_eq_append] at h hnd hr
    have hlast : last ∉ l' := fun hmem =>
      (List.nodup_append.mp hnd).2.2 last hmem last (List.mem_singleton_self _) rfl
    rw [h.tail, List.getLast?_append, List.getLast?_singleton, Option.some_or]
    refine ⟨?_, by simp, ?_⟩
    · show q.head = _
      rw [h.head]
      cases l' <;> rfl
    · simpa using h.links.push hlast hr

theorem pushTail_next (h : Holds next q l) (ha : a ∉ l) (har : a ≠ r) :
    (Fifo.pushTail next q r).1 a = next a := by
  unfold Fifo.pushTail
  cases htail : q.tail with
  | none => exact update_of_ne har _ _
  | some last =>
    have hmem : last ∈ l := by
      rw [h.tail] at htail
      exact List.mem_of_getLast? htail
    have hne : a ≠ last := fun heq => ha (heq ▸ hmem)
    show update (update next r none) last (some r) a = next a
    rw [update_of_ne hne, update_of_ne har]

theorem Holds.popHead (h : Holds next q (a :: l)) (hnd : (a :: l).Nodup) :
    ∃ q', Fifo.popHead next q = some (a, q') ∧ Holds next q' l := by
  have hlinks := Links.head h.links
  unfold Fifo.popHead
  rw [h.head]
  refine ⟨_, rfl, hlinks.1, ?_, hlinks.2⟩
  show (if q.tail = some a then none else q.tail) = l.getLast?
  rw [h.tail]
  cases l with
  | nil => exact if_pos rfl
  | cons b l =>
    have hne : (a :: b :: l).getLast? ≠ some a := by
      rw [List.getLast?_cons_cons]
      intro heq
      exact (List.nodup_cons.mp hnd).1 (List.mem_of_getLast? heq)
    rw [if_neg hne, List.getLast?_cons_cons]

theorem Holds.popHead_eq {q' : Fifo ν} (h : Holds next q l) (hnd : l.Nodup)
    (hpop : Fifo.popHead next q = some (a, q')) : ∃ l',
      l = a :: l' ∧ Holds next q' l' := by
  cases l with
  | nil =>
    unfold Fifo.popHead at hpop
    rw [h.head] at hpop
    cases hpop
  | cons b l =>
    rcases h.popHead hnd with ⟨q'', hq, hholds⟩
    rw [hq] at hpop
    cases hpop
    exact ⟨l, rfl, hholds⟩

end Fifo
end XKaapi
