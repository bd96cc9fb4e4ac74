/-
Intrusive doubly linked lists: nodes of a heap that carry their own
links, and the two ends of a list kept outside of it.

The operations read and write the heap the way pointer code does, one
link at a time, and answer `none` on a dangling pointer. `IsList h e l`
says that the links from the ends `e` thread exactly the nodes of `l`, in
that order; under it each operation is the one on `l`, keeps the values
of all nodes and touches no node outside of the list.

- `insertLast_spec`, `insertFirst_spec`: a node more at either end.
- `unlink_spec`, `bypass_spec`: taking a node out, at any position.
- `unlink_of_links`, `unlink_of_prev_none`: taking a node out of a list
  that it is not in.
-/
import Mathlib.Data.List.Nodup

namespace LinkedList

open Function (update update_of_ne update_self)

/-- A node: what it holds, and its two links. -/
structure Node (ι α : Type) where
  val : α
  next : Option ι
  prev : Option ι
deriving DecidableEq, Repr

/-- The nodes that are allocated. -/
abbrev Heap (ι α : Type) := ι → Option (Node ι α)

/-- The two ends of a list, both null when it is empty. -/
structure Ends (ι : Type) where
  beg : Option ι
  last : Option ι
deriving DecidableEq, Repr

variable {ι α : Type}

-- ======== operations

section operations

variable [DecidableEq ι]

/-- `i->next = x` -/
def setNext (h : Heap ι α) (i : ι) (x : Option ι) : Option (Heap ι α) :=
  (h i).map fun n => update h i (some { n with next := x })

/-- `i->prev = x` -/
def setPrev (h : Heap ι α) (i : ι) (x : Option ι) : Option (Heap ι α) :=
  (h i).map fun n => update h i (some { n with prev := x })

/-- The value of a node changes, its links do not. -/
def setVal (h : Heap ι α) (i : ι) (v : α) : Option (Heap ι α) :=
  (h i).map fun n => update h i (some { n with val := v })

/-- Append the node `b`. -/
def insertLast (h : Heap ι α) (e : Ends ι) (b : ι) :
    Option (Heap ι α × Ends ι) :=
  match e.beg with
  | none => do
      let h ← setPrev h b none
      let h ← setNext h b none
      return (h, ⟨some b, some b⟩)
  | some a => do
      let h ← setPrev h b e.last
      let z ← e.last
      let h ← setNext h z (some b)
      let h ← setNext h b none
      return (h, ⟨some a, some b⟩)

/-- The front half of `unlink`: the link into `b` from before. -/
def unlinkFront (h : Heap ι α) (e : Ends ι) (n : Node ι α) :
    Option (Heap ι α × Ends ι) :=
  match n.prev, n.next with
  | none, none => some (h, { e with beg := none })
  | none, some c => do
      let h ← setPrev h c none
      return (h, { e with beg := some c })
  | some a, x => do
      let h ← setNext h a x
      return (h, e)

/-- The back half: the link into `b` from behind. -/
def unlinkBack (h : Heap ι α) (e : Ends ι) (n : Node ι α) :
    Option (Heap ι α × Ends ι) :=
  match n.next, n.prev with
  | none, none => some (h, { e with last := none })
  | none, some a => do
      let h ← setNext h a none
      return (h, { e with last := some a })
  | some c, x => do
      let h ← setPrev h c x
      return (h, e)

/-- Take the node `b` out of the list. Its own links stay. -/
def unlink (h : Heap ι α) (e : Ends ι) (b : ι) :
    Option (Heap ι α × Ends ι) := do
  let n ← h b
  let (h, e) ← unlinkFront h e n
  let n ← h b
  unlinkBack h e n

/-- Link the node `b` before the first one. -/
def insertFirst (h : Heap ι α) (e : Ends ι) (b : ι) :
    Option (Heap ι α × Ends ι) := do
  let h ← setPrev h b none
  let h ← setNext h b e.beg
  match e.beg with
  | none => some (h, ⟨some b, some b⟩)
  | some a => (setPrev h a (some b)).map fun h => (h, ⟨some b, e.last⟩)

/-- `next->prev = prev`, or the last end. -/
def bypassNext (h : Heap ι α) (e : Ends ι) (n : Node ι α) :
    Option (Heap ι α × Ends ι) :=
  match n.next with
  | some c => (setPrev h c n.prev).map fun h => (h, e)
  | none => some (h, { e with last := n.prev })

/-- `prev->next = next`, or the first end. -/
def bypassPrev (h : Heap ι α) (e : Ends ι) (n : Node ι α) :
    Option (Heap ι α × Ends ι) :=
  match n.prev with
  | some a => (setNext h a n.next).map fun h => (h, e)
  | none => some (h, { e with beg := n.next })

/-- Lead the links around the node `b`. Its own links stay. -/
def bypass (h : Heap ι α) (e : Ends ι) (b : ι) :
    Option (Heap ι α × Ends ι) := do
  let n ← h b
  let (h, e) ← bypassNext h e n
  let n ← h b
  bypassPrev h e n

end operations

-- ======== segments

/-- The nodes of `l` are linked in that order, the first one to `p` and
the last one to `x`. -/
def Seg (h : Heap ι α) : Option ι → List ι → Option ι → Prop
  | _, [], _ => True
  | p, b :: l, x =>
    (∃ n, h b = some n ∧ n.prev = p ∧ n.next = l.head?.or x)
      ∧ Seg h (some b) l x

/-- The ends `e` delimit the list `l`. -/
structure IsList (h : Heap ι α) (e : Ends ι) (l : List ι) : Prop where
  nodup : l.Nodup
  beg : e.beg = l.head?
  last : e.last = l.getLast?
  seg : Seg h none l none

/-- The two heaps have the same nodes, with the same values. -/
def SameVals (h h' : Heap ι α) : Prop :=
  ∀ i, (h' i).map Node.val = (h i).map Node.val

/-- The two heaps agree outside `l`. -/
def AgreeOff (l : List ι) (h h' : Heap ι α) : Prop :=
  ∀ i, i ∉ l → h' i = h i

section seg

variable {h h' : Heap ι α} {p x : Option ι} {l l₁ l₂ : List ι} {b : ι}

theorem Seg.congr (hs : Seg h p l x) (heq : ∀ i ∈ l, h' i = h i) :
    Seg h' p l x := by
  induction l generalizing p with
  | nil => trivial
  | cons b l ih =>
    obtain ⟨⟨n, hn, hlinks⟩, hs⟩ := hs
    refine ⟨⟨n, ?_, hlinks⟩, ih hs fun i hi => ?_⟩
    · rw [heq b List.mem_cons_self, hn]
    · exact heq i (List.mem_cons_of_mem b hi)

/-- A segment in two parts. -/
theorem seg_append :
    Seg h p (l₁ ++ l₂) x
      ↔ Seg h p l₁ (l₂.head?.or x) ∧ Seg h (l₁.getLast?.or p) l₂ x := by
  induction l₁ generalizing p with
  | nil => simp [Seg]
  | cons b l ih =>
    have hhead : (l ++ l₂).head?.or x = l.head?.or (l₂.head?.or x) := by
      cases l <;> simp
    have hlast : (b :: l).getLast?.or p = l.getLast?.or (some b) := by
      rw [List.getLast?_cons]
      cases l.getLast? <;> rfl
    simp only [List.cons_append, Seg]
    rw [ih, hhead, hlast, and_assoc]

/-- The links of a node of a segment. -/
theorem Seg.node (hs : Seg h p (l₁ ++ b :: l₂) x) :
    ∃ n, h b = some n ∧ n.prev = l₁.getLast?.or p
      ∧ n.next = l₂.head?.or x :=
  (seg_append.mp hs).2.1

theorem Seg.isSome (hs : Seg h p l x) (hb : b ∈ l) : (h b).isSome := by
  obtain ⟨l₁, l₂, rfl⟩ := List.append_of_mem hb
  obtain ⟨n, hn, -⟩ := hs.node
  rw [hn]
  rfl

variable [DecidableEq ι]

/-- The link backwards of the first node. -/
theorem Seg.setPrev {c : ι} (hs : Seg h p (c :: l) x) (hc : c ∉ l)
    (q : Option ι) :
    ∃ h', setPrev h c q = some h' ∧ Seg h' q (c :: l) x
      ∧ SameVals h h' ∧ AgreeOff [c] h h' := by
  obtain ⟨⟨n, hn, hp, hx⟩, hs⟩ := hs
  refine ⟨update h c (some { n with prev := q }), ?_, ?_, ?_, ?_⟩
  · unfold LinkedList.setPrev
    rw [hn]
    rfl
  · refine ⟨⟨_, update_self .., rfl, hx⟩, hs.congr fun i hi => ?_⟩
    exact update_of_ne (ne_of_mem_of_not_mem hi hc) ..
  · intro i
    by_cases hi : i = c
    · rw [hi, update_self, hn]
      rfl
    · rw [update_of_ne hi]
  · intro i hi
    exact update_of_ne (fun hic => hi (by simp [hic])) ..

/-- The link forwards of the last node. -/
theorem Seg.setNext {a : ι} (hs : Seg h p (l ++ [a]) x) (ha : a ∉ l)
    (y : Option ι) :
    ∃ h', setNext h a y = some h' ∧ Seg h' p (l ++ [a]) y
      ∧ SameVals h h' ∧ AgreeOff [a] h h' := by
  obtain ⟨hl, ⟨n, hn, hp, -⟩, -⟩ := seg_append.mp hs
  refine ⟨update h a (some { n with next := y }), ?_, ?_, ?_, ?_⟩
  · unfold LinkedList.setNext
    rw [hn]
    rfl
  · refine seg_append.mpr ⟨?_, ⟨_, update_self .., hp, rfl⟩,
      trivial⟩
    refine Seg.congr hl fun i hi => ?_
    exact update_of_ne (ne_of_mem_of_not_mem hi ha) ..
  · intro i
    by_cases hi : i = a
    · rw [hi, update_self, hn]
      rfl
    · rw [update_of_ne hi]
  · intro i hi
    exact update_of_ne (fun hia => hi (by simp [hia])) ..

end seg

-- ======== specs

section specs

variable {h h' : Heap ι α} {e : Ends ι} {l l₁ l₂ : List ι} {b : ι} {n : Node ι α}
  {l' : List ι} {e' : Ends ι}

theorem SameVals.refl (h : Heap ι α) : SameVals h h := fun _ => rfl

theorem SameVals.trans {h₁ h₂ h₃ : Heap ι α} (h₁₂ : SameVals h₁ h₂)
    (h₂₃ : SameVals h₂ h₃) : SameVals h₁ h₃ :=
  fun i => (h₂₃ i).trans (h₁₂ i)

/-- What holds of a value holds of it afterwards. -/
theorem SameVals.exists_iff (hv : SameVals h h') (i : ι) (P : α → Prop) :
    (∃ n, h' i = some n ∧ P n.val) ↔ ∃ n, h i = some n ∧ P n.val := by
  have hi := hv i
  cases hn : h i with
  | none =>
    rw [hn, Option.map_none, Option.map_eq_none_iff] at hi
    simp [hi]
  | some n =>
    rw [hn, Option.map_some, Option.map_eq_some_iff] at hi
    obtain ⟨n', hn', hval⟩ := hi
    simp [hn', hval]

theorem SameVals.isSome_eq (hv : SameVals h h') (i : ι) :
    (h' i).isSome = (h i).isSome := by
  rw [← Option.isSome_map (f := Node.val), hv i, Option.isSome_map]

theorem AgreeOff.mono (ha : AgreeOff l₁ h h') (hl : ∀ i ∈ l₁, i ∈ l₂) :
    AgreeOff l₂ h h' :=
  fun i hi => ha i fun hm => hi (hl i hm)

theorem AgreeOff.trans {h₁ h₂ h₃ : Heap ι α} (h₁₂ : AgreeOff l h₁ h₂)
    (h₂₃ : AgreeOff l h₂ h₃) : AgreeOff l h₁ h₃ :=
  fun i hi => (h₂₃ i hi).trans (h₁₂ i hi)

theorem isList_nil (h : Heap ι α) : IsList h ⟨none, none⟩ [] :=
  ⟨List.nodup_nil, rfl, rfl, trivial⟩

/-- A list depends on its nodes only. -/
theorem IsList.congr (hl : IsList h e l) (heq : ∀ i ∈ l, h' i = h i) :
    IsList h' e l :=
  ⟨hl.nodup, hl.beg, hl.last, hl.seg.congr heq⟩

/-- A write of a value keeps the list. -/
theorem IsList.setVal [DecidableEq ι] (hl : IsList h e l) {v : α} (hn : h b = some n) :
    IsList (update h b (some { n with val := v })) e l := by
  refine ⟨hl.nodup, hl.beg, hl.last, ?_⟩
  have : ∀ p, Seg h p l none →
      Seg (update h b (some { n with val := v })) p l none := by
    intro p hs
    clear hl
    induction l generalizing p with
    | nil => trivial
    | cons c l ih =>
      obtain ⟨⟨m, hm, hlinks⟩, hs⟩ := hs
      refine ⟨?_, ih _ hs⟩
      by_cases hcb : c = b
      · rw [hcb, hn] at hm
        rw [hcb, update_self]
        refine ⟨_, rfl, ?_⟩
        rw [Option.some.inj hm]
        exact hlinks
      · rw [update_of_ne hcb]
        exact ⟨m, hm, hlinks⟩
  exact this none hl.seg

/-- The links of a node of the list. -/
theorem IsList.node (hl : IsList h e (l₁ ++ b :: l₂)) :
    ∃ n, h b = some n ∧ n.prev = l₁.getLast? ∧ n.next = l₂.head? := by
  obtain ⟨n, hn, hp, hx⟩ := hl.seg.node
  exact ⟨n, hn, by rw [hp, Option.or_none], by rw [hx, Option.or_none]⟩

/-- The nodes from one on, as the forward links give them. -/
def walk (h : Heap ι α) : Nat → Option ι → Option (List ι)
  | _, none => some []
  | 0, some _ => none
  | fuel + 1, some b => do
      let n ← h b
      let l ← walk h fuel n.next
      return b :: l

/-- A walk along the links reads the segment. -/
theorem Seg.walk {p : Option ι} (hs : Seg h p l none) {fuel : Nat}
    (hw : walk h fuel l.head? = some l') : l' = l := by
  induction l generalizing p fuel l' with
  | nil =>
    cases fuel <;> exact (Option.some.inj hw).symm
  | cons b l ih =>
    obtain ⟨⟨n, hn, -, hx⟩, hs⟩ := hs
    rw [Option.or_none] at hx
    cases fuel with
    | zero => cases hw
    | succ fuel =>
      simp only [List.head?_cons, LinkedList.walk, hn, hx,
        Option.bind_eq_bind, Option.bind_some,
        Option.bind_eq_some_iff] at hw
      obtain ⟨l₁, hl₁, heq⟩ := hw
      rw [ih hs hl₁] at heq
      exact (Option.some.inj heq).symm

theorem Seg.exists_walk {p : Option ι} (hs : Seg h p l none) :
    LinkedList.walk h l.length l.head? = some l := by
  induction l generalizing p with
  | nil => rfl
  | cons b l ih =>
    obtain ⟨⟨n, hn, -, hx⟩, hs⟩ := hs
    rw [Option.or_none] at hx
    simp only [List.length_cons, List.head?_cons, LinkedList.walk, hn, hx,
      Option.bind_eq_bind, Option.bind_some, ih hs]
    rfl

/-- A walk reads the list. -/
theorem IsList.walk (hl : IsList h e l) {fuel : Nat}
    (hw : LinkedList.walk h fuel e.beg = some l') : l' = l := by
  rw [hl.beg] at hw
  exact hl.seg.walk hw

/-- The links determine the list. -/
theorem IsList.unique (hl : IsList h e l) (hl' : IsList h e l') : l' = l := by
  have hw := hl'.seg.exists_walk
  rw [← hl'.beg] at hw
  exact hl.walk hw

variable [DecidableEq ι]

/-- A node is put last. -/
theorem insertLast_spec (hl : IsList h e l) (hb : b ∉ l)
    (halloc : (h b).isSome) :
    ∃ h' e', insertLast h e b = some (h', e') ∧ IsList h' e' (l ++ [b])
      ∧ SameVals h h' ∧ AgreeOff (l ++ [b]) h h' := by
  obtain ⟨n, hn⟩ := Option.isSome_iff_exists.mp halloc
  have hself : Seg h n.prev [b] n.next := ⟨⟨n, hn, rfl, rfl⟩, trivial⟩
  have hnd : (l ++ [b]).Nodup :=
    List.nodup_append.mpr ⟨hl.nodup, List.nodup_singleton b,
      fun i hi j hj hij => hb (by
        rw [List.mem_singleton] at hj
        rwa [hij, hj] at hi)⟩
  unfold insertLast
  rcases List.eq_nil_or_concat l with rfl | ⟨l', z, rfl⟩
  · obtain ⟨h₁, hr₁, hs₁, hv₁, ha₁⟩ := hself.setPrev (by simp) none
    obtain ⟨h₂, hr₂, hs₂, hv₂, ha₂⟩ := Seg.setNext (l := []) hs₁ (by simp) none
    refine ⟨h₂, ⟨some b, some b⟩, ?_, ⟨hnd, rfl, rfl, hs₂⟩, hv₁.trans hv₂,
      ha₁.trans ha₂⟩
    have hbeg : e.beg = none := hl.beg
    simp only [hbeg, hr₁, hr₂, Option.bind_eq_bind, Option.bind_some]
    rfl
  · rw [List.concat_eq_append] at *
    have hbz : b ≠ z := fun hbz => hb (by simp [hbz])
    have hz : z ∉ l' := fun hz =>
      (List.nodup_append.mp hl.nodup).2.2 z hz z (by simp) rfl
    have hlast : e.last = some z := by simp [hl.last]
    obtain ⟨a, hbeg⟩ : ∃ a, e.beg = some a := by
      rw [hl.beg]
      cases l' with
      | nil => exact ⟨z, rfl⟩
      | cons a l' => exact ⟨a, rfl⟩
    -- first the links of the new node, then the one into it
    obtain ⟨h₁, hr₁, hs₁, hv₁, ha₁⟩ := hself.setPrev (by simp) e.last
    have hl₁ : Seg h₁ none (l' ++ [z]) none :=
      hl.seg.congr fun i hi => ha₁ i fun hib => hb (by
        rw [List.mem_singleton] at hib
        rwa [hib] at hi)
    obtain ⟨h₂, hr₂, hs₂, hv₂, ha₂⟩ := hl₁.setNext hz (some b)
    have hb₂ : Seg h₂ e.last [b] n.next :=
      hs₁.congr fun i hi => ha₂ i fun hiz => hbz (by
        rw [List.mem_singleton] at hi hiz
        rw [← hi, hiz])
    obtain ⟨h₃, hr₃, hs₃, hv₃, ha₃⟩ := Seg.setNext (l := []) hb₂ (by simp) none
    have hl₃ : Seg h₃ none (l' ++ [z]) (some b) :=
      hs₂.congr fun i hi => ha₃ i fun hib => hb (by
        rw [List.mem_singleton] at hib
        rwa [hib] at hi)
    refine ⟨h₃, ⟨some a, some b⟩, ?_, ⟨hnd, ?_, ?_, ?_⟩,
      (hv₁.trans hv₂).trans hv₃, ?_⟩
    · rw [hlast] at hr₁
      simp only [hbeg, hlast, hr₁, hr₂, hr₃, Option.bind_eq_bind,
        Option.bind_some]
      rfl
    · rw [← hbeg, hl.beg]
      cases l' <;> simp
    · simp
    · refine seg_append.mpr ⟨hl₃, ?_⟩
      rw [Option.or_none, ← hl.last]
      exact hs₃
    · refine AgreeOff.trans (AgreeOff.trans (ha₁.mono ?_) (ha₂.mono ?_))
        (ha₃.mono ?_)
      · simp
      · simp
      · simp

/-- A node is put first. -/
theorem insertFirst_spec (hl : IsList h e l) (hb : b ∉ l)
    (halloc : (h b).isSome) :
    ∃ h' e', insertFirst h e b = some (h', e') ∧ IsList h' e' (b :: l)
      ∧ SameVals h h' ∧ AgreeOff (b :: l) h h' := by
  obtain ⟨n, hn⟩ := Option.isSome_iff_exists.mp halloc
  have hself : Seg h n.prev [b] n.next := ⟨⟨n, hn, rfl, rfl⟩, trivial⟩
  have hnd : (b :: l).Nodup := List.nodup_cons.mpr ⟨hb, hl.nodup⟩
  obtain ⟨h₁, hr₁, hs₁, hv₁, ha₁⟩ := hself.setPrev (by simp) none
  obtain ⟨h₂, hr₂, hs₂, hv₂, ha₂⟩ := Seg.setNext (l := []) hs₁ (by simp) e.beg
  have hl₂ : Seg h₂ none l none := by
    refine hl.seg.congr fun i hi => (ha₁.trans ha₂) i fun hib => hb ?_
    rw [List.mem_singleton] at hib
    exact hib ▸ hi
  unfold insertFirst
  simp only [hr₁, hr₂, Option.bind_eq_bind, Option.bind_some]
  have hbeg := hl.beg
  cases l with
  | nil =>
    have hnone : e.beg = none := hbeg
    rw [hnone] at hs₂ ⊢
    exact ⟨h₂, _, rfl, ⟨hnd, rfl, rfl, hs₂⟩, hv₁.trans hv₂, ha₁.trans ha₂⟩
  | cons a l =>
    have hsome : e.beg = some a := hbeg
    have hne : b ≠ a := fun heq => hb (heq ▸ List.mem_cons_self)
    obtain ⟨h₃, hr₃, hs₃, hv₃, ha₃⟩ :=
      hl₂.setPrev (List.nodup_cons.mp hl.nodup).1 (some b)
    have hself₃ : Seg h₃ none [b] e.beg := by
      refine hs₂.congr fun i hi => ha₃ i fun hia => hne ?_
      simp only [List.nil_append, List.mem_singleton] at hi hia
      exact hi.symm.trans hia
    rw [hsome] at hself₃ ⊢
    dsimp only
    rw [hr₃]
    refine ⟨h₃, _, rfl, ⟨hnd, rfl, ?_, hself₃.1, hs₃⟩,
      (hv₁.trans hv₂).trans hv₃, ?_⟩
    · show e.last = _
      rw [hl.last, List.getLast?_cons_cons]
    · refine ((ha₁.trans ha₂).mono ?_).trans (ha₃.mono ?_)
      · simp
      · simp

/-- A node is passed by its neighbours. -/
theorem bypass_spec (hl : IsList h e (l₁ ++ b :: l₂)) :
    ∃ h' e', bypass h e b = some (h', e') ∧ IsList h' e' (l₁ ++ l₂)
      ∧ SameVals h h' ∧ AgreeOff (l₁ ++ l₂) h h' := by
  obtain ⟨n, hn, hp, hx⟩ := hl.node
  obtain ⟨hb, hnd⟩ : b ∉ l₁ ++ l₂ ∧ (l₁ ++ l₂).Nodup :=
    List.nodup_cons.mp ((List.perm_middle.nodup_iff).mp hl.nodup)
  obtain ⟨hs₁, -, hs₂⟩ := seg_append.mp hl.seg
  obtain ⟨hnd₁, hnd₂, hdisj⟩ := List.nodup_append.mp hnd
  -- the next node, or the last end
  obtain ⟨h₁, e₁, hr₁, hbeg₁, hlast₁, ht₁, ht₂, hv₁, ha₁⟩ :
      ∃ h₁ e₁, bypassNext h e n = some (h₁, e₁) ∧ e₁.beg = e.beg
        ∧ e₁.last = (l₁ ++ l₂).getLast? ∧ Seg h₁ none l₁ (some b)
        ∧ Seg h₁ l₁.getLast? l₂ none ∧ SameVals h h₁ ∧ AgreeOff l₂ h h₁ := by
    unfold bypassNext
    rw [hx, hp]
    cases l₂ with
    | nil =>
      refine ⟨h, { e with last := l₁.getLast? }, rfl, rfl, ?_, hs₁, trivial,
        SameVals.refl h, fun _ _ => rfl⟩
      rw [List.append_nil]
    | cons c l₂ =>
      obtain ⟨h₁, hr, hs, hv, ha⟩ :=
        hs₂.setPrev (List.nodup_cons.mp hnd₂).1 l₁.getLast?
      refine ⟨h₁, e, ?_, rfl, ?_, ?_, hs, hv, ha.mono (by simp)⟩
      · show (LinkedList.setPrev h c _).map _ = _
        rw [hr]
        rfl
      · rw [hl.last]
        simp [List.getLast?_append, List.getLast?_cons]
      · refine Seg.congr hs₁ fun i hi => ha i fun hic => ?_
        exact hdisj i hi c List.mem_cons_self (List.mem_singleton.mp hic)
  -- the previous one, or the first end
  obtain ⟨h₂, e₂, hr₂, hbeg₂, hlast₂, ht₁', ht₂', hv₂, ha₂⟩ :
      ∃ h₂ e₂, bypassPrev h₁ e₁ n = some (h₂, e₂)
        ∧ e₂.beg = (l₁ ++ l₂).head? ∧ e₂.last = e₁.last
        ∧ Seg h₂ none l₁ l₂.head? ∧ Seg h₂ l₁.getLast? l₂ none
        ∧ SameVals h₁ h₂ ∧ AgreeOff l₁ h₁ h₂ := by
    unfold bypassPrev
    rw [hx, hp]
    rcases List.eq_nil_or_concat l₁ with rfl | ⟨l₁, a, rfl⟩
    · exact ⟨h₁, { e₁ with beg := l₂.head? }, rfl, rfl, rfl, trivial, ht₂,
        SameVals.refl h₁, fun _ _ => rfl⟩
    · rw [List.concat_eq_append] at *
      have ha : a ∉ l₁ := fun ha =>
        (List.nodup_append.mp hnd₁).2.2 a ha a (by simp) rfl
      obtain ⟨h₂, hr, hs, hv, hagree⟩ := ht₁.setNext ha l₂.head?
      refine ⟨h₂, e₁, ?_, ?_, rfl, hs, ?_, hv, hagree.mono (by simp)⟩
      · rw [List.getLast?_concat]
        show (LinkedList.setNext h₁ a _).map _ = _
        rw [hr]
        rfl
      · rw [hbeg₁, hl.beg]
        cases l₁ <;> simp
      · refine ht₂.congr fun i hi => hagree i fun hia => ?_
        exact hdisj a (by simp) i hi (List.mem_singleton.mp hia).symm
  have hn₁ : h₁ b = some n := (ha₁ b fun hmem =>
    hb (List.mem_append_right _ hmem)).trans hn
  refine ⟨h₂, e₂, ?_, ⟨hnd, hbeg₂, hlast₂.trans hlast₁,
    seg_append.mpr ⟨?_, ?_⟩⟩, hv₁.trans hv₂, ?_⟩
  · unfold bypass
    simp only [hn, hr₁, hn₁, hr₂, Option.bind_eq_bind, Option.bind_some]
  · rwa [Option.or_none]
  · rwa [Option.or_none]
  · refine (ha₁.mono fun i hi => ?_).trans (ha₂.mono fun i hi => ?_)
    · exact List.mem_append_right _ hi
    · exact List.mem_append_left _ hi

/-- After the front half, the list goes around `b` forwards. -/
theorem unlinkFront_spec (hl : IsList h e (l₁ ++ b :: l₂)) (hp : n.prev = l₁.getLast?)
    (hx : n.next = l₂.head?) :
    ∃ h', unlinkFront h e n = some (h', { e with beg := (l₁ ++ l₂).head? })
      ∧ Seg h' none l₁ l₂.head?
      ∧ Seg h' (if l₁ = [] then none else some b) l₂ none
      ∧ SameVals h h' ∧ AgreeOff (l₁ ++ l₂) h h' := by
  obtain ⟨hs₁, -, hs₂⟩ := seg_append.mp hl.seg
  obtain ⟨hnd₁, hnd₂, hdisj⟩ := List.nodup_append.mp hl.nodup
  unfold unlinkFront
  rcases List.eq_nil_or_concat l₁ with rfl | ⟨l₁, a, rfl⟩
  · cases l₂ with
    | nil =>
      rw [show n.prev = none from hp, show n.next = none from hx]
      exact ⟨h, rfl, trivial, trivial, SameVals.refl h, fun _ _ => rfl⟩
    | cons c l₂ =>
      rw [show n.prev = none from hp, show n.next = some c from hx]
      have hc : c ∉ l₂ := (List.nodup_cons.mp (List.nodup_cons.mp hnd₂).2).1
      obtain ⟨h', hr, hs, hv, ha⟩ := hs₂.setPrev hc none
      refine ⟨h', ?_, trivial, hs, hv, ha.mono (by simp)⟩
      simp only [hr, Option.bind_eq_bind, Option.bind_some]
      rfl
  · rw [List.concat_eq_append] at *
    have ha : a ∉ l₁ := fun ha =>
      (List.nodup_append.mp hnd₁).2.2 a ha a (by simp) rfl
    have hprev : n.prev = some a := by simp [hp]
    rw [hprev]
    obtain ⟨h', hr, hs, hv, hagree⟩ := hs₁.setNext ha n.next
    refine ⟨h', ?_, ?_, ?_, hv, hagree.mono (by simp)⟩
    · simp only [hr, Option.bind_eq_bind, Option.bind_some]
      have hbeg : e.beg = (l₁ ++ [a] ++ l₂).head? := by
        rw [hl.beg]
        cases l₁ <;> simp
      rw [← hbeg]
      rfl
    · rwa [hx] at hs
    · rw [if_neg (by simp)]
      refine hs₂.congr fun i hi => hagree i fun hia => ?_
      rw [List.mem_singleton] at hia
      exact hdisj a (by simp) i (List.mem_cons_of_mem b hi) hia.symm

/-- After the back half, it also does backwards. -/
theorem unlinkBack_spec {q : Option ι} (hnd : (l₁ ++ l₂).Nodup)
    (hs₁ : Seg h none l₁ l₂.head?) (hs₂ : Seg h q l₂ none)
    (hlast : l₂ ≠ [] → e.last = l₂.getLast?) (hp : n.prev = l₁.getLast?)
    (hx : n.next = l₂.head?) :
    ∃ h', unlinkBack h e n = some (h', { e with last := (l₁ ++ l₂).getLast? })
      ∧ Seg h' none l₁ l₂.head? ∧ Seg h' l₁.getLast? l₂ none
      ∧ SameVals h h' ∧ AgreeOff (l₁ ++ l₂) h h' := by
  obtain ⟨hnd₁, hnd₂, hdisj⟩ := List.nodup_append.mp hnd
  unfold unlinkBack
  cases l₂ with
  | nil =>
    rw [show n.next = none from hx]
    rcases List.eq_nil_or_concat l₁ with rfl | ⟨l₁, a, rfl⟩
    · rw [show n.prev = none from hp]
      exact ⟨h, rfl, trivial, trivial, SameVals.refl h, fun _ _ => rfl⟩
    · rw [List.concat_eq_append] at *
      have ha : a ∉ l₁ := fun ha =>
        (List.nodup_append.mp hnd₁).2.2 a ha a (by simp) rfl
      have hprev : n.prev = some a := by simp [hp]
      rw [hprev]
      obtain ⟨h', hr, hs, hv, hagree⟩ := hs₁.setNext ha none
      refine ⟨h', ?_, hs, trivial, hv, hagree.mono (by simp)⟩
      simp only [hr, Option.bind_eq_bind, Option.bind_some]
      rw [List.append_nil, List.getLast?_concat]
      rfl
  | cons c l₂ =>
    rw [show n.next = some c from hx]
    have hc : c ∉ l₂ := (List.nodup_cons.mp hnd₂).1
    obtain ⟨h', hr, hs, hv, hagree⟩ := hs₂.setPrev hc n.prev
    refine ⟨h', ?_, ?_, ?_, hv, hagree.mono (by simp)⟩
    · simp only [hr, Option.bind_eq_bind, Option.bind_some]
      have hend : e.last = (l₁ ++ c :: l₂).getLast? := by
        rw [hlast (by simp)]
        simp [List.getLast?_append, List.getLast?_cons]
      rw [← hend]
      rfl
    · refine hs₁.congr fun i hi => hagree i fun hic => ?_
      rw [List.mem_singleton] at hic
      exact hdisj i hi c (by simp) hic
    · rwa [hp] at hs

/-- A node is taken out. -/
theorem unlink_spec (hl : IsList h e (l₁ ++ b :: l₂)) :
    ∃ h' e', unlink h e b = some (h', e') ∧ IsList h' e' (l₁ ++ l₂)
      ∧ SameVals h h' ∧ AgreeOff (l₁ ++ l₂) h h' := by
  obtain ⟨n, hn, hp, hx⟩ := hl.node
  obtain ⟨hb, hnd⟩ : b ∉ l₁ ++ l₂ ∧ (l₁ ++ l₂).Nodup := by
    have := (List.perm_middle.nodup_iff).mp hl.nodup
    exact List.nodup_cons.mp this
  obtain ⟨h₁, hr₁, hs₁, hs₂, hv₁, ha₁⟩ := unlinkFront_spec hl hp hx
  have hlast : l₂ ≠ [] → e.last = l₂.getLast? := by
    intro hne
    rw [hl.last]
    cases l₂ with
    | nil => exact absurd rfl hne
    | cons c l₂ => simp [List.getLast?_append, List.getLast?_cons]
  obtain ⟨h₂, hr₂, ht₁, ht₂, hv₂, ha₂⟩ :=
    unlinkBack_spec (e := { e with beg := (l₁ ++ l₂).head? }) hnd hs₁ hs₂
      hlast hp hx
  refine ⟨h₂, ⟨(l₁ ++ l₂).head?, (l₁ ++ l₂).getLast?⟩, ?_,
    ⟨hnd, rfl, rfl, seg_append.mpr ⟨by rwa [Option.or_none], ?_⟩⟩,
    hv₁.trans hv₂, ha₁.trans ha₂⟩
  · have hn₁ : h₁ b = some n := (ha₁ b hb).trans hn
    unfold unlink
    simp only [hn, hr₁, hn₁, hr₂, Option.bind_eq_bind, Option.bind_some]
  · rwa [Option.or_none]

/-- A node with two neighbours is taken out without a look at the ends. -/
theorem unlink_of_links {a c : ι} (hn : h b = some n) (hp : n.prev = some a)
    (hx : n.next = some c) (hr : unlink h e b = some (h', e')) (f : Ends ι) :
    e' = e ∧ unlink h f b = some (h', f) := by
  have hfront : ∀ f, unlinkFront h f n
      = (setNext h a (some c)).map fun h => (h, f) := by
    intro f
    unfold unlinkFront
    rw [hp, hx]
    show (setNext h a (some c)).bind (fun h => some (h, f)) = _
    cases setNext h a (some c)
    · rfl
    · rfl
  unfold unlink at hr ⊢
  rw [hn, Option.bind_eq_bind, Option.bind_some] at hr ⊢
  rw [hfront] at hr ⊢
  cases hs : setNext h a (some c) with
  | none =>
    rw [hs] at hr
    cases hr
  | some h₁ =>
    rw [hs] at hr
    simp only [Option.map_some, Option.bind_eq_bind, Option.bind_some] at hr ⊢
    -- the links of `b` are still two
    obtain ⟨n₁, hn₁, hx₁⟩ : ∃ n₁, h₁ b = some n₁ ∧ n₁.next = some c := by
      unfold setNext at hs
      rw [Option.map_eq_some_iff] at hs
      obtain ⟨m, hm, rfl⟩ := hs
      by_cases hba : b = a
      · subst hba
        exact ⟨_, update_self .., rfl⟩
      · exact ⟨n, by rw [update_of_ne hba, hn], hx⟩
    rw [hn₁, Option.bind_some] at hr ⊢
    have hback : ∀ f, unlinkBack h₁ f n₁
        = (setPrev h₁ c n₁.prev).map fun h => (h, f) := by
      intro f
      unfold unlinkBack
      rw [hx₁]
      show (setPrev h₁ c n₁.prev).bind (fun h => some (h, f)) = _
      cases setPrev h₁ c n₁.prev
      · rfl
      · rfl
    rw [hback, Option.map_eq_some_iff] at hr
    obtain ⟨h₂, hs₂, heq⟩ := hr
    cases heq
    rw [hback, hs₂]
    exact ⟨rfl, rfl⟩

theorem insertLast_prev {a : ι} (hr : insertLast h e b = some (h', e'))
    (hbeg : e.beg = some a) : ∃ n, h' b = some n ∧ n.prev = e.last ∧ n.next = none := by
  unfold insertLast at hr
  rw [hbeg] at hr
  simp only [Option.bind_eq_bind, Option.bind_eq_some_iff] at hr
  obtain ⟨h₁, hs₁, z, hz, h₂, hs₂, h₃, hs₃, heq⟩ := hr
  cases heq
  unfold setPrev at hs₁
  unfold setNext at hs₂ hs₃
  rw [Option.map_eq_some_iff] at hs₁ hs₂ hs₃
  obtain ⟨n₁, hn₁, rfl⟩ := hs₁
  obtain ⟨n₂, hn₂, rfl⟩ := hs₂
  obtain ⟨n₃, hn₃, rfl⟩ := hs₃
  refine ⟨_, update_self .., ?_, rfl⟩
  show n₃.prev = e.last
  by_cases hbz : b = z
  · subst hbz
    rw [update_self] at hn₂ hn₃
    cases hn₂
    cases hn₃
    rfl
  · rw [update_of_ne hbz, update_self] at hn₃
    cases hn₃
    rfl

theorem setNext_sameVals {x : Option ι} (hr : setNext h b x = some h') :
    SameVals h h' := by
  unfold setNext at hr
  rw [Option.map_eq_some_iff] at hr
  obtain ⟨n, hn, rfl⟩ := hr
  intro i
  by_cases hib : i = b
  · rw [hib, update_self, hn]
    rfl
  · rw [update_of_ne hib]

theorem setPrev_sameVals {x : Option ι} (hr : setPrev h b x = some h') :
    SameVals h h' := by
  unfold setPrev at hr
  rw [Option.map_eq_some_iff] at hr
  obtain ⟨n, hn, rfl⟩ := hr
  intro i
  by_cases hib : i = b
  · rw [hib, update_self, hn]
    rfl
  · rw [update_of_ne hib]

theorem insertLast_sameVals (hr : insertLast h e b = some (h', e')) : SameVals h h' := by
  unfold insertLast at hr
  split at hr
  · simp only [Option.bind_eq_bind, Option.bind_eq_some_iff] at hr
    obtain ⟨h₁, hs₁, h₂, hs₂, heq⟩ := hr
    cases heq
    exact (setPrev_sameVals hs₁).trans (setNext_sameVals hs₂)
  · simp only [Option.bind_eq_bind, Option.bind_eq_some_iff] at hr
    obtain ⟨h₁, hs₁, z, -, h₂, hs₂, h₃, hs₃, heq⟩ := hr
    cases heq
    exact ((setPrev_sameVals hs₁).trans (setNext_sameVals hs₂)).trans
      (setNext_sameVals hs₃)

theorem unlink_of_prev_none {x : ι} (hn : h b = some n) (hp : n.prev = none)
    (hx : n.next = some x) (hxb : b ≠ x) (hr : unlink h e b = some (h', e')) :
    e'.beg = some x ∧ SameVals h h' := by
  unfold unlink at hr
  simp only [hn, Option.bind_eq_bind, Option.bind_some,
    Option.bind_eq_some_iff] at hr
  obtain ⟨⟨h₁, e₁⟩, hfront, n₁, hn₁, hr⟩ := hr
  unfold unlinkFront at hfront
  simp only [hp, hx, Option.bind_eq_bind, Option.bind_eq_some_iff] at hfront
  obtain ⟨h₂, hs₂, heq⟩ := hfront
  cases heq
  have hb₂ : h₁ b = some n := by
    unfold setPrev at hs₂
    rw [Option.map_eq_some_iff] at hs₂
    obtain ⟨m, -, rfl⟩ := hs₂
    rw [update_of_ne hxb, hn]
  cases hb₂.symm.trans hn₁
  unfold unlinkBack at hr
  simp only [hp, hx, Option.bind_eq_bind, Option.bind_eq_some_iff] at hr
  obtain ⟨h₃, hs₃, heq⟩ := hr
  cases heq
  exact ⟨rfl, (setPrev_sameVals hs₂).trans (setPrev_sameVals hs₃)⟩

/-- A node is moved to the end. -/
theorem moveLast_spec (hl : IsList h e l) (hb : b ∈ l) :
    ∃ h₁ e₁ h' e', unlink h e b = some (h₁, e₁)
      ∧ insertLast h₁ e₁ b = some (h', e')
      ∧ IsList h' e' (l.erase b ++ [b]) ∧ SameVals h h' ∧ AgreeOff l h h' := by
  obtain ⟨l₁, l₂, hb₁, rfl, herase⟩ := List.exists_erase_eq hb
  have hb' : b ∉ l₁ ++ l₂ :=
    (List.nodup_cons.mp ((List.perm_middle.nodup_iff).mp hl.nodup)).1
  obtain ⟨n, hn, -⟩ := hl.node
  obtain ⟨h₁, e₁, hr₁, hl₁, hv₁, ha₁⟩ := unlink_spec hl
  have hsome : (h₁ b).isSome := by
    rw [ha₁ b hb', hn]
    rfl
  obtain ⟨h', e', hr, hl', hv, ha⟩ := insertLast_spec hl₁ hb' hsome
  refine ⟨h₁, e₁, h', e', hr₁, hr, by rwa [herase], hv₁.trans hv, ?_⟩
  refine (ha₁.mono fun i hi => ?_).trans (ha.mono fun i hi => ?_)
  · simp only [List.mem_append, List.mem_cons] at hi ⊢
    exact hi.imp_right .inr
  · simp only [List.mem_append, List.mem_cons, List.not_mem_nil, or_false]
      at hi ⊢
    rcases hi with (hi | hi) | hi
    · exact .inl hi
    · exact .inr (.inr hi)
    · exact .inr (.inl hi)

/-- A node is moved to another list. -/
theorem moveBetween_spec {f : Ends ι} {m : List ι} (hl : IsList h e l)
    (hm : IsList h f m) (hdisj : ∀ i ∈ l, i ∉ m) (hb : b ∈ l) :
    ∃ h₁ e' h' f', unlink h e b = some (h₁, e')
      ∧ insertLast h₁ f b = some (h', f')
      ∧ IsList h' e' (l.erase b) ∧ IsList h' f' (m ++ [b])
      ∧ SameVals h h' := by
  obtain ⟨l₁, l₂, hb₁, rfl, herase⟩ := List.exists_erase_eq hb
  have hb' : b ∉ l₁ ++ l₂ :=
    (List.nodup_cons.mp ((List.perm_middle.nodup_iff).mp hl.nodup)).1
  obtain ⟨n, hn, -⟩ := hl.node
  obtain ⟨h₁, e', hr₁, hl₁, hv₁, ha₁⟩ := unlink_spec hl
  have hdisj' : ∀ i ∈ m, i ∉ l₁ ++ l₂ := by
    intro i hi hil
    refine hdisj i ?_ hi
    simp only [List.mem_append, List.mem_cons] at hil ⊢
    exact hil.imp_right .inr
  have hm₁ : IsList h₁ f m := hm.congr fun i hi => ha₁ i (hdisj' i hi)
  have hsome : (h₁ b).isSome := by
    rw [ha₁ b hb', hn]
    rfl
  obtain ⟨h', f', hr, hm', hv, ha⟩ :=
    insertLast_spec hm₁ (hdisj b hb) hsome
  refine ⟨h₁, e', h', f', hr₁, hr, ?_, hm', hv₁.trans hv⟩
  rw [herase]
  refine hl₁.congr fun i hi => ha i fun him => ?_
  rw [List.mem_append, List.mem_singleton] at him
  rcases him with him | rfl
  · exact hdisj' i him hi
  · exact hb' hi

end specs

end LinkedList
