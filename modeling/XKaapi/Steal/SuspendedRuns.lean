/-
What holds of the queue of suspended contexts after any calls.

The invariant has two halves. `Lists` is about the links: the suspended
list, the free list and at most one cell in hand are made of distinct
cells, and of all cells of the allocated blocks. `Vals` is about what the
cells hold: a linked cell holds a context that points back to it, or is
empty, taken by a thief or ready to be recycled; a free cell cannot be
stolen from. So no call fails (`exists_effect`).
-/
import XKaapi.Steal.SuspendedQueue
import Mathlib.Data.List.Perm.Subperm

namespace XKaapi.Suspended

open LinkedList StepMachine
open Function (update update_eq_self update_of_ne update_self)

variable {τ : Type} [DecidableEq τ]

-- ======== the statement

/-- The context is in a cell of the list. -/
def InQueue (q : Kproc τ) (l : List CellId) (t : τ) : Prop :=
  ∃ c ∈ l, ∃ n, q.cells c = some n ∧ n.val.thread = some t

/-- The suspended list is `l` and the free list `f`; they have no cell in
common, and every cell of an allocated block is in one of them. -/
structure ListsOk (q : Kproc τ) (l f : List CellId) : Prop where
  suspended : IsList q.cells q.lsuspend l
  free : Fifo.Holds (prevOf q.cells) q.free f
  nodup : f.Nodup
  disjoint : ∀ c ∈ l, c ∉ f
  all : ∀ c, c ∈ l ∨ c ∈ f ↔ c.bloc ∈ q.allocatedbloc ∧ c.i < blocentriesSize

/-- How often a context was pushed. -/
def State.pushes (s : State τ) (t : τ) : Nat :=
  s.log.countP fun e => match e with
    | .pushed t' _ => t' = t
    | _ => false

/-- How often a context was returned by a wake-up or a steal. -/
def State.returns (s : State τ) (t : τ) : Nat :=
  s.log.countP fun e => match e with
    | .pushed _ _ => false
    | .woken t' _ _ => t' = t
    | .stolen t' => t' = t

/-- The lists are well formed, disjoint and complete; each push of a
context was answered by one return, but for the last one while the
context is in the queue; whoever was woken was ready, or the wake-up was
called for it with another condition, which held; and no call can fail. -/
def SuspendedOk (s : State τ) : Prop :=
  (∃ l f, ListsOk s.q l f
    ∧ ∀ t, (InQueue s.q l t ∧ s.pushes t = s.returns t + 1)
      ∨ (¬ InQueue s.q l t ∧ s.pushes t = s.returns t))
    ∧ (∀ t r cond, .woken t r cond ∈ s.log →
      r = true ∨ cond = some (.other true))
    ∧ ∀ a, Enabled a s → ∃ s', step a s = some s'

-- ======== the links

section Links

variable {α : Type} {cells cells' : Heap CellId α} {e : Ends CellId}
  {free : Fifo CellId} {blocs : List Nat} {hand l f : List CellId}
  {c : CellId}

/-- The links, with the cells that are in neither list. -/
structure Lists (cells : Heap CellId α) (e : Ends CellId)
    (free : Fifo CellId) (blocs : List Nat) (hand l f : List CellId) :
    Prop where
  suspended : IsList cells e l
  free : Fifo.Holds (prevOf cells) free f
  nodup : (hand ++ (l ++ f)).Nodup
  all : ∀ c, c ∈ hand ++ (l ++ f) ↔ c.bloc ∈ blocs ∧ c.i < blocentriesSize
  alloc : ∀ c ∈ hand ++ (l ++ f), (cells c).isSome

/-- The links backwards after a write. -/
theorem prevOf_update (v : α) (x p : Option CellId) :
    prevOf (update cells c (some ⟨v, x, p⟩))
      = update (prevOf cells) c p := by
  funext i
  unfold prevOf
  by_cases hi : i = c
  · rw [hi, update_self, update_self]
    rfl
  · rw [update_of_ne hi, update_of_ne hi]

/-- A write of a value keeps the lists. -/
theorem Lists.setVal (h : Lists cells e free blocs hand l f)
    {n : Node CellId α} (hn : cells c = some n) (v : α) :
    Lists (update cells c (some { n with val := v })) e free blocs
      hand l f := by
  refine ⟨h.suspended.setVal hn, ?_, h.nodup, h.all, fun i hi => ?_⟩
  · have hprev : prevOf cells c = n.prev := by
      unfold prevOf
      rw [hn]
      rfl
    rw [prevOf_update, ← hprev, update_eq_self]
    exact h.free
  · by_cases hic : i = c
    · rw [hic, update_self]
      rfl
    · rw [update_of_ne hic]
      exact h.alloc i hi

/-- A cell is put first. -/
theorem Lists.insertFirst (h : Lists cells e free blocs [c] l f) :
    ∃ cells' e', LinkedList.insertFirst cells e c = some (cells', e')
      ∧ Lists cells' e' free blocs [] (c :: l) f
      ∧ SameVals cells cells' := by
  obtain ⟨hc, -⟩ := List.nodup_cons.mp h.nodup
  have hcl : c ∉ l := fun hin => hc (List.mem_append_left f hin)
  obtain ⟨cells', e', hr, hl, hv, ha⟩ :=
    insertFirst_spec h.suspended hcl (h.alloc c List.mem_cons_self)
  refine ⟨cells', e', hr, ⟨hl, ?_, h.nodup, h.all, fun i hi => ?_⟩, hv⟩
  · refine h.free.congr fun i hi => ?_
    have hne : i ∉ c :: l := by
      rw [List.mem_cons, not_or]
      refine ⟨fun heq => hc (List.mem_append_right l (heq ▸ hi)), ?_⟩
      intro hil
      have hnd : (l ++ f).Nodup := (List.nodup_cons.mp h.nodup).2
      exact (List.nodup_append.mp hnd).2.2 i hil i hi rfl
    unfold prevOf
    rw [ha i hne]
  · rw [hv.isSome_eq]
    exact h.alloc i hi

/-- A cell that was unlinked becomes the last free one. -/
theorem Lists.appendFree (h : Lists cells e free blocs [c] l f) (v : α) :
    ∃ cells', (match free.tail with
        | none => some (update cells c (some ⟨v, none, none⟩))
        | some z => setPrev (update cells c (some ⟨v, none, none⟩))
            z (some c)) = some cells'
      ∧ Lists cells' e ⟨free.head.or (some c), some c⟩ blocs [] l (f ++ [c])
      ∧ SameVals (update cells c (some ⟨v, none, none⟩)) cells' := by
  obtain ⟨hc, hnd⟩ : c ∉ l ++ f ∧ (l ++ f).Nodup :=
    List.nodup_cons.mp h.nodup
  have hcl : c ∉ l := fun hin => hc (List.mem_append_left f hin)
  have hcf : c ∉ f := fun hin => hc (List.mem_append_right l hin)
  have hdisj : ∀ i ∈ l, i ∉ f := fun i hi hif =>
    (List.nodup_append.mp hnd).2.2 i hi i hif rfl
  have hfnd : f.Nodup := (List.nodup_append.mp hnd).2.1
  have hperm : (l ++ (f ++ [c])).Perm (c :: (l ++ f)) := by
    rw [← List.append_assoc]
    exact List.perm_append_singleton c (l ++ f)
  let cells₁ := update cells c (some ⟨v, none, none⟩)
  have hpush := h.free.pushTail hfnd hcf
  unfold Fifo.pushTail at hpush
  have hprev₁ : prevOf cells₁ = update (prevOf cells) c none :=
    prevOf_update v none none
  have hl₁ : IsList cells₁ e l := by
    refine h.suspended.congr fun i hi => update_of_ne ?_ _ _
    rintro rfl
    exact hcl hi
  have hsome : ∀ i ∈ c :: (l ++ f), (cells₁ i).isSome := by
    intro i hi
    by_cases hic : i = c
    · simp only [cells₁, hic, update_self, Option.isSome_some]
    · simp only [cells₁, update_of_ne hic]
      exact h.alloc i hi
  cases htail : free.tail with
  | none =>
    have hnil : f = [] := by
      have hlast := h.free.tail.symm.trans htail
      rwa [List.getLast?_eq_none_iff] at hlast
    have hhead : free.head = none := by
      rw [h.free.head, hnil]
      rfl
    rw [htail] at hpush
    refine ⟨cells₁, rfl, ⟨hl₁, ?_, hperm.nodup_iff.mpr h.nodup, ?_, ?_⟩,
      SameVals.refl _⟩
    · rw [hhead, hprev₁]
      exact hpush
    · exact fun i => hperm.mem_iff.trans (h.all i)
    · exact fun i hi => hsome i (hperm.mem_iff.mp hi)
  | some z =>
    have hzf : z ∈ f := List.mem_of_getLast? (h.free.tail.symm.trans htail)
    have hhead : free.head.or (some c) = free.head := by
      rw [h.free.head]
      cases f with
      | nil => cases hzf
      | cons a f => rfl
    have hzc : z ≠ c := fun heq => hcf (heq ▸ hzf)
    obtain ⟨n, hn⟩ := Option.isSome_iff_exists.mp
      (hsome z (List.mem_cons_of_mem c (List.mem_append_right l hzf)))
    have hset : setPrev cells₁ z (some c)
        = some (update cells₁ z (some { n with prev := some c })) := by
      unfold setPrev
      rw [hn]
      rfl
    rw [htail] at hpush
    refine ⟨_, hset, ⟨?_, ?_, hperm.nodup_iff.mpr h.nodup, ?_, ?_⟩,
      setPrev_sameVals hset⟩
    · refine hl₁.congr fun i hi => update_of_ne (fun heq => ?_) _ _
      exact hdisj i hi (heq ▸ hzf)
    · rw [hhead, prevOf_update, hprev₁]
      exact hpush
    · exact fun i => hperm.mem_iff.trans (h.all i)
    · intro i hi
      rw [(setPrev_sameVals hset).isSome_eq]
      exact hsome i (hperm.mem_iff.mp hi)

/-- A cell is taken out. -/
theorem Lists.bypass {l₁ l₂ : List CellId}
    (h : Lists cells e free blocs [] (l₁ ++ c :: l₂) f) :
    ∃ cells' e', LinkedList.bypass cells e c = some (cells', e')
      ∧ Lists cells' e' free blocs [c] (l₁ ++ l₂) f
      ∧ SameVals cells cells' := by
  obtain ⟨cells', e', hr, hl, hv, ha⟩ := bypass_spec h.suspended
  have hperm : ((l₁ ++ c :: l₂) ++ f).Perm ([c] ++ ((l₁ ++ l₂) ++ f)) :=
    List.perm_middle.append_right f
  refine ⟨cells', e', hr, ⟨hl, ?_, hperm.nodup_iff.mp h.nodup, ?_, ?_⟩, hv⟩
  · refine h.free.congr fun i hi => ?_
    have hne : i ∉ l₁ ++ l₂ := by
      intro hil
      have hnd := (List.nodup_append.mp h.nodup).2.1
      refine (List.nodup_append.mp hnd).2.2 i ?_ i hi rfl
      rcases List.mem_append.mp hil with hil | hil
      · exact List.mem_append_left _ hil
      · exact List.mem_append_right _ (List.mem_cons_of_mem c hil)
    unfold prevOf
    rw [ha i hne]
  · exact fun i => hperm.mem_iff.symm.trans (h.all i)
  · intro i hi
    rw [hv.isSome_eq]
    exact h.alloc i (hperm.mem_iff.mpr hi)

end Links

-- ======== allocation

/-- The cells of a new block that are free, the last one first. -/
def freshList (bloc : Nat) : Nat → List CellId
  | 0 => []
  | k + 1 => ⟨bloc, k + 1⟩ :: freshList bloc k

section Alloc

variable {τ : Type} {bloc k : Nat} {raw : Nat → Node CellId (Cell τ)}
  {cells : Heap CellId (Cell τ)} {c : CellId}

/-- The cells of a new block. -/
theorem mem_freshList : c ∈ freshList bloc k ↔ c.bloc = bloc ∧ 0 < c.i ∧ c.i ≤ k := by
  induction k with
  | zero =>
    constructor
    · intro hc
      cases hc
    · intro hc
      omega
  | succ k ih =>
    rw [freshList, List.mem_cons, ih]
    constructor
    · rintro (rfl | hc)
      · exact ⟨rfl, Nat.succ_pos k, Nat.le_refl _⟩
      · omega
    · intro hc
      by_cases hk : c.i = k + 1
      · refine .inl ?_
        cases c
        exact congrArg₂ CellId.mk hc.1 hk
      · exact .inr ⟨hc.1, hc.2.1, by omega⟩

theorem freshList_nodup : (freshList bloc k).Nodup := by
  induction k with
  | zero => exact List.nodup_nil
  | succ k ih =>
    refine List.nodup_cons.mpr ⟨fun hin => ?_, ih⟩
    have hle := (mem_freshList.mp hin).2.2
    exact absurd hle (Nat.not_succ_le_self k)

theorem freshList_last : (freshList bloc (k + 1)).getLast? = some ⟨bloc, 1⟩ := by
  induction k with
  | zero => rfl
  | succ k ih =>
    rw [freshList, freshList, List.getLast?_cons_cons]
    exact ih

theorem prevOf_initBloc (hk : k + 1 < blocentriesSize) :
    prevOf (initBloc bloc raw cells) ⟨bloc, k + 1⟩
      = if k = 0 then none else some ⟨bloc, k⟩ := by
  unfold prevOf initBloc
  rw [if_pos ⟨rfl, hk⟩, if_neg (Nat.succ_ne_zero k)]
  show (if k + 1 = 1 then none else some _) = _
  by_cases hz : k = 0
  · rw [if_pos hz, if_pos (by omega)]
  · rw [if_neg hz, if_neg (by omega)]
    rfl

theorem freshList_links (hk : k < blocentriesSize) :
    Fifo.Links (prevOf (initBloc bloc raw cells)) (freshList bloc k) := by
  induction k with
  | zero => trivial
  | succ k ih =>
    cases k with
    | zero =>
      exact prevOf_initBloc hk
    | succ k =>
      refine ⟨?_, ih (by omega)⟩
      rw [prevOf_initBloc hk, if_neg (Nat.succ_ne_zero k)]

theorem initBloc_other (hc : c.bloc ≠ bloc) : initBloc bloc raw cells c = cells c := by
  unfold initBloc
  exact if_neg fun h => hc h.1

theorem initBloc_isSome (hb : c.bloc = bloc) (hi : c.i < blocentriesSize) :
    (initBloc bloc raw cells c).isSome := by
  unfold initBloc
  rw [if_pos ⟨hb, hi⟩]
  split <;> rfl

variable {q : Kproc τ} {l f : List CellId}

/-- A cell in hand: a free one, or the first of a new block. -/
theorem alloccell_spec (raw : Nat → Node CellId (Cell τ))
    (h : Lists q.cells q.lsuspend q.free q.allocatedbloc [] l f)
    (hb : bloc ∉ q.allocatedbloc) :
    ∃ q' c f', alloccell bloc raw q = (q', c)
      ∧ Lists q'.cells q'.lsuspend q'.free q'.allocatedbloc [c] l f'
      ∧ q'.thread = q.thread ∧ q'.lsuspend = q.lsuspend
      ∧ (∀ i, i.bloc ∈ q.allocatedbloc → q'.cells i = q.cells i)
      ∧ (∀ i ∈ f, i = c ∨ i ∈ f')
      ∧ ∀ i ∈ f', i ∈ f ∨ i.bloc ∉ q.allocatedbloc := by
  unfold alloccell
  have hnd : (l ++ f).Nodup := h.nodup
  cases f with
  | cons c f =>
    obtain ⟨free, hpop, hholds⟩ :=
      h.free.popHead (List.nodup_append.mp hnd).2.1
    have hperm : (l ++ c :: f).Perm ([c] ++ (l ++ f)) := List.perm_middle
    rw [hpop]
    refine ⟨_, c, f, rfl, ⟨h.suspended, hholds, hperm.nodup_iff.mp hnd,
      fun i => hperm.mem_iff.symm.trans (h.all i),
      fun i hi => h.alloc i (hperm.mem_iff.mpr hi)⟩, rfl, rfl,
      fun _ _ => rfl, fun i hi => List.mem_cons.mp hi,
      fun i hi => .inl (List.mem_cons_of_mem c hi)⟩
  | nil =>
    have hpop : Fifo.popHead (prevOf q.cells) q.free = none := by
      unfold Fifo.popHead
      rw [h.free.head]
      rfl
    rw [hpop]
    have hold : ∀ i ∈ l, i.bloc ∈ q.allocatedbloc := fun i hi =>
      ((h.all i).mp (List.mem_append_left [] hi)).1
    have hne : ∀ i : CellId, i.bloc ∈ q.allocatedbloc → i.bloc ≠ bloc :=
      fun i hi heq => hb (heq ▸ hi)
    have hfresh : ∀ i ∈ freshList bloc (blocentriesSize - 1),
        i.bloc = bloc := fun i hi => (mem_freshList.mp hi).1
    have hsize : blocentriesSize = 2048 := rfl
    refine ⟨_, ⟨bloc, 0⟩, freshList bloc (blocentriesSize - 1), rfl,
      ⟨?_, ⟨rfl, ?_, ?_⟩, ?_, ?_, ?_⟩, rfl, rfl, fun i hi =>
        initBloc_other (hne i hi), fun i hi => (nomatch hi),
      fun i hi => .inr fun hin => hb (hfresh i hi ▸ hin)⟩
    · exact h.suspended.congr fun i hi => initBloc_other (hne i (hold i hi))
    · exact freshList_last.symm
    · exact freshList_links (by omega)
    · have hl : l.Nodup := (List.nodup_append.mp hnd).1
      have hall : (l ++ freshList bloc (blocentriesSize - 1)).Nodup := by
        refine List.nodup_append.mpr ⟨hl, freshList_nodup, ?_⟩
        rintro i hi j hj rfl
        exact hne i (hold i hi) (hfresh i hj)
      have hzero : (⟨bloc, 0⟩ : CellId)
          ∉ l ++ freshList bloc (blocentriesSize - 1) := by
        intro hin
        rcases List.mem_append.mp hin with hin | hin
        · exact hb (hold _ hin)
        · exact absurd (mem_freshList.mp hin).2.1 (Nat.lt_irrefl 0)
      exact List.nodup_cons.mpr ⟨hzero, hall⟩
    · intro i
      rw [List.cons_append, List.nil_append, List.mem_cons, List.mem_append,
        mem_freshList]
      have hi : i ∈ l ↔ i.bloc ∈ q.allocatedbloc
          ∧ i.i < blocentriesSize := by
        rw [← h.all i, List.append_nil]
        exact Iff.rfl
      rw [hi, List.mem_cons]
      constructor
      · rintro (rfl | hin | hin)
        · exact ⟨.inl rfl, Nat.two_pow_pos 11⟩
        · exact ⟨.inr hin.1, hin.2⟩
        · exact ⟨.inl hin.1, by omega⟩
      · rintro ⟨hin | hin, hlt⟩
        · by_cases hz : i.i = 0
          · refine .inl ?_
            cases i
            exact congrArg₂ CellId.mk hin hz
          · exact .inr (.inr ⟨hin, by omega, by omega⟩)
        · exact .inr (.inl ⟨hin, hlt⟩)
    · intro i hi
      rw [List.cons_append, List.nil_append, List.mem_cons,
        List.mem_append] at hi
      rcases hi with rfl | hi | hi
      · exact initBloc_isSome rfl (Nat.two_pow_pos 11)
      · show (initBloc bloc raw q.cells i).isSome
        rw [initBloc_other (hne i (hold i hi))]
        exact h.alloc i (List.mem_append_left [] hi)
      · have hm := mem_freshList.mp hi
        exact initBloc_isSome hm.1 (by omega)

end Alloc

-- ======== what the cells hold

/-- What a cell of the suspended list holds: a context that points back
to it, or nothing. -/
def LinkedCell (wcs : τ → Option CellId) (stealing : List CellId)
    (c : CellId) (v : Cell τ) : Prop :=
  (v.state = .inlist ∧ ∃ t, v.thread = some t ∧ wcs t = some c)
    ∨ (v.state = .steallist ∧ v.thread = none ∧ c ∈ stealing)
    ∨ (v.state = .outlist ∧ v.thread = none)

/-- The contents of the cells and the pointers into them. -/
structure Vals (val : CellId → Option (Cell τ)) (wcs : τ → Option CellId)
    (stealing known l f : List CellId) : Prop where
  linked : ∀ c ∈ l, ∃ v, val c = some v ∧ LinkedCell wcs stealing c v
  back : ∀ t c, wcs t = some c → c ∈ l ∧ ∃ v, val c = some v
    ∧ v.state = .inlist ∧ v.thread = some t
  taken : ∀ c ∈ stealing, c ∈ l ∧ ∃ v, val c = some v
    ∧ v.state = .steallist ∧ v.thread = none
  nodup : stealing.Nodup
  seen : ∀ c ∈ known, c ∈ l ∨ c ∈ f
  closed : ∀ c ∈ f, c ∈ known → ∃ v, val c = some v ∧ v.state = .outlist

/-- What the heap holds. -/
def valOf {α : Type} (cells : Heap CellId α) (c : CellId) : Option α :=
  (cells c).map Node.val

/-- The pointers of the contexts. -/
def Kproc.wcs (q : Kproc τ) (t : τ) : Option CellId := (q.thread t).wcs

theorem valOf_update {α : Type} {cells : Heap CellId α} {c : CellId}
    (n : Node CellId α) :
    valOf (update cells c (some n))
      = update (valOf cells) c (some n.val) := by
  funext i
  unfold valOf
  by_cases hi : i = c
  · rw [hi, update_self, update_self]
    rfl
  · rw [update_of_ne hi, update_of_ne hi]

theorem wcs_setWcs (q : Kproc τ) (t : τ) (x : Option CellId) :
    (q.setWcs t x).wcs = update q.wcs t x := by
  funext t'
  show (update q.thread t { q.thread t with wcs := x } t').wcs
    = update q.wcs t x t'
  by_cases ht : t' = t
  · rw [ht, update_self, update_self]
  · rw [update_of_ne ht, update_of_ne ht]
    rfl

section Vals

variable {val : CellId → Option (Cell τ)} {wcs : τ → Option CellId}
  {stealing known l f : List CellId} {c : CellId} {t : τ} {v : Cell τ}

/-- A context leaves its cell: a thief has it now, or a wake-up. -/
theorem Vals.release (h : Vals val wcs stealing known l f)
    (ht : wcs t = some c) (hlf : ∀ i ∈ l, i ∉ f)
    {stealing' : List CellId}
    (hs : v.state = .steallist ∧ stealing' = c :: stealing
      ∨ v.state = .outlist ∧ stealing' = stealing)
    (hv : v.thread = none) :
    Vals (update val c (some v)) (update wcs t none)
      stealing' known l f := by
  obtain ⟨hcl, v₀, hv₀, hin, hthread⟩ := h.back t c ht
  have hsub : ∀ i ∈ stealing, i ∈ stealing' := by
    intro i hi
    rcases hs with ⟨-, rfl⟩ | ⟨-, rfl⟩
    · exact List.mem_cons_of_mem c hi
    · exact hi
  -- the cell had a context, so no thief was at it
  have hnot : c ∉ stealing := by
    intro hin'
    obtain ⟨-, w, hw, hstate, -⟩ := h.taken c hin'
    rw [hv₀] at hw
    cases hw
    rw [hin] at hstate
    cases hstate
  have hold : ∀ i, i ≠ c → update val c (some v) i = val i :=
    fun i hi => update_of_ne hi _ _
  refine ⟨?_, ?_, ?_, ?_, h.seen, ?_⟩
  · intro i hi
    by_cases hic : i = c
    · subst hic
      refine ⟨v, update_self .., ?_⟩
      rcases hs with ⟨hstate, rfl⟩ | ⟨hstate, -⟩
      · exact .inr (.inl ⟨hstate, hv, List.mem_cons_self⟩)
      · exact .inr (.inr ⟨hstate, hv⟩)
    · obtain ⟨w, hw, hcell⟩ := h.linked i hi
      refine ⟨w, (hold i hic).trans hw, ?_⟩
      rcases hcell with ⟨hstate, t', ht', hwcs⟩ | ⟨hstate, hn, hmem⟩ | hcell
      · refine .inl ⟨hstate, t', ht', ?_⟩
        have hne : t' ≠ t := by
          rintro rfl
          rw [ht] at hwcs
          exact hic (Option.some.inj hwcs).symm
        rw [update_of_ne hne, hwcs]
      · exact .inr (.inl ⟨hstate, hn, hsub i hmem⟩)
      · exact .inr (.inr hcell)
  · intro t' i hi
    have hne : t' ≠ t := by
      rintro rfl
      rw [update_self] at hi
      cases hi
    rw [update_of_ne hne] at hi
    obtain ⟨hil, w, hw, hstate, hthread'⟩ := h.back t' i hi
    have hic : i ≠ c := by
      rintro rfl
      rw [hv₀] at hw
      cases hw
      rw [hthread] at hthread'
      exact hne (Option.some.inj hthread').symm
    exact ⟨hil, w, (hold i hic).trans hw, hstate, hthread'⟩
  · intro i hi
    by_cases hic : i = c
    · subst hic
      rcases hs with ⟨hstate, -⟩ | ⟨-, rfl⟩
      · exact ⟨hcl, v, update_self .., hstate, hv⟩
      · exact absurd hi hnot
    · have hi' : i ∈ stealing := by
        rcases hs with ⟨-, rfl⟩ | ⟨-, rfl⟩
        · exact (List.mem_cons.mp hi).resolve_left hic
        · exact hi
      obtain ⟨hil, w, hw, hrest⟩ := h.taken i hi'
      exact ⟨hil, w, (hold i hic).trans hw, hrest⟩
  · rcases hs with ⟨-, rfl⟩ | ⟨-, rfl⟩
    · exact List.nodup_cons.mpr ⟨hnot, h.nodup⟩
    · exact h.nodup
  · intro i hi hk
    have hic : i ≠ c := by
      rintro rfl
      exact hlf i hcl hi
    obtain ⟨w, hw, hstate⟩ := h.closed i hi hk
    exact ⟨w, (hold i hic).trans hw, hstate⟩

omit [DecidableEq τ] in
/-- A cell that a thief had is out of the queue. -/
theorem Vals.finish (h : Vals val wcs stealing known l f)
    (hc : c ∈ stealing) (hlf : ∀ i ∈ l, i ∉ f) (hs : v.state = .outlist)
    (hv : v.thread = none) :
    Vals (update val c (some v)) wcs (stealing.erase c) known
      l f := by
  obtain ⟨hcl, v₀, hv₀, hst, hn₀⟩ := h.taken c hc
  have hold : ∀ i, i ≠ c → update val c (some v) i = val i :=
    fun i hi => update_of_ne hi _ _
  refine ⟨?_, ?_, ?_, h.nodup.erase c, h.seen, ?_⟩
  · intro i hi
    by_cases hic : i = c
    · subst hic
      exact ⟨v, update_self .., .inr (.inr ⟨hs, hv⟩)⟩
    · obtain ⟨w, hw, hcell⟩ := h.linked i hi
      refine ⟨w, (hold i hic).trans hw, ?_⟩
      rcases hcell with hcell | ⟨hstate, hn, hmem⟩ | hcell
      · exact .inl hcell
      · refine .inr (.inl ⟨hstate, hn, ?_⟩)
        exact (List.mem_erase_of_ne hic).mpr hmem
      · exact .inr (.inr hcell)
  · intro t i hi
    obtain ⟨hil, w, hw, hstate, hthread⟩ := h.back t i hi
    have hic : i ≠ c := by
      rintro rfl
      rw [hv₀] at hw
      cases hw
      rw [hst] at hstate
      cases hstate
    exact ⟨hil, w, (hold i hic).trans hw, hstate, hthread⟩
  · intro i hi
    have hic : i ≠ c := by
      rintro rfl
      exact h.nodup.not_mem_erase hi
    obtain ⟨hil, w, hw, hrest⟩ := h.taken i (List.mem_of_mem_erase hi)
    exact ⟨hil, w, (hold i hic).trans hw, hrest⟩
  · intro i hi hk
    have hic : i ≠ c := by
      rintro rfl
      exact hlf i hcl hi
    obtain ⟨w, hw, hstate⟩ := h.closed i hi hk
    exact ⟨w, (hold i hic).trans hw, hstate⟩

omit [DecidableEq τ] in
/-- A cell is recycled. -/
theorem Vals.recycle {l₁ l₂ : List CellId}
    (h : Vals val wcs stealing known (l₁ ++ c :: l₂) f) {v₀ : Cell τ}
    (hv₀ : val c = some v₀) (hs₀ : v₀.state = .outlist)
    (hs : v.state = .outlist) (hlf : c ∉ f) (hnd : c ∉ l₁ ++ l₂) :
    Vals (update val c (some v)) wcs stealing known (l₁ ++ l₂)
      (f ++ [c]) := by
  have hmem : ∀ i, i ≠ c → i ∈ l₁ ++ c :: l₂ → i ∈ l₁ ++ l₂ := by
    intro i hic hi
    rcases List.mem_append.mp hi with hi | hi
    · exact List.mem_append_left l₂ hi
    · exact List.mem_append_right l₁
        ((List.mem_cons.mp hi).resolve_left hic)
  have hmem' : ∀ i ∈ l₁ ++ l₂, i ∈ l₁ ++ c :: l₂ := by
    intro i hi
    rcases List.mem_append.mp hi with hi | hi
    · exact List.mem_append_left _ hi
    · exact List.mem_append_right l₁ (List.mem_cons_of_mem c hi)
  have hold : ∀ i, i ≠ c → update val c (some v) i = val i :=
    fun i hi => update_of_ne hi _ _
  have hstate : ∀ {i w}, val i = some w → w.state ≠ .outlist → i ≠ c := by
    rintro i w hw hne rfl
    rw [hv₀] at hw
    cases hw
    exact hne hs₀
  refine ⟨?_, ?_, ?_, h.nodup, ?_, ?_⟩
  · intro i hi
    have hic : i ≠ c := by
      rintro rfl
      exact hnd hi
    obtain ⟨w, hw, hcell⟩ := h.linked i (hmem' i hi)
    exact ⟨w, (hold i hic).trans hw, hcell⟩
  · intro t i hi
    obtain ⟨hil, w, hw, hst, hthread⟩ := h.back t i hi
    have hic := hstate hw (by rw [hst]; exact nofun)
    exact ⟨hmem i hic hil, w, (hold i hic).trans hw, hst, hthread⟩
  · intro i hi
    obtain ⟨hil, w, hw, hst, hrest⟩ := h.taken i hi
    have hic := hstate hw (by rw [hst]; exact nofun)
    exact ⟨hmem i hic hil, w, (hold i hic).trans hw, hst, hrest⟩
  · intro i hi
    by_cases hic : i = c
    · exact .inr (List.mem_append_right f (List.mem_singleton.mpr hic))
    · exact (h.seen i hi).imp (hmem i hic) (List.mem_append_left [c])
  · intro i hi hk
    by_cases hic : i = c
    · subst hic
      exact ⟨v, update_self .., hs⟩
    · have hif : i ∈ f := by
        rcases List.mem_append.mp hi with hi | hi
        · exact hi
        · exact absurd (List.mem_singleton.mp hi) hic
      obtain ⟨w, hw, hst⟩ := h.closed i hif hk
      exact ⟨w, (hold i hic).trans hw, hst⟩

/-- A context is pushed. -/
theorem Vals.push (h : Vals val wcs stealing known l f)
    {val' : CellId → Option (Cell τ)} {f' : List CellId}
    (hval : ∀ i, i ∈ l ∨ i ∈ f → val' i = val i) (ht : wcs t = none)
    (hc : c ∉ l) (hf : ∀ i ∈ f, i = c ∨ i ∈ f')
    (hf' : ∀ i ∈ f', i ≠ c ∧ (i ∈ known → i ∈ f))
    (hv : v.state = .inlist) (hthread : v.thread = some t) :
    Vals (update val' c (some v))
      (update wcs t (some c)) stealing (known ++ [c]) (c :: l)
      f' := by
  have hold : ∀ i, i ≠ c → i ∈ l ∨ i ∈ f →
      update val' c (some v) i = val i := fun i hic hi =>
    (update_of_ne hic _ _).trans (hval i hi)
  have hne : ∀ i ∈ l, i ≠ c := by
    rintro i hi rfl
    exact hc hi
  refine ⟨?_, ?_, ?_, h.nodup, ?_, ?_⟩
  · intro i hi
    rcases List.mem_cons.mp hi with rfl | hi
    · exact ⟨v, update_self .., .inl ⟨hv, t, hthread,
        update_self ..⟩⟩
    · obtain ⟨w, hw, hcell⟩ := h.linked i hi
      refine ⟨w, (hold i (hne i hi) (.inl hi)).trans hw, ?_⟩
      rcases hcell with ⟨hst, t', ht', hwcs⟩ | hcell
      · refine .inl ⟨hst, t', ht', ?_⟩
        have htt : t' ≠ t := by
          rintro rfl
          rw [ht] at hwcs
          cases hwcs
        rw [update_of_ne htt, hwcs]
      · exact .inr hcell
  · intro t' i hi
    by_cases htt : t' = t
    · subst htt
      rw [update_self] at hi
      cases hi
      exact ⟨List.mem_cons_self, v, update_self .., hv, hthread⟩
    · rw [update_of_ne htt] at hi
      obtain ⟨hil, w, hw, hrest⟩ := h.back t' i hi
      exact ⟨List.mem_cons_of_mem c hil, w,
        (hold i (hne i hil) (.inl hil)).trans hw, hrest⟩
  · intro i hi
    obtain ⟨hil, w, hw, hrest⟩ := h.taken i hi
    exact ⟨List.mem_cons_of_mem c hil, w,
      (hold i (hne i hil) (.inl hil)).trans hw, hrest⟩
  · intro i hi
    rcases List.mem_append.mp hi with hi | hi
    · rcases h.seen i hi with hil | hif
      · exact .inl (List.mem_cons_of_mem c hil)
      · rcases hf i hif with rfl | hif
        · exact .inl List.mem_cons_self
        · exact .inr hif
    · exact .inl (List.mem_singleton.mp hi ▸ List.mem_cons_self)
  · intro i hi hk
    obtain ⟨hic, hold'⟩ := hf' i hi
    have hk' : i ∈ known := by
      rcases List.mem_append.mp hk with hk | hk
      · exact hk
      · exact absurd (List.mem_singleton.mp hk) hic
    obtain ⟨w, hw, hst⟩ := h.closed i (hold' hk') hk'
    exact ⟨w, (hold i hic (.inr (hold' hk'))).trans hw, hst⟩

end Vals

-- ======== the operations

/-- The links and the contents. -/
structure Inv (q : Kproc τ) (stealing known l f : List CellId) : Prop where
  lists : Lists q.cells q.lsuspend q.free q.allocatedbloc [] l f
  vals : Vals (valOf q.cells) q.wcs stealing known l f

/-- What a wake-up does to the contexts: nothing, or one that was in the
queue and is ready, or is `cond`, is returned. -/
def Woken (q q' : Kproc τ) (cond r : Option τ) : Prop :=
  (r = none ∧ q'.thread = q.thread)
    ∨ ∃ t, r = some t ∧ (q.wcs t).isSome
      ∧ (threadIsready (q.thread t) = true ∨ cond = some t)
      ∧ q'.thread = (q.setWcs t none).thread

section Operations

variable {q : Kproc τ} {stealing known l f : List CellId} {c : CellId}

omit [DecidableEq τ] in
/-- A cell is not both in the queue and free. -/
theorem Inv.disjoint (h : Inv q stealing known l f) :
    ∀ i ∈ l, i ∉ f := by
  have hnd : (l ++ f).Nodup := h.lists.nodup
  exact fun i hi hif => (List.nodup_append.mp hnd).2.2 i hi i hif rfl

omit [DecidableEq τ] in
theorem Inv.cell (h : Inv q stealing known l f) (hc : c ∈ l ∨ c ∈ f) :
    ∃ n, q.cells c = some n ∧ valOf q.cells c = some n.val := by
  have hmem : c ∈ l ++ f := List.mem_append.mpr hc
  obtain ⟨n, hn⟩ := Option.isSome_iff_exists.mp (h.lists.alloc c hmem)
  refine ⟨n, hn, ?_⟩
  unfold valOf
  rw [hn]
  rfl

omit [DecidableEq τ] in
theorem setCell_eq {n : Node CellId (Cell τ)} (hn : q.cells c = some n)
    (v : Cell τ) : q.setCell c v = some { q with
      cells := update q.cells c (some { n with val := v }) } := by
  unfold Kproc.setCell LinkedList.setVal
  rw [hn]
  rfl

/-- A theft takes the context of its cell, or finds it taken. -/
theorem stealCell_spec (h : Inv q stealing known l f) (hc : c ∈ l ∨ c ∈ known) :
    ∃ q' r, stealCell c q = some (q', r)
      ∧ ((r = none ∧ q' = q)
        ∨ ∃ t, r = some t ∧ q.wcs t = some c
          ∧ q'.thread = (q.setWcs t none).thread
          ∧ Inv q' (c :: stealing) known l f) := by
  have hlf : c ∈ l ∨ c ∈ f := hc.elim .inl (h.vals.seen c)
  obtain ⟨n, hn, hval⟩ := h.cell hlf
  unfold stealCell
  rw [hn, Option.bind_eq_bind, Option.bind_some]
  by_cases hop : (!n.val.affinity.empty && n.val.state == .inlist) = true
  · rw [if_pos hop]
    have hstate : n.val.state = .inlist :=
      beq_iff_eq.mp (Bool.and_eq_true_iff.mp hop).2
    -- a cell in this state is linked and holds a context
    have hcl : c ∈ l := by
      refine hlf.resolve_right fun hcf => ?_
      have hk : c ∈ known := hc.resolve_left fun hcl => h.disjoint c hcl hcf
      obtain ⟨v, hv, hout⟩ := h.vals.closed c hcf hk
      rw [hval] at hv
      cases hv
      rw [hstate] at hout
      cases hout
    obtain ⟨v, hv, hcell⟩ := h.vals.linked c hcl
    rw [hval] at hv
    cases hv
    rcases hcell with ⟨-, t, ht, hwcs⟩ | ⟨hst, -⟩ | ⟨hst, -⟩
    · simp only [ht, setCell_eq hn, Option.bind_eq_bind, Option.bind_some]
      refine ⟨_, some t, rfl, .inr ⟨t, rfl, hwcs, rfl, ?_, ?_⟩⟩
      · exact h.lists.setVal hn _
      · rw [wcs_setWcs]
        show Vals (valOf (update q.cells c _)) _ _ _ _ _
        rw [valOf_update]
        exact h.vals.release hwcs h.disjoint (.inl ⟨rfl, rfl⟩) rfl
    · rw [hstate] at hst
      cases hst
    · rw [hstate] at hst
      cases hst
  · rw [if_neg hop]
    exact ⟨q, none, rfl, .inl ⟨rfl, rfl⟩⟩

omit [DecidableEq τ] in
/-- The assertion of a thief holds. -/
theorem finishStealCell_spec (h : Inv q stealing known l f)
    (hc : c ∈ stealing) :
    ∃ q', finishStealCell c q = some q' ∧ q'.thread = q.thread
      ∧ Inv q' (stealing.erase c) known l f := by
  obtain ⟨hcl, v, hv, hstate, hthread⟩ := h.vals.taken c hc
  obtain ⟨n, hn, hval⟩ := h.cell (.inl hcl)
  rw [hval] at hv
  cases hv
  unfold finishStealCell
  rw [hn, Option.bind_eq_bind, Option.bind_some, if_pos hstate, setCell_eq hn]
  refine ⟨_, rfl, rfl, h.lists.setVal hn _, ?_⟩
  show Vals (valOf (update q.cells c _)) _ _ _ _ _
  rw [valOf_update]
  exact h.vals.finish hc h.disjoint rfl hthread

omit [DecidableEq τ] in
/-- A cell without context goes to the free list. -/
theorem recycle_spec {l₁ l₂ : List CellId} {n : Node CellId (Cell τ)}
    (h : Inv q stealing known (l₁ ++ c :: l₂) f) (hn : q.cells c = some n)
    (hstate : n.val.state = .outlist) :
    ∃ q', recycle c q = some q' ∧ q'.thread = q.thread
      ∧ Inv q' stealing known (l₁ ++ l₂) (f ++ [c]) := by
  obtain ⟨cells, ends, hr, hlists, hv⟩ := h.lists.bypass
  have hvals : valOf cells = valOf q.cells := funext hv
  have hval : valOf q.cells c = some n.val := by
    unfold valOf
    rw [hn]
    rfl
  obtain ⟨n', hn'⟩ := Option.isSome_iff_exists.mp
    (hlists.alloc c List.mem_cons_self)
  have hval' : n'.val = n.val := by
    have heq := congrFun hvals c
    rw [hval] at heq
    unfold valOf at heq
    rw [hn'] at heq
    exact Option.some.inj heq
  let v : Cell τ := { n'.val with thread := none }
  obtain ⟨cells', happ, hlists', hv'⟩ := hlists.appendFree v
  have hc : c ∉ l₁ ++ l₂ ∧ c ∉ f := by
    have hnot : c ∉ (l₁ ++ l₂) ++ f := (List.nodup_cons.mp hlists.nodup).1
    exact ⟨fun hin => hnot (List.mem_append_left f hin),
      fun hin => hnot (List.mem_append_right _ hin)⟩
  have hinv : Vals (valOf cells') q.wcs stealing known (l₁ ++ l₂)
      (f ++ [c]) := by
    have heq : valOf cells'
        = update (valOf q.cells) c (some v) := by
      rw [show valOf cells' = _ from funext hv', ← hvals]
      exact valOf_update ⟨v, none, none⟩
    rw [heq]
    have hout : v.state = .outlist := by
      show n'.val.state = _
      rw [hval', hstate]
    exact h.vals.recycle hval hstate hout hc.2 hc.1
  unfold recycle
  simp only [hr, hn', Option.bind_eq_bind, Option.bind_some]
  cases htail : q.free.tail with
  | none =>
    rw [htail] at happ
    cases happ
    have hhead : q.free.head = none := by
      have hlast := h.lists.free.tail.symm.trans htail
      rw [List.getLast?_eq_none_iff] at hlast
      rw [h.lists.free.head, hlast]
      rfl
    rw [hhead] at hlists'
    exact ⟨_, rfl, rfl, hlists', hinv⟩
  | some z =>
    rw [htail] at happ
    have hset : setPrev (update cells c (some ⟨v, none, none⟩)) z
        (some c) = some cells' := happ
    have hhead : q.free.head.or (some c) = q.free.head := by
      rw [h.lists.free.head]
      cases f with
      | nil =>
        have hlast := h.lists.free.tail.symm.trans htail
        cases hlast
      | cons a f => rfl
    rw [hhead] at hlists'
    refine ⟨{ q with
      cells := cells'
      lsuspend := ends
      free := ⟨q.free.head, some c⟩ }, ?_, rfl, hlists', hinv⟩
    show (setPrev _ z (some c)).bind _ = _
    rw [hset]
    rfl

end Operations

section Wakeup

variable {q : Kproc τ} {stealing known l f : List CellId} {c : CellId}
  (kid : Nat)

omit [DecidableEq τ] in
theorem conditionTaskIsready_eq (t : ThreadContext) :
    conditionTaskIsready t = threadIsready t := by
  unfold conditionTaskIsready
  cases htl : t.sfp.tasklist with
  | none =>
    unfold threadIsready
    rw [htl]
    dsimp only
    cases Task.taskIsready t.sfp.pc <;> rfl
  | some tl =>
    dsimp only
    cases threadIsready t <;> rfl

/-- A cell with a ready context is taken. -/
theorem takeReady_spec (h : Inv q stealing known l f) (hc : c ∈ l)
    {n : Node CellId (Cell τ)} (hn : q.cells c = some n) :
    ∃ q' r, takeReady kid c n.val.thread q = some (q', r)
      ∧ ((r = none ∧ q' = q)
        ∨ r ≠ none ∧ Woken q q' none r ∧ Inv q' stealing known l f) := by
  cases hthread : n.val.thread with
  | none => exact ⟨q, none, rfl, .inl ⟨rfl, rfl⟩⟩
  | some t =>
    unfold takeReady
    dsimp only
    by_cases hop : ((q.thread t).affinity.has kid
        && threadIsready (q.thread t)) = true
    · rw [if_pos hop]
      have hready := (Bool.and_eq_true_iff.mp hop).2
      obtain ⟨q₁, r, hsteal, hr⟩ := stealCell_spec h (.inl hc)
      simp only [hsteal, Option.bind_eq_bind, Option.bind_some]
      rcases hr with ⟨rfl, rfl⟩ | ⟨t', rfl, hwcs, hthread₁, hinv₁⟩
      · exact ⟨q₁, none, rfl, .inl ⟨rfl, rfl⟩⟩
      · -- the context of the cell is the one that was looked at
        have htt : t' = t := by
          obtain ⟨-, v, hv, -, hvt⟩ := h.vals.back t' c hwcs
          unfold valOf at hv
          rw [hn] at hv
          cases hv
          rw [hthread] at hvt
          exact (Option.some.inj hvt).symm
        subst htt
        rw [if_pos rfl]
        obtain ⟨q₂, hfinish, hthread₂, hinv₂⟩ :=
          finishStealCell_spec hinv₁ List.mem_cons_self
        rw [List.erase_cons_head] at hinv₂
        refine ⟨q₂, some t', ?_, .inr ⟨Option.some_ne_none t', ?_, hinv₂⟩⟩
        · rw [hfinish]
          rfl
        · refine .inr ⟨t', rfl, ?_, .inl hready, hthread₂.trans hthread₁⟩
          rw [hwcs]
          rfl
    · rw [if_neg hop]
      exact ⟨q, none, rfl, .inl ⟨rfl, rfl⟩⟩

/-- The scan from a cell on; by induction on what it has not visited. -/
theorem scan_spec (l₁ : List CellId) {l₂ : List CellId} {fuel : Nat}
    (h : Inv q stealing known (l₁ ++ l₂) f) (hfuel : l₂.length ≤ fuel) :
    ∃ q' r l' f', scan kid fuel l₂.head? q = some (q', r)
      ∧ Woken q q' none r ∧ Inv q' stealing known l' f' := by
  induction l₂ generalizing l₁ f q fuel with
  | nil =>
    refine ⟨q, none, l₁ ++ [], f, ?_, .inl ⟨rfl, rfl⟩, h⟩
    cases fuel <;> rfl
  | cons c l₂ ih =>
    cases fuel with
    | zero => cases hfuel
    | succ fuel =>
      obtain ⟨n, hn, -, hnext⟩ := h.lists.suspended.node
      have hc : c ∈ l₁ ++ c :: l₂ :=
        List.mem_append_right l₁ List.mem_cons_self
      obtain ⟨q₁, r, htake, hr⟩ := takeReady_spec kid h hc hn
      rw [List.head?_cons, scan]
      simp only [hn, htake, Option.bind_eq_bind, Option.bind_some]
      rcases hr with ⟨rfl, rfl⟩ | ⟨hne, hwoken, hinv⟩
      · dsimp only
        by_cases hout : n.val.state = .outlist
        · rw [if_pos hout]
          obtain ⟨q₂, hrec, hthread, hinv⟩ := recycle_spec h hn hout
          rw [hrec, Option.bind_some, hnext]
          obtain ⟨q', r, l', f', hscan, hwoken, hinv'⟩ :=
            ih l₁ hinv (Nat.le_of_succ_le_succ hfuel)
          refine ⟨q', r, l', f', hscan, ?_, hinv'⟩
          unfold Woken Kproc.wcs Kproc.setWcs at hwoken ⊢
          rwa [hthread] at hwoken
        · rw [if_neg hout, hnext]
          have hinv : Inv q₁ stealing known ((l₁ ++ [c]) ++ l₂) f := by
            rw [List.append_assoc]
            exact h
          exact ih _ hinv (Nat.le_of_succ_le_succ hfuel)
      · obtain ⟨t, rfl⟩ := Option.ne_none_iff_exists'.mp hne
        exact ⟨q₁, some t, _, f, rfl, hwoken, hinv⟩

omit [DecidableEq τ] in
/-- There are no more linked cells than cells. -/
theorem Inv.length_le (h : Inv q stealing known l f) :
    l.length ≤ blocentriesSize * q.allocatedbloc.length := by
  let every : List CellId := q.allocatedbloc.flatMap fun b =>
    (List.range blocentriesSize).map fun i => ⟨b, i⟩
  have hlen : every.length = blocentriesSize * q.allocatedbloc.length := by
    simp only [every]
    induction q.allocatedbloc with
    | nil => rfl
    | cons b blocs ih =>
      rw [List.flatMap_cons, List.length_append, ih, List.length_map,
        List.length_range, List.length_cons, Nat.mul_succ, Nat.add_comm]
  have hsub : ∀ c ∈ l, c ∈ every := by
    intro c hc
    obtain ⟨hb, hi⟩ := (h.lists.all c).mp (List.mem_append_left f hc)
    refine List.mem_flatMap.mpr ⟨c.bloc, hb, List.mem_map.mpr ?_⟩
    exact ⟨c.i, List.mem_range.mpr hi, rfl⟩
  rw [← hlen]
  exact (List.subperm_of_subset h.lists.suspended.nodup hsub).length_le

/-- The scan of the whole queue. -/
theorem scanAll_spec (h : Inv q stealing known l f) :
    ∃ q' r l' f', q.scanAll kid = some (q', r)
      ∧ Woken q q' none r ∧ Inv q' stealing known l' f' := by
  unfold Kproc.scanAll
  rw [h.lists.suspended.beg]
  exact scan_spec kid [] h h.length_le

/-- What kaapi_sched_wakeup returns. -/
theorem schedWakeup_spec (h : Inv q stealing known l f) (cond : Option τ)
    (fcondition : Option Bool) :
    ∃ q' r l' f', schedWakeup kid cond fcondition q = some (q', r)
      ∧ Woken q q' (if fcondition = some true then cond else none) r
      ∧ Inv q' stealing known l' f' := by
  have hscan : ∃ q' r l' f', q.scanAll kid = some (q', r)
      ∧ Woken q q' (if fcondition = some true then cond else none) r
      ∧ Inv q' stealing known l' f' := by
    obtain ⟨q', r, l', f', hq, hwoken, hinv⟩ := scanAll_spec kid h
    refine ⟨q', r, l', f', hq, hwoken.imp_right ?_, hinv⟩
    rintro ⟨t, hr, hsome, hready | hnone, hthread⟩
    · exact ⟨t, hr, hsome, .inl hready, hthread⟩
    · cases hnone
  unfold schedWakeup
  split
  next t =>
    cases hwcs : (q.thread t).wcs with
    | none => exact hscan
    | some c =>
      obtain ⟨hcl, -⟩ := h.vals.back t c hwcs
      obtain ⟨n, hn, -⟩ := h.cell (.inl hcl)
      simp only [hn, setCell_eq hn, Option.bind_eq_bind, Option.bind_some]
      refine ⟨_, some t, l, f, rfl, .inr ⟨t, rfl, ?_, .inr rfl, rfl⟩,
        h.lists.setVal hn _, ?_⟩
      · unfold Kproc.wcs
        rw [hwcs]
        rfl
      · rw [wcs_setWcs]
        show Vals (valOf (update q.cells c _)) _ _ _ _ _
        rw [valOf_update]
        exact h.vals.release hwcs h.disjoint (.inr ⟨rfl, rfl⟩) rfl
  next => exact hscan

/-- kaapi_wsqueuectxt_push, with a new block or not. -/
theorem wsqueuectxtPush_spec (h : Inv q stealing known l f) {t : τ}
    {bloc : Nat} (raw : Nat → Node CellId (Cell τ))
    (ht : (q.thread t).wcs = none) (hb : bloc ∉ q.allocatedbloc) :
    ∃ q' c f', wsqueuectxtPush t bloc raw q = some (q', c)
      ∧ q'.thread = (q.setWcs t (some c)).thread
      ∧ Inv q' stealing (known ++ [c]) (c :: l) f' := by
  obtain ⟨q₁, c, f', halloc, hlists, hthread, -, hold, hf, hf'⟩ :=
    alloccell_spec raw h.lists hb
  obtain ⟨n, hn⟩ := Option.isSome_iff_exists.mp
    (hlists.alloc c List.mem_cons_self)
  let v : Cell τ := ⟨.inlist, (q₁.thread t).affinity, some t⟩
  obtain ⟨cells, ends, hins, hlists', hv⟩ :=
    (hlists.setVal hn v).insertFirst
  have hnot : c ∉ l ++ f' := (List.nodup_cons.mp hlists.nodup).1
  have hmem : ∀ i, i ∈ l ∨ i ∈ f → i.bloc ∈ q.allocatedbloc := fun i hi =>
    ((h.lists.all i).mp (List.mem_append.mpr hi : i ∈ l ++ f)).1
  have hvals : valOf cells = update (valOf q₁.cells) c (some v) :=
    (funext hv).trans (valOf_update _)
  refine ⟨{ q₁.setWcs t (some c) with
      cells := cells
      lsuspend := ends }, c, f', ?_, ?_, hlists', ?_⟩
  · unfold wsqueuectxtPush
    simp only [halloc, setCell_eq hn, Kproc.setWcs, Option.bind_eq_bind,
      Option.bind_some]
    rw [hins]
    rfl
  · show (q₁.setWcs t (some c)).thread = _
    unfold Kproc.setWcs
    rw [hthread]
  · have hwcs : Kproc.wcs ({ q₁.setWcs t (some c) with
        cells := cells
        lsuspend := ends } : Kproc τ)
        = update q.wcs t (some c) := by
      have heq := wcs_setWcs q₁ t (some c)
      have hsame : q₁.wcs = q.wcs := by
        unfold Kproc.wcs
        rw [hthread]
      rw [hsame] at heq
      exact heq
    rw [hwcs, show valOf _ = _ from hvals]
    refine h.vals.push (fun i hi => ?_) ht ?_ hf (fun i hi => ⟨?_, ?_⟩) rfl rfl
    · unfold valOf
      rw [hold i (hmem i hi)]
    · exact fun hc => hnot (List.mem_append_left f' hc)
    · rintro rfl
      exact hnot (List.mem_append_right l hi)
    · intro hk
      have hb' := hmem i (h.vals.seen i hk)
      exact (hf' i hi).resolve_right fun hne => hne hb'

end Wakeup

-- ======== the runs

/-- The invariant of the whole machine: a context has been pushed once
more than returned exactly while it points to a cell. -/
structure StateInv (s : State τ) (l f : List CellId) : Prop where
  inv : Inv s.q s.stealing s.known l f
  counts : ∀ t, s.pushes t = s.returns t + if (s.q.wcs t).isSome then 1 else 0
  ready : ∀ t r cond, .woken t r cond ∈ s.log →
    r = true ∨ cond = some (.other true)

section Runs

variable {s s' : State τ} {l f : List CellId}

/-- A context is in the queue iff it has a cell. -/
theorem inQueue_iff (h : StateInv s l f) (t : τ) :
    InQueue s.q l t ↔ (s.q.wcs t).isSome := by
  constructor
  · intro ⟨c, hc, n, hn, ht⟩
    obtain ⟨v, hv, hcell⟩ := h.inv.vals.linked c hc
    unfold valOf at hv
    rw [hn] at hv
    cases hv
    rcases hcell with ⟨-, t', ht', hwcs⟩ | ⟨-, hnone, -⟩ | ⟨-, hnone⟩
    · rw [ht] at ht'
      cases ht'
      rw [hwcs]
      rfl
    · rw [ht] at hnone
      cases hnone
    · rw [ht] at hnone
      cases hnone
  · intro hsome
    obtain ⟨c, hc⟩ := Option.isSome_iff_exists.mp hsome
    obtain ⟨hcl, v, hv, -, ht⟩ := h.inv.vals.back t c hc
    obtain ⟨n, hn, hval⟩ := h.inv.cell (.inl hcl)
    rw [hval] at hv
    cases hv
    exact ⟨c, hcl, n, hn, ht⟩

/-- A context that was returned is suspended no more. -/
theorem StateInv.returned (h : StateInv s l f) {e : Event τ} {t : τ}
    (he : (∃ r cond, e = .woken t r cond ∧ (r = true ∨ cond = some (.other true)))
      ∨ e = .stolen t) (ht : (s.q.wcs t).isSome)
    (hwcs : s'.q.wcs = update s.q.wcs t none)
    (hlog : s'.log = s.log ++ [e])
    {l' f' : List CellId} (hinv : Inv s'.q s'.stealing s.known l' f') :
    StateInv s' l' f' := by
  refine ⟨?_, fun t' => ?_, fun t' r cond hmem => ?_⟩
  · have hknown : s'.known = s.known := by
      unfold State.known
      rw [hlog, List.filterMap_append]
      rcases he with ⟨r, cond, rfl, -⟩ | rfl
      · exact List.append_nil _
      · exact List.append_nil _
    rwa [hknown]
  · have hcount := h.counts t'
    have hpush : s'.pushes t' = s.pushes t' := by
      unfold State.pushes
      rw [hlog, List.countP_append]
      rcases he with ⟨r, cond, rfl, -⟩ | rfl <;> rfl
    have hreturn : s'.returns t' = s.returns t' + if t = t' then 1 else 0 := by
      unfold State.returns
      rw [hlog, List.countP_append]
      rcases he with ⟨r, cond, rfl, -⟩ | rfl
      · by_cases htt : t = t' <;> simp [htt]
      · by_cases htt : t = t' <;> simp [htt]
    rw [hpush, hreturn, hwcs]
    by_cases htt : t = t'
    · subst htt
      rw [if_pos ht] at hcount
      rw [if_pos rfl, update_self]
      simpa using hcount
    · rw [if_neg htt, update_of_ne (Ne.symm htt)]
      exact hcount
  · rw [hlog, List.mem_append, List.mem_singleton] at hmem
    rcases hmem with hmem | heq
    · exact h.ready t' r cond hmem
    · rcases he with ⟨r', cond', rfl, hr⟩ | rfl
      · cases heq
        exact hr
      · cases heq

/-- `held` is the context the wake-up was called for, if its condition
holds. -/
theorem StateInv.wakes (h : StateInv s l f) (cond : Option (τ × Condition))
    {held : Option τ} (hheld : ∀ t, held = some t →
      ∃ c, cond = some (t, c) ∧ c.answer (s.q.thread t) = true)
    {q : Kproc τ} {r : Option τ} (hw : Woken s.q q held r) {l' f' : List CellId}
    (hinv : Inv q s.stealing s.known l' f') :
    StateInv { s with q := q, log := s.log ++ s.woken cond r } l' f' := by
  rcases hw with ⟨rfl, hthread⟩ | ⟨t, rfl, hsome, hready, hthread⟩
  · have hlog : s.log ++ s.woken cond none = s.log := List.append_nil _
    rw [hlog]
    refine ⟨hinv, fun t => ?_, h.ready⟩
    have hwcs : q.wcs = s.q.wcs := by
      unfold Kproc.wcs
      rw [hthread]
    show s.pushes t = s.returns t + if (q.wcs t).isSome then 1 else 0
    rw [hwcs]
    exact h.counts t
  · refine h.returned (.inl ⟨_, _, rfl, ?_⟩) hsome ?_ rfl hinv
    · rcases hready with hready | hcond
      · exact .inl hready
      · obtain ⟨c, rfl, hc⟩ := hheld t hcond
        cases c with
        | taskIsready => exact .inl ((conditionTaskIsready_eq _).symm.trans hc)
        | other answer =>
          have hc : answer = true := hc
          subst hc
          refine .inr ?_
          simp [Option.filter]
    · rw [← wcs_setWcs]
      unfold Kproc.wcs
      rw [hthread]

/-- No call fails, and each keeps the invariant. -/
theorem exists_effect (h : StateInv s l f) {a : Action τ} (ha : Enabled a s) :
    ∃ s' l' f', effect a s = some s' ∧ StateInv s' l' f' := by
  cases a with
  | push t bloc raw =>
    obtain ⟨q, c, f', hpush, hthread, hinv⟩ :=
      wsqueuectxtPush_spec h.inv raw ha.1 ha.2
    refine ⟨{ s with q := q, log := s.log ++ [.pushed t c] }, c :: l, f',
      ?_, ?_, fun t' => ?_, fun t' r cond hmem => ?_⟩
    · simp only [effect, hpush, Option.bind_eq_bind, Option.bind_some]
      rfl
    · have hknown : State.known
          { s with q := q, log := s.log ++ [.pushed t c] }
          = s.known ++ [c] := List.filterMap_append
      rw [hknown]
      exact hinv
    · have hwcs : q.wcs = update s.q.wcs t (some c) := by
        rw [← wcs_setWcs]
        unfold Kproc.wcs
        rw [hthread]
      have hcount := h.counts t'
      show (s.log ++ [_]).countP _ = (s.log ++ [_]).countP _
        + if (q.wcs t').isSome then 1 else 0
      rw [List.countP_append, List.countP_append, hwcs]
      have hnone : s.q.wcs t = none := ha.1
      unfold State.pushes State.returns at hcount
      rw [hcount]
      by_cases htt : t = t'
      · subst htt
        rw [hnone, update_self]
        simp
      · rw [update_of_ne (Ne.symm htt)]
        simp [htt]
    · rcases List.mem_append.mp hmem with hmem | heq
      · exact h.ready t' r cond hmem
      · cases List.mem_singleton.mp heq
  | wakeup kid =>
    obtain ⟨q, r, l', f', hwake, hw, hinv⟩ :=
      schedWakeup_spec kid h.inv none none
    refine ⟨_, l', f', ?_, h.wakes none (fun t ht => ?_) hw hinv⟩
    · simp only [effect, hwake, Option.bind_eq_bind, Option.bind_some]
      rfl
    · cases ht
  | wakeupCond kid t cond =>
    obtain ⟨q, r, l', f', hwake, hw, hinv⟩ := schedWakeup_spec kid h.inv
      (some t) (some (cond.answer (s.q.thread t)))
    refine ⟨_, l', f', ?_, h.wakes (some (t, cond)) ?_ hw hinv⟩
    · simp only [effect, hwake, Option.bind_eq_bind, Option.bind_some]
      rfl
    · intro t' ht'
      split at ht'
      next hanswer =>
        cases ht'
        exact ⟨cond, rfl, Option.some.inj hanswer⟩
      next => cases ht'
  | stealCell c =>
    obtain ⟨q, r, hsteal, hr⟩ := stealCell_spec h.inv (.inr ha)
    rcases hr with ⟨rfl, rfl⟩ | ⟨t, rfl, hwcs, hthread, hinv⟩
    · refine ⟨s, l, f, ?_, h⟩
      simp only [effect, hsteal, Option.bind_eq_bind, Option.bind_some]
    · refine ⟨{ s with
        q := q
        stealing := c :: s.stealing
        log := s.log ++ [.stolen t] }, l, f, ?_, ?_⟩
      · simp only [effect, hsteal, Option.bind_eq_bind, Option.bind_some]
      refine h.returned (.inr rfl) ?_ ?_ rfl hinv
      · rw [hwcs]
        rfl
      · rw [← wcs_setWcs]
        unfold Kproc.wcs
        rw [hthread]
  | finishStealCell c =>
    obtain ⟨q, hfinish, hthread, hinv⟩ := finishStealCell_spec h.inv ha
    refine ⟨{ s with q := q, stealing := s.stealing.erase c }, l, f, ?_,
      hinv, fun t => ?_, h.ready⟩
    · simp only [effect, hfinish, Option.bind_eq_bind, Option.bind_some]
      rfl
    have hwcs : q.wcs = s.q.wcs := by
      unfold Kproc.wcs
      rw [hthread]
    show s.pushes t = s.returns t + if (q.wcs t).isSome then 1 else 0
    rw [hwcs]
    exact h.counts t
  | threadRuns t affinity sfp =>
    -- nothing the queue depends on is written
    have hwcs : Kproc.wcs ({ s.q with
        thread := update s.q.thread t
          ⟨(s.q.thread t).wcs, affinity, sfp⟩ } : Kproc τ) = s.q.wcs := by
      funext t'
      show (update s.q.thread t _ t').wcs = (s.q.thread t').wcs
      by_cases ht : t' = t
      · rw [ht, update_self]
      · rw [update_of_ne ht]
    refine ⟨_, l, f, rfl, ⟨h.inv.lists, ?_⟩, fun t' => ?_, h.ready⟩
    · rw [hwcs]
      exact h.inv.vals
    · rw [hwcs]
      exact h.counts t'

/-- At the start nothing is suspended. -/
theorem stateInv_start (thread : τ → ThreadContext) :
    StateInv (start thread) [] [] := by
  refine ⟨⟨⟨isList_nil _, ⟨rfl, rfl, trivial⟩, List.nodup_nil, ?_, ?_⟩,
    ?_, ?_, ?_, List.nodup_nil, ?_, ?_⟩, fun t => rfl, ?_⟩
  · intro c
    constructor
    · intro hc
      cases hc
    · intro hc
      cases hc.1
  · intro c hc
    cases hc
  · intro c hc
    cases hc
  · intro t c hc
    cases hc
  · intro c hc
    cases hc
  · intro c hc
    cases hc
  · intro c hc
    cases hc
  · intro t r cond hmem
    cases hmem

/-- The invariant gives what is promised. -/
theorem StateInv.suspendedOk (h : StateInv s l f) : SuspendedOk s := by
  have hnd : (l ++ f).Nodup := h.inv.lists.nodup
  refine ⟨⟨l, f, ⟨h.inv.lists.suspended, h.inv.lists.free,
    (List.nodup_append.mp hnd).2.1, h.inv.disjoint, fun c => ?_⟩,
    fun t => ?_⟩, h.ready, fun a ha => ?_⟩
  · exact List.mem_append.symm.trans (h.inv.lists.all c)
  · have hcount := h.counts t
    by_cases ht : (s.q.wcs t).isSome
    · rw [if_pos ht] at hcount
      exact .inl ⟨(inQueue_iff h t).mpr ht, hcount⟩
    · rw [if_neg ht] at hcount
      exact .inr ⟨fun hin => ht ((inQueue_iff h t).mp hin), hcount⟩
  · obtain ⟨s', -, -, heffect, -⟩ := exists_effect h ha
    refine ⟨s', ?_⟩
    rw [step, if_pos ha]
    exact heffect

end Runs

/-- For every sequence of pushes, wake-ups and steals, with the contexts
running in between: the suspended list and the free list are well formed,
disjoint and hold every allocated cell; every context that was pushed is
in the queue until it is returned, and is returned once; a wake-up
returns a context that is ready, or the one it was called for when the
condition it was called with holds; and no call follows a null pointer or
fails an assertion. -/
theorem suspendedOk_run (thread : τ → ThreadContext) (as : List (Action τ))
    (s : State τ) (hrun : run step as (start thread) = some s) :
    SuspendedOk s := by
  have hinv : ∃ l f, StateInv s l f := by
    refine run_preserves (P := fun s => ∃ l f, StateInv s l f) ?_
      ⟨[], [], stateInv_start thread⟩ hrun
    intro a s s' ⟨l, f, h⟩ hstep
    rw [step] at hstep
    split at hstep
    next ha =>
      obtain ⟨s'', l', f', heffect, h'⟩ := exists_effect h ha
      rw [heffect] at hstep
      cases hstep
      exact ⟨l', f', h'⟩
    next => cases hstep
  obtain ⟨l, f, h⟩ := hinv
  exact h.suspendedOk

/-- Two contexts are pushed; a thief takes the first and the owner wakes
the second, whose task is ready; then their cells are recycled, and one is
used again by a context that waits for another condition. -/
def twoContexts : List (Action Nat) :=
  let raw : Nat → Node CellId (Cell Nat) := fun _ =>
    ⟨⟨.inlist, ⟨fun _ => 1⟩, some 7⟩, none, none⟩
  [.push 0 4 raw, .push 1 5 raw, .stealCell ⟨4, 0⟩,
    .wakeupCond 0 1 .taskIsready, .finishStealCell ⟨4, 0⟩, .wakeup 0,
    .push 1 5 raw, .wakeupCond 0 1 (.other true)]

/-- They may run anywhere, and their tasks are ready. -/
def readyContext : ThreadContext := ⟨none, ⟨fun _ => 1⟩, ⟨none, 0⟩⟩

theorem suspendedOk_run_two : ∃ s,
    run step twoContexts (start fun _ => readyContext) = some s
      ∧ SuspendedOk s :=
  ⟨_, rfl, suspendedOk_run (fun _ => readyContext) twoContexts _ rfl⟩

/-- A context suspended in a barrier, on the top task of whose stack a
thief is at work. -/
def inBarrier : ThreadContext :=
  ⟨none, ⟨fun _ => 0⟩, ⟨none, Task.taskStateSteal⟩⟩

/-- The barrier is reached: the context is woken though its task is not
ready. -/
theorem woken_not_ready : ∃ s,
    run step [.push 0 4 (fun _ => ⟨⟨.inlist, ⟨fun _ => 0⟩, none⟩, none, none⟩),
        .wakeupCond 0 0 (.other true)] (start fun _ => inBarrier) = some s
      ∧ Event.woken (0 : Nat) false (some (.other true)) ∈ s.log :=
  ⟨_, rfl, .tail _ (.head _)⟩

end XKaapi.Suspended
