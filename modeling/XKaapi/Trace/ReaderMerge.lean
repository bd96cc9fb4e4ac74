/-
The events are read as a merge of the files by date (`merged_iff`), if no
file is a header only.

# Method

A file that is opened will give some events, whatever it is: those of its
own, or the one read outside of it. `Ready` ties the state of the reader to
the events that each file is still to give; a round of the loop is one step
of `Merge.Merges` (`Ready.top`, `Ready.advance`).
-/
import XKaapi.Lib.Merge
import XKaapi.Lib.Tally
import XKaapi.Trace.Reader

namespace XKaapi.Trace

open Merge
open Function (update update_of_ne update_self)

variable {π : Type}

-- ======== the property

/-- The files that are not empty: they are those of the set, in order. -/
def nonEmpty (files : List (EventFile π)) : List (List (Event π)) := files.filterMap id

/-- The dates of some lists of events. -/
def datesOf (done : List (List (Event π))) : Set Nat :=
  { d | ∃ evs ∈ done, ∃ e ∈ evs, e.date = d }

/-- The callback is called on the events of each file, in their order, and
on nothing else; the dates never go back. `TopEvent` and `NextEvent` give
the same events, and the interval is that of their dates. -/
structure Merged (pq : EventQueue) (files : List (EventFile π)) (fs : FileSet π) :
    Prop where
  read : ∃ log fuel, fs.readFiles pq fuel = some log
    ∧ (∀ i, (log.filter fun p => decide (p.1 = i)).map Prod.snd
        = (nonEmpty files)[i]?.getD [])
    ∧ (log.Pairwise fun p q => p.2.date ≤ q.2.date)
    ∧ fs.enumerate pq fuel = some (log.map Prod.snd)
  interval : ∀ tmin tmax, fs.getInterval = some (tmin, tmax) →
    IsLeast (datesOf (nonEmpty files)) tmin ∧ IsGreatest (datesOf (nonEmpty files)) tmax

-- ======== the invariant

/-- The file gives these events before it is at its end. -/
structure FileEvent.Gives (fe : FileEvent π) (evs : List (Event π)) : Prop where
  base : ∀ k e, evs[k]? = some e → fe.base (fe.rpos + k : Nat) = e
  stop : evs ≠ [] → max fe.stop 1 = fe.rpos + evs.length

/-- What the files of the set are still to give, and the queue. -/
structure Ready (fs : FileSet π) (rest : Nat → List (Event π)) : Prop where
  gives : ∀ i, (fs.fds i).Gives (rest i)
  entries : (fs.eventqueue.map NextEvent.fds).Nodup
  queue : ∀ ne, ne ∈ fs.eventqueue ↔ ∃ e es, rest ne.fds = e :: es ∧ ne.date = e.date
  size : ∀ i, fs.size ≤ i → rest i = []

variable {fs : FileSet π} {rest : Nat → List (Event π)} {ne : NextEvent}
  {es : List (Event π)} {fe : FileEvent π} {e : Event π} {files : List (EventFile π)}
  {outside : Nat → Int → Event π}

/-- The event that is read first. -/
theorem FileEvent.Gives.head (h : fe.Gives (e :: es)) : fe.base fe.rpos = e :=
  h.base 0 e rfl

/-- The events that are left. -/
theorem FileEvent.Gives.tail (h : fe.Gives (e :: es)) :
    { fe with rpos := fe.rpos + 1 }.Gives es where
  base k f hf := by
    have hk := h.base (k + 1) f hf
    rw [← Nat.succ_add_eq_add_succ] at hk
    exact hk
  stop _ := by
    have hs := h.stop (List.cons_ne_nil e es)
    rw [List.length_cons, ← Nat.succ_add_eq_add_succ] at hs
    exact hs

theorem FileEvent.Gives.more (h : fe.Gives (e :: es)) :
    fe.rpos + 1 < fe.stop ↔ es ≠ [] := by
  have hs := h.stop (List.cons_ne_nil e es)
  rw [List.length_cons] at hs
  rw [← List.length_pos_iff]
  omega

/-- The queue has the next event of a file. -/
theorem Ready.top (h : Ready fs rest) (pq : EventQueue) (hq : fs.eventqueue ≠ []) :
    ∃ e es, pq.top fs.pops fs.eventqueue ∈ fs.eventqueue
      ∧ rest (pq.top fs.pops fs.eventqueue).fds = e :: es
      ∧ (fs.fds (pq.top fs.pops fs.eventqueue).fds).base
          (fs.fds (pq.top fs.pops fs.eventqueue).fds).rpos = e
      ∧ ∀ j f fs', rest j = f :: fs' → e.date ≤ f.date := by
  have hmem := pq.top_mem fs.pops fs.eventqueue hq
  obtain ⟨e, es, hrest, hdate⟩ := (h.queue _).mp hmem
  refine ⟨e, es, hmem, hrest, ?_, fun j f fs' hj => ?_⟩
  · have hg := h.gives (pq.top fs.pops fs.eventqueue).fds
    rw [hrest] at hg
    exact hg.head
  · rw [← hdate]
    exact pq.top_le _ _ ⟨f.date, j⟩ ((h.queue _).mpr ⟨f, fs', hj, rfl⟩)

theorem Ready.mem_erase (h : Ready fs rest) (hne : ne ∈ fs.eventqueue) (x : NextEvent) :
    x ∈ fs.eventqueue.erase ne ↔ x ∈ fs.eventqueue ∧ x.fds ≠ ne.fds := by
  have hnd : fs.eventqueue.Nodup := List.Nodup.of_map _ h.entries
  rw [hnd.mem_erase_iff]
  constructor
  · rintro ⟨hx, hmem⟩
    exact ⟨hmem, fun hfds => hx (List.inj_on_of_nodup_map h.entries hmem hne hfds)⟩
  · rintro ⟨hmem, hfds⟩
    exact ⟨fun hx => hfds (hx ▸ rfl), hmem⟩

/-- One round: the file on top has given its event. -/
theorem Ready.advance (h : Ready fs rest) (hne : ne ∈ fs.eventqueue)
    (hrest : rest ne.fds = e :: es) : Ready (fs.advance ne) (update rest ne.fds es) := by
  have hg := h.gives ne.fds
  rw [hrest] at hg
  have hfe : (fs.advance ne).fds ne.fds
      = { fs.fds ne.fds with rpos := (fs.fds ne.fds).rpos + 1 } := update_self ..
  have hsub : List.Sublist ((fs.eventqueue.erase ne).map NextEvent.fds)
      (fs.eventqueue.map NextEvent.fds) := List.erase_sublist.map _
  have hnew : ne.fds ∉ (fs.eventqueue.erase ne).map NextEvent.fds := by
    intro hin
    obtain ⟨x, hx, hfds⟩ := List.mem_map.mp hin
    exact ((h.mem_erase hne x).mp hx).2 hfds
  refine ⟨fun i => ?_, ?_, fun x => ?_, fun i hi => ?_⟩
  · by_cases hi : i = ne.fds
    · rw [hi, hfe, update_self]
      exact hg.tail
    · rw [update_of_ne hi]
      unfold FileSet.advance
      dsimp only
      rw [update_of_ne hi]
      exact h.gives i
  · unfold FileSet.advance
    dsimp only
    split
    next => exact List.nodup_cons.mpr ⟨hnew, h.entries.sublist hsub⟩
    next => exact h.entries.sublist hsub
  · have hother : x.fds ≠ ne.fds → (x ∈ fs.eventqueue.erase ne
        ↔ ∃ f fs', update rest ne.fds es x.fds = f :: fs' ∧ x.date = f.date) := by
      intro hx
      rw [update_of_ne hx, h.mem_erase hne, and_iff_left hx]
      exact h.queue x
    unfold FileSet.advance
    dsimp only
    by_cases hx : x.fds = ne.fds
    · have hno : x ∉ fs.eventqueue.erase ne := fun hin => ((h.mem_erase hne x).mp hin).2 hx
      rw [hx, update_self]
      cases es with
      | nil =>
        rw [if_neg (mt hg.more.mp fun hnil => hnil rfl)]
        exact iff_of_false hno fun ⟨_, _, hnil, _⟩ => nomatch hnil
      | cons f fs' =>
        rw [if_pos (hg.more.mpr (List.cons_ne_nil f fs')), List.mem_cons, or_iff_left hno]
        have hdate : (fs.fds ne.fds).base ((fs.fds ne.fds).rpos + 1 : Nat) = f := hg.tail.head
        rw [hdate]
        constructor
        · rintro rfl
          exact ⟨f, fs', rfl, rfl⟩
        · rintro ⟨f', _, hf, hd⟩
          cases hf
          obtain ⟨xd, xf⟩ := x
          cases hd
          cases hx
          rfl
    · split
      next =>
        rw [List.mem_cons, or_iff_right fun heq : x = _ => hx (by rw [heq])]
        exact hother hx
      next => exact hother hx
  · have hin : i ≠ ne.fds := by
      rintro rfl
      rw [h.size _ hi] at hrest
      cases hrest
    rw [update_of_ne hin]
    exact h.size i hi

theorem Ready.lt_size {i : Nat} (h : Ready fs rest) (hrest : rest i = e :: es) :
    i < fs.size := by
  by_contra hge
  rw [h.size _ (Nat.le_of_not_lt hge)] at hrest
  cases hrest

/-- With an empty queue nothing is left. -/
theorem Ready.rest_nil (h : Ready fs rest) (hq : fs.eventqueue = []) (i : Nat) :
    rest i = [] := by
  cases hi : rest i with
  | nil => rfl
  | cons e es =>
    have hmem : (⟨e.date, i⟩ : NextEvent) ∈ fs.eventqueue := (h.queue _).mpr ⟨e, es, hi, rfl⟩
    rw [hq] at hmem
    cases hmem

section

variable (pq : EventQueue)
include pq

theorem readFiles_nil (n : Nat) (hq : fs.eventqueue = []) :
    fs.readFiles pq (n + 1) = some [] := if_pos hq

theorem readFiles_cons (n : Nat) (hq : fs.eventqueue ≠ [])
    (hne : pq.top fs.pops fs.eventqueue = ne) :
    fs.readFiles pq (n + 1) = ((fs.advance ne).readFiles pq n).map
      ((ne.fds, (fs.fds ne.fds).base (fs.fds ne.fds).rpos) :: ·) := by
  subst hne
  exact if_neg hq

theorem enumerate_nil (n : Nat) (hq : fs.eventqueue = []) :
    fs.enumerate pq (n + 1) = some [] := by
  unfold FileSet.enumerate FileSet.topEvent
  rw [if_pos hq]

theorem enumerate_cons (n : Nat) (hq : fs.eventqueue ≠ [])
    (hne : pq.top fs.pops fs.eventqueue = ne) :
    fs.enumerate pq (n + 1) = ((fs.advance ne).enumerate pq n).map
      ((fs.fds ne.fds).base (fs.fds ne.fds).rpos :: ·) := by
  subst hne
  have htop : fs.topEvent pq = some ((fs.fds (pq.top fs.pops fs.eventqueue).fds).base
      (fs.fds (pq.top fs.pops fs.eventqueue).fds).rpos) := if_neg hq
  have hnext : fs.nextEvent pq = fs.advance (pq.top fs.pops fs.eventqueue) := if_neg hq
  rw [FileSet.enumerate, htop, hnext]

/-- What is read is a merge of the files. -/
theorem Ready.merges {fuel : Nat} {log : List (Nat × Event π)} (h : Ready fs rest)
    (hread : fs.readFiles pq fuel = some log) : Merges Event.date rest log := by
  induction fuel generalizing fs rest log with
  | zero => cases hread
  | succ fuel ih =>
    by_cases hq : fs.eventqueue = []
    · rw [readFiles_nil pq fuel hq] at hread
      cases hread
      exact Merges.done (h.rest_nil hq)
    · obtain ⟨e, es, hmem, hrest, hbase, hle⟩ := h.top pq hq
      rw [readFiles_cons pq fuel hq rfl, hbase] at hread
      obtain ⟨log', hread', rfl⟩ := Option.map_eq_some_iff.mp hread
      exact Merges.take hrest hle (ih (h.advance hmem hrest) hread')

/-- The loop ends, after as many rounds as there are events to give and one
more; and so does the enumeration. -/
theorem Ready.reads {n : Nat} (h : Ready fs rest)
    (hn : ∑ i ∈ Finset.range fs.size, (rest i).length = n) :
    ∃ log, fs.readFiles pq (n + 1) = some log
      ∧ fs.enumerate pq (n + 1) = some (log.map Prod.snd) := by
  induction n generalizing fs rest with
  | zero =>
    have hq : fs.eventqueue = [] := by
      by_contra hq
      obtain ⟨e, es, -, hrest, -⟩ := h.top pq hq
      have hle := Tally.le_sum (h.lt_size hrest) fun i => (rest i).length
      rw [hn, hrest] at hle
      exact absurd hle (Nat.not_succ_le_zero _)
    exact ⟨[], readFiles_nil pq 0 hq, enumerate_nil pq 0 hq⟩
  | succ n ih =>
    by_cases hq : fs.eventqueue = []
    · exact ⟨[], readFiles_nil pq (n + 1) hq, enumerate_nil pq (n + 1) hq⟩
    · obtain ⟨e, es, hmem, hrest, -, -⟩ := h.top pq hq
      have hsum := Tally.sum_update (h.lt_size hrest) List.length rest es
      rw [hn, hrest, List.length_cons] at hsum
      have hn' : ∑ i ∈ Finset.range fs.size,
          (update rest (pq.top fs.pops fs.eventqueue).fds es i).length = n := by
        omega
      obtain ⟨log, hread, henum⟩ := ih (h.advance hmem hrest) hn'
      rw [readFiles_cons pq (n + 1) hq rfl, enumerate_cons pq (n + 1) hq rfl, hread, henum]
      exact ⟨_, rfl, rfl⟩

end

-- ======== opening

section Opening

variable (outside : Nat → Int → Event π) {evs : List (Event π)}

/-- What a file of the set gives: its events, or the one read outside. -/
def given (outside : Int → Event π) (evs : List (Event π)) : List (Event π) :=
  memory outside evs 0 :: evs.tail

/-- A mapped file gives its events. -/
theorem mapFile_gives (outside : Int → Event π) (evs : List (Event π)) :
    (mapFile outside evs).Gives (given outside evs) where
  base k e hk := by
    change memory outside evs ((0 + k : Nat) : Int) = e
    rw [Nat.zero_add]
    cases k with
    | zero => exact Option.some.inj hk
    | succ k =>
      cases evs with
      | nil => cases hk
      | cons f fs =>
        change (fs[k]?).getD _ = e
        rw [show fs[k]? = some e from hk]
        rfl
  stop _ := by
    change max evs.length 1 = 0 + (evs.tail.length + 1)
    rw [List.length_tail]
    omega

/-- One more file is opened. -/
theorem Ready.openFile (h : Ready fs rest) (evs : List (Event π)) :
    Ready (openFile outside fs (some evs))
      (update rest fs.size (given (outside fs.size) evs)) := by
  have hnew : fs.size ∉ fs.eventqueue.map NextEvent.fds := by
    intro hin
    obtain ⟨x, hx, hfds⟩ := List.mem_map.mp hin
    obtain ⟨e, es, hrest, -⟩ := (h.queue x).mp hx
    exact absurd (h.lt_size hrest) (hfds ▸ Nat.lt_irrefl _)
  refine ⟨fun i => ?_, List.nodup_cons.mpr ⟨hnew, h.entries⟩, fun x => ?_, fun i hi => ?_⟩
  · change (update fs.fds fs.size (mapFile (outside fs.size) evs) i).Gives _
    by_cases hi : i = fs.size
    · subst hi
      rw [update_self, update_self]
      exact mapFile_gives ..
    · rw [update_of_ne hi, update_of_ne hi]
      exact h.gives i
  · change x ∈ (⟨_, fs.size⟩ : NextEvent) :: fs.eventqueue ↔ _
    by_cases hx : x.fds = fs.size
    · have hno : x ∉ fs.eventqueue := fun hin => hnew (hx ▸ List.mem_map_of_mem hin)
      rw [hx, update_self, List.mem_cons, or_iff_left hno]
      constructor
      · rintro rfl
        exact ⟨_, _, rfl, rfl⟩
      · rintro ⟨e, es, he, hd⟩
        cases he
        obtain ⟨xd, xf⟩ := x
        cases hd
        cases hx
        rfl
    · rw [update_of_ne hx, List.mem_cons,
        or_iff_right fun heq : x = _ => hx (by rw [heq])]
      exact h.queue x
  · have hle : fs.size + 1 ≤ i := hi
    rw [update_of_ne (Nat.ne_of_gt hle)]
    exact h.size i (Nat.le_of_succ_le hle)

theorem openFiles_concat (files : List (EventFile π)) (f : EventFile π) :
    openFiles outside (files ++ [f]) = openFile outside (openFiles outside files) f :=
  List.foldl_concat ..

theorem nonEmpty_concat_some (files : List (EventFile π)) (evs : List (Event π)) :
    nonEmpty (files ++ [some evs]) = nonEmpty files ++ [evs] := List.filterMap_append

theorem nonEmpty_concat_none (files : List (EventFile π)) :
    nonEmpty (files ++ [none]) = nonEmpty files :=
  List.filterMap_append.trans (List.append_nil _)

theorem openFiles_size (files : List (EventFile π)) :
    (openFiles outside files).size = (nonEmpty files).length := by
  induction files using List.reverseRecOn with
  | nil => rfl
  | append_singleton files f ih =>
    rw [openFiles_concat]
    cases f with
    | none =>
      rw [nonEmpty_concat_none]
      exact ih
    | some evs =>
      rw [nonEmpty_concat_some, List.length_append, ← ih]
      rfl

/-- What the files of the set give at the start. -/
def restOf (outside : Nat → Int → Event π) (files : List (EventFile π)) (i : Nat) :
    List (Event π) :=
  match (nonEmpty files)[i]? with
  | some evs => given (outside i) evs
  | none => []

theorem restOf_concat (files : List (EventFile π)) (evs : List (Event π)) :
    restOf outside (files ++ [some evs]) = update (restOf outside files)
      (nonEmpty files).length (given (outside (nonEmpty files).length) evs) := by
  funext i
  unfold restOf
  rw [nonEmpty_concat_some]
  rcases lt_trichotomy i (nonEmpty files).length with hi | rfl | hi
  · rw [List.getElem?_append_left hi, update_of_ne (Nat.ne_of_lt hi)]
  · rw [List.getElem?_concat_length, update_self]
  · rw [update_of_ne (Nat.ne_of_gt hi), List.getElem?_eq_none (Nat.le_of_lt hi),
      List.getElem?_eq_none]
    rw [List.length_append]
    exact hi

/-- The files are ready when all are open. -/
theorem openFiles_ready (files : List (EventFile π)) :
    Ready (openFiles outside files) (restOf outside files) := by
  induction files using List.reverseRecOn with
  | nil =>
    refine ⟨fun i => ⟨fun k e hk => ?_, fun hne => absurd rfl hne⟩, List.nodup_nil,
      fun x => iff_of_false List.not_mem_nil ?_, fun _ _ => rfl⟩
    · cases hk
    · rintro ⟨_, _, h, -⟩
      cases h
  | append_singleton files f ih =>
    rw [openFiles_concat]
    cases f with
    | none =>
      have hrest : restOf outside (files ++ [none]) = restOf outside files := by
        unfold restOf
        rw [nonEmpty_concat_none]
      rw [hrest]
      exact ih
    | some evs =>
      rw [restOf_concat, ← openFiles_size outside]
      exact ih.openFile outside evs

-- ======== the interval

theorem datesOf_nil : datesOf ([] : List (List (Event π))) = ∅ :=
  Set.eq_empty_of_forall_notMem fun _ ⟨_, hmem, _⟩ => List.not_mem_nil hmem

theorem datesOf_concat (done : List (List (Event π))) (evs : List (Event π)) :
    datesOf (done ++ [evs]) = datesOf done ∪ { d | ∃ e ∈ evs, e.date = d } := by
  ext d
  constructor
  · rintro ⟨evs', hmem, he⟩
    rcases List.mem_append.mp hmem with hmem | hmem
    · exact .inl ⟨evs', hmem, he⟩
    · exact .inr (List.mem_singleton.mp hmem ▸ he)
  · rintro (⟨evs', hmem, he⟩ | he)
    · exact ⟨evs', List.mem_append_left _ hmem, he⟩
    · exact ⟨evs, List.mem_append_right _ List.mem_cons_self, he⟩

/-- The first event of a sorted file has its least date. -/
theorem isLeast_first (outside : Int → Event π) (hne : evs ≠ [])
    (hs : evs.Pairwise fun a b => a.date ≤ b.date) :
    IsLeast { d | ∃ e ∈ evs, e.date = d } (memory outside evs 0).date := by
  cases evs with
  | nil => exact absurd rfl hne
  | cons f fs =>
    refine ⟨⟨f, List.mem_cons_self, rfl⟩, ?_⟩
    rintro d ⟨e, he, rfl⟩
    rcases List.mem_cons.mp he with rfl | he
    · exact Nat.le_refl _
    · exact (List.pairwise_cons.mp hs).1 e he

/-- The last one has its greatest. -/
theorem isGreatest_last (outside : Int → Event π) (hne : evs ≠ [])
    (hs : evs.Pairwise fun a b => a.date ≤ b.date) :
    IsGreatest { d | ∃ e ∈ evs, e.date = d }
      (memory outside evs ((evs.length : Int) - 1)).date := by
  have hlen : ((evs.length : Int) - 1) = ((evs.length - 1 : Nat) : Int) := by
    have := List.length_pos_iff.mpr hne
    omega
  have hlast : memory outside evs ((evs.length : Int) - 1) = evs.getLast hne := by
    rw [hlen]
    change (evs[evs.length - 1]?).getD _ = _
    rw [← List.getLast?_eq_getElem?, List.getLast?_eq_getLast_of_ne_nil hne]
    rfl
  rw [hlast]
  refine ⟨⟨_, List.getLast_mem hne, rfl⟩, ?_⟩
  rintro d ⟨e, he, rfl⟩
  rw [← List.dropLast_append_getLast hne] at he hs
  rcases List.mem_append.mp he with he | he
  · exact (List.pairwise_append.mp hs).2.2 e he _ List.mem_cons_self
  · rw [List.mem_singleton.mp he]

/-- The bounds after some files, none of which is a header only. -/
structure Bounds (fs : FileSet π) (done : List (List (Event π))) : Prop where
  tmin : done = [] ∧ fs.tmin = 2 ^ 64 - 1 ∨ IsLeast (datesOf done) fs.tmin
  tmax : done = [] ∧ fs.tmax = 0 ∨ IsGreatest (datesOf done) fs.tmax

/-- The interval of dates after one more file. -/
theorem Bounds.openFile {done : List (List (Event π))} (h : Bounds fs done)
    (hne : evs ≠ []) (hs : evs.Pairwise fun a b => a.date ≤ b.date) :
    Bounds (openFile outside fs (some evs)) (done ++ [evs]) := by
  have hfirst := isLeast_first (outside fs.size) hne hs
  have hlast := isGreatest_last (outside fs.size) hne hs
  refine ⟨.inr ?_, .inr ?_⟩
  · change IsLeast _ (if _ < fs.tmin then _ else fs.tmin)
    rw [← min_def_lt]
    rcases h.tmin with ⟨rfl, htmin⟩ | hleast
    · rw [htmin, Nat.min_eq_left (Nat.le_sub_one_of_lt (Event.date_lt _)), datesOf_concat,
        datesOf_nil, Set.empty_union]
      exact hfirst
    · rw [datesOf_concat, min_comm]
      exact hleast.union hfirst
  · change IsGreatest _ (if fs.tmax < _ then _ else fs.tmax)
    rw [← max_def_lt]
    rcases h.tmax with ⟨rfl, htmax⟩ | hgreatest
    · rw [htmax, Nat.max_eq_right (Nat.zero_le _), datesOf_concat, datesOf_nil,
        Set.empty_union]
      exact hlast
    · rw [datesOf_concat]
      exact hgreatest.union hlast

/-- The interval of all files that have an event. -/
theorem openFiles_bounds {files : List (EventFile π)} (hno : some [] ∉ files)
    (hs : ∀ evs, some evs ∈ files → evs.Pairwise fun a b => a.date ≤ b.date) :
    Bounds (openFiles outside files) (nonEmpty files) := by
  induction files using List.reverseRecOn with
  | nil => exact ⟨.inl ⟨rfl, rfl⟩, .inl ⟨rfl, rfl⟩⟩
  | append_singleton files f ih =>
    have ih := ih (fun h => hno (List.mem_append_left _ h))
      fun evs h => hs evs (List.mem_append_left _ h)
    rw [openFiles_concat]
    cases f with
    | none =>
      rw [nonEmpty_concat_none]
      exact ih
    | some evs =>
      have hmem : some evs ∈ files ++ [some evs] := List.mem_append_right _ List.mem_cons_self
      rw [nonEmpty_concat_some]
      exact ih.openFile outside (fun h => hno (h ▸ hmem)) (hs evs hmem)

end Opening

-- ======== results

theorem mem_nonEmpty {evs : List (Event π)} :
    evs ∈ nonEmpty files ↔ some evs ∈ files := by
  unfold nonEmpty
  rw [List.mem_filterMap]
  exact ⟨fun ⟨_, hmem, heq⟩ => (show _ = some evs from heq) ▸ hmem, fun h => ⟨_, h, rfl⟩⟩

theorem restOf_eq (hno : some [] ∉ files) (i : Nat) :
    restOf outside files i = (nonEmpty files)[i]?.getD [] := by
  unfold restOf
  cases hi : (nonEmpty files)[i]? with
  | none => rfl
  | some evs =>
    cases evs with
    | nil => exact absurd (mem_nonEmpty.mp (List.mem_of_getElem? hi)) hno
    | cons e es => rfl

/-- The events that are left are sorted. -/
theorem restOf_sorted
    (hs : ∀ evs, some evs ∈ files → evs.Pairwise fun a b => a.date ≤ b.date) (i : Nat) :
    (restOf outside files i).Pairwise fun a b => a.date ≤ b.date := by
  unfold restOf
  cases hi : (nonEmpty files)[i]? with
  | none => exact List.Pairwise.nil
  | some evs =>
    cases evs with
    | nil => exact List.pairwise_singleton ..
    | cons e es => exact hs _ (mem_nonEmpty.mp (List.mem_of_getElem? hi))

/-- A merge has no file without event. -/
theorem Merged.no_header {pq : EventQueue} (h : Merged pq files (openFiles outside files)) :
    some [] ∉ files := by
  obtain ⟨⟨log, fuel, hread, hfilter, -, -⟩, -⟩ := h
  intro hmem
  obtain ⟨i, hi⟩ := List.getElem?_of_mem (mem_nonEmpty.mpr hmem)
  have hmerge := (openFiles_ready outside files).merges pq hread
  have hgiven := (hmerge.filter i).symm.trans (hfilter i)
  unfold restOf at hgiven
  rw [hi] at hgiven
  cases hgiven

/-- For any files whose events are in order, wherever the reader looks
outside of them: they are merged iff none is a header only. -/
theorem merged_iff {files : List (EventFile π)} (pq : EventQueue)
    (outside : Nat → Int → Event π)
    (hs : ∀ evs, some evs ∈ files → evs.Pairwise fun a b => a.date ≤ b.date) :
    Merged pq files (openFiles outside files) ↔ some [] ∉ files := by
  have hready := openFiles_ready outside files
  refine ⟨Merged.no_header, ?_⟩
  intro hno
  have hbounds := openFiles_bounds outside hno hs
  refine ⟨?_, fun tmin tmax hint => ?_⟩
  · obtain ⟨log, hread, henum⟩ := hready.reads pq rfl
    have hmerge := hready.merges pq hread
    refine ⟨log, _, hread, fun i => ?_, hmerge.sorted (restOf_sorted hs), henum⟩
    rw [hmerge.filter, restOf_eq hno]
  · unfold FileSet.getInterval at hint
    rw [openFiles_size] at hint
    split at hint
    next => cases hint
    next hlen =>
      cases hint
      have hne : nonEmpty files ≠ [] := fun h => hlen (congrArg List.length h)
      exact ⟨hbounds.tmin.resolve_left fun h => hne h.1,
        hbounds.tmax.resolve_left fun h => hne h.1⟩

/-- The queue that gives the first of its least entries. -/
def firstLeast : EventQueue where
  top _ q := (q.argmin NextEvent.date).getD ⟨0, 0⟩
  top_mem _ q hq := by
    have hsome : q.argmin NextEvent.date ≠ none := fun h => hq (List.argmin_eq_none.mp h)
    obtain ⟨x, hx⟩ := Option.ne_none_iff_exists'.mp hsome
    rw [hx]
    exact List.argmin_mem hx
  top_le _ q x hx := by
    have hsome : q.argmin NextEvent.date ≠ none := fun h =>
      List.ne_nil_of_mem hx (List.argmin_eq_none.mp h)
    obtain ⟨y, hy⟩ := Option.ne_none_iff_exists'.mp hsome
    rw [hy]
    exact List.le_of_mem_argmin hx hy

def eventAt (date : Nat) (h : date < 2 ^ 64) : Event Unit := ⟨date, (), h⟩

/-- Two files of different lengths with an equal date, and an empty one. -/
def threeFiles : List (EventFile Unit) :=
  [some [eventAt 1 (by decide), eventAt 2 (by decide), eventAt 2 (by decide)], none,
    some [eventAt 2 (by decide)]]

theorem threeFiles_sorted (evs : List (Event Unit)) (h : some evs ∈ threeFiles) :
    evs.Pairwise fun a b => a.date ≤ b.date := by
  have hall : ∀ f ∈ threeFiles, (f.getD []).Pairwise fun a b => a.date ≤ b.date := by decide
  exact hall _ h

theorem merged_iff_three_files :
    Merged firstLeast threeFiles
      (openFiles (fun _ _ => eventAt 0 (by decide)) threeFiles) :=
  (merged_iff firstLeast _ threeFiles_sorted).mpr (by decide)

/-- A file with a header and no event. -/
theorem merged_fails : ¬ ∀ (pq : EventQueue) (outside : Nat → Int → Event Unit)
    (files : List (EventFile Unit)),
    (∀ evs, some evs ∈ files → evs.Pairwise fun a b => a.date ≤ b.date) →
      Merged pq files (openFiles outside files) := by
  intro h
  refine (h firstLeast (fun _ _ => eventAt 0 (by decide)) [some []] fun evs hmem => ?_).no_header
    List.mem_cons_self
  cases List.mem_singleton.mp hmem
  exact List.Pairwise.nil

end XKaapi.Trace
