import Mathlib
import LsmStore.Proofs.Memtable.Run

/-!
# A cursor over a table that keeps changing

A cursor over an in-memory table keeps only the last key it returned, and each step looks the
next key up in the table as it is at that step. Puts may land anywhere while the cursor is open:
behind it, where it never looks again, or ahead of it, where it finds them. This module follows
a cursor through any interleaving of puts and steps.

Whatever the interleaving, the cursor returns entries in strictly ascending key order, all in its
range and none at all when the range is empty; each is the table's entry of its key at the step
that returned it, a tombstone included; and once a step has reported the end, every later step
reports it too. The step that first reports the end finds no key of the range in the table above
the last one returned. Later steps report the end whatever the table holds by then, so a key put
into the range after the end is never returned (`ended_cursor_misses_put`). Once the end has been
reported, every key the table held in the range when the cursor was made has been returned
exactly once.

The argument is one invariant, `Cursor.Tracks`, that a put and each kind of step keep: every key
of the range that the table held at the start and that the cursor has moved past was returned.

## Main definitions

* `Memtable.Call` — a put into the table, or a step of the cursor
* `Memtable.Cursor.interleave` — the answers of the cursor's steps along a sequence of calls
* `Memtable.Cursor.Tracks` — what stays true of a cursor while calls go on
* `Memtable.Cursor.Scanned` — what the answers of a cursor over a changing table are

## Main results

* `Memtable.Cursor.interleave_scanned` — the cursor's answers along any interleaving
* `Memtable.Cursor.ended_cursor_misses_put` — after the end, a put into the range is not seen
-/

namespace LsmStore

namespace Run

/-- The first entry of an ascending run that passes a test has the least key of those that do. -/
theorem Ascending.find?_least {es : List Entry} {p : Entry → Bool} {x z : Entry}
    (sorted : Ascending es) (found : es.find? p = some x) (hz : z ∈ es) (passes : p z = true) :
    x.key ≤ z.key := by
  obtain ⟨_, before, after, split, failed⟩ := List.find?_eq_some_iff_append.1 found
  subst split
  rcases List.mem_append.1 hz with early | late
  · have skipped := failed z early
    simp [passes] at skipped
  · have rest : Ascending (x :: after) := (List.pairwise_append.1 sorted).2.1
    rcases List.mem_cons.1 late with rfl | later
    · exact List.le_refl _
    · exact List.le_of_lt (rest.head_lt z later)

/-- In an ascending run, no key is above the last one. -/
theorem Ascending.le_getLast {ys : List Entry} {y z : Entry} (sorted : Ascending ys)
    (last : ys.getLast? = some z) (hy : y ∈ ys) : y.key ≤ z.key := by
  obtain ⟨init, rfl⟩ := List.getLast?_eq_some_iff.1 last
  rcases List.mem_append.1 hy with early | final
  · exact List.le_of_lt ((List.pairwise_append.1 sorted).2.2 y early z List.mem_cons_self)
  · rw [List.mem_singleton.1 final]
    exact List.le_refl _

end Run

namespace Memtable

open Run

/-- A call made while a cursor over a table is open: a put into the table, or a step of the
cursor. -/
inductive Call where
  | put (e : Entry)
  | next
deriving DecidableEq, Repr

namespace Cursor

/-- The answers of a cursor's steps along a sequence of calls: each step's entry, or `none` for
the end, with the table as that step read it. -/
def interleave (c : Cursor) (m : Memtable) : List Call → List (Option Entry × Memtable)
  | [] => []
  | .put e :: calls => c.interleave (m.put e).2 calls
  | .next :: calls => ((c.next m).1, m) :: (c.next m).2.interleave m calls

/-- The entries returned among some answers, in order. -/
def returned (answers : List (Option Entry × Memtable)) : List Entry := answers.filterMap (·.1)

@[simp] theorem returned_nil : returned [] = [] := rfl

@[simp] theorem returned_cons_some (x : Entry) (m : Memtable) (answers : List (Option Entry × Memtable)) :
    returned ((some x, m) :: answers) = x :: returned answers := rfl

@[simp] theorem returned_cons_none (m : Memtable) (answers : List (Option Entry × Memtable)) :
    returned ((none, m) :: answers) = returned answers := rfl

variable {c : Cursor} {m : Memtable} {x : Entry}

/-! ## One step -/

theorem next_of_ended (ended : c.ended = true) : c.next m = (none, c) := by
  simp [next, ended]

theorem next_of_peek_some (running : c.ended = false) (found : c.peek m = some x) :
    c.next m = (some x, { c with last := some x.key }) := by
  simp [next, running, found]

theorem next_of_peek_none (running : c.ended = false) (none_left : c.peek m = none) :
    c.next m = (none, { c with ended := true }) := by
  simp [next, running, none_left]

/-- What a step returns is an entry of the table that the cursor admits. -/
theorem mem_of_next (h : (c.next m).1 = some x) : x ∈ m.entries ∧ c.admits x = true := by
  unfold next at h
  split at h
  · cases h
  · split at h
    · rename_i e found
      cases h
      rw [peek_eq] at found
      exact ⟨List.mem_of_find?_eq_some found, List.find?_some found⟩
    · cases h

/-- An ended cursor answers every later step with the end. -/
theorem interleave_of_ended (ended : c.ended = true) (calls : List Call) :
    ∀ a ∈ c.interleave m calls, a.1 = none := by
  induction calls generalizing m with
  | nil => simp [interleave]
  | cons call calls ih =>
    cases call with
    | put e => exact ih
    | next =>
      rw [interleave, next_of_ended ended]
      intro a ha
      rcases List.mem_cons.1 ha with rfl | ha
      · rfl
      · exact ih a ha

theorem returned_of_ended (ended : c.ended = true) (calls : List Call) :
    returned (c.interleave m calls) = [] := by
  rw [returned, List.filterMap_eq_nil_iff]
  exact interleave_of_ended ended calls

theorem map_fst_of_ended (ended : c.ended = true) (calls : List Call) :
    (c.interleave m calls).map (·.1) = List.replicate (c.interleave m calls).length none := by
  rw [List.eq_replicate_iff]
  refine ⟨List.length_map _, fun o ho => ?_⟩
  obtain ⟨a, ha, rfl⟩ := List.mem_map.1 ho
  exact interleave_of_ended ended calls a ha

/-- The answers are the entries returned followed by ends only: once a step has reported the end,
every later step reports it. -/
theorem interleave_shape (c : Cursor) (m : Memtable) (calls : List Call) :
    ∃ k, (c.interleave m calls).map (·.1) =
      (returned (c.interleave m calls)).map some ++ List.replicate k none := by
  cases ended : c.ended
  · induction calls generalizing c m with
    | nil => exact ⟨0, rfl⟩
    | cons call calls ih =>
      cases call with
      | put e => exact ih c (m.put e).2 ended
      | next =>
        rw [interleave]
        cases found : c.peek m with
        | some x =>
          obtain ⟨k, rest⟩ := ih { c with last := some x.key } m ended
          refine ⟨k, ?_⟩
          rw [next_of_peek_some ended found, List.map_cons, returned_cons_some, rest]
          rfl
        | none =>
          -- the cursor ends here, and answers ends from now on
          have stopped : ({ c with ended := true } : Cursor).ended = true := rfl
          refine ⟨(({ c with ended := true } : Cursor).interleave m calls).length + 1, ?_⟩
          rw [next_of_peek_none ended found, List.map_cons, returned_cons_none,
            returned_of_ended stopped, map_fst_of_ended stopped]
          rfl
  · exact ⟨(c.interleave m calls).length, by
      rw [returned_of_ended ended, map_fst_of_ended ended]
      rfl⟩

/-! ## The invariant -/

/-- What stays true of a cursor over `[lower, upper)` while calls go on, with `ys` the entries it
has returned so far and `keys` the keys the table held in the range when the cursor was made:
those keys stay in the table, and the ones the cursor has moved past were returned; an ended
cursor has returned all of them. -/
structure Tracks (lower upper : Option Bytes) (keys : List Bytes) (c : Cursor) (m : Memtable)
    (ys : List Entry) : Prop where
  sorted : Ascending m.entries
  lower_eq : c.lower = lower
  upper_eq : c.upper = upper
  last_eq : c.last = ys.getLast?.map (·.key)
  ascending : Ascending ys
  inside : ∀ y ∈ ys, inRange lower upper y.key = true
  keysInside : ∀ k ∈ keys, inRange lower upper k = true
  held : ∀ k ∈ keys, (m.get? k).isSome
  passed : ∀ k ∈ keys, c.fromLow k = false → k ∈ ys.map (·.key)
  ended : c.ended = true → ∀ k ∈ keys, k ∈ ys.map (·.key)

variable {lower upper : Option Bytes} {keys : List Bytes} {ys : List Entry}

/-- The keys of a table in a range. -/
def keysIn (m : Memtable) (lower upper : Option Bytes) : List Bytes :=
  (m.entries.filter (inRange lower upper ·.key)).map (·.key)

/-- A fresh cursor tracks the keys the table holds in its range. -/
theorem tracks_start (sorted : Ascending m.entries) (lower upper : Option Bytes) :
    Tracks lower upper (keysIn m lower upper) (start lower upper) m [] := by
  have inside : ∀ k ∈ keysIn m lower upper, inRange lower upper k = true := by
    intro k hk
    obtain ⟨x, hx, rfl⟩ := List.mem_map.1 hk
    exact (List.mem_filter.1 hx).2
  refine ⟨sorted, rfl, rfl, rfl, List.Pairwise.nil, by simp, inside, ?_, ?_, ?_⟩
  · intro k hk
    obtain ⟨x, hx, rfl⟩ := List.mem_map.1 hk
    rw [get?_eq_entryOf, sorted.entryOf_of_mem (List.mem_filter.1 hx).1]
    rfl
  · -- a fresh cursor admits every key of its range
    intro k hk low
    have admitted := admits_start lower upper ⟨k, none⟩
    simp [admits, low, inside k hk] at admitted
  · intro ended k hk
    have empty : emptyRange lower upper = true := ended
    have outside := Table.inRange_eq_false_of_emptyRange empty k
    simp [inside k hk] at outside

namespace Tracks

variable (h : Tracks lower upper keys c m ys)
include h

/-- A key of the range lies below the cursor's upper bound. -/
theorem belowHigh {k : Bytes} (hk : inRange lower upper k = true) : c.belowHigh k = true := by
  unfold Cursor.belowHigh
  rw [h.upper_eq]
  cases upper <;> simp_all [inRange]

/-- A key of the range that the cursor is not past any more lies at or below the last key
returned. -/
theorem le_last {k : Bytes} (hk : inRange lower upper k = true) (low : c.fromLow k = false) :
    ∃ y ∈ ys, k ≤ y.key := by
  unfold Cursor.fromLow at low
  cases last : c.last with
  | none =>
    rw [last, h.lower_eq] at low
    cases lower <;> simp_all [inRange]
  | some l =>
    rw [h.last_eq] at last
    obtain ⟨y, hy, rfl⟩ := Option.map_eq_some_iff.1 last
    rw [h.last_eq, last] at low
    exact ⟨y, List.mem_of_getLast? hy, by simpa using low⟩

/-- An entry the cursor admits lies in the range and above every entry returned. -/
theorem admitted {x : Entry} (adm : c.admits x = true) :
    inRange lower upper x.key = true ∧ ∀ y ∈ ys, y.key < x.key := by
  obtain ⟨low, high⟩ := Bool.and_eq_true_iff.1 adm
  unfold Cursor.fromLow at low
  unfold Cursor.belowHigh at high
  rw [h.upper_eq] at high
  cases last : c.last with
  | none =>
    rw [last, h.lower_eq] at low
    have nothing : ys = [] := by
      rw [h.last_eq, Option.map_eq_none_iff, List.getLast?_eq_none_iff] at last
      exact last
    subst nothing
    refine ⟨?_, by simp⟩
    cases lower <;> cases upper <;> simp_all [inRange]
  | some l =>
    rw [last] at low
    have lt : l < x.key := by simpa using low
    rw [h.last_eq] at last
    obtain ⟨z, hz, rfl⟩ := Option.map_eq_some_iff.1 last
    have zInside := h.inside z (List.mem_of_getLast? hz)
    refine ⟨?_, fun y hy => List.lt_of_le_of_lt (h.ascending.le_getLast hz hy) lt⟩
    simp only [inRange, Bool.and_eq_true] at zInside ⊢
    refine ⟨?_, by cases upper <;> simp_all⟩
    cases lower with
    | none => rfl
    | some b =>
      have below : b ≤ z.key := by simpa using zInside.1
      simpa using List.le_of_lt (List.lt_of_le_of_lt below lt)

/-- A put keeps the invariant: it never removes a key. -/
theorem put (e : Entry) : Tracks lower upper keys c (m.put e).2 ys := by
  refine { h with sorted := ?_, held := ?_ }
  · rw [entries_put]
    exact ascending_insertEntry h.sorted
  · intro k hk
    rw [get?_eq_entryOf, entries_put, entryOf_insertEntry]
    split
    · rfl
    · rw [← get?_eq_entryOf]
      exact h.held k hk

/-- A step that returns an entry keeps the invariant, with the entry added to those returned.
The entry is the table's first admitted one, so no key of the start lies between it and the last
key returned. -/
theorem found (running : c.ended = false) (found : c.peek m = some x) :
    Tracks lower upper keys { c with last := some x.key } m (ys ++ [x]) := by
  rw [peek_eq] at found
  have adm : c.admits x = true := List.find?_some found
  obtain ⟨xInside, above⟩ := h.admitted adm
  refine ⟨h.sorted, h.lower_eq, h.upper_eq, by simp, ?_, ?_, h.keysInside, h.held, ?_, ?_⟩
  · exact List.pairwise_append.2 ⟨h.ascending, List.pairwise_singleton _ _,
      fun y hy z hz => (List.mem_singleton.1 hz) ▸ above y hy⟩
  · intro y hy
    rcases List.mem_append.1 hy with old | new
    · exact h.inside y old
    · rw [List.mem_singleton.1 new]
      exact xInside
  · intro k hk low
    have notAbove : k ≤ x.key := by simpa using low
    cases wasLow : c.fromLow k with
    | false =>
      rw [List.map_append]
      exact List.mem_append_left _ (h.passed k hk wasLow)
    | true =>
      -- `k` was still ahead, so its entry was admitted, and `x` is the least admitted entry
      obtain ⟨z, hz⟩ := Option.isSome_iff_exists.1 (h.held k hk)
      rw [get?_eq_entryOf] at hz
      obtain ⟨zMem, rfl⟩ := entryOf_eq_some hz
      have zAdm : c.admits z = true := by
        simp [admits, wasLow, h.belowHigh (h.keysInside _ hk)]
      have least := h.sorted.find?_least found zMem zAdm
      rw [List.map_append, List.map_singleton, key_eq_of_not_lt (List.not_lt.2 least)
        (List.not_lt.2 notAbove)]
      exact List.mem_append_right _ (List.mem_singleton_self _)
  · intro ended
    exact absurd ended (by simpa using running)

/-- A step that finds nothing ahead keeps the invariant with the cursor ended: every key of the
start has been returned. -/
theorem stop (none_left : c.peek m = none) :
    Tracks lower upper keys { c with ended := true } m ys := by
  refine { h with ended := fun _ k hk => ?_, passed := h.passed }
  cases low : c.fromLow k with
  | false => exact h.passed k hk low
  | true =>
    -- an entry of `k` ahead of the cursor would have been found
    obtain ⟨z, hz⟩ := Option.isSome_iff_exists.1 (h.held k hk)
    rw [get?_eq_entryOf] at hz
    obtain ⟨zMem, rfl⟩ := entryOf_eq_some hz
    rw [peek_eq, List.find?_eq_none] at none_left
    have zAdm : c.admits z = true := by
      simp [admits, low, h.belowHigh (h.keysInside _ hk)]
    exact absurd zAdm (none_left z zMem)

/-- When a step finds nothing ahead, the table holds no key of the range above the last key
returned. -/
theorem nothing_above (none_left : c.peek m = none) :
    ∀ x ∈ m.entries, inRange lower upper x.key = true → ∃ y ∈ ys, x.key ≤ y.key := by
  intro x hx xInside
  rw [peek_eq, List.find?_eq_none] at none_left
  have notAdm := none_left x hx
  have low : c.fromLow x.key = false := by
    simpa [admits, h.belowHigh xInside] using notAdm
  exact h.le_last xInside low

end Tracks

/-! ## Whole runs -/

/-- Each entry a step returns is the table's entry of its key at that step, a tombstone included. -/
theorem interleave_reads (sorted : Ascending m.entries) (calls : List Call) :
    ∀ a ∈ c.interleave m calls, ∀ x, a.1 = some x → a.2.get? x.key = some x := by
  induction calls generalizing c m with
  | nil => simp [interleave]
  | cons call calls ih =>
    cases call with
    | put e =>
      exact ih (by rw [entries_put]; exact ascending_insertEntry sorted)
    | next =>
      intro a ha x hx
      rcases List.mem_cons.1 ha with rfl | ha
      · rw [get?_eq_entryOf]
        exact sorted.entryOf_of_mem (mem_of_next hx).1
      · exact ih sorted a ha x hx

/-- Along any calls the invariant holds at the end, with the entries returned added. -/
theorem Tracks.interleave (h : Tracks lower upper keys c m ys) (calls : List Call) :
    ∃ c' m', Tracks lower upper keys c' m' (ys ++ returned (c.interleave m calls)) := by
  induction calls generalizing c m ys with
  | nil => exact ⟨c, m, by simpa [Cursor.interleave] using h⟩
  | cons call calls ih =>
    cases call with
    | put e => exact ih (h.put e)
    | next =>
      rw [Cursor.interleave]
      cases ended : c.ended
      · cases found : c.peek m with
        | some x =>
          obtain ⟨c', m', tracks⟩ := ih (h.found ended found)
          refine ⟨c', m', ?_⟩
          rw [next_of_peek_some ended found, returned_cons_some]
          simpa using tracks
        | none =>
          rw [next_of_peek_none ended found, returned_cons_none]
          exact ih (h.stop found)
      · rw [next_of_ended ended, returned_cons_none]
        exact ih h

/-- The first step of a running cursor that reports the end finds no key of the range in the
table above every entry returned. -/
theorem Tracks.interleave_end (h : Tracks lower upper keys c m ys) (running : c.ended = false)
    (calls : List Call) :
    ∀ a, (c.interleave m calls).find? (·.1.isNone) = some a →
      ∀ x ∈ a.2.entries, inRange lower upper x.key = true →
        ∃ y ∈ ys ++ returned (c.interleave m calls), x.key ≤ y.key := by
  induction calls generalizing c m ys with
  | nil => simp [Cursor.interleave]
  | cons call calls ih =>
    cases call with
    | put e => exact ih (h.put e) running
    | next =>
      intro a first
      rw [Cursor.interleave] at first ⊢
      cases found : c.peek m with
      | some x =>
        -- the step returned an entry; the end comes later
        rw [next_of_peek_some running found] at first ⊢
        rw [List.find?_cons_of_neg (by simp)] at first
        intro z hz zInside
        obtain ⟨y, hy, le⟩ := ih (h.found running found) running a first z hz zInside
        exact ⟨y, by simpa using hy, le⟩
      | none =>
        -- this step is the end: it read the table `m`
        rw [next_of_peek_none running found] at first ⊢
        rw [List.find?_cons_of_pos (by simp), Option.some.injEq] at first
        subst first
        intro z hz zInside
        obtain ⟨y, hy, le⟩ := h.nothing_above found z hz zInside
        exact ⟨y, List.mem_append_left _ hy, le⟩

/-- Once a step has reported the end, every key of the start has been returned. -/
theorem Tracks.interleave_complete (h : Tracks lower upper keys c m ys) (calls : List Call)
    (ends : ∃ a ∈ c.interleave m calls, a.1 = none) :
    ∀ k ∈ keys, k ∈ (ys ++ returned (c.interleave m calls)).map (·.key) := by
  induction calls generalizing c m ys with
  | nil => simp [Cursor.interleave] at ends
  | cons call calls ih =>
    cases call with
    | put e => exact ih (h.put e) ends
    | next =>
      rw [Cursor.interleave] at ends ⊢
      intro k hk
      cases ended : c.ended
      · cases found : c.peek m with
        | some x =>
          rw [next_of_peek_some ended found] at ends ⊢
          -- the step returned `x`, so the end lies further on
          have later : ∃ a ∈ ({ c with last := some x.key } : Cursor).interleave m calls,
              a.1 = none := by
            obtain ⟨a, ha, none⟩ := ends
            rcases List.mem_cons.1 ha with rfl | ha
            · cases none
            · exact ⟨a, ha, none⟩
          simpa using ih (h.found ended found) later k hk
        | none =>
          rw [List.map_append]
          exact List.mem_append_left _ ((h.stop found).ended rfl k hk)
      · rw [List.map_append]
        exact List.mem_append_left _ (h.ended ended k hk)

/-! ## The answers of a cursor over a changing table -/

/-- What the answers of a cursor over `[lower, upper)` are, when the cursor was made over the
table `m` and puts went on between its steps. -/
structure Scanned (m : Memtable) (lower upper : Option Bytes)
    (answers : List (Option Entry × Memtable)) : Prop where
  /-- Entries first, then only ends: after the first end every step reports the end. -/
  endsStay : ∃ k, answers.map (·.1) = (returned answers).map some ++ List.replicate k none
  /-- The entries returned have strictly ascending keys. -/
  ascending : Ascending (returned answers)
  /-- Every entry returned lies in the range. -/
  inside : ∀ y ∈ returned answers, inRange lower upper y.key = true
  /-- An empty range returns nothing. -/
  emptyNothing : emptyRange lower upper = true → returned answers = []
  /-- An entry returned is the table's entry of its key at that step, a tombstone included. -/
  current : ∀ a ∈ answers, ∀ x, a.1 = some x → a.2.get? x.key = some x
  /-- At the first end, the table holds no key of the range above every entry returned. -/
  endIsEnd : ∀ a, answers.find? (·.1.isNone) = some a →
    ∀ x ∈ a.2.entries, inRange lower upper x.key = true → ∃ y ∈ returned answers, x.key ≤ y.key
  /-- Once the end is reported, every key `m` held in the range was returned exactly once. -/
  complete : (∃ a ∈ answers, a.1 = none) →
    ∀ x ∈ m.entries, inRange lower upper x.key = true → ((returned answers).map (·.key)).count x.key = 1

/-- A cursor made over a table and stepped between any puts answers as a scan of the table as it
changes: ascending entries of the range, each current at its step, entries first and then only
ends; the first end finds nothing of the range left above them, and by then every key the table
held in the range at the start was returned exactly once. Steps after the first end report the
end whatever was put since. -/
theorem interleave_scanned (m : Memtable) (sorted : Ascending m.entries) (lower upper : Option Bytes)
    (calls : List Call) : Scanned m lower upper ((start lower upper).interleave m calls) := by
  have tracks := tracks_start sorted lower upper
  obtain ⟨c', m', final⟩ := tracks.interleave calls
  rw [List.nil_append] at final
  refine ⟨interleave_shape _ m calls, final.ascending, final.inside, fun empty => ?_,
    interleave_reads sorted calls, ?_, fun ends x hx xInside => ?_⟩
  · exact returned_of_ended empty calls
  · -- a range that is empty has no key; otherwise the cursor starts running
    intro a first x hx xInside
    cases empty : emptyRange lower upper
    · simpa using tracks.interleave_end empty calls a first x hx xInside
    · have outside := Table.inRange_eq_false_of_emptyRange empty x.key
      simp [xInside] at outside
  · have key : x.key ∈ keysIn m lower upper := List.mem_map.2 ⟨x, List.mem_filter.2 ⟨hx, xInside⟩, rfl⟩
    have once := tracks.interleave_complete calls ends x.key key
    rw [List.nil_append] at once
    exact List.count_eq_one_of_mem (List.pairwise_map.2 final.ascending).nodup once

/-- A table holding `a` and `c`. -/
def keysAC : Memtable :=
  { generation := 1, sizeLimit := 1024, entries := [Entry.put [97] [49], Entry.put [99] [51]] }

/-- A cursor over `keysAC`, stepped once, then after a put of `b` stepped to the end. -/
theorem interleave_scanned_putBehind :
    Ascending keysAC.entries ∧ Scanned keysAC none none ((start none none).interleave keysAC
      [.next, .put (Entry.put [98] [50]), .next, .next, .next]) :=
  ⟨by unfold Ascending; decide, interleave_scanned keysAC (by unfold Ascending; decide) none none _⟩

/- A put ahead of the cursor is returned in its place. -/
example : returned ((start none none).interleave keysAC
    [.next, .put (Entry.put [98] [50]), .next, .next, .next]) =
      [Entry.put [97] [49], Entry.put [98] [50], Entry.put [99] [51]] := by decide

/-- Once a cursor has reported the end, a key put into its range is not seen: the next step
reports the end again, although the table then holds a key of the range and nothing was
returned. -/
theorem ended_cursor_misses_put :
    let answers := (start none none).interleave ({ generation := 1, sizeLimit := 1024 } : Memtable)
      [.next, .put (Entry.put [97] [49]), .next]
    returned answers = [] ∧
      ∃ a ∈ answers, a.1 = none ∧ ∃ x ∈ a.2.entries, inRange none none x.key = true := by
  decide

end Cursor

end Memtable

end LsmStore
