import LsmStore.Engine.Basic
import LsmStore.Proofs.Merge.Correct
import LsmStore.Proofs.Table.Read

/-!
# In-memory tables as runs

The entries of an in-memory table form an ascending run: a put inserts its entry in key order
and replaces the entry of its key. So a lookup answers as the run does, the last put of a key
wins, and a cursor over a key range yields the run's entries in that range one by one, as long
as the table stays as it is.

## Main definitions

* `Memtable.Cursor.admits` — the entries a cursor has still to visit

## Main results

* `Memtable.entryOf_insertEntry` — after a put, its key answers with its entry
* `Memtable.ascending_insertEntry` — puts keep the entries ascending
* `Memtable.Cursor.yields` — a cursor yields the entries of its range
-/

namespace LsmStore

namespace Memtable

open Run

variable {e : Entry} {es : List Entry}

theorem mem_insertEntry {x : Entry} (h : x ∈ insertEntry e es) : x = e ∨ x ∈ es := by
  induction es with
  | nil => simpa [insertEntry] using h
  | cons y ys ih =>
    unfold insertEntry at h
    split at h
    · simpa using h
    · split at h
      · rcases List.mem_cons.1 h with rfl | h
        · exact .inl rfl
        · exact .inr (List.mem_cons_of_mem y h)
      · rcases List.mem_cons.1 h with rfl | h
        · exact .inr List.mem_cons_self
        · exact (ih h).imp_right (List.mem_cons_of_mem y)

/-- After a put, its key answers with the entry put, and every other key as before. -/
theorem entryOf_insertEntry (key : Bytes) :
    entryOf (insertEntry e es) key = if e.key = key then some e else entryOf es key := by
  induction es with
  | nil => by_cases same : e.key = key <;> simp [insertEntry, entryOf_cons, same]
  | cons y ys ih =>
    unfold insertEntry
    by_cases below : e.key < y.key
    · rw [if_pos below, entryOf_cons]
    · rw [if_neg below]
      by_cases replaced : e.key = y.key
      · -- the entry of the key is replaced
        rw [if_pos replaced, entryOf_cons, entryOf_cons]
        by_cases same : e.key = key
        · simp [same]
        · simp [same, ← replaced]
      · rw [if_neg replaced, entryOf_cons, entryOf_cons, ih]
        by_cases same : e.key = key
        · have : y.key ≠ key := fun yKey => replaced (same.trans yKey.symm)
          simp [same, this]
        · simp [same]

/-- A put keeps the entries ascending. -/
theorem ascending_insertEntry (sorted : Ascending es) : Ascending (insertEntry e es) := by
  induction es with
  | nil => exact List.pairwise_singleton _ _
  | cons y ys ih =>
    have ⟨yBelow, rest⟩ := Ascending.cons_iff.1 sorted
    unfold insertEntry
    by_cases below : e.key < y.key
    · rw [if_pos below]
      refine Ascending.cons_iff.2 ⟨?_, sorted⟩
      intro x hx
      rcases List.mem_cons.1 hx with rfl | hx
      · exact below
      · exact key_lt_trans below (yBelow x hx)
    · rw [if_neg below]
      by_cases replaced : e.key = y.key
      · rw [if_pos replaced]
        exact Ascending.cons_iff.2 ⟨fun x hx => replaced ▸ yBelow x hx, rest⟩
      · -- the entry goes after `y`, so everything it lands among is above `y`
        rw [if_neg replaced]
        have above : y.key < e.key := by
          rcases Std.lt_trichotomy y.key e.key with lt | eq | gt
          · exact lt
          · exact absurd eq.symm replaced
          · exact absurd gt below
        refine Ascending.cons_iff.2 ⟨?_, ih rest⟩
        intro x hx
        rcases mem_insertEntry hx with rfl | hx
        · exact above
        · exact yBelow x hx

/-- A put adds at most its own encoding to the data a table of the entries takes. -/
theorem length_dataOf_insertEntry_le :
    (Table.dataOf (insertEntry e es)).length ≤ (Table.dataOf es).length + e.encodedLen := by
  induction es with
  | nil => simp [insertEntry, Table.dataOf_cons]
  | cons y ys ih =>
    unfold insertEntry
    split
    · simp [Table.dataOf_cons]
      omega
    · split
      · simp [Table.dataOf_cons]
        omega
      · simp only [Table.dataOf_cons, List.length_append]
        omega

@[simp] theorem generation_put (m : Memtable) (e : Entry) : (m.put e).2.generation = m.generation :=
  rfl

@[simp] theorem entries_put (m : Memtable) (e : Entry) :
    (m.put e).2.entries = insertEntry e m.entries := rfl

/-- A lookup in an in-memory table answers as its run. -/
theorem get?_eq_entryOf (m : Memtable) (key : Bytes) : m.get? key = entryOf m.entries key := rfl

/-! ## Cursors -/

namespace Cursor

/-- Whether a key lies after the last key a cursor returned, or, before it returned any, not
below its lower bound. -/
def fromLow (c : Cursor) (key : Bytes) : Bool :=
  match c.last with
  | some k => decide (k < key)
  | none => match c.lower with | some l => decide (l ≤ key) | none => true

/-- Whether a key lies below a cursor's upper bound. -/
def belowHigh (c : Cursor) (key : Bytes) : Bool :=
  match c.upper with | some u => decide (key < u) | none => true

/-- The entries a cursor has still to visit. -/
def admits (c : Cursor) (x : Entry) : Bool := c.fromLow x.key && c.belowHigh x.key

theorem peek_eq (c : Cursor) (m : Memtable) : c.peek m = m.entries.find? c.admits := rfl

@[simp] theorem fromLow_last (c : Cursor) (k key : Bytes) :
    ({ c with last := some k } : Cursor).fromLow key = decide (k < key) := rfl

@[simp] theorem belowHigh_last (c : Cursor) (k key : Bytes) :
    ({ c with last := some k } : Cursor).belowHigh key = c.belowHigh key := rfl

/-- A cursor that has not started admits exactly the keys of its range. -/
theorem admits_start (lower upper : Option Bytes) (x : Entry) :
    (start lower upper).admits x = inRange lower upper x.key := by
  cases lower <;> cases upper <;> rfl

/-- Keys above one a cursor is past the start of are past it too. -/
theorem fromLow_of_lt {c : Cursor} {a b : Bytes} (low : c.fromLow a = true) (lt : a < b) :
    c.fromLow b = true := by
  unfold fromLow at low ⊢
  cases last : c.last with
  | some k =>
    simp only [last, decide_eq_true_eq] at low ⊢
    exact key_lt_trans low lt
  | none =>
    cases lower : c.lower with
    | none => rfl
    | some l =>
      simp only [last, lower, decide_eq_true_eq] at low ⊢
      exact fun below => low (key_lt_trans lt below)

/-- Once a cursor has returned `x`, it admits what it admitted before above `x`. -/
theorem admits_after {c : Cursor} {x : Entry} (admitted : c.admits x = true) (y : Entry) :
    ({ c with last := some x.key } : Cursor).admits y = (decide (x.key < y.key) && c.admits y) := by
  have low : c.fromLow x.key = true := (Bool.and_eq_true_iff.1 admitted).1
  by_cases above : x.key < y.key
  · simp [admits, above, fromLow_of_lt low above]
  · simp [admits, above]

/-- Past the first entry it admits, a cursor admits the rest of what it admitted. -/
theorem filter_admits_after {es : List Entry} {c : Cursor} {x : Entry} {rest : List Entry}
    (sorted : Ascending es) (first : es.filter c.admits = x :: rest) :
    es.filter ({ c with last := some x.key } : Cursor).admits = rest := by
  have admitted : c.admits x = true :=
    (List.mem_filter.1 (first ▸ List.mem_cons_self : x ∈ es.filter c.admits)).2
  have restAbove : Ascending (x :: rest) := first ▸ sorted.filter c.admits
  calc es.filter ({ c with last := some x.key } : Cursor).admits
      = (es.filter c.admits).filter (fun y => decide (x.key < y.key)) := by
        rw [List.filter_filter]
        exact List.filter_congr fun y _ => admits_after admitted y
    _ = rest := by
        rw [first, List.filter_cons_of_neg (by simp [key_lt_irrefl]), List.filter_eq_self]
        intro y hy
        simpa using Ascending.head_lt restAbove y hy

/-- A cursor over an in-memory table that stays as it is yields the entries it admits, one per
step, through any source that steps the cursor against the table and counts the table's entries. -/
theorem yields_of {σ : Type} (S : Stream σ StoreError) (wrap : Cursor → σ) {m : Memtable}
    (pull : ∀ c, S.pull (wrap c) = ((c.next m).1.map .ok, wrap (c.next m).2))
    (size : ∀ c, m.entryCount < S.size (wrap c)) (sorted : Ascending m.entries) (c : Cursor)
    (running : c.ended = false) : S.Yields (wrap c) (m.entries.filter c.admits) := by
  -- induction on what the cursor has left, which shrinks by the entry it returns
  generalize left : m.entries.filter c.admits = rest
  induction rest generalizing c with
  | nil =>
    have ends : c.peek m = none := by
      rw [peek_eq, List.find?_eq_none]
      intro x hx admitted
      have : x ∈ m.entries.filter c.admits := List.mem_filter.2 ⟨hx, admitted⟩
      simp [left] at this
    exact .nil (show S.pull (wrap c) = (none, wrap { c with ended := true }) by
      simp [pull, Cursor.next, running, ends])
  | cons x rest ih =>
    have found : c.peek m = some x := by
      rw [peek_eq, ← List.head?_filter, left]
      rfl
    refine .cons (by simp [pull, Cursor.next, running, found])
      (ih { c with last := some x.key } running (filter_admits_after sorted left)) ?_
    have fewer := List.length_filter_le c.admits m.entries
    rw [left, List.length_cons] at fewer
    have bound := size c
    simp only [Memtable.entryCount] at bound
    omega

/-- A cursor reading an in-memory table live yields the entries it admits, one per step, as
long as the table stays as it is. -/
theorem yields {live : Nat → Option Memtable} {v : Volume} {s : Nat} {m : Memtable}
    (hm : live s = some m) (sorted : Ascending m.entries) (c : Cursor) (running : c.ended = false) :
    (tierStream live v).Yields (.live s c) (m.entries.filter c.admits) :=
  yields_of (tierStream live v) (.live s) (fun c => by simp [tierStream, hm])
    (fun c => by simp [tierStream, hm]) sorted c running

/-- A cursor reading a frozen in-memory table yields the entries it admits, one per step. -/
theorem yields_frozen {live : Nat → Option Memtable} {v : Volume} {m : Memtable}
    (sorted : Ascending m.entries) (c : Cursor) (running : c.ended = false) :
    (tierStream live v).Yields (.frozen m c) (m.entries.filter c.admits) :=
  yields_of (tierStream live v) (.frozen m) (fun c => by simp [tierStream])
    (fun c => by simp [tierStream]) sorted c running

end Cursor

end Memtable

end LsmStore
