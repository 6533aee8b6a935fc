import Mathlib
import LsmStore.Proofs.Table.Write

/-!
# A table reads back what was written

A table written from entries in strictly ascending key order, with key lengths that fit 32 bits,
values shorter than the tombstone mark, and a data file shorter than `2 ^ 64` bytes, reads back
as those entries through every reader. The data file is the encodings back to back, and the
index is the offset at which each encoding starts, as an 8-byte little-endian word. The table
opens with one entry per index slot, and a scan over it yields the entries in order. The binary
search returns the number of keys below the one asked for, and a lookup finds the entry with the
key, a tombstone included. A scan over a key range yields exactly the entries in that range.
All of this holds whichever back end the table is read through.

`Table.Holds` (in `LsmStore.Proofs.Table.Read`) already ties every positional read to the
entries. What this module adds is the scan as a list, and the lower bound as a count.

## Main results

* `Table.Holds.toList` — a scan over a block of positions yields the entries there
* `Table.Holds.lowerBound_eq` — the binary search counts the keys below the one asked for
* `Table.Holds.range` — a range scan yields the entries in the range
* `Table.write_reads_back` — the round trip from the builder to every reader
-/

namespace LsmStore

namespace Table

open Run Volume TableId

namespace Cursor

variable {v : Volume} {c c' : Cursor}

theorem toList_of_next_none (ends : c.next v = (none, c')) : c.toList v = [] := by
  rw [toList]
  split <;> simp_all

theorem toList_of_next_some {x : Except StoreError Entry} (step : c.next v = (some x, c')) :
    c.toList v = x :: c'.toList v := by
  rw [toList]
  split <;> simp_all

end Cursor

/-- The offsets at which the encodings start, written from the front of the data file: entry `p`
starts after the encodings of the entries before it. -/
theorem offsetsFrom_zero (es : List Entry) :
    offsetsFrom 0 es = (List.range es.length).map fun p => (dataOf (es.take p)).length := by
  apply List.ext_getElem?
  intro p
  by_cases inside : p < es.length
  · rw [getElem?_offsetsFrom 0 es inside, List.getElem?_map, List.getElem?_range inside,
      Nat.zero_add]
    rfl
  · rw [List.getElem?_eq_none (by rw [length_offsetsFrom]; omega),
      List.getElem?_eq_none (by simp; omega)]

variable {v : Volume} {t : Table} {es : List Entry}

/-! ## Scans and searches of a table that holds some entries -/

/-- A scan over the positions `[pos, stop)` of a table holding `es` yields those entries, one
read each. -/
theorem Holds.toList (h : Holds v t es) (pos stop : Nat) (bounded : stop ≤ es.length) :
    (⟨t, pos, stop⟩ : Cursor).toList v = ((es.drop pos).take (stop - pos)).map .ok := by
  -- induction on the number of positions left
  induction width : stop - pos generalizing pos with
  | zero =>
    have ends : (⟨t, pos, stop⟩ : Cursor).next v = (none, ⟨t, pos, stop⟩) :=
      Cursor.next_of_done (by dsimp only; omega)
    rw [Cursor.toList_of_next_none ends, List.take_zero, List.map_nil]
  | succ n ih =>
    have hp : pos < es.length := by omega
    have step : (⟨t, pos, stop⟩ : Cursor).next v = (some (.ok es[pos]), ⟨t, pos + 1, stop⟩) :=
      Cursor.next_of_entry (by dsimp only; omega) (h.entryAt hp)
    rw [Cursor.toList_of_next_some step, ih (pos + 1) (by omega), List.drop_eq_getElem_cons hp,
      List.take_succ_cons, List.map_cons]

/-- The binary search for a key returns the number of entries whose key is below it. -/
theorem Holds.lowerBound_eq (h : Holds v t es) (key : Bytes) :
    t.lowerBound v key = .ok (es.countP (·.key < key)) := by
  obtain ⟨p, found, le, below, notBelow⟩ := h.lowerBound key
  -- the keys below the one asked for are exactly the first `p`
  have slice : es.filter (fun e => decide (e.key < key)) = (es.drop 0).take (p - 0) :=
    filter_eq_slice (fun _ _ hj _ => absurd hj (Nat.not_lt_zero _))
      (fun j e _ hj he => by simpa using below j e hj he)
      (fun j e hj he => by simpa using notBelow j e hj he)
  rw [found, List.countP_eq_length_filter, slice, List.drop_zero, Nat.sub_zero, List.length_take,
    Nat.min_eq_left le]

/-- A scan over a key range yields exactly the entries in the range, in order; an empty range
yields nothing. -/
theorem Holds.range (h : Holds v t es) (lower upper : Option Bytes) :
    ∃ c, t.cursor v lower upper = .ok c ∧
      c.toList v = (es.filter (inRange lower upper ·.key)).map .ok := by
  obtain ⟨pos, stop, opened, bounded, slice⟩ := h.cursor lower upper
  exact ⟨_, opened, by rw [h.toList pos stop bounded, slice]⟩

/-! ## The round trip -/

variable {ds : List String} {fs : List FileLink} {d : String} {id : TableId}

/-- Writing a table of entries in strictly ascending key order, with lengths that fit their
words and a data file no longer than a 64-bit file length can say, on a tree where neither its
final nor its temporary names are taken, and opening it
through either back end, reads the entries back. The data file is their encodings back to back
and the index file the offset of each encoding as an 8-byte word, both under their final names
in two fresh inodes. The open table counts one entry per index slot, and a scan yields the
entries. The binary search for a key gives the number of keys below it, a lookup gives the entry
with the key (a tombstone included) or nothing, and a scan over `[lower, upper)` yields exactly
the entries in that range. -/
theorem write_reads_back {ε : Type} (lift : StoreError → ε) (h : v.Laid ds fs) (hd : d ∈ ds)
    (hv : id.Valid)
    (absent : ∀ f ∈ fs, f.dir = d → ∀ role,
      f.name ≠ id.fileName role ∧ f.name ≠ id.fileName role ++ ".tmp")
    (storable : Storable es) (backend : ReadBackend) :
    ∃ t w, Table.write lift v d id backend (es.map .ok) = (.ok t, w) ∧
      w.Laid ds (⟨d, id.fileName .data, v.nextInode⟩ ::
        ⟨d, id.fileName .index, v.nextInode + 1⟩ :: fs) ∧
      w.contents v.nextInode = (es.map Entry.encode).flatten ∧
      w.contents (v.nextInode + 1) = ((List.range es.length).map fun p =>
        Bytes.ofNatLE 8 ((es.take p).map Entry.encode).flatten.length).flatten ∧
      t.entryCount = es.length ∧ t.scan.toList w = es.map .ok ∧
      (∀ key, t.lowerBound w key = .ok (es.countP (·.key < key))) ∧
      (∀ key, t.get? w key = .ok (entryOf es key)) ∧
      ∀ lower upper, ∃ c, t.cursor w lower upper = .ok c ∧
        c.toList w = (es.filter (inRange lower upper ·.key)).map .ok := by
  obtain ⟨t, w, written, -, holds, dataInode, indexInode, laid, -, -⟩ :=
    write_laid lift h hd hv absent storable backend
  -- the open table reads the two fresh inodes
  have data : w.contents v.nextInode = dataOf es := by
    obtain ⟨i, hi, contents⟩ := holds.data
    rw [dataInode, Option.some.injEq] at hi
    rw [hi, contents]
  have index : w.contents (v.nextInode + 1) = indexOf es := by
    obtain ⟨i, hi, contents⟩ := holds.index
    rw [indexInode, Option.some.injEq] at hi
    rw [hi, contents]
  refine ⟨t, w, written, laid, data, ?_, holds.entryCount, ?_, holds.lowerBound_eq, holds.get?,
    holds.range⟩
  · rw [index, indexOf, offsetsFrom_zero, List.map_map]
    rfl
  · rw [Table.scan, holds.toList 0 _ (Nat.le_of_eq holds.entryCount), holds.entryCount,
      List.drop_zero, Nat.sub_zero, List.take_length]

/-- Two entries, a value and a tombstone, written to an empty table directory: the lookup of the
deleted key finds its tombstone, and the binary search for it counts one key below. -/
theorem write_reads_back_twoEntries :
    ∃ t w, Table.write (fun e => e) (({} : Volume).bind tableDir .dir) tableDir (.flushed 1)
        .mapped ([Entry.put [97] [49], Entry.tombstone [98]].map .ok) = (.ok t, w) ∧
      t.get? w [98] = .ok (some (Entry.tombstone [98])) ∧ t.lowerBound w [98] = .ok 1 := by
  have laid : (({} : Volume).bind tableDir .dir).Laid [tableDir] [] :=
    laid_empty.bind_dir tableDir_isName List.not_mem_nil
  have storable : Storable [Entry.put [97] [49], Entry.tombstone [98]] :=
    ⟨by unfold Ascending; decide, by decide, by simp [Entry.put, Entry.tombstone, Entry.tombstoneMark],
      by decide⟩
  have valid : (TableId.flushed 1).Valid := by
    unfold TableId.Valid
    decide
  obtain ⟨t, w, written, -, -, -, -, -, counts, lookup, -⟩ :=
    write_reads_back (fun e => e) laid List.mem_cons_self valid
      (fun _ member => nomatch member) storable .mapped
  refine ⟨t, w, written, ?_, ?_⟩
  · rw [lookup]
    rfl
  · rw [counts]
    decide

end Table

end LsmStore
