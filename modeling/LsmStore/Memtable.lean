import LsmStore.Entry
import LsmStore.KeyRange

/-!
# In-memory tables

Recent writes live in a sorted in-memory table until it is written out as a table file. A put
inserts or overwrites the entry of its key, and every put, an overwrite too, charges the
length of the key and of the value plus a fixed overhead of 16 bytes to the table's size. The
table counts as full once its size reaches its limit.

A cursor walks a key range of a table. It keeps only the last key it returned and looks up the
next key after it on every step, so entries inserted after the cursor's position are seen;
once it has reported the end it stays ended.

## Main definitions

* `LsmStore.Memtable` — sorted entries, size charge, limit, generation and identity
* `Memtable.put`, `Memtable.get?`, `Memtable.range` — the table's operations
* `Memtable.Cursor` — a position in a key range, stepped against the current table

## Main results

* `get?_put` — after a put, a lookup of its key finds the entry put
-/

namespace LsmStore

/-- The fixed charge per put on top of the key and value lengths. -/
def Memtable.entryOverhead : Nat := 16

/-- An in-memory table. -/
structure Memtable where
  /-- The generation the table becomes when written out; also its log segment. -/
  generation : Nat
  /-- The size at which the table counts as full. -/
  sizeLimit : Nat
  /-- A number that tells this table apart from every other one of a session. -/
  serial : Nat := 0
  /-- The entries, by strictly ascending key. -/
  entries : List Entry := []
  /-- The bytes charged so far. -/
  size : Nat := 0
deriving Repr

namespace Memtable

/-- Inserts `e` into entries sorted by key, replacing the entry of the same key. -/
def insertEntry (e : Entry) : List Entry → List Entry
  | [] => [e]
  | x :: xs =>
    if e.key < x.key then e :: x :: xs
    else if e.key = x.key then e :: xs
    else x :: insertEntry e xs

/-- The bytes a put of `e` charges. -/
def charge (e : Entry) : Nat :=
  e.key.length + (e.value.map List.length).getD 0 + entryOverhead

/-- Inserts or overwrites an entry; also tells whether the table is now full. -/
def put (m : Memtable) (e : Entry) : Bool × Memtable :=
  let m' := { m with entries := insertEntry e m.entries, size := m.size + charge e }
  (decide (m'.sizeLimit ≤ m'.size), m')

/-- The entry of a key, a tombstone included. -/
def get? (m : Memtable) (key : Bytes) : Option Entry :=
  m.entries.find? (·.key == key)

/-- The number of distinct keys. -/
def entryCount (m : Memtable) : Nat := m.entries.length

/-- Whether the table holds no entry. -/
def isEmpty (m : Memtable) : Bool := m.entries.isEmpty

/-- Whether the table has reached its size limit. -/
def isFull (m : Memtable) : Bool := decide (m.sizeLimit ≤ m.size)

/-- The entries in `[lower, upper)`, tombstones included; none when the range is empty. -/
def range (m : Memtable) (lower upper : Option Bytes) : List Entry :=
  if emptyRange lower upper then [] else m.entries.filter (inRange lower upper ·.key)

/-- A position in a key range of a table. -/
structure Cursor where
  lower : Option Bytes
  upper : Option Bytes
  /-- The last key returned. -/
  last : Option Bytes := none
  ended : Bool := false
deriving Repr

/-- A cursor before the first key of `[lower, upper)`. -/
def Cursor.start (lower upper : Option Bytes) : Cursor :=
  ⟨lower, upper, none, emptyRange lower upper⟩

/-- The first entry of `m` after the cursor and inside its range, if any. -/
def Cursor.peek (c : Cursor) (m : Memtable) : Option Entry :=
  m.entries.find? fun e =>
    (match c.last with
      | some k => decide (k < e.key)
      | none => match c.lower with | some l => decide (l ≤ e.key) | none => true) &&
    (match c.upper with | some u => decide (e.key < u) | none => true)

/-- Steps a cursor against the table as it is now: the next entry after the last key returned,
or the end, after which the cursor stays ended. -/
def Cursor.next (c : Cursor) (m : Memtable) : Option Entry × Cursor :=
  if c.ended then (none, c)
  else match c.peek m with
    | some e => (some e, { c with last := some e.key })
    | none => (none, { c with ended := true })

theorem get?_insertEntry (e : Entry) (xs : List Entry) :
    (insertEntry e xs).find? (·.key == e.key) = some e := by
  induction xs with
  | nil => simp [insertEntry]
  | cons x xs ih =>
    simp only [insertEntry]
    split
    · simp
    · split
      · simp
      · rename_i h1 h2
        have hne : (x.key == e.key) = false := by
          simp only [beq_eq_false_iff_ne]; exact fun h => h2 h.symm
        simp [hne, ih]

theorem get?_put (m : Memtable) (e : Entry) : (m.put e).2.get? e.key = some e :=
  get?_insertEntry e m.entries

end Memtable

end LsmStore
