import LsmStore.Volume
import LsmStore.Config
import LsmStore.KeyRange

/-!
# Reading tables

A table is two files. The data file is the entries, encoded back to back in ascending key
order; the index file is the offset of each entry in the data file, eight bytes little-endian
per entry. Nothing else is stored, so every read is checked: an entry is read from its offset
to the next entry's offset (or the end of the data file) and must decode to exactly those bytes.

An open table holds its two files open and reads them again on every lookup; nothing of their
contents is kept. The lengths of the files are taken when the table is opened, and every read
is checked against them, so the number of entries and the end of the last one stay as they
were. The bytes read are those the files hold at the time of the read. Read through a file
handle, a file cut short since the opening makes a read past its new end fail; read through a
memory mapping, the bytes past the new end read as zeros. A directory in a file's place opens
through a handle, as the operating system allows, and every read of it that asks for bytes
fails; it cannot be mapped.

Opening a table checks only that the index is whole offsets and that the last offset lies inside
the data file. Lookups are a binary search over the keys, read straight from the data file at
the offsets the index gives.

## Main definitions

* `Table.Source` — one open file of a table: its inode, its length at opening, how it is read
* `LsmStore.Table` — an open table: its identity and its two files
* `Table.open` — open a table of a directory, checking its index
* `Table.lowerBound`, `Table.get?`, `Table.entryAt` — positional and keyed reads
* `Table.Cursor`, `Table.cursor` — a scan over a range of positions
-/

namespace LsmStore

namespace Table

/-- One open file of a table. -/
structure Source where
  /-- The inode read, or `none` when a directory stands at the path: a directory opens like a
  file, with the length the file system reports for it, but no byte of it can be read. -/
  inode : Option Nat
  /-- The length of the file when it was opened. -/
  length : Nat
  /-- Whether the file is read through a memory mapping rather than a file handle. -/
  mapped : Bool
deriving DecidableEq, Repr

namespace Source

/-- The bytes `[offset, offset + len)` of the file as it is now in `v`. The range must lie
within the length at opening. Past the present end of the file, a handle read falls short and a
mapped read gives zeros. Reading nothing always succeeds. -/
def readAt (v : Volume) (s : Source) (offset len : Nat) : Except StoreError Bytes :=
  if s.length < offset + len then .error (.table (.readPastEnd len offset s.length))
  else if len = 0 then .ok []
  else match s.inode with
    | none => .error (.io .isDirectory)
    | some i =>
      let got := ((v.contents i).drop offset).take len
      if got.length = len then .ok got
      else if s.mapped then .ok (got ++ List.replicate (len - got.length) 0)
      else .error (.io .shortRead)

/-- Opens the file at `path` with the given back end. A missing file is an I/O fault; a
directory opens through a handle but cannot be mapped. -/
def «open» (v : Volume) (path : String) (backend : ReadBackend) : Except StoreError Source := do
  let p ← (v.resolve path).mapError .io
  match v.lookup p, backend with
  | some (.file i), _ => pure ⟨some i, (v.contents i).length, backend == .mapped⟩
  | some .dir, .buffered => pure ⟨none, v.dirLength p, false⟩
  | some .dir, .mapped => throw (.io .noDevice)
  | none, _ => throw (.io .notFound)

end Source

end Table

/-- An open table. -/
structure Table where
  id : TableId
  data : Table.Source
  index : Table.Source
deriving Repr

namespace Table

/-- The width of one index slot. -/
def offsetSize : Nat := 8

/-- The number of entries: whole index slots. -/
def entryCount (t : Table) : Nat := t.index.length / offsetSize

/-- Whether the table has no entry. -/
def isEmpty (t : Table) : Bool := t.entryCount == 0

/-- The length of the data file. -/
def dataSize (t : Table) : Nat := t.data.length

/-- The data offset of the entry at `pos`, read from the index. -/
def offset (v : Volume) (t : Table) (pos : Nat) : Except StoreError Nat := do
  let slot ← t.index.readAt v (pos * offsetSize) offsetSize
  pure (Bytes.toNatLE slot)

/-- Opens table `id` of directory `dir`: data file first, then index, then the checks. The
index must be whole offsets and its last offset must lie inside the data file. -/
def «open» (v : Volume) (dir : String) (id : TableId) (backend : ReadBackend) :
    Except StoreError Table := do
  let data ← Source.open v (Volume.join dir (id.fileName .data)) backend
  let index ← Source.open v (Volume.join dir (id.fileName .index)) backend
  let t : Table := ⟨id, data, index⟩
  if index.length % offsetSize ≠ 0 then throw (.table (.indexLength id index.length))
  if 0 < t.entryCount then
    let last ← t.offset v (t.entryCount - 1)
    if data.length ≤ last then throw (.table (.lastOffset id last data.length))
  pure t

/-- The key of the entry at `pos`, read from its length prefix. -/
def keyAt (v : Volume) (t : Table) (pos : Nat) : Except StoreError Bytes := do
  let off ← t.offset v pos
  let lenBytes ← t.data.readAt v off 4
  t.data.readAt v (off + 4) (Bytes.toNatLE lenBytes)

/-- The entry at `pos`: the bytes from its offset to the next entry's offset, or to the end of
the data file for the last entry, which must decode to exactly one entry. -/
def entryAt (v : Volume) (t : Table) (pos : Nat) : Except StoreError Entry := do
  let start ← t.offset v pos
  let stop ← if pos + 1 < t.entryCount then t.offset v (pos + 1) else pure t.data.length
  if stop < start then throw (.table (.offsetsDecrease t.id pos))
  let buf ← t.data.readAt v start (stop - start)
  match Entry.decode buf with
  | (.error f, _) => throw (.table (.entry f))
  | (.ok e, rest) =>
    if rest.isEmpty then pure e else throw (.table (.strayBytes t.id pos rest.length))

/-- Binary search in `[lo, hi)` for the first position whose key is not below `key`. -/
def searchFrom (v : Volume) (t : Table) (key : Bytes) (lo hi : Nat) : Except StoreError Nat :=
  if h : lo < hi then do
    let mid := lo + (hi - lo) / 2
    let k ← t.keyAt v mid
    if k < key then searchFrom v t key (mid + 1) hi else searchFrom v t key lo mid
  else pure lo
termination_by hi - lo

/-- The position of the first entry whose key is not below `key`. -/
def lowerBound (v : Volume) (t : Table) (key : Bytes) : Except StoreError Nat :=
  t.searchFrom v key 0 t.entryCount

/-- The entry of `key`, a tombstone included. -/
def get? (v : Volume) (t : Table) (key : Bytes) : Except StoreError (Option Entry) := do
  let pos ← t.lowerBound v key
  if pos = t.entryCount then pure none
  else
    let e ← t.entryAt v pos
    pure (if e.key = key then some e else none)

/-- A scan over the positions `[pos, stop)` of a table; after a read fault it is over. -/
structure Cursor where
  table : Table
  pos : Nat
  stop : Nat
deriving Repr

/-- The positions of the keys in `[lower, upper)`: empty when the range is, else the lower
bounds of the two keys, an absent one meaning the start or the end. -/
def cursor (v : Volume) (t : Table) (lower upper : Option Bytes) : Except StoreError Cursor := do
  if emptyRange lower upper then return ⟨t, 0, 0⟩
  let start ← match lower with
    | some k => t.lowerBound v k
    | none => pure 0
  let stop ← match upper with
    | some k => t.lowerBound v k
    | none => pure t.entryCount
  pure ⟨t, start, stop⟩

/-- A scan over the whole table. -/
def scan (t : Table) : Cursor := ⟨t, 0, t.entryCount⟩

namespace Cursor

/-- The number of entries the scan has left, at most. -/
def remaining (c : Cursor) : Nat := c.stop - c.pos

/-- Reads the next entry from the files as they are in `v`; a fault ends the scan. -/
def next (v : Volume) (c : Cursor) : Option (Except StoreError Entry) × Cursor :=
  if c.pos < c.stop then
    match c.table.entryAt v c.pos with
    | .ok e => (some (.ok e), { c with pos := c.pos + 1 })
    | .error f => (some (.error f), { c with pos := c.stop })
  else (none, c)

theorem next_remaining (v : Volume) (c : Cursor) (x : Except StoreError Entry) (c' : Cursor)
    (h : c.next v = (some x, c')) : c'.remaining < c.remaining := by
  unfold next at h
  split at h
  · rename_i hlt
    split at h <;> simp only [Prod.mk.injEq] at h <;> rw [← h.2] <;> simp [remaining] <;> omega
  · simp at h

/-- Every entry the scan has left, read from `v`, stopping after a fault. -/
def toList (v : Volume) (c : Cursor) : List (Except StoreError Entry) :=
  match h : c.next v with
  | (none, _) => []
  | (some x, c') =>
    have := next_remaining v c x c' h
    x :: toList v c'
termination_by c.remaining

end Cursor

end Table

end LsmStore
