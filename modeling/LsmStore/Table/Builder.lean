import LsmStore.Table.Reader

/-!
# Writing tables

A builder writes a table from entries given in strictly ascending key order. Both files are
written under temporary names (the final name with `.tmp` appended) and stay open while the
table is written. Each accepted entry puts its data offset, eight bytes, at the end of the index
file and its encoding at the end of the data file; an entry whose key is not above the last
accepted key is refused before anything is written. Finishing renames the index first and the
data file last, so a data file on disk always has its complete index next to it; a builder
dropped before it finishes removes its temporary files.

## Main definitions

* `Table.Sink` — a file open for writing
* `Table.Builder` — the table being written
* `Table.Builder.create`, `add`, `finish`, `abandon`
* `Table.dataOf`, `Table.indexOf` — the files written for a list of entries
-/

namespace LsmStore

namespace Table

/-- The temporary name a file is written under before it is published. -/
def tmpName (path : String) : String := path ++ ".tmp"

/-- The temporary path of one of the files of table `id` in directory `dir`. -/
def tmpPath (dir : String) (id : TableId) (role : FileRole) : String :=
  tmpName (Volume.join dir (id.fileName role))

/-- The data file of a table holding `es`: the encoded entries back to back. -/
def dataOf (es : List Entry) : Bytes := (es.map Entry.encode).flatten

/-- The offsets at which the encodings of `es` start when written back to back from `start`. -/
def offsetsFrom : Nat → List Entry → List Nat
  | _, [] => []
  | start, e :: es => start :: offsetsFrom (start + e.encodedLen) es

/-- The index file of a table holding `es`: each entry's data offset, eight bytes each. -/
def indexOf (es : List Entry) : Bytes :=
  ((offsetsFrom 0 es).map (Bytes.ofNatLE offsetSize)).flatten

/-- A file open for writing: its inode, and where the next write goes. -/
structure Sink where
  inode : Nat
  position : Nat
deriving Repr

namespace Sink

/-- Opens a file for writing from its start: a file at the path is emptied, a missing one is
created. -/
def openTruncated (path : String) : VolumeM Sink := do
  match (← get).touch path with
  | .ok (i, v) =>
    set (v.setContents i [])
    pure ⟨i, 0⟩
  | .error e => throw (.io e)

/-- Writes bytes at the sink's position and moves the position past them. -/
def put (s : Sink) (bs : Bytes) : VolumeM Sink := do
  modify (·.writeAt s.inode s.position bs)
  pure { s with position := s.position + bs.length }

end Sink

/-- A table being written into directory `dir`: its two temporary files, open, and what has
been written to them. -/
structure Builder where
  id : TableId
  dir : String
  data : Sink
  index : Sink
  /-- The number of entries accepted, a 64-bit count. -/
  entryCount : Nat := 0
  /-- Where the next entry starts in the data file, a 64-bit offset. -/
  currentOffset : Nat := 0
  /-- The key of the last accepted entry. -/
  lastKey : Option Bytes := none
deriving Repr

namespace Builder

/-- Starts a table: opens both temporary files, emptied, data first. When the index file
cannot be opened, the data file stays behind. -/
def create (dir : String) (id : TableId) : VolumeM Builder := do
  let data ← Sink.openTruncated (tmpPath dir id .data)
  let index ← Sink.openTruncated (tmpPath dir id .index)
  pure { id, dir, data, index }

/-- Writes an entry: its data offset goes to the index file and its encoding to the data file;
both counters move on, wrapping at 64 bits. -/
def append (b : Builder) (e : Entry) : VolumeM Builder := do
  let index ← b.index.put (Bytes.ofNatLE offsetSize b.currentOffset)
  let encoded := e.encode
  let data ← b.data.put encoded
  pure { b with
    index
    data
    currentOffset := (b.currentOffset + encoded.length) % 2 ^ (64 : Nat)
    entryCount := (b.entryCount + 1) % 2 ^ (64 : Nat)
    lastKey := some e.key }

/-- Accepts an entry whose key is above the last accepted key and writes it; refuses any other
before writing anything. -/
def add (b : Builder) (e : Entry) : VolumeM Builder :=
  match b.lastKey with
  | some last => if e.key ≤ last then throw (.outOfOrder b.id e.key last) else b.append e
  | none => b.append e

/-- Publishes both files under their final names, index first. When the data file cannot be
published, the index stays published. -/
def finish (b : Builder) : VolumeM Unit := do
  VolumeM.io (·.rename (tmpPath b.dir b.id .index) (Volume.join b.dir (b.id.fileName .index)))
  VolumeM.io (·.rename (tmpPath b.dir b.id .data) (Volume.join b.dir (b.id.fileName .data)))

/-- Drops an unfinished builder: its temporary files are removed where they still exist. -/
def abandon (b : Builder) (v : Volume) : Volume :=
  let drop (w : Volume) (p : String) : Volume :=
    match w.removeIfExists p with
    | .ok (_, w') => w'
    | .error _ => w
  drop (drop v (tmpPath b.dir b.id .data)) (tmpPath b.dir b.id .index)

end Builder

end Table

end LsmStore
