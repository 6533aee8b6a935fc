import LsmStore.Table.Builder

/-!
# The table directory

All tables of a store live in one directory. On startup the directory is cleaned and its
tables are opened: temporary files of unfinished writes are removed, an index whose data file
never arrived is removed, a data file without its index is an error, and tables already
replaced by a compaction are removed. The rest are opened newest first. Names are read back to
identities and the tables are then opened under their canonical names.

The identities found are gathered in a hash map and dealt with in the order the map yields
them, which the program does not choose: an index without its data file that comes before a
data file without its index is removed before startup stops on the latter. Startup is written
for any such order; the engine opens its directory in one of them.

## Main definitions

* `Table.YieldOrder` — an order a map of identities may yield them in
* `Table.discover` — what the file names of a directory say
* `Table.settle`, `Table.openAllIn` — clean a directory and open its tables, newest first,
  dealing with the identities found in a given order
* `Table.openAll` — the same, in the order the engine uses
* `Table.write` — write a table from a stream of entries and open it
-/

namespace LsmStore

namespace Table

/-- Sorts identities newest first. -/
def sortNewestFirst (ids : List TableId) : List TableId :=
  ids.mergeSort TableId.newestFirst

/-- The roles found for each identity among some file names, in order of first appearance. -/
def discover (names : List String) : List (TableId × List FileRole) :=
  names.foldl (fun acc name =>
    match TableId.parseFileName? name with
    | none => acc
    | some (id, role) =>
      if acc.any (·.1 == id) then acc.map fun (i, rs) => if i == id then (i, role :: rs) else (i, rs)
      else acc ++ [(id, [role])]) []

/-- An order a hash map of identities may yield them in: a strict total order, first what
comes before. -/
structure YieldOrder where
  /-- Whether `a` is yielded before `b`. -/
  before : TableId → TableId → Bool
  irrefl : ∀ a, before a a = false
  trans : ∀ a b c, before a b = true → before b c = true → before a c = true
  total : ∀ a b, a ≠ b → before a b = true ∨ before b a = true

namespace YieldOrder

/-- The entries found, in the order the map yields their identities. -/
def arrange (order : YieldOrder) (found : List (TableId × List FileRole)) :
    List (TableId × List FileRole) :=
  found.mergeSort fun a b => !order.before b.1 a.1

/-- Newest first, as tables are listed, and of a flushed and a compacted identity of the same
generation and base, the compacted one first. -/
def newestFirst : YieldOrder where
  before a b := b.generation < a.generation || (b.generation == a.generation &&
    (b.base < a.base || (b.base == a.base && a.isCompacted && !b.isCompacted)))
  irrefl a := by cases a <;> simp
  trans a b c := by
    simp only [Bool.or_eq_true, Bool.and_eq_true, decide_eq_true_eq, beq_iff_eq]
    cases a <;> cases b <;> cases c <;>
      simp [TableId.generation, TableId.base, TableId.isCompacted] <;> omega
  total a b := by
    simp only [Bool.or_eq_true, Bool.and_eq_true, decide_eq_true_eq, beq_iff_eq]
    cases a <;> cases b <;>
      simp [TableId.generation, TableId.base, TableId.isCompacted] <;> omega

end YieldOrder

/-- What startup does with one identity the map yields, by the roles found for it: a table with
both files is kept, the index of a table without its data file is removed, and a data file
without its index stops startup. -/
def sortOut (dir : String) (x : TableId × List FileRole) : VolumeM (Option TableId) :=
  if x.2.contains .data then
    if x.2.contains .index then pure (some x.1) else throw (.table (.missingIndex x.1))
  else do
    VolumeM.removeIfPresent (Volume.join dir (x.1.fileName .index))
    pure none

/-- What startup does with the identities `found` once the temporary files are gone: it deals
with each in `order`, then removes the tables already replaced by others it keeps and opens the
rest, newest first. -/
def settle (order : YieldOrder) (dir : String) (backend : ReadBackend)
    (found : List (TableId × List FileRole)) : VolumeM (List Table) := do
  let live ← (order.arrange found).filterMapM (sortOut dir)
  let replaced := live.filter fun id => live.any (·.covers id)
  replaced.forM fun id => do
    VolumeM.removeIfPresent (Volume.join dir (id.fileName .data))
    VolumeM.removeIfPresent (Volume.join dir (id.fileName .index))
  let live := sortNewestFirst (live.filter fun id => !replaced.contains id)
  let v ← get
  live.mapM fun id => VolumeM.lift (Table.open v dir id backend)

/-- Cleans the table directory `dir` and opens every table in it, newest first, dealing with
the identities found in `order`. What was removed before a failure stays removed. -/
def openAllIn (order : YieldOrder) (dir : String) (backend : ReadBackend) :
    VolumeM (List Table) := do
  let names ← VolumeM.query (·.children dir)
  let v ← get
  let files := names.filter fun n => match v.find? (Volume.join dir n) with
    | some (.file _) => true
    | _ => false
  (files.filter (FileName.extension? · == some "tmp")).forM fun n =>
    VolumeM.removeIfPresent (Volume.join dir n)
  settle order dir backend (discover (files.filter (FileName.extension? · != some "tmp")))

/-- Cleans the table directory `dir` and opens every table in it, newest first, as the engine
does. -/
def openAll (dir : String) (backend : ReadBackend) : VolumeM (List Table) :=
  openAllIn .newestFirst dir backend

/-- Feeds entries to a builder until the first error of the stream or of the builder; what
the builder wrote before an error stays written. -/
def feed {ε : Type} (lift : StoreError → ε) (b : Builder) (v : Volume) :
    List (Except ε Entry) → Except ε Builder × Volume
  | [] => (.ok b, v)
  | .error e :: _ => (.error e, v)
  | .ok x :: rest =>
    match (b.add x).run.run v with
    | (.ok b', v') => feed lift b' v' rest
    | (.error e, v') => (.error (lift e), v')

/-- Writes table `id` into `dir` from a stream of entries in strictly ascending key order and
opens it. A failure of the stream or of the write leaves no temporary file behind. -/
def write {ε : Type} (lift : StoreError → ε) (v : Volume) (dir : String) (id : TableId)
    (backend : ReadBackend) (items : List (Except ε Entry)) : Except ε Table × Volume :=
  match (Builder.create dir id).run.run v with
  | (.error e, v) => (.error (lift e), v)
  | (.ok b, v) =>
    match feed lift b v items with
    | (.error e, v) => (.error e, b.abandon v)
    | (.ok b, v) =>
      match b.finish.run.run v with
      | (.error e, v) => (.error (lift e), b.abandon v)
      | (.ok (), v) =>
        match Table.open v dir id backend with
        | .ok t => (.ok t, v)
        | .error e => (.error (lift e), v)

end Table

end LsmStore
