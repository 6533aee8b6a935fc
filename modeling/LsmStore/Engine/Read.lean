import LsmStore.Engine.Basic

/-!
# Reading

A lookup asks the tiers newest first: the active in-memory table, the flushing slot, then the
tables newest first. The first tier holding the key decides, and a deletion there means the
key is absent. A scan merges the same tiers over a key range. Opening it takes the first entry
of every tier; after that it reads the active in-memory table as that table is at each step,
the tables on disk from their files as they are at each step, and everything else as it was
when the scan opened.

## Main definitions

* `Engine.get` — the value of a key
* `Engine.scan` — open a scan over a key range
* `Scan.next` — the next live pair of a scan
-/

namespace LsmStore

namespace Engine

open EngineM

/-- The entry of `key` in the first table of `tables` that holds it, reading their files as
they are in `v`. -/
def lookup (v : Volume) (key : Bytes) : List Held → Except StoreError (Option Entry)
  | [] => .ok none
  | t :: ts =>
    match t.table.get? v key with
    | .error err => .error err
    | .ok (some e) => .ok (some e)
    | .ok none => lookup v key ts

/-- The entry of `key` in the newest tier that holds it. -/
def find? (v : Volume) (e : Engine) (key : Bytes) : Except StoreError (Option Entry) :=
  match e.active.get? key with
  | some en => .ok (some en)
  | none =>
    match e.stalled.bind (·.memtable.get? key) with
    | some en => .ok (some en)
    | none => lookup v key e.tables

/-- The value of `key`, if it is present. -/
def get (key : Bytes) : EngineM (Option Bytes) := do
  checkOpen
  let found ← lift ((← engine).find? (← volume) key)
  pure (found.bind (·.value))

/-- The stream of a scan's tiers as this engine and the volume `v` have them now. -/
def tiers (v : Volume) (e : Engine) : Stream TierCursor StoreError := tierStream e.liveTable v

/-- The tiers a scan over `[lower, upper)` reads, newest first. -/
def sources (v : Volume) (e : Engine) (lower upper : Option Bytes) :
    Except StoreError (List TierCursor) := do
  let start := Memtable.Cursor.start lower upper
  let tables ← e.tables.mapM fun t => (t.table.cursor v lower upper).map (.table t.handle)
  pure ([.live e.active.serial start] ++
    (e.stalled.map fun s => TierCursor.frozen s.memtable start).toList ++ tables)

/-- Opens a scan over `[lower, upper)`; an empty range gives a scan of nothing. -/
def scan (lower upper : Option Bytes) : EngineM Scan := do
  checkOpen
  if emptyRange lower upper then return Merge.empty
  let e ← engine
  let v ← volume
  let sources ← lift (e.sources v lower upper)
  lift (Merge.start (e.tiers v) sources)

end Engine

/-- The next live pair of a scan, read against `live` for the in-memory tables it reads live
and against `v` for the files of its tables. -/
def Scan.next (live : Nat → Option Memtable) (v : Volume) (s : Scan) :
    Option (Except StoreError (Bytes × Bytes)) × Scan :=
  match Merge.next (tierStream live v) s with
  | (some (.ok e), s') => (some (.ok (e.key, e.value.getD [])), s')
  | (some (.error err), s') => (some (.error err), s')
  | (none, s') => (none, s')

end LsmStore
