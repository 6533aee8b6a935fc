import LsmStore.Wal.Appender

/-!
# Log segments

The log directory holds one segment per in-memory table generation, named `{generation:06}.log`.
A segment is deleted by a checkpoint once the table of its generation is on disk. Segments are
found by their names: any entry whose extension is `log` and whose stem reads as a generation,
so a name such as `5.log` counts too, while it is always the canonical name that is opened and
removed.

## Main definitions

* `Wal.segmentName` — the canonical file name of a generation's segment
* `Wal.segments` — the generations of the segments in a directory, ascending
* `Wal.checkpoint` — remove every segment up to a generation
* `Wal.replay` — recover a segment, cutting a torn tail off the file
-/

namespace LsmStore

namespace Wal

/-- The canonical file name of the segment of `generation`. -/
def segmentName (generation : Nat) : String := Bytes.padded 6 generation ++ ".log"

/-- The generation a segment file name stands for: extension `log`, stem a generation. -/
def parseSegmentName? (name : String) : Option Nat :=
  match FileName.extension? name, FileName.splitExtension? name with
  | some "log", some (stem, _) => FileName.parseNumber? stem
  | _, _ => none

/-- The generations of the segments in directory `dir`, ascending; two names that read as one
generation give it twice. -/
def segments (v : Volume) (dir : String) : Except StoreError (List Nat) := do
  let names ← (v.children dir).mapError .io
  pure ((names.filterMap parseSegmentName?).mergeSort (· ≤ ·))

/-- Removes every segment of a generation up to `generation`, by its canonical name, in
ascending order; a segment already gone is skipped, and the first removal that fails stops the
checkpoint with the earlier removals done. -/
def checkpoint (dir : String) (generation : Nat) : VolumeM Unit := do
  let gens ← VolumeM.lift (segments (← get) dir)
  (gens.takeWhile (· ≤ generation)).forM fun g =>
    VolumeM.removeIfPresent (Volume.join dir (segmentName g))

/-- Recovers the segment of `generation`: its valid records and the report, with a torn tail
cut off the file. A directory in the segment's place cannot be read. -/
def replay (v : Volume) (dir : String) (generation : Nat) :
    Except StoreError (List Record × Report × Volume) := do
  let path := Volume.join dir (segmentName generation)
  let file ← (v.read path).mapError .io
  let (records, report, after) := recover file
  let v ← if report.truncated then (v.write path after).mapError .io else pure v
  pure (records, report, v)

end Wal

end LsmStore
