import LsmStore.FileName

/-!
# Table identities

Every table on disk has an identity that fixes its recency and its file names. A table written
from one in-memory table carries that table's generation; a table written by compaction carries
the range `base..=generation` of the generations it replaced, so that a table flushed while the
compaction ran still outranks it. Higher generations shadow lower ones. Generations are 64-bit
words, so the generation after the largest is zero, and it ranks below every other.

    sstable_{gen:06}.data / .index             written from an in-memory table
    sstable_{base:06}_{gen:06}.data / .index   compaction of base..=gen

## Main definitions

* `LsmStore.TableId` — flushed or compacted identity
* `TableId.covers` — a compacted table that already replaced another
* `TableId.stem`, `TableId.fileName`, `TableId.parseFileName?` — names on disk
* `TableId.newestFirst` — the recency order used everywhere tables are listed
* `generationAfter` — the next generation, wrapping at 64 bits
-/

namespace LsmStore

/-- The identity of a table on disk. -/
inductive TableId where
  /-- Written from the in-memory table of this generation. -/
  | flushed (generation : Nat)
  /-- Written by a compaction that replaced the generations `base..=generation`. -/
  | compacted (base generation : Nat)
deriving DecidableEq, Repr, Inhabited

/-- Generations are 64-bit words: the one after the largest is zero. -/
def generationAfter (g : Nat) : Nat := (g + 1) % 2 ^ (64 : Nat)

/-- Which of a table's two files a name refers to. -/
inductive FileRole where
  | data
  | index
deriving DecidableEq, Repr

namespace FileRole

/-- The file extension of the role. -/
def extension : FileRole → String
  | .data => "data"
  | .index => "index"

end FileRole

namespace TableId

/-- The highest generation the table holds data of. -/
def generation : TableId → Nat
  | .flushed g => g
  | .compacted _ g => g

/-- The lowest generation the table holds data of. -/
def base : TableId → Nat
  | .flushed g => g
  | .compacted b _ => b

/-- Whether the table was written by a compaction. -/
def isCompacted : TableId → Bool
  | .flushed _ => false
  | .compacted _ _ => true

/-- A compacted table covers every other table whose generations lie inside its range: those
are inputs it already replaced. -/
def covers (a b : TableId) : Bool :=
  a.isCompacted && a != b && decide (a.base ≤ b.base) && decide (b.generation ≤ a.generation)

/-- The identity as shown in messages: the generation, or the range `base..=generation`. -/
def display : TableId → String
  | .flushed g => Bytes.decimal g
  | .compacted b g => Bytes.decimal b ++ "..=" ++ Bytes.decimal g

/-- The prefix every table file name starts with. -/
def namePrefix : String := "sstable_"

/-- The file name of the table without extension. -/
def stem : TableId → String
  | .flushed g => namePrefix ++ Bytes.padded 6 g
  | .compacted b g => namePrefix ++ Bytes.padded 6 b ++ "_" ++ Bytes.padded 6 g

/-- The file name of one of the table's files. -/
def fileName (id : TableId) (role : FileRole) : String :=
  id.stem ++ "." ++ role.extension

/-- Reads a published table file name back: the extension names the role, the stem starts with
the table prefix and holds one generation, or a base and a generation joined by an underscore
(split at the first underscore) with the base not above the generation. -/
def parseFileName? (name : String) : Option (TableId × FileRole) := do
  let (stemText, ext) ← FileName.splitExtension? name
  let role ← if ext = "data" then some FileRole.data
    else if ext = "index" then some FileRole.index
    else none
  let stemChars := stemText.toList
  let pre := namePrefix.toList
  if pre.isPrefixOf stemChars then
    let numbers := stemChars.drop pre.length
    match FileName.splitFirst? '_' numbers with
    | none =>
      let g ← FileName.parseNumber? (String.ofList numbers)
      pure (.flushed g, role)
    | some (baseText, genText) =>
      let b ← FileName.parseNumber? (String.ofList baseText)
      let g ← FileName.parseNumber? (String.ofList genText)
      if b ≤ g then pure (.compacted b g, role) else none
  else none

/-- Recency order: the higher generation first, and of equal generations the higher base
(the narrower range) first. -/
def newestFirst (a b : TableId) : Bool :=
  b.generation < a.generation || (b.generation = a.generation && b.base ≤ a.base)

end TableId

end LsmStore
