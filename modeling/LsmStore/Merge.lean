import LsmStore.Entry

/-!
# Merging sorted sources

Reads over several tiers merge their sorted sources into one ascending stream in which every
key appears once, with the version of the newest source (the one with the lowest index), and
in which deleted keys do not appear at all.

The merge holds at most one pending entry, its head, per source. It always takes the least
head by key and then by source, advances that source, and then consumes the heads of every
older source holding the same key, advancing each in turn. A source that fails is reported
once, and after that the merge yields nothing more. Sources are trusted to be sorted: the merge
does not check it.

Sources are streams whose step may look at the world outside them (an in-memory table that
is still being written, say); each step is made against the world as it is when the merge is
asked for its next entry.

## Main definitions

* `LsmStore.Stream` — a source: its step and a bound on the items it has left
* `LsmStore.Merge` — source states, heads, and whether a source failed
* `Merge.start` — take the first entry of every source
* `Merge.next` — the next live entry, or a source's error, or the end
* `Merge.toList` — everything a merge has left to yield
-/

namespace LsmStore

/-- A source of entries, read one at a time. `size` bounds the number of items the source has
left; it is what bounds the work of one step of a merge. -/
structure Stream (σ ε : Type) where
  pull : σ → Option (Except ε Entry) × σ
  size : σ → Nat

/-- A list read front to back. -/
def Stream.ofList (ε : Type) : Stream (List (Except ε Entry)) ε where
  pull
    | [] => (none, [])
    | x :: xs => (some x, xs)
  size xs := xs.length

/-- The state of a merge. -/
structure Merge (σ : Type) where
  /-- The sources, newest first. -/
  sources : List σ
  /-- The pending entry of each source that has one, with the source's index. -/
  heads : List (Entry × Nat) := []
  /-- Whether a source has failed; the merge is then over. -/
  failed : Bool := false
deriving Repr

namespace Merge

variable {σ ε : Type}

/-- The order in which heads are taken: by key, and for one key by source. -/
def precedes (a b : Entry × Nat) : Bool :=
  decide (a.1.key < b.1.key) || (a.1.key == b.1.key && decide (a.2 < b.2))

/-- The head taken next. -/
def least? (heads : List (Entry × Nat)) : Option (Entry × Nat) :=
  heads.foldl (fun acc h => match acc with
    | none => some h
    | some a => if precedes h a then some h else some a) none

/-- Reads the next item of source `i`: an entry becomes its head, an error is returned. -/
def advance (S : Stream σ ε) (m : Merge σ) (i : Nat) : Merge σ × Option ε :=
  match m.sources[i]? with
  | none => (m, none)
  | some s =>
    let (x, s') := S.pull s
    let m := { m with sources := m.sources.set i s' }
    match x with
    | none => (m, none)
    | some (.ok e) => ({ m with heads := m.heads ++ [(e, i)] }, none)
    | some (.error err) => (m, some err)

/-- Advances sources `i`, `i + 1`, … of `m` in turn, stopping at the first error. -/
def advanceFrom (S : Stream σ ε) (m : Merge σ) : List Nat → Merge σ × Option ε
  | [] => (m, none)
  | i :: is =>
    match advance S m i with
    | (m, some err) => (m, some err)
    | (m, none) => advanceFrom S m is

/-- Starts a merge: the first item of every source, newest first; an error there is the
answer. -/
def start (S : Stream σ ε) (sources : List σ) : Except ε (Merge σ) :=
  match advanceFrom S { sources } (List.range sources.length) with
  | (m, none) => .ok m
  | (_, some err) => .error err

/-- A merge of no sources. -/
def empty : Merge σ := { sources := [] }

/-- The number of items the merge can still yield, at most. -/
def bound (S : Stream σ ε) (m : Merge σ) : Nat :=
  m.sources.foldl (fun acc s => acc + S.size s) 0 + m.heads.length + 1

/-- Removes the head of source `i`. -/
def dropHead (m : Merge σ) (i : Nat) : Merge σ :=
  { m with heads := m.heads.filter (·.2 != i) }

/-- Consumes the heads holding `key`, advancing each of their sources. -/
def dropShadowed (S : Stream σ ε) (key : Bytes) : Nat → Merge σ → Merge σ × Option ε
  | 0, m => (m, none)
  | fuel + 1, m =>
    match least? m.heads with
    | some (e, i) =>
      if e.key == key then
        match advance S (m.dropHead i) i with
        | (m, some err) => (m, some err)
        | (m, none) => dropShadowed S key fuel m
      else (m, none)
    | none => (m, none)

/-- The newest version of the least key, with every older version of it consumed. -/
def nextVersion (S : Stream σ ε) (fuel : Nat) (m : Merge σ) : Merge σ × Except ε (Option Entry) :=
  match least? m.heads with
  | none => (m, .ok none)
  | some (top, i) =>
    match advance S (m.dropHead i) i with
    | (m, some err) => (m, .error err)
    | (m, none) =>
      match dropShadowed S top.key fuel m with
      | (m, some err) => (m, .error err)
      | (m, none) => (m, .ok (some top))

/-- Takes versions until a live one, the end, or an error. -/
def nextLive (S : Stream σ ε) (fuel : Nat) : Nat → Merge σ → Option (Except ε Entry) × Merge σ
  | 0, m => (none, m)
  | steps + 1, m =>
    match nextVersion S fuel m with
    | (m, .ok (some e)) => if e.isTombstone then nextLive S fuel steps m else (some (.ok e), m)
    | (m, .ok none) => (none, m)
    | (m, .error err) => (some (.error err), { m with failed := true })

/-- The next live entry in key order, or a source's error, or `none` at the end. -/
def next (S : Stream σ ε) (m : Merge σ) : Option (Except ε Entry) × Merge σ :=
  if m.failed then (none, m) else nextLive S (bound S m) (bound S m) m

/-- The next `fuel` items of a merge at most, up to and including a source's error. -/
def collect (S : Stream σ ε) : Nat → Merge σ → List (Except ε Entry)
  | 0, _ => []
  | fuel + 1, m =>
    match next S m with
    | (some x, m') => x :: collect S fuel m'
    | (none, _) => []

/-- Everything a merge has left to yield. Every item takes a head, and every head came from a
source, so `bound` items are enough. -/
def toList (S : Stream σ ε) (m : Merge σ) : List (Except ε Entry) := collect S (bound S m) m

end Merge

end LsmStore
