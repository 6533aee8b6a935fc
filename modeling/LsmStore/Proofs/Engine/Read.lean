import LsmStore.Proofs.Engine.State

/-!
# Reading an engine

A lookup asks the tiers newest first and a scan merges them over a key range. Both answer from
the runs the tiers hold, and change nothing, whenever the in-memory tables hold ascending
entries and every table is open on files written from ascending entries: whatever the active
table and the flushing slot hold, and in whatever order the tables are listed. A lookup gives
the entry of the first tier holding the key. A scan over `[lower, upper)` yields, in ascending
key order, the newest version of each key in the range, deletions left out. So the two paths
agree: a lookup finds a value exactly for the keys a full scan pairs with one, and a scan of a
range is the full scan cut to the range.

A scan is a snapshot of every tier but the active in-memory table, which it reads as that
table is at each step: a write made after the scan opened, beyond the last key it returned,
is returned too (`scan_sees_later_write`).

## Main definitions

* `Engine.tierRuns` — the runs of the tiers, newest first
* `Engine.Readable` — what reading asks of the tiers

## Main results

* `Engine.find?_readable` — a lookup answers with the entry of the newest tier holding the key
* `Engine.scan_readable` — a scan opens over the tiers and yields their newest live entries
* `Session.get_agrees_with_scan` — lookups and scans of an engine answer alike
* `Session.range_kept` — what reading a whole range of a kept engine returns
* `Session.scan_sees_later_write` — a scan returns an entry written after it opened
-/

namespace LsmStore

namespace Engine

open Run Table Merge

variable {e : Engine} {h : Host} {v : Volume} {runs : List (List Entry)} {fs : List Volume.FileLink}

/-- Records put in turn leave the entries ascending. -/
theorem ascending_replayed (rs : List Wal.Record) : Ascending (replayed rs) := by
  suffices ∀ es, Ascending es → Ascending (rs.foldl (fun es r => Memtable.insertEntry r.entry es) es) from
    this [] List.Pairwise.nil
  induction rs with
  | nil => exact fun _ sorted => sorted
  | cons r rs ih => exact fun es sorted => ih _ (Memtable.ascending_insertEntry sorted)

/-- The runs the tiers of `e` hold, newest first: the active in-memory table, the flushing slot
when it is taken, then the tables, holding `runs`. -/
def tierRuns (e : Engine) (runs : List (List Entry)) : List (List Entry) :=
  e.active.entries :: ((e.stalled.map (·.memtable.entries)).toList ++ runs)

/-- What reading asks of an engine's tiers: its in-memory tables hold entries by strictly
ascending key, and its tables, in the order they are listed, are open on files of `v` written
from the runs `runs`. -/
structure Readable (e : Engine) (v : Volume) (runs : List (List Entry)) : Prop where
  active : Ascending e.active.entries
  stalled : ∀ s ∈ e.stalled, Ascending s.memtable.entries
  tables : List.Forall₂ (fun t es => Holds v t.table es) e.tables runs

theorem tierRuns_of_stalled (hs : e.stalled = none) : tierRuns e runs = e.active.entries :: runs := by
  simp [tierRuns, hs]

theorem Readable.sorted (r : Readable e v runs) : ∀ x ∈ tierRuns e runs, Ascending x := by
  intro x hx
  rcases List.mem_cons.1 hx with rfl | hx
  · exact r.active
  rcases List.mem_append.1 hx with hx | hx
  · cases hs : e.stalled with
    | none => simp [hs] at hx
    | some st =>
      rw [hs, Option.map_some, Option.toList_some, List.mem_singleton] at hx
      exact hx ▸ r.stalled st hs
  · obtain ⟨t, -, holds⟩ := forall₂_mem_right r.tables hx
    exact holds.storable.sorted

theorem Kept.ascending (kept : Kept e h runs fs) : Ascending e.active.entries := by
  obtain ⟨rs, -, entries⟩ := kept.log
  exact entries ▸ ascending_replayed rs

/-- A kept engine is readable, with its flushing slot free. -/
theorem Kept.readable (kept : Kept e h runs fs) : Readable e h.volume runs where
  active := kept.ascending
  stalled := by simp [kept.stalled]
  tables := kept.stored.imp fun _ _ stored => stored.holds

/-! ## Lookups -/

/-- The tables answer a lookup as their runs do. -/
theorem lookup_eq {v : Volume} {tables : List Held}
    (holds : List.Forall₂ (fun t es => Holds v t.table es) tables runs) (key : Bytes) :
    lookup v key tables = .ok (firstHit runs key) := by
  induction holds with
  | nil => rfl
  | cons head _ ih =>
    simp only [lookup, head.get? key, firstHit_cons]
    cases entryOf _ key <;> simp [ih]

/-- A lookup answers with the entry of the newest tier holding the key. -/
theorem find?_readable (r : Readable e v runs) (key : Bytes) :
    e.find? v key = .ok (firstHit (tierRuns e runs) key) := by
  unfold find?
  rw [Memtable.get?_eq_entryOf, tierRuns, firstHit_cons]
  cases entryOf e.active.entries key with
  | some en => rfl
  | none =>
    -- past the active table, the flushing slot is asked if it is taken, then the tables
    cases hs : e.stalled with
    | none => simp [lookup_eq r.tables key]
    | some st =>
      simp only [Option.bind_some, Memtable.get?_eq_entryOf, Option.map_some, Option.toList_some,
        List.singleton_append, firstHit_cons, Option.none_or]
      cases entryOf st.memtable.entries key with
      | some en => rfl
      | none => simp [lookup_eq r.tables key]

theorem run_checkOpen :
    checkOpen.run.run (e, h) = (if e.closed then .error .closed else .ok (), (e, h)) := by
  cases closed : e.closed
  · simp only [checkOpen, EngineM.run_bind, EngineM.run_engine, closed, Bool.false_eq_true,
      if_false]
    rfl
  · simp only [checkOpen, EngineM.run_bind, EngineM.run_engine, closed, if_true]
    rfl

/-- On an open engine a lookup returns the value the newest tier holding the key gives it,
and changes nothing. -/
theorem get_readable (r : Readable e h.volume runs) (running : e.closed = false) (key : Bytes) :
    (get key).run.run (e, h) = (.ok ((firstHit (tierRuns e runs) key).bind Entry.value), (e, h)) := by
  simp only [get, EngineM.run_bind, run_checkOpen, running, Bool.false_eq_true, if_false,
    EngineM.run_engine, EngineM.run_volume, EngineM.run_lift, find?_readable r key, EngineM.run_pure]

theorem get_kept (kept : Kept e h runs fs) (running : e.closed = false) (key : Bytes) :
    (get key).run.run (e, h) =
      (.ok ((firstHit (e.active.entries :: runs) key).bind Entry.value), (e, h)) := by
  rw [get_readable kept.readable running, tierRuns_of_stalled kept.stalled]

/-- A closed engine refuses a lookup. -/
theorem get_closed (closed : e.closed = true) (key : Bytes) :
    (get key).run.run (e, h) = (.error .closed, (e, h)) := by
  simp only [get, EngineM.run_bind, run_checkOpen, closed, if_true]

/-! ## Scans -/

/-- The entries of the tiers in a key range. -/
def within (lower upper : Option Bytes) (runs : List (List Entry)) : List (List Entry) :=
  runs.map (·.filter (inRange lower upper ·.key))

/-- The tables' cursors over a range open and yield the tables' entries in it. -/
theorem tableSources {v : Volume} {tables : List Held}
    (holds : List.Forall₂ (fun t es => Holds v t.table es) tables runs) (live : Nat → Option Memtable)
    (lower upper : Option Bytes) :
    ∃ cs, (tables.mapM fun t => (t.table.cursor v lower upper).map (TierCursor.table t.handle)) = .ok cs ∧
      List.Forall₂ (tierStream live v).Yields cs (within lower upper runs) := by
  induction holds with
  | nil => exact ⟨[], rfl, .nil⟩
  | @cons t es ts rest head _ ih =>
    obtain ⟨cs, opened, yields⟩ := ih
    obtain ⟨pos, stop, cursor, bounded, slice⟩ := head.cursor lower upper
    have yield := head.yields (tierStream live v) (TierCursor.table t.handle)
      (fun _ => rfl)
      (fun c => Nat.le_succ _) pos stop bounded
    rw [slice] at yield
    refine ⟨.table t.handle ⟨t.table, pos, stop⟩ :: cs, ?_, .cons yield yields⟩
    simp only [Except.map] at opened
    simp only [List.mapM_cons, cursor, opened, Except.map, Bind.bind, Except.bind, pure, Except.pure]

/-- A cursor at the start of a range admits exactly the entries of the range. -/
theorem filter_admits_start (es : List Entry) (lower upper : Option Bytes) :
    es.filter (Memtable.Cursor.start lower upper).admits = es.filter (inRange lower upper ·.key) :=
  List.filter_congr fun x _ => Memtable.Cursor.admits_start lower upper x

/-- The sources of a scan over a range yield the tiers' entries in that range. -/
theorem sources_readable (r : Readable e v runs) {lower upper : Option Bytes}
    (nonempty : emptyRange lower upper = false) :
    ∃ srcs, e.sources v lower upper = .ok srcs ∧
      List.Forall₂ (e.tiers v).Yields srcs (within lower upper (tierRuns e runs)) := by
  obtain ⟨cs, opened, yields⟩ := tableSources r.tables e.liveTable lower upper
  have active : e.liveTable e.active.serial = some e.active := by simp [liveTable]
  have yieldsActive := Memtable.Cursor.yields (v := v) active r.active
    (Memtable.Cursor.start lower upper) nonempty
  rw [filter_admits_start] at yieldsActive
  -- the flushing slot, when taken, is read as frozen between the active table and the tables
  cases hs : e.stalled with
  | none =>
    refine ⟨.live e.active.serial (Memtable.Cursor.start lower upper) :: cs, ?_, ?_⟩
    · simp only [sources, hs, Option.map_none, Option.toList_none, List.append_nil, opened,
        Bind.bind, Except.bind, pure, Except.pure, List.singleton_append]
    · show List.Forall₂ (tierStream e.liveTable v).Yields _ _
      simpa only [tierRuns, hs, Option.map_none, Option.toList_none, List.nil_append, within,
        List.map_cons] using List.Forall₂.cons yieldsActive yields
  | some st =>
    have yieldsStalled := @Memtable.Cursor.yields_frozen e.liveTable v st.memtable
      (r.stalled st hs) (Memtable.Cursor.start lower upper) nonempty
    rw [filter_admits_start] at yieldsStalled
    refine ⟨.live e.active.serial (Memtable.Cursor.start lower upper) ::
      .frozen st.memtable (Memtable.Cursor.start lower upper) :: cs, ?_, ?_⟩
    · simp only [sources, hs, Option.map_some, Option.toList_some, opened, Bind.bind, Except.bind,
        pure, Except.pure, List.cons_append, List.nil_append]
    · show List.Forall₂ (tierStream e.liveTable v).Yields _ _
      simpa only [tierRuns, hs, Option.map_some, Option.toList_some, List.singleton_append, within,
        List.map_cons] using List.Forall₂.cons yieldsActive (.cons yieldsStalled yields)

/-- A merge of nothing represents no runs. -/
theorem represents_empty {σ : Type} (S : Stream σ StoreError) : Represents S Merge.empty [] where
  notFailed := rfl
  length := rfl
  sorted := by simp
  heads := by simp [Merge.empty, headsOf, headsFrom]
  pending := by simp [Merge.empty]

/-- On an open engine a scan opens, changing nothing, and yields in ascending key order the
newest version of each key of its range, deletions left out. -/
theorem scan_readable (r : Readable e h.volume runs) (running : e.closed = false)
    (lower upper : Option Bytes) :
    ∃ m, (scan lower upper).run.run (e, h) = (.ok m, (e, h)) ∧
      Merge.toList (e.tiers h.volume) m =
        (live ((newest (tierRuns e runs)).filter (inRange lower upper ·.key))).map .ok := by
  by_cases empty : emptyRange lower upper = true
  · -- an empty range holds no key
    refine ⟨Merge.empty, ?_, ?_⟩
    · simp only [scan, EngineM.run_bind, run_checkOpen, running, Bool.false_eq_true, if_false,
        empty, if_true, EngineM.run_pure]
    · rw [(represents_empty _).toList, List.filter_eq_nil_iff.2]
      · rfl
      · intro x _
        simp [inRange_eq_false_of_emptyRange empty]
  · obtain ⟨srcs, opened, yields⟩ := sources_readable r (Bool.eq_false_iff.2 empty)
    have sorted : ∀ x ∈ within lower upper (tierRuns e runs), Ascending x := by
      intro x hx
      obtain ⟨x', hx', rfl⟩ := List.mem_map.1 hx
      exact (r.sorted x' hx').filter _
    obtain ⟨m, started, rep⟩ := start_of_yields yields sorted
    refine ⟨m, ?_, ?_⟩
    · simp only [scan, EngineM.run_bind, run_checkOpen, running, Bool.false_eq_true, if_false,
        empty, EngineM.run_engine, EngineM.run_volume, EngineM.run_lift, opened, started]
    · rw [rep.toList, within, newest_map_filter r.sorted]

end Engine

/-! ## The pairs of a run -/

namespace Run

open Merge

/-- A live pair of an ascending run is the key and value of the entry of its key. -/
theorem value_entryOf_eq_some_iff {es : List Entry} (sorted : Ascending es) (key value : Bytes) :
    (entryOf es key).bind Entry.value = some value ↔
      (key, value) ∈ (live es).map fun x => (x.key, x.value.getD []) := by
  constructor
  · intro found
    obtain ⟨x, hx, hv⟩ := Option.bind_eq_some_iff.1 found
    obtain ⟨mem, same⟩ := entryOf_eq_some hx
    have alive : x ∈ live es := List.mem_filter.2 ⟨mem, by simp [Entry.isTombstone, hv]⟩
    exact List.mem_map.2 ⟨x, alive, by rw [same, hv, Option.getD_some]⟩
  · intro paired
    obtain ⟨x, alive, same⟩ := List.mem_map.1 paired
    obtain ⟨mem, notDead⟩ := List.mem_filter.1 alive
    obtain ⟨rfl, rfl⟩ := Prod.mk.inj same
    obtain ⟨w, hw⟩ := Option.isSome_iff_exists.1 (by simpa [Entry.isTombstone] using notDead)
    rw [sorted.entryOf_of_mem mem, Option.bind_some, hw, Option.getD_some]

/-- The live pairs of an ascending run have ascending keys. -/
theorem ascending_pairs {es : List Entry} (sorted : Ascending es) :
    (((live es).map fun x => (x.key, x.value.getD [])).map (·.1)).Pairwise (· < ·) := by
  rw [List.map_map, List.pairwise_map]
  exact sorted.filter _

end Run

namespace Session

open Run Merge

/-- The pairs a full scan of an engine reads: those of the newest live version of each key. -/
theorem range_readable {s : Session} {e : Engine} {runs : List (List Entry)}
    (hs : s.engine = some e) (r : Engine.Readable e s.host.volume runs) (running : e.closed = false)
    (lower upper : Option Bytes) :
    s.range lower upper = some (.ok ((live ((newest (Engine.tierRuns e runs)).filter
      (inRange lower upper ·.key))).map fun x => .ok (x.key, x.value.getD []))) := by
  obtain ⟨m, scanned, listed⟩ := Engine.scan_readable r running lower upper
  have live : s.liveTable = e.liveTable := by
    funext serial
    simp [liveTable, hs]
  simp only [range, withEngine, hs, scanned, live]
  rw [show tierStream e.liveTable s.host.volume = e.tiers s.host.volume from rfl, listed, List.map_map]
  rfl

/-- Reading a whole range of a kept engine returns, in ascending key order, the pairs of the
newest version of each key in the range, deletions left out. -/
theorem range_kept {s : Session} {e : Engine} {runs : List (List Entry)} {fs : List Volume.FileLink}
    (hs : s.engine = some e) (kept : Engine.Kept e s.host runs fs) (running : e.closed = false)
    (lower upper : Option Bytes) :
    s.range lower upper = some (.ok ((live ((newest (e.active.entries :: runs)).filter
      (inRange lower upper ·.key))).map fun x => .ok (x.key, x.value.getD []))) := by
  rw [range_readable hs kept.readable running, Engine.tierRuns_of_stalled kept.stalled]

/-- Lookups and scans of an open engine answer alike, whatever its tiers hold and in whatever
order its tables are listed, as long as the in-memory tables are ascending and every table is
open on files written from ascending entries. A full scan yields pairs in strictly ascending key
order; a lookup finds a value exactly for a key the full scan pairs, and that value; and a scan of
`[lower, upper)` yields exactly the full scan's pairs whose key lies in the range. -/
theorem get_agrees_with_scan {s : Session} {e : Engine} {runs : List (List Entry)}
    (hs : s.engine = some e) (running : e.closed = false) (r : Engine.Readable e s.host.volume runs) :
    ∃ pairs : List (Bytes × Bytes), s.range none none = some (.ok (pairs.map .ok)) ∧
      (pairs.map (·.1)).Pairwise (· < ·) ∧
      (∀ key value, (s.withEngine (Engine.get key)).1 = some (.ok (some value)) ↔
        (key, value) ∈ pairs) ∧
      (∀ key, (s.withEngine (Engine.get key)).1 = some (.ok none) ↔ ∀ value, (key, value) ∉ pairs) ∧
      ∀ lower upper, s.range lower upper =
        some (.ok ((pairs.filter fun p => inRange lower upper p.1).map .ok)) := by
  have sorted := ascending_newest r.sorted
  have looked : ∀ key, (s.withEngine (Engine.get key)).1 =
      some (.ok ((entryOf (newest (Engine.tierRuns e runs)) key).bind Entry.value)) := by
    intro key
    simp only [withEngine, hs, Engine.get_readable r running, entryOf_newest r.sorted]
  refine ⟨(live (newest (Engine.tierRuns e runs))).map fun x => (x.key, x.value.getD []), ?_,
    ascending_pairs sorted, fun key value => ?_, fun key => ?_, fun lower upper => ?_⟩
  · rw [range_readable hs r running, List.map_map]
    congr
    exact List.filter_eq_self.2 fun _ _ => rfl
  · rw [looked, ← value_entryOf_eq_some_iff sorted]
    simp
  · rw [looked]
    simp only [Option.some.injEq, Except.ok.injEq]
    constructor
    · intro absent value paired
      rw [← value_entryOf_eq_some_iff sorted, absent] at paired
      cases paired
    · intro never
      cases hv : (entryOf (newest (Engine.tierRuns e runs)) key).bind Entry.value with
      | none => rfl
      | some value => exact absurd ((value_entryOf_eq_some_iff sorted key value).1 hv) (never value)
  · -- cutting to the range commutes with dropping deletions and with pairing
    rw [range_readable hs r running, List.filter_map, List.map_map, live, live, List.filter_filter,
      List.filter_filter]
    congr 3
    exact List.filter_congr fun x _ => Bool.and_comm _ _

/-- An engine whose flushing slot holds a table parked there by a failed flush, binding `b` and
`c`, while the active table binds `a` and has deleted `b` since; no table is on disk yet. -/
def parkedEngine : Engine where
  config := {}
  active :=
    { generation := 2, sizeLimit := 64, serial := 1
      entries := [.put [97] [49], .tombstone [98]], size := 34 }
  stalled := some
    { memtable :=
        { generation := 1, sizeLimit := 64, entries := [.put [98] [50], .put [99] [51]], size := 36 }
      failure := .io .notFound }
  tables := []
  wal := { path := "wal/000002.log", inode := 0, position := 0, nextLsn := 3, policy := .everyWrite }
  nextGeneration := 3

/-- A session holding `parkedEngine`. -/
def parkedSession : Session where
  config := {}
  engine := some parkedEngine

/-- Lookups and scans agree on `parkedEngine`, whose flushing slot is taken. -/
theorem get_agrees_with_scan_parked :
    parkedSession.engine = some parkedEngine ∧ parkedEngine.closed = false ∧
      Engine.Readable parkedEngine parkedSession.host.volume [] ∧
      ∃ pairs : List (Bytes × Bytes), parkedSession.range none none = some (.ok (pairs.map .ok)) ∧
        (pairs.map (·.1)).Pairwise (· < ·) ∧
        (∀ key value, (parkedSession.withEngine (Engine.get key)).1 = some (.ok (some value)) ↔
          (key, value) ∈ pairs) ∧
        (∀ key, (parkedSession.withEngine (Engine.get key)).1 = some (.ok none) ↔
          ∀ value, (key, value) ∉ pairs) ∧
        ∀ lower upper, parkedSession.range lower upper =
          some (.ok ((pairs.filter fun p => inRange lower upper p.1).map .ok)) := by
  have readable : Engine.Readable parkedEngine parkedSession.host.volume [] :=
    ⟨by unfold Ascending; decide, fun st hst => by cases hst; unfold Ascending; decide, .nil⟩
  exact ⟨rfl, rfl, readable, get_agrees_with_scan rfl rfl readable⟩

/-! ## A scan reads the active table live

A scan holds the tiers it opened on, but it reads the active in-memory table as that table is at
each step: an entry written after the scan opened, at a key beyond the last one it returned, is
returned too. -/

/-- A session on an empty directory that writes `a` and `c` and then opens a scan over every key. -/
def laterOpened : Session :=
  let s := (Session.start {} {}).2
  let s := (s.withEngine (Engine.put [97] [49])).2
  let s := (s.withEngine (Engine.put [99] [51])).2
  (s.openScan none none).2

/-- `laterOpened` after a write of `b`, made once the scan is open. -/
def laterWritten : Session := (laterOpened.withEngine (Engine.put [98] [50])).2

set_option maxRecDepth 2000 in
/-- When the scan opens, the live pairs are those of `a` and `c`; the scan then returns `b` as
well, written after it opened. -/
theorem scan_sees_later_write :
    laterOpened.range none none = some (.ok [.ok ([97], [49]), .ok ([99], [51])]) ∧
      (laterWritten.readScan 0 4).1 =
        some [some (.ok ([97], [49])), some (.ok ([98], [50])), some (.ok ([99], [51])), none] :=
  ⟨by decide +kernel, by decide +kernel⟩

end Session

end LsmStore
