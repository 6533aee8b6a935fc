import Mathlib
import LsmStore.Proofs.Session.Refinement
import LsmStore.Proofs.Engine.Interleaving
import LsmStore.Proofs.Engine.Outage
import LsmStore.Proofs.Merge.Answers

/-!
# What a compaction changes

A compaction merges the tables of an engine into one, named after the oldest base and the newest
generation among them, that holds the newest live version of every key they hold. The in-memory
tables, the one in the flushing slot among them, still come before it, and the tables it
replaced held nothing they did not already answer for, so every lookup and every scan answers as
before. The new table is compacted already, so compacting again changes nothing; and once no
scan holds a table, the table directory holds the new table's two files and nothing else.

The engine's invariant, `Engine.Tolerant`, keeps the new name apart from every table the engine
knows: it is what rules out the case of a compaction that writes its output over one of its
inputs, whose files then go with the input. It holds of every engine an empty volume leads to,
with a table waiting in the flushing slot or not, as long as the table directory is there.

## Main results

* `Run.pairs_eq_of_values` — runs that give every key the same value have the same live pairs
* `Engine.Sound.mem_names_tableDir` — once no scan holds a table, the table directory holds the
  files of the engine's tables and nothing else
* `Session.compaction_keeps_answers` — what a compaction changes
-/

namespace LsmStore

namespace Run

open Merge

/-- Two ascending runs that give every key the same value have the same live pairs. -/
theorem pairs_eq_of_values {xs ys : List Entry} (hx : Ascending xs) (hy : Ascending ys)
    (same : ∀ key, (entryOf xs key).bind Entry.value = (entryOf ys key).bind Entry.value) :
    (live xs).map (fun x => (x.key, x.value.getD [])) =
      (live ys).map fun x => (x.key, x.value.getD []) := by
  -- both lists ascend strictly by key, so they are equal once they have the same members
  have sx := ascending_pairs hx
  have sy := ascending_pairs hy
  rw [List.pairwise_map] at sx sy
  have nodup : ∀ {l : List (Bytes × Bytes)}, l.Pairwise (fun a b => a.1 < b.1) → l.Nodup :=
    fun sorted => sorted.imp fun lt same => by
      subst same
      exact key_lt_irrefl _ lt
  refine List.Perm.eq_of_pairwise (fun a b _ _ ab ba => absurd (key_lt_trans ab ba) (key_lt_irrefl _))
    sx sy ?_
  rw [List.perm_ext_iff_of_nodup (nodup sx) (nodup sy)]
  rintro ⟨key, value⟩
  rw [← value_entryOf_eq_some_iff hx, ← value_entryOf_eq_some_iff hy, same]

end Run

namespace Engine

open Volume Table

variable {e : Engine} {h : Host} {runs : List (List Entry)} {fs : List FileLink}

/-- A sound engine keeps a replaced table only while a scan holds it. -/
theorem Sound.obsolete_eq_nil (sound : Sound e h runs fs) (idle : h.openings = []) :
    h.obsolete = [] :=
  List.eq_nil_iff_forall_not_mem.2 fun q hq => by simpa [idle] using sound.held q hq

/-- Once no scan holds a table, the table directory of a sound engine holds the two files of
each of its tables and nothing else. -/
theorem Sound.mem_names_tableDir (sound : Sound e h runs fs) (idle : h.openings = []) {n : String} :
    n ∈ h.volume.names tableDir ↔ ∃ t ∈ e.tables, ∃ role, n = t.table.id.fileName role := by
  have kept := sound.toKept
  rw [Shelf.mem_names kept.laid tableDir_mem (kept.shelf (sound.obsolete_eq_nil idle))]
  constructor
  · rintro ⟨p, hp, role, rfl⟩
    obtain ⟨t, ht, ident, -⟩ := kept.mem_shelfOf hp
    exact ⟨t, ht, role, by rw [ident]⟩
  · rintro ⟨t, ht, role, rfl⟩
    have listed : t.table.id ∈ (shelfOf e.tables runs).map (·.1) := by
      rw [kept.ids_shelfOf]
      exact List.mem_map_of_mem ht
    obtain ⟨p, hp, same⟩ := List.mem_map.1 listed
    exact ⟨p, hp, role, by rw [same]⟩

/-- An engine whose tables are one compacted table has nothing to compact. -/
theorem compacted_single {k : Nat} {out : Table} (ident : out.id = compactedId e.tables) :
    compacted [⟨k, out⟩] = true := by
  simp [compacted, ident, compactedId, TableId.isCompacted]

end Engine

namespace Session

open Run Merge Engine

variable {s : Session} {e : Engine} {runs runs' : List (List Entry)} {ds : List String}
  {fs : List Volume.FileLink}

/-- Two open readable engines with the same in-memory tables, over tables that answer every key
alike, answer every lookup alike. -/
theorem get_eq_of_values {s' : Session} {e' : Engine} (hs : s.engine = some e)
    (hs' : s'.engine = some e') (r : Readable e s.host.volume runs)
    (r' : Readable e' s'.host.volume runs') (running : e.closed = false) (running' : e'.closed = false)
    (active : e'.active = e.active) (stalled : e'.stalled = e.stalled)
    (same : ∀ key, (firstHit runs' key).bind Entry.value = (firstHit runs key).bind Entry.value)
    (key : Bytes) :
    (s'.withEngine (Engine.get key)).1 = (s.withEngine (Engine.get key)).1 := by
  rw [withEngine_of_run hs (get_readable r running key), withEngine_of_run hs' (get_readable r' running' key),
    tierRuns_values active stalled same key]

/-- Two open readable engines with the same in-memory tables, over tables that answer every key
alike, answer every scan alike. -/
theorem range_eq_of_values {s' : Session} {e' : Engine} (hs : s.engine = some e)
    (hs' : s'.engine = some e') (r : Readable e s.host.volume runs)
    (r' : Readable e' s'.host.volume runs') (running : e.closed = false) (running' : e'.closed = false)
    (active : e'.active = e.active) (stalled : e'.stalled = e.stalled)
    (same : ∀ key, (firstHit runs' key).bind Entry.value = (firstHit runs key).bind Entry.value)
    (lower upper : Option Bytes) :
    s'.range lower upper = s.range lower upper := by
  have sorted := r.sorted
  have sorted' := r'.sorted
  -- the tiers, cut to the range, give every key the same value
  have pairs := pairs_eq_of_values ((ascending_newest sorted').filter _) ((ascending_newest sorted).filter _)
    fun key => by
      rw [entryOf_filter (inRange lower upper), entryOf_filter (inRange lower upper),
        entryOf_newest sorted', entryOf_newest sorted]
      split
      · exact tierRuns_values active stalled same key
      · rfl
  rw [range_readable hs r running, range_readable hs' r' running']
  have answers := congrArg (List.map (Except.ok (ε := StoreError))) pairs
  simp only [List.map_map, Function.comp_def] at answers
  rw [answers]

/-- What a compaction changes. On a session whose engine is open and tolerant, with a table
waiting in the flushing slot or not but with its table directory there, and with tables holding
fewer than `2 ^ 64` bytes, a compaction succeeds; every lookup and every scan answers as before,
and a second compaction changes nothing. With no table, or one table already compacted, the first
changes nothing either. Otherwise one table replaces them all: it is named after the oldest base
and the newest generation among them, and it holds, strictly ascending, the entry of every key of
the first table holding it, unless that entry is a deletion. Once no scan holds a table, the
table directory holds its two files and nothing else. -/
theorem compaction_keeps_answers (hs : s.engine = some e) (running : e.closed = false)
    (tol : Tolerant e s.host runs ds fs) (present : tableDir ∈ ds)
    (small : (runs.map fun r => (Table.dataOf r).length).sum < 2 ^ 64) :
    ∃ s', s.withEngine Engine.compactTables = (some (.ok ()), s') ∧
      (∀ key, (s'.withEngine (Engine.get key)).1 = (s.withEngine (Engine.get key)).1) ∧
      (∀ lower upper, s'.range lower upper = s.range lower upper) ∧
      s'.withEngine Engine.compactTables = (some (.ok ()), s') ∧
      (compacted e.tables = true → s' = s) ∧
      (compacted e.tables = false → ∃ k out, s'.engine = some { e with tables := [⟨k, out⟩] } ∧
        out.id = compactedId e.tables ∧ Table.Holds s'.host.volume out (live (newest runs)) ∧
        Ascending (live (newest runs)) ∧
        (∀ x, x ∈ live (newest runs) ↔ firstHit runs x.key = some x ∧ x.isTombstone = false) ∧
        (s.host.openings = [] → ∀ n, n ∈ s'.host.volume.names tableDir ↔
          n = out.id.fileName .data ∨ n = out.id.fileName .index)) := by
  by_cases done : compacted e.tables = true
  · -- nothing to compact: the session stays as it is
    have stays : s.withEngine Engine.compactTables = (some (.ok ()), s) := by
      rw [withEngine_of_run hs (compactTables_of_compacted done), with_own_engine hs]
    exact ⟨s, stays, fun _ => rfl, fun _ _ => rfl, stays, fun _ => rfl, fun due => by simp [done] at due⟩
  have due : compacted e.tables = false := by simpa using done
  obtain ⟨out, h', fs', ran, ident, tol', -, -, names⟩ := tol.compactTables_replaces present due small
  have hs' : ({ s with engine := some { e with tables := [⟨s.host.nextSerial, out⟩] }, host := h' } :
      Session).engine = some { e with tables := [⟨s.host.nextSerial, out⟩] } := rfl
  have same := value_firstHit_merged tol.sorted
  -- the merged table is compacted, so a second compaction finds nothing to do
  have again := withEngine_of_run hs' (compactTables_of_compacted (h := h') (compacted_single ident))
  rw [with_own_engine hs'] at again
  refine ⟨_, withEngine_of_run hs ran,
    get_eq_of_values hs hs' tol.readable tol'.readable running running rfl rfl same,
    range_eq_of_values hs hs' tol.readable tol'.readable running running rfl rfl same, again,
    fun done' => absurd done' (by simp [due]), fun _ => ⟨s.host.nextSerial, out, rfl, ident, ?_,
    (ascending_newest tol.sorted).filter _, fun _ => mem_live_newest tol.sorted, names⟩⟩
  -- the merged table holds the newest live versions
  obtain ⟨holds, -⟩ := List.forall₂_cons.1 tol'.holds
  exact holds

/-- Two keys written on an empty volume with the default configuration, each flushed to a table
of its own, then compacted: the compaction succeeds and every lookup answers as before it. -/
theorem compaction_keeps_answers_twoFlushes :
    ∃ s, Session.start {} {} = (.ok (), s) ∧ ∃ s',
      (s.performAll [.upsert (.put [97] [49]), .flush, .upsert (.put [98] [50]), .flush]).2.withEngine
        Engine.compactTables = (some (.ok ()), s') ∧
      ∀ key, (s'.withEngine (Engine.get key)).1 =
        ((s.performAll [.upsert (.put [97] [49]), .flush, .upsert (.put [98] [50]), .flush]).2.withEngine
          (Engine.get key)).1 := by
  obtain ⟨s, started, serves⟩ := @start_serves {} rfl
  obtain ⟨-, e, runs, fs, hs, serving, closed, -⟩ :=
    serves.performAll [.upsert (.put [97] [49]), .flush, .upsert (.put [98] [50]), .flush] (by decide)
  have running : e.closed = false := by
    rw [closed]
    rfl
  -- four operations hold fewer than `4 * 2 ^ 32` bytes
  have small : (runs.map fun r => (Table.dataOf r).length).sum < 2 ^ 64 := by
    have loadBound := serving.load
    simp only [Engine.load, List.length_cons, List.length_nil] at loadBound
    omega
  obtain ⟨s', ran, gets, -⟩ :=
    compaction_keeps_answers hs running serving.sound.toKept.tolerant tableDir_mem small
  exact ⟨s, started, s', ran, gets⟩

end Session

end LsmStore
