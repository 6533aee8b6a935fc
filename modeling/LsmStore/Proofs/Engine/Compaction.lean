import LsmStore.Proofs.Engine.Release

/-!
# Compacting the tables

A compaction merges the tables of an engine into one: it reads every table from its start,
merges them newest first, and writes the newest live version of each key as a table named
after the range of generations it replaces. That name is free: the new table covers every table
it replaces, and every table awaiting deletion is covered by a live one. The tables merged then
await deletion like the ones before them, and a release deletes at once those no scan holds.

What the merge writes answers every key as the tables it replaces did, and of tables that hold
fewer than `2 ^ 64` bytes of entries it is storable.

## Main results

* `Engine.compactedId_covers` — the compacted table covers every table it replaces
* `Engine.compactedId_not_mem` — and is none of them
* `Merge.value_entryOf_live` — dropping deletions answers every key alike
* `Merge.storable_live_newest` — and the newest live versions of storable tables are storable
-/

namespace LsmStore

open Run Merge Table

namespace TableId

/-- A table covered by a table that another covers is covered by that other. -/
theorem covers_trans {a b c : TableId} (hab : a.covers b = true) (hbc : b.covers c = true) (ne : a ≠ c) :
    a.covers c = true := by
  simp only [covers, Bool.and_eq_true, bne_iff_ne, ne_eq, decide_eq_true_eq] at *
  exact ⟨⟨⟨hab.1.1.1, ne⟩, by omega⟩, by omega⟩

/-- Two tables never cover each other. -/
theorem covers_asymm {a b : TableId} (hab : a.covers b = true) : b.covers a = false := by
  rw [Bool.eq_false_iff]
  intro hba
  simp only [covers, Bool.and_eq_true, bne_iff_ne, ne_eq, decide_eq_true_eq] at hab hba
  obtain ⟨⟨⟨compactedA, ne⟩, baseLe⟩, genLe⟩ := hab
  obtain ⟨⟨⟨compactedB, -⟩, baseLe'⟩, genLe'⟩ := hba
  -- both are compacted tables with the same range, so they are the same table
  cases a with
  | flushed _ => cases compactedA
  | compacted _ _ =>
    cases b with
    | flushed _ => cases compactedB
    | compacted _ _ =>
      simp only [base, generation] at *
      exact ne (by rw [Nat.le_antisymm baseLe baseLe', Nat.le_antisymm genLe' genLe])

end TableId

namespace Engine

/-! ## The identity of a compacted table -/

section Identity

variable {ts : List Held} {t : Held}

theorem base_compactedId : (compactedId ts).base = (ts.map (·.table.id.base)).min?.getD 0 := rfl

theorem generation_compactedId :
    (compactedId ts).generation = (ts.map (·.table.id.generation)).max?.getD 0 := rfl

theorem base_compactedId_le (ht : t ∈ ts) : (compactedId ts).base ≤ t.table.id.base := by
  obtain ⟨b, least⟩ : ∃ b, (ts.map (·.table.id.base)).min? = some b := by
    cases found : (ts.map (·.table.id.base)).min? with
    | none => exact absurd (List.min?_eq_none_iff.1 found) (List.ne_nil_of_mem (List.mem_map_of_mem ht))
    | some b => exact ⟨b, rfl⟩
  rw [base_compactedId, least, Option.getD_some]
  exact (List.min?_eq_some_iff.1 least).2 _ (List.mem_map_of_mem ht)

theorem generation_le_compactedId (ht : t ∈ ts) : t.table.id.generation ≤ (compactedId ts).generation :=
  List.le_max?_getD_of_mem (List.mem_map_of_mem ht)

/-- The compacted table ends at the generation of one of the tables it replaces. -/
theorem exists_generation_compactedId (nonempty : ts ≠ []) :
    ∃ t ∈ ts, (compactedId ts).generation = t.table.id.generation := by
  obtain ⟨g, most⟩ : ∃ g, (ts.map (·.table.id.generation)).max? = some g := by
    cases found : (ts.map (·.table.id.generation)).max? with
    | none => exact absurd (List.map_eq_nil_iff.1 (List.max?_eq_none_iff.1 found)) nonempty
    | some g => exact ⟨g, rfl⟩
  obtain ⟨t, ht, rfl⟩ := List.mem_map.1 (List.max?_mem most)
  exact ⟨t, ht, by rw [generation_compactedId, most, Option.getD_some]⟩

/-- The compacted table starts at the base of one of the tables it replaces. -/
theorem exists_base_compactedId (nonempty : ts ≠ []) : ∃ t ∈ ts, (compactedId ts).base = t.table.id.base := by
  obtain ⟨b, least⟩ : ∃ b, (ts.map (·.table.id.base)).min? = some b := by
    cases found : (ts.map (·.table.id.base)).min? with
    | none => exact absurd (List.map_eq_nil_iff.1 (List.min?_eq_none_iff.1 found)) nonempty
    | some b => exact ⟨b, rfl⟩
  obtain ⟨t, ht, rfl⟩ := List.mem_map.1 (List.min?_mem least)
  exact ⟨t, ht, by rw [base_compactedId, least, Option.getD_some]⟩

/-- The compacted table covers every table it replaces but itself. -/
theorem compactedId_covers (ht : t ∈ ts) (ne : compactedId ts ≠ t.table.id) :
    (compactedId ts).covers t.table.id = true := by
  have baseLe := base_compactedId_le ht
  have genLe := generation_le_compactedId ht
  simp only [TableId.covers, Bool.and_eq_true, bne_iff_ne, ne_eq, decide_eq_true_eq]
  exact ⟨⟨⟨rfl, ne⟩, baseLe⟩, genLe⟩

theorem compactedId_valid (nonempty : ts ≠ []) (valid : ∀ t ∈ ts, t.table.id.Valid) :
    (compactedId ts).Valid := by
  obtain ⟨t, ht, gen⟩ := exists_generation_compactedId nonempty
  obtain ⟨t', ht', base⟩ := exists_base_compactedId nonempty
  have below := (valid t ht).1
  have ordered := (valid t' ht').2
  have genLe := generation_le_compactedId ht'
  exact ⟨by omega, by omega⟩

/-- Of tables listed strictly newest first with none covering another, and not already one
compacted table, the compacted table is none. -/
theorem compactedId_not_mem (newest : (ts.map (·.table.id)).Pairwise TableId.Newer)
    (uncovered : ∀ a ∈ ts, ∀ b ∈ ts, a.table.id.covers b.table.id = false)
    (due : compacted ts = false) : compactedId ts ∉ ts.map (·.table.id) := by
  intro hmem
  obtain ⟨t, ht, same⟩ := List.mem_map.1 hmem
  match ts, newest, due, ht with
  | [x], _, due, ht =>
    -- one table is replaced only when it is not compacted, and the new one is
    rw [List.mem_singleton] at ht
    subst ht
    simp only [compacted] at due
    rw [same] at due
    cases due
  | x :: y :: rest, newest, _, ht =>
    -- of two different tables one is not the compacted table, which then covers it
    have differ : x.table.id ≠ y.table.id := by
      have newer := (List.pairwise_cons.1 newest).1 y.table.id (by simp)
      intro eq
      simp only [eq, TableId.Newer] at newer
      omega
    obtain ⟨u, hu, ne⟩ : ∃ u ∈ x :: y :: rest, compactedId (x :: y :: rest) ≠ u.table.id := by
      by_cases hx : compactedId (x :: y :: rest) = x.table.id
      · exact ⟨y, by simp, by rw [hx]; exact differ⟩
      · exact ⟨x, List.mem_cons_self, hx⟩
    have covers := compactedId_covers hu ne
    rw [← same, uncovered t ht u hu] at covers
    cases covers

theorem generation_compactedId_lt {g : Nat} (nonempty : ts ≠ [])
    (older : ∀ t ∈ ts, t.table.id.generation < g) : (compactedId ts).generation < g := by
  obtain ⟨t, ht, gen⟩ := exists_generation_compactedId nonempty
  exact gen ▸ older t ht

end Identity

end Engine

/-! ## What the merge writes -/

namespace Merge

variable {es : List Entry}

/-- Dropping the deletions of a run answers every key with the same value. -/
theorem value_entryOf_live (sorted : Ascending es) (key : Bytes) :
    (entryOf (live es) key).bind Entry.value = (entryOf es key).bind Entry.value := by
  induction es with
  | nil => rfl
  | cons e es ih =>
    have rest := ih sorted.tail
    rw [live_cons, entryOf_cons]
    by_cases dead : e.isTombstone = true
    · rw [if_pos dead]
      by_cases here : e.key = key
      · -- the deletion answers with no value, and no later entry has its key
        have gone : entryOf (live es) key = none :=
          entryOf_eq_none_iff.2 fun x hx same =>
            key_ne_of_lt (sorted.head_lt x (List.mem_of_mem_filter hx)) (here.trans same.symm)
        have noValue : e.value = none := by simpa [Entry.isTombstone] using dead
        rw [gone, if_pos here]
        simp [noValue]
      · rw [if_neg here, rest]
    · rw [if_neg dead, entryOf_cons]
      by_cases here : e.key = key
      · rw [if_pos here, if_pos here]
      · rw [if_neg here, if_neg here, rest]

theorem sum_map_filter_le {α : Type} (f : α → Nat) (p : α → Bool) (xs : List α) :
    ((xs.filter p).map f).sum ≤ (xs.map f).sum := by
  induction xs with
  | nil => exact Nat.le_refl _
  | cons x xs ih =>
    rw [List.filter_cons]
    split <;> simp only [List.map_cons, List.sum_cons] <;> omega

/-- The newest live versions of some runs take no more bytes than the runs together. -/
theorem length_dataOf_live_newest_le (runs : List (List Entry)) :
    (dataOf (live (newest runs))).length ≤ (runs.map fun r => (dataOf r).length).sum := by
  have filtered : ((live (newest runs)).map Entry.encodedLen).sum ≤ ((newest runs).map Entry.encodedLen).sum :=
    sum_map_filter_le _ _ _
  have merged := size_newest_le Entry.encodedLen runs
  simp only [length_dataOf]
  omega

/-- The newest live versions of storable runs that hold fewer than `2 ^ 64` bytes together are
storable. -/
theorem storable_live_newest {runs : List (List Entry)} (storable : ∀ r ∈ runs, Storable r)
    (small : (runs.map fun r => (dataOf r).length).sum < 2 ^ 64) : Storable (live (newest runs)) := by
  have member : ∀ x ∈ live (newest runs), ∃ r ∈ runs, x ∈ r := fun x hx =>
    mem_newest (List.mem_of_mem_filter hx)
  refine ⟨(ascending_newest fun r hr => (storable r hr).sorted).filter _, ?_, ?_, ?_⟩
  · intro x hx
    obtain ⟨r, hr, hxr⟩ := member x hx
    exact (storable r hr).keys x hxr
  · intro x hx
    obtain ⟨r, hr, hxr⟩ := member x hx
    exact (storable r hr).values x hxr
  · exact Nat.lt_of_le_of_lt (length_dataOf_live_newest_le runs) small

/-- One run holding the newest live versions of some ascending runs answers every key as the
runs do. -/
theorem value_firstHit_merged {runs : List (List Entry)} (sorted : ∀ r ∈ runs, Ascending r)
    (key : Bytes) :
    (firstHit [live (newest runs)] key).bind Entry.value = (firstHit runs key).bind Entry.value := by
  rw [firstHit_cons, firstHit_nil, Option.or_none, value_entryOf_live (ascending_newest sorted),
    entryOf_newest sorted]

end Merge

namespace Engine

open Volume

variable {e : Engine} {h : Host} {runs : List (List Entry)} {fs : List FileLink}

/-- Scans of whole tables yield the entries the tables hold. -/
theorem scan_yields {v : Volume} {tables : List Held}
    (holds : List.Forall₂ (fun t es => Holds v t.table es) tables runs) :
    List.Forall₂ (Table.stream v).Yields (tables.map (Table.scan ·.table)) runs := by
  induction holds with
  | nil => exact .nil
  | @cons t es _ _ head _ ih =>
    have yields := head.yields (Table.stream v) (fun c => c) (fun _ => rfl) (fun _ => Nat.le_refl _) 0
      es.length (Nat.le_refl _)
    rw [List.drop_zero, Nat.sub_zero, List.take_length] at yields
    rw [List.map_cons]
    refine .cons ?_ ih
    show (Table.stream v).Yields ⟨t.table, 0, t.table.entryCount⟩ es
    rwa [head.entryCount]

end Engine

/-! ## Compacting a kept engine -/

namespace TableId

theorem covers_self (id : TableId) : id.covers id = false := by
  simp [covers]

end TableId

namespace Engine

open Volume

section Compacting

variable {e : Engine} {h : Host} {runs : List (List Entry)} {fs : List FileLink}

theorem ne_nil_of_compacted_eq_false {ts : List Held} (due : compacted ts = false) : ts ≠ [] := by
  rintro rfl
  cases due

/-- The identity a compaction gives the merge of a kept engine's tables, when they are not
already compact, is neither a table's nor that of a table awaiting deletion. -/
theorem Kept.compactedId_unknown (kept : Kept e h runs fs) (due : compacted e.tables = false) :
    compactedId e.tables ∉ e.tables.map (·.table.id) ++ h.obsolete.map (·.2) := by
  have notLive := compactedId_not_mem kept.newest kept.uncovered due
  intro known
  rcases List.mem_append.1 known with live | old
  · exact notLive live
  · -- a table awaiting deletion is covered by a table the merge covers in turn
    obtain ⟨q, hq, same⟩ := List.mem_map.1 old
    obtain ⟨t, ht, covers⟩ := kept.covered q hq
    have ne : compactedId e.tables ≠ t.table.id := fun eq => notLive (eq ▸ List.mem_map_of_mem ht)
    rw [same, TableId.covers_asymm (compactedId_covers ht ne)] at covers
    cases covers

/-- The state a compaction of a kept engine leaves before its release: the merge, opened as a
fresh handle on its two new files, is the only table, and the tables it replaces await deletion
with their files. -/
theorem Kept.compacted {w : Volume} {out : Table} (kept : Kept e h runs fs)
    (due : compacted e.tables = false) (ident : out.id = compactedId e.tables)
    (holds : Table.Holds w out (live (Run.newest runs)))
    (dataInode : out.data.inode = some h.volume.nextInode)
    (indexInode : out.index.inode = some (h.volume.nextInode + 1))
    (laid : w.Laid [walDir, tableDir] (⟨tableDir, out.id.fileName .data, h.volume.nextInode⟩ ::
      ⟨tableDir, out.id.fileName .index, h.volume.nextInode + 1⟩ :: fs))
    (same : ∀ i < h.volume.nextInode, w.contents i = h.volume.contents i) :
    Kept { e with tables := [⟨h.nextSerial, out⟩] }
      { h with volume := w, nextSerial := h.nextSerial + 1,
               obsolete := h.obsolete ++ e.tables.map fun i => (i.handle, i.table.id) }
      [live (Run.newest runs)]
      (⟨tableDir, out.id.fileName .data, h.volume.nextInode⟩ ::
        ⟨tableDir, out.id.fileName .index, h.volume.nextInode + 1⟩ :: fs) := by
  have nonempty := ne_nil_of_compacted_eq_false due
  have unknown := kept.compactedId_unknown due
  have notLive : ∀ t ∈ e.tables, compactedId e.tables ≠ t.table.id := fun t ht eq =>
    unknown (List.mem_append_left _ (eq ▸ List.mem_map_of_mem ht))
  have storedOf : ∀ t ∈ e.tables, ∃ es, Table.Stored h.volume fs tableDir t.table es := fun t ht => by
    obtain ⟨es, -, stored⟩ := forall₂_mem_left kept.stored ht
    exact ⟨es, stored⟩
  have valid : out.id.Valid := ident ▸ compactedId_valid nonempty fun t ht => by
    obtain ⟨es, stored⟩ := storedOf t ht
    exact stored.valid
  have sub : fs ⊆ ⟨tableDir, out.id.fileName .data, h.volume.nextInode⟩ ::
      ⟨tableDir, out.id.fileName .index, h.volume.nextInode + 1⟩ :: fs := fun f hf =>
    List.mem_cons_of_mem _ (List.mem_cons_of_mem _ hf)
  refine ⟨kept.valid, laid, sub kept.segment, ?onlySegment, kept.walPath, kept.walPolicy, kept.synced,
    kept.log_frame same, kept.clock, kept.sizeLimit, Nat.lt_succ_of_lt kept.activeSerial, kept.stalled,
    kept.nextGeneration, kept.word, ?stored, ?older, List.pairwise_singleton _ _, ?uncovered,
    ?obsoleteFiles, ?onlyTables, ?covered, ?ids, ?handles, ?handlesFresh, ?openings⟩
  case onlySegment =>
    exact fun f hf dir => kept.onlySegment f (mem_of_walDir_mem_tables hf dir) dir
  case stored =>
    refine .cons ⟨holds, valid, fun role => ?_⟩ .nil
    cases role
    · exact ⟨_, dataInode, List.mem_cons_self⟩
    · exact ⟨_, indexInode, List.mem_cons_of_mem _ List.mem_cons_self⟩
  case older =>
    intro t ht
    rw [List.mem_singleton.1 ht, ident]
    exact generation_compactedId_lt nonempty kept.older
  case uncovered =>
    intro a ha b hb
    rw [List.mem_singleton.1 ha, List.mem_singleton.1 hb]
    exact TableId.covers_self _
  case obsoleteFiles =>
    intro q hq
    rcases List.mem_append.1 hq with old | taken
    · obtain ⟨hv, files⟩ := kept.obsoleteFiles q old
      exact ⟨hv, fun role => (files role).imp fun _ hf => sub hf⟩
    · obtain ⟨t, ht, rfl⟩ := List.mem_map.1 taken
      obtain ⟨es, stored⟩ := storedOf t ht
      refine ⟨stored.valid, fun role => ?_⟩
      obtain ⟨i, -, hf⟩ := stored.files role
      exact ⟨i, sub hf⟩
  case onlyTables =>
    intro f hf dir
    rcases List.mem_cons.1 hf with rfl | hf
    · exact ⟨out.id, by simp, .data, rfl⟩
    rcases List.mem_cons.1 hf with rfl | hf
    · exact ⟨out.id, by simp, .index, rfl⟩
    -- an old file belongs to a table that now awaits deletion, or awaited it already
    obtain ⟨id, known, role, named⟩ := kept.onlyTables f hf dir
    refine ⟨id, ?_, role, named⟩
    rcases List.mem_append.1 known with live | old
    · obtain ⟨t, ht, rfl⟩ := List.mem_map.1 live
      simp only [List.map_append, List.map_map, List.mem_append, List.mem_map]
      exact .inr (.inr ⟨t, ht, rfl⟩)
    · simp only [List.map_append, List.mem_append]
      exact .inr (.inl old)
  case covered =>
    intro q hq
    refine ⟨⟨h.nextSerial, out⟩, List.mem_singleton_self _, ?_⟩
    show out.id.covers q.2 = true
    rw [ident]
    rcases List.mem_append.1 hq with old | taken
    · -- the merge covers the table covering `q`
      obtain ⟨t, ht, covers⟩ := kept.covered q old
      have ne : compactedId e.tables ≠ q.2 := fun eq =>
        unknown (List.mem_append_right _ (eq ▸ List.mem_map_of_mem old))
      exact TableId.covers_trans (compactedId_covers ht (notLive t ht)) covers ne
    · obtain ⟨t, ht, rfl⟩ := List.mem_map.1 taken
      exact compactedId_covers ht (notLive t ht)
  case ids =>
    have listed := kept.ids
    rw [List.nodup_append_comm] at listed
    simp only [List.map_cons, List.map_nil, List.map_append, List.map_map, List.singleton_append,
      List.nodup_cons]
    refine ⟨?_, by simpa [Function.comp_def] using listed⟩
    rw [ident]
    intro known
    apply unknown
    simpa [Function.comp_def, or_comm] using known
  case handles =>
    have listed := kept.handles
    rw [List.nodup_append_comm] at listed
    simp only [List.map_cons, List.map_nil, List.map_append, List.map_map, List.singleton_append,
      List.nodup_cons]
    refine ⟨fun known => ?_, by simpa [Function.comp_def] using listed⟩
    have fresh := kept.handlesFresh h.nextSerial (by simpa [Function.comp_def, or_comm] using known)
    exact Nat.lt_irrefl _ fresh
  case handlesFresh =>
    intro k hk
    simp only [List.map_cons, List.map_nil, List.map_append, List.map_map, List.singleton_append,
      List.mem_cons, List.mem_append] at hk
    rcases hk with rfl | old | taken
    · exact Nat.lt_succ_self _
    · exact Nat.lt_succ_of_lt (kept.handlesFresh k (List.mem_append_right _ old))
    · exact Nat.lt_succ_of_lt (kept.handlesFresh k (List.mem_append_left _ (by simpa using taken)))
  case openings =>
    intro q hq
    rcases kept.openings q hq with ⟨t, ht, handle, ident'⟩ | old
    · exact .inr (List.mem_append_right _ (List.mem_map.2 ⟨t, ht, by rw [handle, ident']⟩))
    · exact .inr (List.mem_append_left _ old)

/-- The runs a kept engine's tables hold are ascending. -/
theorem Kept.sorted (kept : Kept e h runs fs) : ∀ r ∈ runs, Ascending r := fun r hr => by
  obtain ⟨t, -, stored⟩ := forall₂_mem_right kept.stored hr
  exact stored.holds.storable.sorted

/-- A swap that removes every table by handle leaves none of them. -/
theorem filter_handles_eq_nil (ts : List Held) :
    ts.filter (fun t => !(ts.map (·.handle)).contains t.handle) = [] :=
  List.filter_eq_nil_iff.2 fun t ht => by simp [List.mem_map_of_mem ht]

/-- With no table, or with one table that is already compacted, a compaction does nothing. -/
theorem compactTables_of_compacted (done : compacted e.tables = true) :
    compactTables.run.run (e, h) = (.ok (), (e, h)) := by
  simp only [Engine.compactTables, EngineM.run_bind, EngineM.run_engine, done, if_true, EngineM.run_pure]

/-- A compaction of a sound engine whose tables are not compact yet and hold fewer than `2 ^ 64`
bytes succeeds: one fresh table, named after the oldest base and the newest generation of the
tables and holding their newest live versions, replaces them all, and the engine is sound again
with its scans as they were. -/
theorem Sound.compactTables_replaces (sound : Sound e h runs fs) (due : compacted e.tables = false)
    (small : (runs.map fun r => (dataOf r).length).sum < 2 ^ 64) :
    ∃ out h' fs', compactTables.run.run (e, h) =
        (.ok (), ({ e with tables := [⟨h.nextSerial, out⟩] }, h')) ∧
      out.id = compactedId e.tables ∧
      Sound { e with tables := [⟨h.nextSerial, out⟩] } h' [live (Run.newest runs)] fs' ∧
      h'.scans = h.scans ∧ h'.clock = h.clock := by
  have kept := sound.toKept
  obtain ⟨m, started, rep⟩ :=
    start_of_yields (scan_yields (kept.stored.imp fun _ _ stored => stored.holds)) kept.sorted
  have storable : Table.Storable (live (Run.newest runs)) := storable_live_newest (fun r hr => by
    obtain ⟨t, -, stored⟩ := forall₂_mem_right kept.stored hr
    exact stored.holds.storable) small
  have valid : (compactedId e.tables).Valid :=
    compactedId_valid (ne_nil_of_compacted_eq_false due) fun t ht => by
      obtain ⟨es, -, stored⟩ := forall₂_mem_left kept.stored ht
      exact stored.valid
  obtain ⟨out, w, written, ident, holds, dataInode, indexInode, laid, -, same⟩ :=
    Table.write_laid id kept.laid tableDir_mem valid (kept.absent valid (kept.compactedId_unknown due))
      storable e.config.readBackend
  obtain ⟨fs', released, -, -⟩ := (kept.compacted due ident holds dataInode indexInode
    (ident ▸ laid) same).release
  refine ⟨out, _, fs', ?_, ident, released, rfl, rfl⟩
  simp only [Engine.compactTables, EngineM.run_bind, EngineM.run_engine, due, Bool.false_eq_true, if_false,
    EngineM.run_volume, EngineM.run_lift, started, rep.toList, written, EngineM.run_setVolume,
    EngineM.run_fresh, EngineM.run_modifyEngine, EngineM.run_modifyHost, filter_handles_eq_nil,
    List.nil_append]
  rw [sortTables_of_perm (List.Perm.refl _) (List.pairwise_singleton _ _)]

/-- A compaction of a sound engine whose tables hold fewer than `2 ^ 64` bytes succeeds. It
changes only the tables and the host, leaves the engine sound with its scans as they were, and
the tables it leaves answer every key as before, in no more bytes. -/
theorem Sound.compactTables (sound : Sound e h runs fs)
    (small : (runs.map fun r => (dataOf r).length).sum < 2 ^ 64) :
    ∃ tables h' runs' fs', compactTables.run.run (e, h) = (.ok (), ({ e with tables }, h')) ∧
      Sound { e with tables } h' runs' fs' ∧ h'.scans = h.scans ∧ h'.clock = h.clock ∧
      (∀ key, (firstHit runs' key).bind Entry.value = (firstHit runs key).bind Entry.value) ∧
      (runs'.map fun r => (dataOf r).length).sum ≤ (runs.map fun r => (dataOf r).length).sum := by
  by_cases done : compacted e.tables = true
  · exact ⟨e.tables, h, runs, fs, compactTables_of_compacted done, sound, rfl, rfl, fun _ => rfl,
      Nat.le_refl _⟩
  obtain ⟨out, h', fs', ran, -, sound', scans', clock'⟩ :=
    sound.compactTables_replaces (by simpa using done) small
  refine ⟨_, h', _, fs', ran, sound', scans', clock', value_firstHit_merged sound.toKept.sorted, ?_⟩
  simpa using length_dataOf_live_newest_le runs

end Compacting

end Engine

end LsmStore
