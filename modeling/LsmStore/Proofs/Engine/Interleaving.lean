import LsmStore.Proofs.Engine.Compaction
import LsmStore.Proofs.Engine.Read

/-!
# Background work interleaved with writes

A running engine has three parties acting on the state they share. The writer puts entries
into the active in-memory table and freezes it into the flushing slot. The flush worker writes
the frozen table to disk and publishes it in one swap of the state. The compaction worker takes
the list of tables, writes their merge, and later swaps the merge in for the tables it took:
it removes those by handle from the list as it is at the swap, not as it was when taken, and
inserts the merge. Between the taking and the swap, the flush worker may publish any number of
tables.

`Shared` is that state with what the three parties hold in hand: the tables, each with the run
its files hold, the frozen table being flushed, and the compaction in progress. Its steps apply
the engine's own operations: a put into the active table, the freeze of `Engine.freeze`, the
publication and the sort of `Engine.flushMemtable`, and the identity, the skip rule and the
swap of `Engine.compactTables`. A read of a shared state answers as the engine's lookups and
scans do over the same tiers (`Shared.get_engine`, `Shared.range_session`).

Generations count up by one per freeze and are 64-bit words. As long as the counter does not
wrap, every interleaving of the steps keeps the tables strictly newest first and keeps the
answers equal to the map of all completed writes. At each swap, every table published since the
compaction took the list is kept and outranks the merge, and every table it took is in the list
exactly once and is removed.

## Main definitions

* `Shared` — the shared state, the tables' runs and the compaction in progress
* `Shared.Step` — one step of one party
* `Shared.Inv` — what every step keeps
* `Shared.Reaches` — runs of steps along which the generation counter does not wrap
* `Shared.Safe` — what the readers and the compaction worker see

## Main results

* `Shared.Inv.step` — every step keeps the invariant
* `Shared.Inv.swap_tables` — at a swap, the tables published meanwhile stay, ranked above the
  merge
* `Shared.Inv.swap_removes` — and every table taken is listed once and removed
* `Shared.interleaving_safe` — every state a run reaches is safe
-/

namespace LsmStore

open Run Merge

/-- A compaction in progress: the tables it took, newest first, and the table written from
their merge once it is written. -/
structure Compaction where
  inputs : List Held
  output : Option Held := none

/-- The state the writer, the flush worker and the compaction worker share, with the runs the
tables hold (`stored`, by handle) and the map of the values of all completed writes
(`written`). -/
structure Shared where
  /-- The in-memory table taking writes. -/
  active : Memtable
  /-- The frozen in-memory table the flush worker is writing. -/
  flushing : Option Memtable := none
  /-- The published tables, newest first. -/
  tables : List Held
  /-- The generation the next frozen table hands to its successor. -/
  nextGeneration : Nat
  /-- The handle the next table opening gets. -/
  nextHandle : Nat
  /-- The run the table opened as each handle holds. -/
  stored : Nat → List Entry
  compaction : Option Compaction := none
  /-- The value of each key after every write completed so far. -/
  written : Bytes → Option Bytes

namespace Shared

/-- The runs a read asks, newest first: the active table, the flushing slot, the tables. -/
def runs (s : Shared) : List (List Entry) :=
  s.active.entries :: ((s.flushing.map (·.entries)).toList ++ s.tables.map (s.stored ·.handle))

/-- The value a lookup of `key` returns. -/
def get (s : Shared) (key : Bytes) : Option Bytes := (firstHit s.runs key).bind Entry.value

/-- The pairs a scan of `[lower, upper)` yields. -/
def range (s : Shared) (lower upper : Option Bytes) : List (Bytes × Bytes) :=
  (live ((newest s.runs).filter (inRange lower upper ·.key))).map fun x => (x.key, x.value.getD [])

/-- Records that the table opened as `handle` holds `run`. -/
def store (s : Shared) (handle : Nat) (run : List Entry) : Nat → List Entry :=
  fun k => if k = handle then run else s.stored k

/-- The tables a swap leaves: the current ones without those taken, by handle, and the merge,
sorted newest first. -/
def swapped (tables inputs : List Held) (out : Held) : List Held :=
  Engine.sortTables (tables.filter (!(inputs.map (·.handle)).contains ·.handle) ++ [out])

/-- One step of one of the three parties. -/
inductive Step : Shared → Shared → Prop where
  /-- The writer puts an entry into the active table. -/
  | upsert (s : Shared) (en : Entry) :
      Step s { s with
        active := (s.active.put en).2
        written := fun k => if k = en.key then en.value else s.written k }
  /-- The writer freezes the active table into the free flushing slot; a fresh table of the
  next generation takes writes. -/
  | freeze (s : Shared) (free : s.flushing = none) (serial : Nat) :
      Step s { s with
        active := { generation := s.nextGeneration, sizeLimit := s.active.sizeLimit, serial }
        flushing := some s.active
        nextGeneration := generationAfter s.nextGeneration }
  /-- The flush worker publishes the table written from the frozen table, named after its
  generation, and frees the slot. -/
  | publish (s : Shared) (m : Memtable) (t : Table) (frozen : s.flushing = some m)
      (named : t.id = .flushed m.generation) :
      Step s { s with
        flushing := none
        tables := Engine.sortTables (s.tables ++ [⟨s.nextHandle, t⟩])
        nextHandle := s.nextHandle + 1
        stored := s.store s.nextHandle m.entries }
  /-- The compaction worker takes the list of tables, unless it is already compact. -/
  | take (s : Shared) (idle : s.compaction = none) (due : Engine.compacted s.tables = false) :
      Step s { s with compaction := some ⟨s.tables, none⟩ }
  /-- The compaction worker writes the newest live versions of the tables it took, named after
  their range of generations. -/
  | write (s : Shared) (inputs : List Held) (t : Table) (taken : s.compaction = some ⟨inputs, none⟩)
      (named : t.id = Engine.compactedId inputs) :
      Step s { s with
        compaction := some ⟨inputs, some ⟨s.nextHandle, t⟩⟩
        nextHandle := s.nextHandle + 1
        stored := s.store s.nextHandle (live (newest (inputs.map (s.stored ·.handle)))) }
  /-- The compaction worker swaps the merge in for the tables it took. -/
  | swap (s : Shared) (inputs : List Held) (out : Held) (done : s.compaction = some ⟨inputs, some out⟩) :
      Step s { s with tables := swapped s.tables inputs out, compaction := none }

/-- States reached by steps none of which wraps the generation counter. -/
inductive Reaches (s : Shared) : Shared → Prop where
  | refl : Reaches s s
  | step {t u : Shared} : Reaches s t → Step t u → u.active.generation < u.nextGeneration →
      Reaches s u

/-! ## The invariant -/

/-- The generation every table lies below: that of the flushing slot when it is taken, else
that of the active table. -/
def floor (s : Shared) : Nat := (s.flushing.map (·.generation)).getD s.active.generation

/-- A compaction in progress. The tables it took are the oldest of the list, each below every
table published since, and there is more than one table or one not yet compacted. Its merge,
once written, carries the compacted identity of their range of generations and a handle no
table has, and holds the newest live versions of their runs. -/
structure Compacting (s : Shared) (c : Compaction) : Prop where
  split : ∃ later, s.tables = later ++ c.inputs ∧
    ∀ p ∈ later, ∀ i ∈ c.inputs, i.table.id.generation < p.table.id.generation
  due : Engine.compacted c.inputs = false
  output : ∀ o ∈ c.output, o.table.id = Engine.compactedId c.inputs ∧ o.handle < s.nextHandle ∧
    o.handle ∉ s.tables.map (·.handle) ∧
    s.stored o.handle = live (newest (c.inputs.map (s.stored ·.handle)))

/-- What every step keeps.

* The next generation follows the active one; the frozen table is older than the active one,
  and every table is older than both.
* The tables are listed strictly newest first, under distinct handles below the next one.
* Every run is ascending.
* A compaction in progress is as `Compacting` says.
* A lookup answers every key with the value of the last completed write of it. -/
structure Inv (s : Shared) : Prop where
  counted : s.nextGeneration = s.active.generation + 1
  frozenOlder : ∀ m ∈ s.flushing, m.generation < s.active.generation
  older : ∀ t ∈ s.tables, t.table.id.generation < s.floor
  newest : (s.tables.map (·.table.id)).Pairwise TableId.Newer
  handles : (s.tables.map (·.handle)).Nodup
  handlesFresh : ∀ t ∈ s.tables, t.handle < s.nextHandle
  activeSorted : Ascending s.active.entries
  frozenSorted : ∀ m ∈ s.flushing, Ascending m.entries
  storedSorted : ∀ t ∈ s.tables, Ascending (s.stored t.handle)
  compacting : ∀ c ∈ s.compaction, Compacting s c
  answers : ∀ key, s.get key = s.written key

/-! ## Small facts -/

/-- Recording a run under a handle no table has leaves the runs of the tables as they are. -/
theorem map_store_of_fresh {s : Shared} {ts : List Held} (fresh : ∀ t ∈ ts, t.handle < s.nextHandle)
    (run : List Entry) : ts.map (s.store s.nextHandle run ·.handle) = ts.map (s.stored ·.handle) :=
  List.map_congr_left fun t ht => if_neg (Nat.ne_of_lt (fresh t ht))

theorem store_self (s : Shared) (handle : Nat) (run : List Entry) : s.store handle run handle = run :=
  if_pos rfl

/-! ## What each step keeps -/

section Steps

variable {s : Shared}

/-- A compaction in progress stays as it is through a step that keeps the tables, the next
handle and the runs. -/
theorem Compacting.of_same {s' : Shared} {c : Compaction} (h : Compacting s c)
    (tables : s'.tables = s.tables) (next : s'.nextHandle = s.nextHandle) (stored : s'.stored = s.stored) :
    Compacting s' c where
  split := tables ▸ h.split
  due := h.due
  output := by
    rw [tables, next, stored]
    exact h.output

theorem Inv.upsert (inv : s.Inv) (en : Entry) :
    Inv { s with
      active := (s.active.put en).2
      written := fun k => if k = en.key then en.value else s.written k } :=
  { inv with
    activeSorted := by simpa using Memtable.ascending_insertEntry inv.activeSorted
    compacting := fun c hc => (inv.compacting c hc).of_same rfl rfl rfl
    answers := fun key => by
      -- the entry put answers its own key; every other key is answered as before
      have before := inv.answers key
      simp only [get, runs, firstHit_cons, Memtable.entries_put, Memtable.entryOf_insertEntry]
        at before ⊢
      by_cases same : en.key = key
      · simp [same]
      · simpa [same, Ne.symm same] using before }

/-- The generation after `g` is `g + 1` unless the counter wraps. -/
theorem generationAfter_of_lt {g : Nat} (up : g < generationAfter g) : generationAfter g = g + 1 := by
  unfold generationAfter at up ⊢
  have below := Nat.mod_lt (g + 1) (Nat.two_pow_pos 64)
  by_cases fits : g + 1 < 2 ^ 64
  · exact Nat.mod_eq_of_lt fits
  · -- past the largest word the successor is smaller than `g`
    have wrapped : (g + 1) % 2 ^ 64 = g + 1 - 2 ^ 64 := by
      rw [Nat.mod_eq_sub_mod (by omega), Nat.mod_eq_of_lt (by omega)]
    omega

theorem Inv.freeze (inv : s.Inv) (free : s.flushing = none) (serial : Nat)
    (noWrap : s.nextGeneration < generationAfter s.nextGeneration) :
    Inv { s with
      active := { generation := s.nextGeneration, sizeLimit := s.active.sizeLimit, serial }
      flushing := some s.active
      nextGeneration := generationAfter s.nextGeneration } where
  counted := generationAfter_of_lt noWrap
  frozenOlder m hm := by
    cases Option.mem_some_iff.1 hm
    simp [inv.counted]
  older t ht := by
    have below := inv.older t ht
    simpa [floor, free] using below
  newest := inv.newest
  handles := inv.handles
  handlesFresh := inv.handlesFresh
  activeSorted := List.Pairwise.nil
  frozenSorted m hm := by
    cases Option.mem_some_iff.1 hm
    exact inv.activeSorted
  storedSorted := inv.storedSorted
  compacting c hc := (inv.compacting c hc).of_same rfl rfl rfl
  answers key := by
    -- the fresh table is empty, and the frozen one is asked right after it
    have before := inv.answers key
    simpa [get, runs, free] using before

/-- Every table a compaction took is listed. -/
theorem Compacting.mem_tables {c : Compaction} (h : Compacting s c) {i : Held} (hi : i ∈ c.inputs) :
    i ∈ s.tables := by
  obtain ⟨later, split, -⟩ := h.split
  exact split ▸ List.mem_append_right later hi

/-- A fresh handle is none of the tables'. -/
theorem Inv.fresh (inv : s.Inv) : s.nextHandle ∉ s.tables.map (·.handle) := fun hmem => by
  obtain ⟨u, hu, same⟩ := List.mem_map.1 hmem
  exact Nat.lt_irrefl _ (same ▸ inv.handlesFresh u hu)

theorem Inv.publish (inv : s.Inv) {m : Memtable} {t : Table} (frozen : s.flushing = some m)
    (named : t.id = .flushed m.generation) :
    Inv { s with
      flushing := none
      tables := Engine.sortTables (s.tables ++ [⟨s.nextHandle, t⟩])
      nextHandle := s.nextHandle + 1
      stored := s.store s.nextHandle m.entries } := by
  -- the new table is of the flushing slot's generation, above every table listed
  have above : ∀ u ∈ s.tables, u.table.id.generation < m.generation := fun u hu => by
    simpa [floor, frozen] using inv.older u hu
  have gen : (⟨s.nextHandle, t⟩ : Held).table.id.generation = m.generation := by
    rw [named]
    rfl
  have first := Engine.sortTables_append_of_older inv.newest (t := ⟨s.nextHandle, t⟩) (gen ▸ above)
  have younger := inv.frozenOlder m frozen
  rw [first]
  refine
    { counted := inv.counted
      frozenOlder := fun _ hm => nomatch hm
      older := ?_
      newest := ?_
      handles := List.nodup_cons.2 ⟨inv.fresh, inv.handles⟩
      handlesFresh := ?_
      activeSorted := inv.activeSorted
      frozenSorted := fun _ hm => nomatch hm
      storedSorted := ?_
      compacting := ?_
      answers := ?_ }
  · intro u hu
    simp only [floor, Option.map_none, Option.getD_none]
    rcases List.mem_cons.1 hu with rfl | hu
    · exact gen ▸ younger
    · exact Nat.lt_trans (above u hu) younger
  · rw [List.map_cons, List.pairwise_cons]
    refine ⟨fun id hid => ?_, inv.newest⟩
    obtain ⟨u, hu, rfl⟩ := List.mem_map.1 hid
    exact .inl (gen ▸ above u hu)
  · intro u hu
    rcases List.mem_cons.1 hu with rfl | hu
    · exact Nat.lt_succ_self _
    · exact Nat.lt_succ_of_lt (inv.handlesFresh u hu)
  · intro u hu
    rcases List.mem_cons.1 hu with rfl | hu
    · show Ascending (s.store s.nextHandle m.entries s.nextHandle)
      rw [store_self]
      exact inv.frozenSorted m frozen
    · show Ascending (s.store s.nextHandle m.entries u.handle)
      rw [store, if_neg (Nat.ne_of_lt (inv.handlesFresh u hu))]
      exact inv.storedSorted u hu
  · intro c hc
    have h := inv.compacting c hc
    obtain ⟨later, split, below⟩ := h.split
    refine ⟨⟨⟨s.nextHandle, t⟩ :: later, by rw [split, List.cons_append], ?_⟩, h.due, ?_⟩
    · intro p hp i hi
      rcases List.mem_cons.1 hp with rfl | hp
      · exact gen ▸ above i (h.mem_tables hi)
      · exact below p hp i hi
    · intro o ho
      obtain ⟨id, lt, notListed, run⟩ := h.output o ho
      have ne : o.handle ≠ s.nextHandle := Nat.ne_of_lt lt
      refine ⟨id, Nat.lt_succ_of_lt lt, ?_, ?_⟩
      · rw [List.map_cons, List.mem_cons, not_or]
        exact ⟨ne, notListed⟩
      · show s.store s.nextHandle m.entries o.handle = _
        rw [store, if_neg ne, run,
          map_store_of_fresh (fun i hi => inv.handlesFresh i (h.mem_tables hi))]
  · -- the frozen table moves from the flushing slot to the head of the tables
    intro key
    have before := inv.answers key
    simp only [get, runs, frozen, Option.map_some, Option.toList_some, List.singleton_append]
      at before
    simp only [get, runs, Option.map_none, Option.toList_none, List.nil_append, List.map_cons,
      store_self, map_store_of_fresh inv.handlesFresh]
    exact before

theorem Inv.take (inv : s.Inv) (due : Engine.compacted s.tables = false) :
    Inv { s with compaction := some ⟨s.tables, none⟩ } :=
  { inv with
    compacting := fun c hc => by
      cases Option.mem_some_iff.1 hc
      exact ⟨⟨[], rfl, fun _ hp => nomatch hp⟩, due, fun _ ho => nomatch ho⟩ }

theorem Inv.write (inv : s.Inv) {inputs : List Held} {t : Table}
    (taken : s.compaction = some ⟨inputs, none⟩) (named : t.id = Engine.compactedId inputs) :
    Inv { s with
      compaction := some ⟨inputs, some ⟨s.nextHandle, t⟩⟩
      nextHandle := s.nextHandle + 1
      stored := s.store s.nextHandle (live (Run.newest (inputs.map (s.stored ·.handle)))) } :=
  { inv with
    handlesFresh := fun t ht => Nat.lt_succ_of_lt (inv.handlesFresh t ht)
    storedSorted := fun u hu => by
      show Ascending (s.store s.nextHandle _ u.handle)
      rw [store, if_neg (Nat.ne_of_lt (inv.handlesFresh u hu))]
      exact inv.storedSorted u hu
    compacting := fun c hc => by
      cases Option.mem_some_iff.1 hc
      have h := inv.compacting _ taken
      refine ⟨h.split, h.due, fun o ho => ?_⟩
      cases Option.mem_some_iff.1 ho
      refine ⟨named, Nat.lt_succ_self _, inv.fresh, ?_⟩
      show s.store s.nextHandle _ s.nextHandle = _
      rw [store_self, map_store_of_fresh (fun i hi => inv.handlesFresh i (h.mem_tables hi))]
    answers := fun key => by
      have before := inv.answers key
      simpa only [get, runs, map_store_of_fresh inv.handlesFresh] using before }

/-! ### The swap -/

section Swap

variable {inputs later : List Held} {out : Held}

/-- The merge of the tables a compaction took is of the generation of one of them. -/
theorem Compacting.output_generation {c : Compaction} (h : Compacting s c) {o : Held}
    (ho : o ∈ c.output) : ∃ i ∈ c.inputs, o.table.id.generation = i.table.id.generation := by
  have nonempty : c.inputs ≠ [] := fun empty => by
    have due := h.due
    rw [empty] at due
    cases due
  rw [(h.output o ho).1]
  exact Engine.exists_generation_compactedId nonempty

/-- Of the tables listed, those published since the compaction took its inputs are listed
before them and are the tables whose handle is none of the inputs'. -/
theorem not_mem_inputs_of_later (handles : ((later ++ inputs).map (·.handle)).Nodup) {t : Held}
    (ht : t ∈ later) : t.handle ∉ inputs.map (·.handle) := by
  rw [List.map_append] at handles
  exact List.disjoint_of_nodup_append handles (List.mem_map_of_mem ht)

/-- A swap removes exactly the tables taken and appends the merge; when every table published
since outranks the merge, the merge goes last. -/
theorem swapped_eq (handles : ((later ++ inputs).map (·.handle)).Nodup)
    (newest : ((later ++ [out]).map (·.table.id)).Pairwise TableId.Newer) :
    swapped (later ++ inputs) inputs out = later ++ [out] := by
  unfold swapped
  have kept : (later ++ inputs).filter (!(inputs.map (·.handle)).contains ·.handle) = later := by
    rw [List.filter_append, List.filter_eq_self.2, List.filter_eq_nil_iff.2, List.append_nil]
    · intro i hi
      simp [List.mem_map_of_mem hi]
    · intro t ht
      simp [not_mem_inputs_of_later handles ht]
  rw [kept]
  exact Engine.sortTables_of_perm (List.Perm.refl _) newest

/-- At a swap, the tables listed are those published since the compaction took its inputs,
then the inputs; the swap keeps the former in order, each outranking the merge, and puts the
merge last. -/
theorem Inv.swap_tables (inv : s.Inv) (done : s.compaction = some ⟨inputs, some out⟩) :
    ∃ later, s.tables = later ++ inputs ∧ (∀ p ∈ later, TableId.Newer p.table.id out.table.id) ∧
      ((later ++ [out]).map (·.table.id)).Pairwise TableId.Newer ∧
      swapped s.tables inputs out = later ++ [out] := by
  have h := inv.compacting _ done
  obtain ⟨later, split, below⟩ := h.split
  obtain ⟨i, hi, outGen⟩ := h.output_generation (o := out) rfl
  have outranks : ∀ p ∈ later, TableId.Newer p.table.id out.table.id := fun p hp =>
    .inl (outGen ▸ below p hp i hi)
  have ranked : ((later ++ [out]).map (·.table.id)).Pairwise TableId.Newer := by
    have listed := inv.newest
    rw [split, List.map_append] at listed
    rw [List.map_append, List.pairwise_append]
    refine ⟨(List.pairwise_append.1 listed).1, List.pairwise_singleton _ _, ?_⟩
    intro a ha b hb
    obtain ⟨p, hp, rfl⟩ := List.mem_map.1 ha
    rw [List.map_singleton, List.mem_singleton] at hb
    exact hb ▸ outranks p hp
  have handles := inv.handles
  rw [split] at handles ⊢
  exact ⟨later, rfl, outranks, ranked, swapped_eq handles ranked⟩

theorem Inv.swap (inv : s.Inv) (done : s.compaction = some ⟨inputs, some out⟩) :
    Inv { s with tables := swapped s.tables inputs out, compaction := none } := by
  have h := inv.compacting _ done
  obtain ⟨-, outFresh, outUnlisted, outRun⟩ := h.output out rfl
  obtain ⟨i, hi, outGen⟩ := h.output_generation (o := out) rfl
  obtain ⟨later, split, -, ranked, tablesEq⟩ := inv.swap_tables done
  have inTables : ∀ t ∈ later, t ∈ s.tables := fun t ht => split ▸ List.mem_append_left _ ht
  have inputsSorted : ∀ r ∈ inputs.map (s.stored ·.handle), Ascending r := fun r hr => by
    obtain ⟨j, hj, rfl⟩ := List.mem_map.1 hr
    exact inv.storedSorted j (h.mem_tables hj)
  have handles := inv.handles
  rw [split, List.map_append] at handles
  rw [tablesEq]
  refine
    { counted := inv.counted
      frozenOlder := inv.frozenOlder
      older := ?_
      newest := ranked
      handles := ?_
      handlesFresh := ?_
      activeSorted := inv.activeSorted
      frozenSorted := inv.frozenSorted
      storedSorted := ?_
      compacting := fun _ hc => nomatch hc
      answers := ?_ }
  · intro t ht
    rcases List.mem_append.1 ht with ht | ht
    · exact inv.older t (inTables t ht)
    · rw [List.mem_singleton.1 ht, outGen]
      exact inv.older i (h.mem_tables hi)
  · rw [List.map_append, List.nodup_append]
    refine ⟨(List.nodup_append.1 handles).1, List.nodup_singleton _, ?_⟩
    intro a ha b hb same
    rw [List.map_singleton, List.mem_singleton] at hb
    obtain ⟨p, hp, rfl⟩ := List.mem_map.1 ha
    exact outUnlisted (hb ▸ same ▸ List.mem_map_of_mem (inTables p hp))
  · intro t ht
    rcases List.mem_append.1 ht with ht | ht
    · exact inv.handlesFresh t (inTables t ht)
    · exact List.mem_singleton.1 ht ▸ outFresh
  · intro t ht
    rcases List.mem_append.1 ht with ht | ht
    · exact inv.storedSorted t (inTables t ht)
    · rw [List.mem_singleton.1 ht, outRun]
      exact (ascending_newest inputsSorted).filter _
  · -- the merge answers every key as the tables it replaces, which are asked last
    intro key
    have before := inv.answers key
    simp only [get, runs, split, List.map_append, ← List.append_assoc, ← List.cons_append] at before ⊢
    rw [← before]
    refine firstHit_bind_append (fun key => ?_) key
    rw [List.map_singleton, outRun, value_firstHit_merged inputsSorted]

/-- A swap removes every table it took: each is listed exactly once before the swap, and not at
all after it. -/
theorem Inv.swap_removes (inv : s.Inv) (done : s.compaction = some ⟨inputs, some out⟩) {i : Held}
    (hi : i ∈ inputs) :
    (s.tables.map (·.handle)).count i.handle = 1 ∧
      i.handle ∉ (swapped s.tables inputs out).map (·.handle) := by
  have h := inv.compacting _ done
  have listed := h.mem_tables hi
  obtain ⟨-, -, outUnlisted, -⟩ := h.output out rfl
  obtain ⟨later, split, -, -, tablesEq⟩ := inv.swap_tables done
  have handles := inv.handles
  rw [split] at handles
  refine ⟨List.count_eq_one_of_mem inv.handles (List.mem_map_of_mem listed), ?_⟩
  rw [tablesEq, List.map_append, List.mem_append, List.map_singleton, List.mem_singleton, not_or]
  constructor
  · -- a table published since has a handle none of the inputs has
    intro hmem
    obtain ⟨p, hp, same⟩ := List.mem_map.1 hmem
    exact not_mem_inputs_of_later handles hp (same ▸ List.mem_map_of_mem hi)
  · intro same
    exact outUnlisted (same ▸ List.mem_map_of_mem listed)

end Swap

/-- Every step keeps the invariant, as long as it leaves the next generation above the active
one: a freeze whose counter wraps is the one step that breaks it. -/
theorem Inv.step {s' : Shared} (inv : s.Inv) (step : Step s s')
    (noWrap : s'.active.generation < s'.nextGeneration) : s'.Inv := by
  cases step with
  | upsert en => exact inv.upsert en
  | freeze free serial => exact inv.freeze free serial noWrap
  | publish m t frozen named => exact inv.publish frozen named
  | take _ due => exact inv.take due
  | write inputs t taken named => exact inv.write taken named
  | swap inputs out done => exact inv.swap done

/-- The invariant holds all along a run from a state that satisfies it. -/
theorem Inv.reaches {s₀ : Shared} (init : s₀.Inv) (run : s₀.Reaches s) : s.Inv := by
  induction run with
  | refl => exact init
  | step _ step noWrap ih => exact ih.step step noWrap

end Steps

/-! ## What readers see -/

section Reading

variable {s : Shared}

theorem Inv.sorted (inv : s.Inv) : ∀ r ∈ s.runs, Ascending r := by
  intro r hr
  rcases List.mem_cons.1 hr with rfl | hr
  · exact inv.activeSorted
  rcases List.mem_append.1 hr with hr | hr
  · cases hm : s.flushing with
    | none => simp [hm] at hr
    | some m =>
      rw [hm, Option.map_some, Option.toList_some, List.mem_singleton] at hr
      exact hr ▸ inv.frozenSorted m hm
  · obtain ⟨t, ht, rfl⟩ := List.mem_map.1 hr
    exact inv.storedSorted t ht

/-- A scan of a range yields the live pairs of the newest version of each key, cut to the
range. -/
theorem range_eq_filter (s : Shared) (lower upper : Option Bytes) :
    s.range lower upper =
      ((live (Run.newest s.runs)).map fun x => (x.key, x.value.getD [])).filter
        fun p => inRange lower upper p.1 := by
  rw [range, List.filter_map, live, live, List.filter_filter, List.filter_filter]
  congr 1
  exact List.filter_congr fun x _ => Bool.and_comm _ _

/-- A scan yields a pair exactly when its key is in the range and was last written with that
value. -/
theorem Inv.mem_range_iff (inv : s.Inv) (lower upper : Option Bytes) (key value : Bytes) :
    (key, value) ∈ s.range lower upper ↔
      inRange lower upper key = true ∧ s.written key = some value := by
  have answer : (firstHit s.runs key).bind Entry.value = s.written key := inv.answers key
  rw [range_eq_filter, List.mem_filter, ← value_entryOf_eq_some_iff (ascending_newest inv.sorted),
    entryOf_newest inv.sorted, answer]
  exact And.comm

theorem Inv.range_ascending (inv : s.Inv) (lower upper : Option Bytes) :
    ((s.range lower upper).map (·.1)).Pairwise (· < ·) := by
  rw [range_eq_filter]
  exact (ascending_pairs (ascending_newest inv.sorted)).sublist (List.Sublist.map _ List.filter_sublist)

/-- The tiers of an engine hold the runs of a shared state when its active table and flushing
slot are the shared state's and its tables hold the runs the shared state stores for them. -/
theorem tierRuns_eq {e : Engine} (active : e.active = s.active)
    (slot : e.stalled.map (·.memtable) = s.flushing) :
    Engine.tierRuns e (s.tables.map (s.stored ·.handle)) = s.runs := by
  rw [Engine.tierRuns, runs, active, ← slot, Option.map_map]
  rfl

/-- The engine's lookup on such tiers answers as the shared state does. -/
theorem get_engine {e : Engine} {h : Host}
    (r : Engine.Readable e h.volume (s.tables.map (s.stored ·.handle))) (running : e.closed = false)
    (active : e.active = s.active) (slot : e.stalled.map (·.memtable) = s.flushing) (key : Bytes) :
    (Engine.get key).run.run (e, h) = (.ok (s.get key), (e, h)) := by
  rw [Engine.get_readable r running, tierRuns_eq active slot]
  rfl

/-- And the scan of a session holding such an engine yields what the shared state's scan does. -/
theorem range_session {ss : Session} {e : Engine} (hs : ss.engine = some e)
    (r : Engine.Readable e ss.host.volume (s.tables.map (s.stored ·.handle)))
    (running : e.closed = false) (active : e.active = s.active)
    (slot : e.stalled.map (·.memtable) = s.flushing) (lower upper : Option Bytes) :
    ss.range lower upper = some (.ok ((s.range lower upper).map .ok)) := by
  rw [Session.range_readable hs r running, tierRuns_eq active slot, range, List.map_map]
  rfl

/-- A swap keeps every table it did not take, ranked above the merge. -/
theorem Inv.swap_keeps (inv : s.Inv) {inputs : List Held} {out : Held}
    (done : s.compaction = some ⟨inputs, some out⟩) {t : Held} (ht : t ∈ s.tables)
    (untaken : t ∉ inputs) :
    t ∈ swapped s.tables inputs out ∧ TableId.Newer t.table.id out.table.id := by
  obtain ⟨later, split, outranks, -, tablesEq⟩ := inv.swap_tables done
  have published : t ∈ later := by
    rw [split] at ht
    exact (List.mem_append.1 ht).resolve_right untaken
  rw [tablesEq]
  exact ⟨List.mem_append_left _ published, outranks t published⟩

end Reading

/-! ## Every interleaving -/

/-- What the readers and the compaction worker see in a state.

* A lookup answers every key with the value of its last completed write; a scan of
  `[lower, upper)` yields exactly the keys of the range that hold a value, with that value, in
  ascending key order.
* The tables are listed strictly newest first.
* When the merge of a compaction is written, its swap keeps every table listed that it did not
  take, each ranked above the merge, and removes every table it took, each listed exactly once
  before. -/
structure Safe (s : Shared) : Prop where
  answers : ∀ key, s.get key = s.written key
  ranges : ∀ lower upper key value, (key, value) ∈ s.range lower upper ↔
    inRange lower upper key = true ∧ s.written key = some value
  ascending : ∀ lower upper, ((s.range lower upper).map (·.1)).Pairwise (· < ·)
  ranked : (s.tables.map (·.table.id)).Pairwise TableId.Newer
  keeps : ∀ inputs out, s.compaction = some ⟨inputs, some out⟩ → ∀ t ∈ s.tables, t ∉ inputs →
    t ∈ swapped s.tables inputs out ∧ TableId.Newer t.table.id out.table.id
  removes : ∀ inputs out, s.compaction = some ⟨inputs, some out⟩ → ∀ i ∈ inputs,
    (s.tables.map (·.handle)).count i.handle = 1 ∧
      i.handle ∉ (swapped s.tables inputs out).map (·.handle)

/-- Every interleaving of the writer's, the flush worker's and the compaction worker's steps
from a state that satisfies the invariant, none of which wraps the generation counter, reaches
only safe states. -/
theorem interleaving_safe {s₀ s : Shared} (init : s₀.Inv) (run : s₀.Reaches s) : s.Safe := by
  have inv := init.reaches run
  exact
    { answers := inv.answers
      ranges := inv.mem_range_iff
      ascending := inv.range_ascending
      ranked := inv.newest
      keeps := fun _ _ done _ ht untaken => inv.swap_keeps done ht untaken
      removes := fun _ _ done _ hi => inv.swap_removes done hi }

/-- A table named `id` with no file opened behind it; a shared state reads a table through the
run it stores for it. -/
def sampleTable (id : TableId) : Table := ⟨id, ⟨none, 0, false⟩, ⟨none, 0, false⟩⟩

/-- A store holding `a ↦ 1` in its one flushed table, with the empty table of the next generation
taking writes. -/
def sample : Shared where
  active := { generation := 2, sizeLimit := 64 }
  tables := [⟨0, sampleTable (.flushed 1)⟩]
  nextGeneration := 3
  nextHandle := 1
  stored := fun handle => if handle = 0 then [.put [97] [49]] else []
  written := fun key => if key = [97] then some [49] else none

theorem sample_inv : sample.Inv where
  counted := rfl
  frozenOlder _ hm := nomatch hm
  older := by decide
  newest := List.pairwise_singleton _ _
  handles := List.nodup_singleton _
  handlesFresh := by decide
  activeSorted := List.Pairwise.nil
  frozenSorted _ hm := nomatch hm
  storedSorted _ ht := by
    rw [List.mem_singleton.1 ht]
    exact List.pairwise_singleton _ _
  compacting _ hc := nomatch hc
  answers key := by
    by_cases here : key = [97]
    · subst here
      rfl
    · simp [sample, get, runs, entryOf_cons, Entry.put, here, Ne.symm here]

/-- `sample` once the compaction worker has taken its table and written the merge. -/
def sampleCompacted : Shared :=
  { sample with
    compaction := some ⟨sample.tables, some ⟨1, sampleTable (Engine.compactedId sample.tables)⟩⟩
    nextHandle := 2
    stored := sample.store 1 (live (Run.newest (sample.tables.map (sample.stored ·.handle)))) }

theorem sampleCompacted_safe : sampleCompacted.Safe :=
  interleaving_safe sample_inv
    (.step (.step .refl (.take sample rfl rfl) (by decide))
      (.write _ sample.tables _ rfl rfl) (by decide))

end Shared

end LsmStore
