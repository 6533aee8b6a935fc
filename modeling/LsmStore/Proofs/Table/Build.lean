import Mathlib
import LsmStore.Proofs.Table.Total
import LsmStore.Proofs.Memtable.Cursor

/-!
# Building a table from entries offered in any order

A builder takes an entry only when its key is above the key of the last entry it took, and
then writes it at the end of both of its files; it refuses any other before writing anything,
so a refusal leaves its counters and both files as they were. Offered a sequence of entries one
by one, by a caller that goes on after a refusal, it therefore takes a strictly ascending
subsequence, picked greedily: each entry above the last one taken before it, and after each
offer its files hold exactly the entries taken so far. Finishing publishes them, and the table
opened from the two files counts them and scans them back in order, as long as each of them
fits the format: a key shorter than `2 ^ 32` bytes and a value shorter than the tombstone mark
`2 ^ 32 - 1`.

The lengths are written into 32-bit fields without a check. A value of exactly `2 ^ 32 - 1`
bytes is written with the length field of a tombstone, so its table reads it back as a deletion
followed by stray bytes, and the scan fails.

## Main definitions

* `Table.above` — whether an entry may follow some entries taken
* `Table.taken` — the entries taken from a sequence, each above the last one taken before it
* `Table.Builder.addEach` — offering entries one by one, going on after a refusal
* `Table.Builder.Offer` — what one offer does to the builder's files
* `Table.Answers` — what a fresh builder answers to each entry offered

## Main results

* `Table.Builder.Wrote.offer` — one offer: written when above the entries taken, refused
  with nothing written otherwise
* `Table.Builder.Wrote.addEach`, `Table.Builder.Wrote.answers_addEach` — a run of offers
* `Table.build_reads_back` — the table built reads back exactly the entries taken
* `Table.build_markLength_faults` — a value with the tombstone's length reads back as a fault
-/

namespace LsmStore

namespace Table

open Run Volume

/-! ## The entries taken -/

/-- Whether `e` may follow the entries `acc`: its key is above the key of the last of them. -/
def above (acc : List Entry) (e : Entry) : Bool := acc.getLast?.all (·.key < e.key)

/-- The entries held after offering `es` one by one to a builder holding `acc`: each entry
above the last one held is taken, any other is passed over. -/
def taken (acc : List Entry) : List Entry → List Entry
  | [] => acc
  | e :: es => taken (if above acc e then acc ++ [e] else acc) es

variable {acc : List Entry} {e : Entry} {es : List Entry}

theorem above_eq_false_iff :
    above acc e = false ↔ ∃ last, acc.getLast? = some last ∧ e.key ≤ last.key := by
  unfold above
  cases acc.getLast? with
  | none => simp
  | some last => simp [List.not_lt]

/-- What is taken is a subsequence of what was held and offered. -/
theorem taken_sublist (acc es : List Entry) : (taken acc es).Sublist (acc ++ es) := by
  induction es generalizing acc with
  | nil => simp [taken]
  | cons e es ih =>
    unfold taken
    split
    · simpa using ih (acc ++ [e])
    · exact (ih acc).trans ((List.sublist_cons_self e es).append_left acc)

theorem taken_nil_sublist (es : List Entry) : (taken [] es).Sublist es := by
  simpa using taken_sublist [] es

/-- An entry above the last of an ascending run extends it. -/
theorem Ascending.concat (sorted : Ascending acc) (up : above acc e = true) :
    Ascending (acc ++ [e]) := by
  refine List.pairwise_append.2 ⟨sorted, List.pairwise_singleton _ _, fun a ha b hb => ?_⟩
  rw [List.mem_singleton.1 hb]
  cases last : acc.getLast? with
  | none => simp [List.getLast?_eq_none_iff.1 last] at ha
  | some z =>
    have below : z.key < e.key := by simpa [above, last] using up
    exact List.lt_of_le_of_lt (sorted.le_getLast last ha) below

/-- What is taken from an ascending start stays ascending. -/
theorem ascending_taken (sorted : Ascending acc) (es : List Entry) : Ascending (taken acc es) := by
  induction es generalizing acc with
  | nil => exact sorted
  | cons e es ih =>
    unfold taken
    split
    · exact ih (Ascending.concat sorted ‹_›)
    · exact ih sorted

/-- What is taken from entries that each fit the format fits it too. -/
theorem storable_taken (keys : ∀ e ∈ es, e.key.length < 2 ^ 32)
    (values : ∀ e ∈ es, ∀ x, e.value = some x → x.length < Entry.tombstoneMark)
    (small : (dataOf es).length < 2 ^ 64) : Storable (taken [] es) := by
  have sub := taken_nil_sublist es
  have shorter : (dataOf (taken [] es)).length ≤ (dataOf es).length :=
    ((sub.map Entry.encode).flatten).length_le
  exact ⟨ascending_taken List.Pairwise.nil es, fun e he => keys e (sub.subset he),
    fun e he => values e (sub.subset he), lt_of_le_of_lt shorter small⟩

/-- There are no more entries than bytes of their encodings: each takes at least its two
length words. -/
theorem length_le_length_dataOf (es : List Entry) : es.length ≤ (dataOf es).length := by
  induction es with
  | nil => exact Nat.le_refl 0
  | cons e es ih =>
    rw [dataOf_cons, List.length_append, Entry.length_encode, List.length_cons]
    have : 1 ≤ e.encodedLen := by
      unfold Entry.encodedLen
      omega
    omega

/-! ## Offering entries to a builder -/

namespace Builder

variable {b : Builder} {w : Volume} {z : Entry}

/-- Offers the entries one by one and goes on with the same builder after a refusal: the answer
to each offer (the count of entries accepted, or the refusal), and the builder and the volume
at the end. -/
def addEach (b : Builder) (w : Volume) :
    List Entry → List (Except StoreError Nat) × Builder × Volume
  | [] => ([], b, w)
  | e :: es =>
    match (b.add e).run.run w with
    | (.ok b', w') => (.ok b'.entryCount :: (b'.addEach w' es).1, (b'.addEach w' es).2)
    | (.error err, w') => (.error err :: (b.addEach w' es).1, (b.addEach w' es).2)

/-- A builder takes an entry above the entries it wrote, and writes it at the end of both
files. -/
theorem Wrote.add_of_above (wrote : b.Wrote w acc) (up : above acc e = true) :
    ∃ b' w', (b.add e).run.run w = (.ok b', w') ∧ b'.Wrote w' (acc ++ [e]) ∧
      Later b w b' w' := by
  rw [add_of_lastKey_lt fun k last => ?below]
  · exact wrote.append e
  case below =>
    rw [wrote.lastKey] at last
    obtain ⟨z, hz, rfl⟩ := Option.map_eq_some_iff.1 last
    simpa [above, hz] using up

/-- A builder refuses an entry whose key is not above the key of the last entry it wrote,
names both keys, and writes nothing. -/
theorem Wrote.add_of_not_above (wrote : b.Wrote w acc) (last : acc.getLast? = some z)
    (down : e.key ≤ z.key) :
    (b.add e).run.run w = (.error (.outOfOrder b.id e.key z.key), w) := by
  rw [add_of_le_lastKey (by rw [wrote.lastKey, last]; rfl) down]
  rfl

/-- What offering `e` does to a builder that wrote the entries `acc` on `w`: an entry above
them is written at the end of both files, and nothing else changes; any other is refused,
naming its key and the last key taken, before anything is written. -/
structure Offer (b : Builder) (w : Volume) (acc : List Entry) (e : Entry) : Prop where
  refused : ∀ z, acc.getLast? = some z → e.key ≤ z.key →
    (b.add e).run.run w = (.error (.outOfOrder b.id e.key z.key), w)
  accepted : above acc e = true → ∃ b' w', (b.add e).run.run w = (.ok b', w') ∧
    b'.Wrote w' (acc ++ [e]) ∧ Later b w b' w'

theorem Wrote.offer (wrote : b.Wrote w acc) (e : Entry) : Offer b w acc e :=
  ⟨fun _ last down => wrote.add_of_not_above last down, wrote.add_of_above⟩

/-- After a run of offers a builder has written what is taken from them, and nothing else
changed. -/
theorem Wrote.addEach (wrote : b.Wrote w acc) (es : List Entry) :
    (b.addEach w es).2.1.Wrote (b.addEach w es).2.2 (taken acc es) ∧
      Later b w (b.addEach w es).2.1 (b.addEach w es).2.2 := by
  induction es generalizing b w acc with
  | nil => exact ⟨wrote, Later.refl b w⟩
  | cons e es ih =>
    cases up : above acc e with
    | true =>
      obtain ⟨b', w', added, wrote', later⟩ := wrote.add_of_above up
      obtain ⟨wroteAll, laterAll⟩ := ih wrote'
      simp only [addEach, added, taken, up, if_true]
      exact ⟨wroteAll, later.trans laterAll⟩
    | false =>
      -- a refusal leaves the builder and the volume as they were
      obtain ⟨z, last, down⟩ := above_eq_false_iff.1 up
      simp only [addEach, wrote.add_of_not_above last down, taken, up, Bool.false_eq_true, if_false]
      exact ih wrote

@[simp] theorem length_addEach (b : Builder) (w : Volume) (es : List Entry) :
    (b.addEach w es).1.length = es.length := by
  induction es generalizing b w with
  | nil => rfl
  | cons e es ih =>
    unfold addEach
    split <;> simp [ih]

theorem addEach_fst_append (b : Builder) (w : Volume) (xs ys : List Entry) :
    (b.addEach w (xs ++ ys)).1 =
      (b.addEach w xs).1 ++ ((b.addEach w xs).2.1.addEach (b.addEach w xs).2.2 ys).1 := by
  induction xs generalizing b w with
  | nil => rfl
  | cons x xs ih =>
    simp only [List.cons_append, addEach]
    split <;> simp [ih]

theorem Wrote.addEach_head_of_above (wrote : b.Wrote w acc) (up : above acc e = true) :
    (b.addEach w (e :: es)).1.head? = some (.ok ((acc.length + 1) % 2 ^ 64)) := by
  obtain ⟨b', w', added, wrote', -⟩ := wrote.add_of_above up
  simp [Builder.addEach, added, wrote'.count]

theorem Wrote.addEach_head_of_not_above (wrote : b.Wrote w acc) (last : acc.getLast? = some z)
    (down : e.key ≤ z.key) :
    (b.addEach w (e :: es)).1.head? = some (.error (.outOfOrder b.id e.key z.key)) := by
  simp [Builder.addEach, wrote.add_of_not_above last down]

end Builder

/-- What a fresh builder of table `id` answers to the entries `es` offered one by one: a refusal
naming the entry's key and the last key taken, for each entry whose key is not above the entries
taken before it, and for each other entry the count of entries taken with it. -/
structure Answers (id : TableId) (es : List Entry) (answers : List (Except StoreError Nat)) :
    Prop where
  length : answers.length = es.length
  refused : ∀ pre e post last, es = pre ++ e :: post → (taken [] pre).getLast? = some last →
    e.key ≤ last.key → answers[pre.length]? = some (.error (.outOfOrder id e.key last.key))
  accepted : ∀ pre e post, es = pre ++ e :: post → above (taken [] pre) e = true →
    answers[pre.length]? = some (.ok ((taken [] pre).length + 1))

namespace Builder

variable {b : Builder} {w : Volume}

/-- The answer to an offer is the answer of the builder that the offers before it left. -/
theorem addEach_getElem?_length (b : Builder) (w : Volume) (pre : List Entry) (e : Entry)
    (post : List Entry) :
    (b.addEach w (pre ++ e :: post)).1[pre.length]? =
      ((b.addEach w pre).2.1.addEach (b.addEach w pre).2.2 (e :: post)).1.head? := by
  rw [addEach_fst_append, List.getElem?_append_right (by rw [length_addEach]), length_addEach,
    Nat.sub_self, List.head?_eq_getElem?]

/-- A builder that wrote nothing answers each of fewer than `2 ^ 64` offers as it owes. -/
theorem Wrote.answers_addEach (wrote : b.Wrote w []) (es : List Entry) (few : es.length < 2 ^ 64) :
    Answers b.id es (b.addEach w es).1 where
  length := length_addEach _ _ es
  refused := by
    rintro pre e post z rfl last down
    obtain ⟨wrotePre, laterPre⟩ := wrote.addEach pre
    rw [addEach_getElem?_length, wrotePre.addEach_head_of_not_above last down, laterPre.id]
  accepted := by
    rintro pre e post rfl up
    obtain ⟨wrotePre, -⟩ := wrote.addEach pre
    rw [addEach_getElem?_length, wrotePre.addEach_head_of_above up]
    -- the count stays below `2 ^ 64`: no more entries are taken than were offered
    have fewer : (taken [] pre).length + 1 < 2 ^ 64 := by
      have := (taken_nil_sublist pre).length_le
      simp only [List.length_append, List.length_cons] at few
      omega
    rw [Nat.mod_eq_of_lt fewer]

end Builder

/-! ## Building a table -/

section Build

variable {v : Volume} {ds : List String} {fs : List FileLink} {d : String} {id : TableId}
  {t : Table}

/-- A scan over a whole table holding `es` yields them all, in order. -/
theorem Holds.scan_toList (holds : Holds v t es) : t.scan.toList v = es.map .ok := by
  rw [Table.scan, holds.toList 0 _ (Nat.le_of_eq holds.entryCount), holds.entryCount,
    List.drop_zero, Nat.sub_zero, List.take_length]

/-- A builder started where neither the table's names nor its temporary names are taken, and
offered a run of entries: finishing renames its two files to their final names, which then hold
the entries taken. -/
theorem finish_addEach (hd : d ∈ ds) (hv : id.Valid)
    (absent : ∀ f ∈ fs, f.dir = d → ∀ role,
      f.name ≠ id.fileName role ∧ f.name ≠ id.fileName role ++ ".tmp")
    {b : Builder} {w : Volume} (ident : b.id = id) (dir : b.dir = d) (dataInode : b.data.inode = v.nextInode)
    (indexInode : b.index.inode = v.nextInode + 1)
    (laid : w.Laid ds (⟨d, id.fileName .index ++ ".tmp", v.nextInode + 1⟩ ::
      ⟨d, id.fileName .data ++ ".tmp", v.nextInode⟩ :: fs))
    (wrote : b.Wrote w []) (es : List Entry) :
    ∃ w', (b.addEach w es).2.1.finish.run.run (b.addEach w es).2.2 = (.ok (), w') ∧
      w'.Laid ds (⟨d, id.fileName .data, v.nextInode⟩ ::
        ⟨d, id.fileName .index, v.nextInode + 1⟩ :: fs) ∧
      w'.contents v.nextInode = dataOf (taken [] es) ∧
      w'.contents (v.nextInode + 1) = indexOf (taken [] es) := by
  obtain ⟨wroteAll, later⟩ := wrote.addEach es
  -- the offers wrote only to the two temporary files
  have laid' := laid.of_links later.links (Nat.le_of_eq later.nextInode.symm)
  obtain ⟨w', finished, laid'', inodes, -⟩ :=
    finish_laid _ laid' hd (later.id.trans ident) (later.dir.trans dir) hv absent
  have same : ∀ i, w'.contents i = (b.addEach w es).2.2.contents i := fun i => by
    simp only [Volume.contents, inodes]
  refine ⟨w', finished, laid'', ?_, ?_⟩
  · rw [same, ← dataInode, ← later.dataInode, wroteAll.data]
  · rw [same, ← indexInode, ← later.indexInode, wroteAll.index]

/-- Entries offered in any order to a builder started where neither the table's names nor its
temporary names are taken. After each run of offers the builder's two files hold exactly the
entries taken so far; the next entry is refused, before anything is written, exactly when its
key is not above the last key taken, and otherwise written at the end of both files; the builder
answers each offer accordingly, and takes a strictly ascending subsequence of the offers. The
table it finishes opens, with either back end, and counts and scans back exactly the entries
taken, in order, as long as every entry offered fits the format. -/
theorem build_reads_back (h : v.Laid ds fs) (hd : d ∈ ds) (hv : id.Valid)
    (absent : ∀ f ∈ fs, f.dir = d → ∀ role,
      f.name ≠ id.fileName role ∧ f.name ≠ id.fileName role ++ ".tmp")
    (keys : ∀ e ∈ es, e.key.length < 2 ^ 32)
    (values : ∀ e ∈ es, ∀ x, e.value = some x → x.length < Entry.tombstoneMark)
    (small : (dataOf es).length < 2 ^ 64) (backend : ReadBackend) :
    (taken [] es).Sublist es ∧ Ascending (taken [] es) ∧
      ∃ b w, (Builder.create d id).run.run v = (.ok b, w) ∧ b.id = id ∧ b.Wrote w [] ∧
        (∀ pre e post, es = pre ++ e :: post →
          (b.addEach w pre).2.1.Wrote (b.addEach w pre).2.2 (taken [] pre) ∧
            Builder.Offer (b.addEach w pre).2.1 (b.addEach w pre).2.2 (taken [] pre) e) ∧
        Answers id es (b.addEach w es).1 ∧
        ∃ w' t, (b.addEach w es).2.1.finish.run.run (b.addEach w es).2.2 = (.ok (), w') ∧
          Table.open w' d id backend = .ok t ∧ t.entryCount = (taken [] es).length ∧
          t.scan.toList w' = (taken [] es).map .ok := by
  obtain ⟨b, w, created, ident, dir, dataInode, indexInode, wrote, laid, -, -⟩ :=
    create_laid h hd hv fun f hf same role => (absent f hf same role).2
  obtain ⟨w', finished, laid', data, index⟩ :=
    finish_addEach hd hv absent ident dir dataInode indexInode laid wrote es
  obtain ⟨t, opened, -, holds, -, -⟩ := open_of_laid laid' List.mem_cons_self
    (List.mem_cons_of_mem _ List.mem_cons_self) data index (storable_taken keys values small)
    backend
  have few : es.length < 2 ^ 64 := Nat.lt_of_le_of_lt (length_le_length_dataOf es) small
  refine ⟨taken_nil_sublist es, ascending_taken List.Pairwise.nil es, b, w, created, ident, wrote,
    fun pre e post _ => ?_, ident ▸ wrote.answers_addEach es few, w', t, finished, opened,
    holds.entryCount, holds.scan_toList⟩
  have wrotePre := (wrote.addEach pre).1
  exact ⟨wrotePre, wrotePre.offer e⟩

/-- An empty table directory. -/
theorem laid_tableDir : (({} : Volume).bind tableDir .dir).Laid [tableDir] [] :=
  laid_empty.bind_dir tableDir_isName List.not_mem_nil

theorem valid_flushed_one : (TableId.flushed 1).Valid := by
  unfold TableId.Valid
  decide

/-- Four entries offered out of order: a key below the first one, and the first key again. -/
def shuffledOffers : List Entry :=
  [Entry.put [98] [49], Entry.put [97] [50], Entry.put [98] [51], Entry.tombstone [99]]

theorem build_reads_back_shuffledOffers :
    ∃ b w, (Builder.create tableDir (.flushed 1)).run.run (({} : Volume).bind tableDir .dir) =
        (.ok b, w) ∧
      (b.addEach w shuffledOffers).1 =
        [.ok 1, .error (.outOfOrder (.flushed 1) [97] [98]),
          .error (.outOfOrder (.flushed 1) [98] [98]), .ok 2] ∧
      ∃ w' t, (b.addEach w shuffledOffers).2.1.finish.run.run (b.addEach w shuffledOffers).2.2 =
          (.ok (), w') ∧
        Table.open w' tableDir (.flushed 1) .mapped = .ok t ∧ t.entryCount = 2 ∧
        t.scan.toList w' = [.ok (Entry.put [98] [49]), .ok (Entry.tombstone [99])] := by
  have values : ∀ e ∈ shuffledOffers, ∀ x, e.value = some x → x.length < Entry.tombstoneMark := by
    simp [shuffledOffers, Entry.put, Entry.tombstone, Entry.tombstoneMark]
  obtain ⟨-, -, b, w, created, -, -, -, answers, w', t, finished, opened, count, scanned⟩ :=
    build_reads_back laid_tableDir List.mem_cons_self valid_flushed_one
      (fun _ member => absurd member List.not_mem_nil) (by decide) values (by decide) .mapped
  -- each of the four answers, read off at its place in the run
  have first := answers.accepted [] _ _ rfl rfl
  have second := answers.refused [Entry.put [98] [49]] _ _ (Entry.put [98] [49]) rfl rfl
    (by decide)
  have third := answers.refused [Entry.put [98] [49], Entry.put [97] [50]] _ _ (Entry.put [98] [49])
    rfl rfl (by decide)
  have fourth := answers.accepted [Entry.put [98] [49], Entry.put [97] [50], Entry.put [98] [51]]
    _ _ rfl rfl
  refine ⟨b, w, created, List.ext_getElem? fun p => ?_, w', t, finished, opened, count, scanned⟩
  rcases p with _ | _ | _ | _ | p
  · exact first
  · exact second
  · exact third
  · exact fourth
  · rw [List.getElem?_eq_none (by rw [answers.length]; simp [shuffledOffers]),
      List.getElem?_eq_none (by simp)]

/-! ## A value as long as the tombstone mark -/

/-- A value of exactly the tombstone mark's length is written as a tombstone followed by the
value's bytes. -/
theorem Entry.encode_of_markLength {k x : Bytes} (hx : x.length = Entry.tombstoneMark) :
    Entry.encode ⟨k, some x⟩ = Entry.encode ⟨k, none⟩ ++ x := by
  simp [Entry.encode, hx]

theorem Entry.decode_of_markLength {k x : Bytes} (hk : k.length < 2 ^ 32)
    (hx : x.length = Entry.tombstoneMark) :
    Entry.decode (Entry.encode ⟨k, some x⟩) = (.ok ⟨k, none⟩, x) := by
  rw [Entry.encode_of_markLength hx]
  exact Entry.decode_encode_append _ x hk fun _ absent => absurd absent.symm (Option.some_ne_none _)

/-- The only entry of a table is read from its whole data file: when decoding it leaves bytes
over, the read fails and counts them. -/
theorem entryAt_of_single {buf rest : Bytes} {e : Entry} (count : t.entryCount = 1)
    (offset : t.offset v 0 = .ok 0) (whole : t.data.readAt v 0 t.data.length = .ok buf)
    (decoded : Entry.decode buf = (.ok e, rest)) (stray : rest ≠ []) :
    t.entryAt v 0 = .error (.table (.strayBytes t.id 0 rest.length)) := by
  simp only [Table.entryAt, offset, count, Bind.bind, Except.bind, pure, Except.pure,
    Nat.lt_irrefl, Nat.not_lt_zero, if_false, Nat.sub_zero, whole, decoded]
  rw [if_neg (by simpa using stray)]
  rfl

/-- A scan over a table of one entry that cannot be read yields the fault alone. -/
theorem scan_toList_of_single {f : StoreError} (count : t.entryCount = 1)
    (fault : t.entryAt v 0 = .error f) : t.scan.toList v = [.error f] := by
  rw [Table.scan, count, Cursor.toList_of_next_some (Cursor.next_of_fault Nat.zero_lt_one fault),
    Cursor.toList_of_next_none (Cursor.next_of_done (Nat.lt_irrefl 1))]

/-- The two files written for one entry, whatever its length words say, open as a table of one
index slot: the slot points at the start of the data file, which reads back whole as the entry's
encoding. -/
theorem open_of_single {w : Volume} {iD iI : Nat} {e : Entry} (h : w.Laid ds fs)
    (hD : ⟨d, id.fileName .data, iD⟩ ∈ fs) (hI : ⟨d, id.fileName .index, iI⟩ ∈ fs)
    (data : w.contents iD = dataOf [e]) (index : w.contents iI = indexOf [e])
    (backend : ReadBackend) :
    ∃ t, Table.open w d id backend = .ok t ∧ t.id = id ∧ t.entryCount = 1 ∧
      t.offset w 0 = .ok 0 ∧ t.data.readAt w 0 t.data.length = .ok e.encode := by
  have dataFile : w.contents iD = e.encode := data.trans (List.append_nil _)
  have indexFile : w.contents iI = Bytes.ofNatLE offsetSize 0 := index.trans (List.append_nil _)
  -- the one offset, 0, lies inside the data file, which holds at least the two length words
  have checked : ¬ (e.encode.length ≤ lastOffset (Bytes.ofNatLE offsetSize 0)) := by
    have first : lastOffset (Bytes.ofNatLE offsetSize 0) = 0 := by decide
    rw [first, Entry.length_encode, Entry.encodedLen]
    omega
  have opened := open_of_files h hD hI backend
  rw [dataFile, indexFile, if_neg (by decide), if_neg fun bad => checked bad.2] at opened
  set t : Table := ⟨id, ⟨some iD, e.encode.length, backend == .mapped⟩,
    ⟨some iI, (Bytes.ofNatLE offsetSize 0).length, backend == .mapped⟩⟩
  refine ⟨t, opened, rfl, ?count, ?offset, ?whole⟩
  case count =>
    show (Bytes.ofNatLE offsetSize 0).length / offsetSize = 1
    rw [Bytes.length_ofNatLE, Nat.div_self (by decide)]
  case offset =>
    rw [Table.offset, Nat.zero_mul, Source.readAt_eq (s := t.index) rfl indexFile rfl 0 offsetSize
      (by simp)]
    rfl
  case whole =>
    rw [Source.readAt_eq (s := t.data) rfl dataFile rfl 0 _ (Nat.le_of_eq (Nat.zero_add _)),
      List.drop_zero]
    exact congrArg Except.ok List.take_length

/-- A table built from one entry whose value has exactly the tombstone mark's length is taken,
written and opened like any other, counts one entry, and its scan fails on it: the entry reads
as a tombstone followed by stray bytes. -/
theorem build_markLength_faults (h : v.Laid ds fs) (hd : d ∈ ds) (hv : id.Valid)
    (absent : ∀ f ∈ fs, f.dir = d → ∀ role,
      f.name ≠ id.fileName role ∧ f.name ≠ id.fileName role ++ ".tmp")
    {k x : Bytes} (hk : k.length < 2 ^ 32) (hx : x.length = Entry.tombstoneMark)
    (backend : ReadBackend) :
    ∃ b w, (Builder.create d id).run.run v = (.ok b, w) ∧
      (b.addEach w [⟨k, some x⟩]).1 = [.ok 1] ∧
      ∃ w' t, (b.addEach w [⟨k, some x⟩]).2.1.finish.run.run (b.addEach w [⟨k, some x⟩]).2.2 =
          (.ok (), w') ∧
        Table.open w' d id backend = .ok t ∧ t.entryCount = 1 ∧
        t.scan.toList w' = [.error (.table (.strayBytes id 0 Entry.tombstoneMark))] := by
  obtain ⟨b, w, created, ident, dir, dataInode, indexInode, wrote, laid, -, -⟩ :=
    create_laid h hd hv fun f hf same role => (absent f hf same role).2
  obtain ⟨w', finished, laid', data, index⟩ :=
    finish_addEach hd hv absent ident dir dataInode indexInode laid wrote [⟨k, some x⟩]
  -- the builder takes the one entry, whatever its length words say
  have one : (b.addEach w [⟨k, some x⟩]).1 = [.ok 1] := by
    obtain ⟨b', w'', added, wrote', -⟩ := wrote.add_of_above (e := ⟨k, some x⟩) rfl
    simp [Builder.addEach, added, wrote'.count]
  obtain ⟨t, opened, tid, count, offset, whole⟩ := open_of_single laid' List.mem_cons_self
    (List.mem_cons_of_mem _ List.mem_cons_self) data index backend
  -- decoding the one entry leaves the value's bytes over
  have stray : x ≠ [] := by
    rw [← List.length_pos_iff, hx]
    decide
  have fault := entryAt_of_single count offset whole (Entry.decode_of_markLength hk hx) stray
  rw [tid, hx] at fault
  exact ⟨b, w, created, one, w', t, finished, opened, count, scan_toList_of_single count fault⟩

/-- Key `a` with a value of `2 ^ 32 - 1` bytes `a`, as long as the tombstone mark. -/
def markLengthEntry : Entry := ⟨[97], some (List.replicate Entry.tombstoneMark 97)⟩

theorem build_markLengthEntry_unreadable :
    ∃ b w, (Builder.create tableDir (.flushed 1)).run.run (({} : Volume).bind tableDir .dir) =
        (.ok b, w) ∧
      (b.addEach w [markLengthEntry]).1 = [.ok 1] ∧
      ∃ w' t, (b.addEach w [markLengthEntry]).2.1.finish.run.run
          (b.addEach w [markLengthEntry]).2.2 = (.ok (), w') ∧
        Table.open w' tableDir (.flushed 1) .mapped = .ok t ∧ t.entryCount = 1 ∧
        t.scan.toList w' = [.error (.table (.strayBytes (.flushed 1) 0 Entry.tombstoneMark))] :=
  build_markLength_faults laid_tableDir List.mem_cons_self valid_flushed_one
    (fun _ member => absurd member List.not_mem_nil) (by decide) (List.length_replicate ..) .mapped

end Build

end Table

end LsmStore
