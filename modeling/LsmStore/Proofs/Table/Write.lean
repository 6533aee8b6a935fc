import LsmStore.Table.Directory
import LsmStore.Proofs.Table.Read
import LsmStore.Proofs.Store.Names
import LsmStore.Proofs.Volume.Layout

/-!
# Writing a table

A table is written under temporary names and then published: both temporary files are
created empty, the entries are fed to a builder, which writes each one at the end of both files
as it takes it, and the index and then the data file are renamed to their final names. On a volume laid out as a tree in which
neither the final nor the temporary names of the table are taken, every step succeeds. The
table then opens holding exactly the entries fed, its two files are the next two fresh inodes
under the final names, and no file that was there before changes.

## Main results

* `Table.open_of_laid` — a table whose files hold some entries opens and holds them
* `Table.Builder.Wrote` — a builder whose open files hold some entries
* `Table.Builder.Wrote.append` — writing one more entry puts it at the end of both files
* `Table.Builder.Wrote.feed_ascending` — a builder accepts entries in ascending key order
* `Table.write_laid` — writing a table on a tree publishes it with its entries
* `Table.write_of_missing` — writing into a missing directory fails and changes nothing
-/

namespace LsmStore

namespace Table

open Run Volume TableId

variable {v : Volume} {ds : List String} {fs : List FileLink} {d : String} {id : TableId}
  {es : List Entry}

/-! ## Opening -/

theorem Source.open_of_mem (h : v.Laid ds fs) {n : String} {i : Nat} (hf : ⟨d, n, i⟩ ∈ fs)
    (backend : ReadBackend) :
    Source.open v (join d n) backend = .ok ⟨some i, (v.contents i).length, backend == .mapped⟩ := by
  simp only [Source.open, h.resolve_join (h.inDir _ hf) (h.names _ hf), Except.mapError,
    Bind.bind, Except.bind, h.lookup_of_mem hf]
  rfl

/-- The last entry of a run starts inside its data file. -/
theorem length_dataOf_dropLast_lt (nonempty : es ≠ []) :
    (dataOf (es.take (es.length - 1))).length < (dataOf es).length := by
  have last : es.length - 1 < es.length := by
    have := List.length_pos_iff.2 nonempty
    omega
  rw [dataOf_split last, List.length_append, List.length_append, Entry.length_encode]
  have : 8 ≤ es[es.length - 1].encodedLen := by
    unfold Entry.encodedLen
    omega
  omega

/-- A table whose two files hold the data and the index of storable entries opens, and the
open table holds those entries. -/
theorem open_of_laid (h : v.Laid ds fs) {iD iI : Nat} (hD : ⟨d, id.fileName .data, iD⟩ ∈ fs)
    (hI : ⟨d, id.fileName .index, iI⟩ ∈ fs) (data : v.contents iD = dataOf es)
    (index : v.contents iI = indexOf es) (storable : Storable es) (backend : ReadBackend) :
    ∃ t, Table.open v d id backend = .ok t ∧ t.id = id ∧ Holds v t es ∧
      t.data.inode = some iD ∧ t.index.inode = some iI := by
  have holds : Holds v ⟨id, ⟨some iD, (dataOf es).length, backend == .mapped⟩,
      ⟨some iI, (indexOf es).length, backend == .mapped⟩⟩ es :=
    ⟨storable, ⟨iD, rfl, data⟩, rfl, ⟨iI, rfl, index⟩, rfl⟩
  refine ⟨_, ?_, rfl, holds, rfl, rfl⟩
  -- the index is whole slots, and the last offset lies inside the data file
  have whole : (indexOf es).length % offsetSize = 0 := by
    rw [length_indexOf, Nat.mul_mod_right]
  have count : (indexOf es).length / offsetSize = es.length := by
    rw [length_indexOf, Nat.mul_div_cancel_left _ (by decide)]
  simp only [Table.open, Source.open_of_mem h hD, Source.open_of_mem h hI, data, index, whole,
    ne_eq, not_true_eq_false, if_false, Bind.bind, Except.bind]
  by_cases nonempty : es = []
  · subst nonempty
    simp only [Table.entryCount, count, List.length_nil, Nat.lt_irrefl, if_false]
    rfl
  · have pos : 0 < es.length := List.length_pos_iff.2 nonempty
    rw [holds.entryCount, if_pos pos, holds.offset (by omega)]
    dsimp only
    rw [if_neg (Nat.not_le.2 (length_dataOf_dropLast_lt nonempty))]
    rfl

/-! ## What a builder has written -/

theorem Sink.put_run (s : Sink) (bs : Bytes) (w : Volume) :
    (s.put bs).run.run w =
      (.ok { s with position := s.position + bs.length }, w.writeAt s.inode s.position bs) := rfl

namespace Builder

variable {b b' b'' : Builder} {w w' w'' : Volume} {acc : List Entry} {e : Entry}

/-- A builder whose two open files hold the entries `acc` and nothing else: the data file their
encodings back to back and the index file their offsets, each file written up to its end. Its
counters are those of `acc`, as 64-bit words, and its last key is the key of the last of them. -/
structure Wrote (b : Builder) (w : Volume) (acc : List Entry) : Prop where
  apart : b.data.inode ≠ b.index.inode
  data : w.contents b.data.inode = dataOf acc
  index : w.contents b.index.inode = indexOf acc
  dataAt : b.data.position = (dataOf acc).length
  indexAt : b.index.position = (indexOf acc).length
  count : b.entryCount = acc.length % 2 ^ 64
  offset : b.currentOffset = (dataOf acc).length % 2 ^ 64
  lastKey : b.lastKey = acc.getLast?.map (·.key)

/-- `b'` on `w'` is `b` on `w` further on in writing its table: the same table, directory and
open files, on a volume whose names and next fresh inode are as they were and whose other files
are untouched. -/
structure Later (b : Builder) (w : Volume) (b' : Builder) (w' : Volume) : Prop where
  id : b'.id = b.id
  dir : b'.dir = b.dir
  dataInode : b'.data.inode = b.data.inode
  indexInode : b'.index.inode = b.index.inode
  links : w'.links = w.links
  nextInode : w'.nextInode = w.nextInode
  others : ∀ i, i ≠ b.data.inode → i ≠ b.index.inode → w'.contents i = w.contents i

theorem Later.refl (b : Builder) (w : Volume) : Later b w b w :=
  ⟨rfl, rfl, rfl, rfl, rfl, rfl, fun _ _ _ => rfl⟩

theorem Later.trans (first : Later b w b' w') (next : Later b' w' b'' w'') : Later b w b'' w'' where
  id := next.id.trans first.id
  dir := next.dir.trans first.dir
  dataInode := next.dataInode.trans first.dataInode
  indexInode := next.indexInode.trans first.indexInode
  links := next.links.trans first.links
  nextInode := next.nextInode.trans first.nextInode
  others i hd hi := by
    rw [next.others i (by rwa [first.dataInode]) (by rwa [first.indexInode]), first.others i hd hi]

/-- Writing an entry after those a builder wrote puts its offset at the end of the index file
and its encoding at the end of the data file, and changes nothing else. -/
theorem Wrote.append (wrote : b.Wrote w acc) (e : Entry) :
    ∃ b' w', (b.append e).run.run w = (.ok b', w') ∧ b'.Wrote w' (acc ++ [e]) ∧
      Later b w b' w' := by
  -- the index grows first; the data file, another inode, still ends where the builder writes
  have indexEnd : b.index.position = (w.contents b.index.inode).length := by
    rw [wrote.indexAt, wrote.index]
  have dataEnd : b.data.position =
      ((w.writeAt b.index.inode b.index.position
        (Bytes.ofNatLE offsetSize b.currentOffset)).contents b.data.inode).length := by
    rw [contents_writeAt_of_ne _ _ _ wrote.apart, wrote.dataAt, wrote.data]
  have offset : Bytes.ofNatLE offsetSize b.currentOffset =
      Bytes.ofNatLE offsetSize (dataOf acc).length := by
    rw [wrote.offset, show (2 : Nat) ^ 64 = 256 ^ offsetSize by decide, Bytes.ofNatLE_mod]
  refine ⟨_, _, rfl, ⟨wrote.apart, ?data, ?index, ?dataAt, ?indexAt, ?count, ?offset, ?last⟩,
    ⟨rfl, rfl, rfl, rfl, by simp, by simp, fun i hd hi => ?others⟩⟩
  case data =>
    rw [dataEnd, contents_writeAt_length, if_pos rfl, contents_writeAt_of_ne _ _ _ wrote.apart,
      wrote.data, dataOf_append]
    simp [dataOf]
  case index =>
    rw [contents_writeAt_of_ne _ _ _ (Ne.symm wrote.apart), indexEnd, contents_writeAt_length,
      if_pos rfl, wrote.index, indexOf_concat, offset]
  case dataAt => simp [wrote.dataAt, dataOf]
  case indexAt => simp [wrote.indexAt, indexOf_concat]
  case count => simp [wrote.count, Nat.add_mod]
  case offset => simp [wrote.offset, dataOf, Nat.add_mod]
  case last => simp
  case others => rw [contents_writeAt_of_ne _ _ _ hd, contents_writeAt_of_ne _ _ _ hi]

/-- A builder takes an entry whose key is above its last key, and writes it. -/
theorem add_of_lastKey_lt (above : ∀ k, b.lastKey = some k → k < e.key) :
    b.add e = b.append e := by
  unfold add
  cases last : b.lastKey with
  | none => rfl
  | some k => exact if_neg (List.not_le.2 (above k last))

/-- A builder refuses an entry whose key is not above its last key, before writing anything. -/
theorem add_of_le_lastKey {k : Bytes} (last : b.lastKey = some k) (down : e.key ≤ k) :
    b.add e = throw (.outOfOrder b.id e.key k) := by
  unfold add
  rw [last]
  exact if_pos down

/-- A builder fed entries whose keys ascend from above its last key writes them all, in
order. -/
theorem Wrote.feed_ascending {ε : Type} (lift : StoreError → ε) (wrote : b.Wrote w acc)
    (sorted : Ascending es) (above : ∀ k, b.lastKey = some k → ∀ e ∈ es, k < e.key) :
    ∃ b' w', feed lift b w (es.map .ok) = (.ok b', w') ∧ b'.Wrote w' (acc ++ es) ∧
      Later b w b' w' := by
  induction es generalizing b w acc with
  | nil => exact ⟨b, w, rfl, by rwa [List.append_nil], Later.refl b w⟩
  | cons e es ih =>
    obtain ⟨b₁, w₁, appended, wrote₁, later₁⟩ := wrote.append e
    -- every later entry is above the one just written
    obtain ⟨b₂, w₂, fed, wrote₂, later₂⟩ := ih wrote₁ sorted.tail fun k last e' he' => by
      rw [wrote₁.lastKey, List.getLast?_concat, Option.map_some, Option.some.injEq] at last
      rw [← last]
      exact Ascending.head_lt sorted e' he'
    refine ⟨b₂, w₂, ?_, by rwa [List.append_assoc, List.singleton_append] at wrote₂,
      later₁.trans later₂⟩
    rw [List.map_cons, feed,
      add_of_lastKey_lt fun k last => above k last e List.mem_cons_self, appended]
    exact fed

end Builder

/-! ## Publishing -/

section Publish

variable {w : Volume} {n : Nat}

theorem tmpPath_eq (hd : d ≠ "") (role : FileRole) :
    tmpPath d id role = join d (id.fileName role ++ ".tmp") :=
  Table.tmpName_join _ _ hd

theorem tmp_ne_tmp (hv : id.Valid) : id.fileName .data ++ ".tmp" ≠ id.fileName .index ++ ".tmp" :=
  fun same => absurd ((TableId.tmp_inj hv hv).1 same).2 (by decide)

theorem data_ne_index (hv : id.Valid) : id.fileName .data ≠ id.fileName .index :=
  fun same => absurd ((TableId.fileName_inj hv hv).1 same).2 (by decide)

theorem Sink.openTruncated_run {p : String} {i : Nat} {w' : Volume} (opened : w.touch p = .ok (i, w')) :
    (Sink.openTruncated p).run.run w = (.ok ⟨i, 0⟩, w'.setContents i []) := by
  simp only [Sink.openTruncated, VolumeM.run_bind, VolumeM.run_get, opened]
  rfl

/-- Starting a table creates its two temporary files, empty, as the next two fresh inodes, and a
builder that has written nothing to them. -/
theorem create_laid (h : v.Laid ds fs) (hd : d ∈ ds) (hv : id.Valid)
    (absent : ∀ f ∈ fs, f.dir = d → ∀ role, f.name ≠ id.fileName role ++ ".tmp") :
    ∃ b w, (Builder.create d id).run.run v = (.ok b, w) ∧ b.id = id ∧ b.dir = d ∧
      b.data.inode = v.nextInode ∧ b.index.inode = v.nextInode + 1 ∧ b.Wrote w [] ∧
      w.Laid ds (⟨d, id.fileName .index ++ ".tmp", v.nextInode + 1⟩ ::
        ⟨d, id.fileName .data ++ ".tmp", v.nextInode⟩ :: fs) ∧
      w.nextInode = v.nextInode + 2 ∧ ∀ i < v.nextInode, w.contents i = v.contents i := by
  have absentData : ∀ f ∈ fs, f.key ≠ (d, id.fileName .data ++ ".tmp") := by
    intro f hf same
    simp only [FileLink.key, Prod.mk.injEq] at same
    exact absent f hf same.1 .data same.2
  have absentIndex : ∀ f ∈ (⟨d, id.fileName .data ++ ".tmp", v.nextInode⟩ :: fs : List FileLink),
      f.key ≠ (d, id.fileName .index ++ ".tmp") := by
    intro f hf same
    simp only [FileLink.key, Prod.mk.injEq] at same
    rcases List.mem_cons.1 hf with rfl | hf
    · exact tmp_ne_tmp hv same.2
    · exact absent f hf same.1 .index same.2
  have dataLaid := (h.create hd (tmp_isName hv .data) absentData []).setContents v.nextInode []
  have indexLaid := (dataLaid.create hd (tmp_isName hv .index) absentIndex []).setContents
    (v.nextInode + 1) []
  refine ⟨{ id, dir := d, data := ⟨v.nextInode, 0⟩, index := ⟨v.nextInode + 1, 0⟩ }, _, ?_, rfl,
    rfl, rfl, rfl, ⟨by simp, by simp, by simp [indexOf, offsetsFrom], rfl, rfl, rfl, rfl, rfl⟩,
    indexLaid, by simp,
    fun i hi => ?_⟩
  · simp only [Builder.create, VolumeM.run_bind, tmpPath_eq (h.dirs d hd).ne_empty,
      Sink.openTruncated_run (h.touch_of_absent hd (tmp_isName hv .data) absentData),
      Sink.openTruncated_run (dataLaid.touch_of_absent hd (tmp_isName hv .index) absentIndex),
      VolumeM.run_pure, nextInode_setContents, nextInode_create]
  · simp [Nat.ne_of_lt hi, show i ≠ v.nextInode + 1 by omega]

/-- Writing a table into a directory the tree lacks fails at its first step, on the missing
directory, and changes nothing. -/
theorem write_of_missing {ε : Type} (lift : StoreError → ε) (h : v.Laid ds fs) (hd : IsName d)
    (missing : d ∉ ds) (hv : id.Valid) (backend : ReadBackend) (items : List (Except ε Entry)) :
    Table.write lift v d id backend items = (.error (lift (.io .notFound)), v) := by
  have refused : (Sink.openTruncated (tmpPath d id .data)).run.run v = (.error (.io .notFound), v) := by
    simp only [Sink.openTruncated, VolumeM.run_bind, VolumeM.run_get, tmpPath_eq hd.ne_empty,
      h.touch_of_missing hd (tmp_isName hv .data) missing]
    rfl
  -- `delta` opens `write` without generating the equation lemma of its nested match, which
  -- takes seconds
  delta Table.write
  simp only [Builder.create, VolumeM.run_bind, refused]

/-- Finishing a table renames its two temporary files to their final names, index first,
and keeps every inode's contents. -/
theorem finish_laid (b : Builder)
    (h : w.Laid ds (⟨d, id.fileName .index ++ ".tmp", n + 1⟩ ::
      ⟨d, id.fileName .data ++ ".tmp", n⟩ :: fs))
    (hd : d ∈ ds) (ident : b.id = id) (dir : b.dir = d) (hv : id.Valid)
    (absent : ∀ f ∈ fs, f.dir = d → ∀ role,
      f.name ≠ id.fileName role ∧ f.name ≠ id.fileName role ++ ".tmp") :
    ∃ w', b.finish.run.run w = (.ok (), w') ∧
      w'.Laid ds (⟨d, id.fileName .data, n⟩ :: ⟨d, id.fileName .index, n + 1⟩ :: fs) ∧
      w'.inodes = w.inodes ∧ w'.nextInode = w.nextInode := by
  subst ident dir
  have absentFinal : ∀ role, ∀ f ∈ fs, f.key ≠ (b.dir, b.id.fileName role) := by
    intro role f hf same
    simp only [FileLink.key, Prod.mk.injEq] at same
    exact (absent f hf same.1 role).1 same.2
  have absentTmp : ∀ role, ∀ f ∈ fs, f.key ≠ (b.dir, b.id.fileName role ++ ".tmp") := by
    intro role f hf same
    simp only [FileLink.key, Prod.mk.injEq] at same
    exact (absent f hf same.1 role).2 same.2
  -- the index is renamed first; only the temporary data file is left beside the old files
  have indexMoved := h.rename List.mem_cons_self hd (fileName_isName hv .index)
  have keptIndex : ((⟨b.dir, b.id.fileName .index ++ ".tmp", n + 1⟩ ::
      ⟨b.dir, b.id.fileName .data ++ ".tmp", n⟩ :: fs : List FileLink).filter
        (·.key != (b.dir, b.id.fileName .index ++ ".tmp"))).filter
        (·.key != (b.dir, b.id.fileName .index)) =
      ⟨b.dir, b.id.fileName .data ++ ".tmp", n⟩ :: fs := by
    rw [List.filter_cons_of_neg (by simp [FileLink.key]),
      List.filter_cons_of_pos (by simp [FileLink.key, tmp_ne_tmp hv]),
      filter_key_ne_of_absent (absentTmp .index), filter_key_ne_of_absent]
    intro f hf same
    rcases List.mem_cons.1 hf with rfl | hf
    · exact fileName_ne_tmp b.id b.id .index .data (congrArg Prod.snd same).symm
    · exact absentFinal .index f hf same
  rw [keptIndex] at indexMoved
  have dataMoved := indexMoved.rename (List.mem_cons_of_mem _ List.mem_cons_self) hd
    (fileName_isName hv .data)
  have keptData : ((⟨b.dir, b.id.fileName .index, n + 1⟩ ::
      ⟨b.dir, b.id.fileName .data ++ ".tmp", n⟩ :: fs : List FileLink).filter
        (·.key != (b.dir, b.id.fileName .data ++ ".tmp"))).filter
        (·.key != (b.dir, b.id.fileName .data)) =
      ⟨b.dir, b.id.fileName .index, n + 1⟩ :: fs := by
    have tmpGone : (⟨b.dir, b.id.fileName .index, n + 1⟩ ::
        ⟨b.dir, b.id.fileName .data ++ ".tmp", n⟩ :: fs : List FileLink).filter
          (·.key != (b.dir, b.id.fileName .data ++ ".tmp")) =
        ⟨b.dir, b.id.fileName .index, n + 1⟩ :: fs := by
      rw [List.filter_cons_of_pos (by simp [FileLink.key, fileName_ne_tmp]),
        List.filter_cons_of_neg (by simp [FileLink.key]), filter_key_ne_of_absent (absentTmp .data)]
    rw [tmpGone, filter_key_ne_of_absent]
    intro f hf same
    rcases List.mem_cons.1 hf with rfl | hf
    · exact data_ne_index hv (congrArg Prod.snd same).symm
    · exact absentFinal .data f hf same
  rw [keptData] at dataMoved
  refine ⟨_, ?_, dataMoved, rfl, rfl⟩
  simp only [Builder.finish, VolumeM.run_bind, VolumeM.io_run, tmpPath_eq (h.dirs _ hd).ne_empty,
    h.rename_of_mem List.mem_cons_self hd (fileName_isName hv .index),
    indexMoved.rename_of_mem (List.mem_cons_of_mem _ List.mem_cons_self) hd
      (fileName_isName hv .data)]

/-- Writing a table of storable entries on a tree where neither its final nor its temporary
names are taken publishes it: the table opens holding the entries, its files are the next two
fresh inodes under the final names, and no file that was there before changes. -/
theorem write_laid {ε : Type} (lift : StoreError → ε) (h : v.Laid ds fs) (hd : d ∈ ds)
    (hv : id.Valid)
    (absent : ∀ f ∈ fs, f.dir = d → ∀ role,
      f.name ≠ id.fileName role ∧ f.name ≠ id.fileName role ++ ".tmp")
    (storable : Storable es) (backend : ReadBackend) :
    ∃ t w, Table.write lift v d id backend (es.map .ok) = (.ok t, w) ∧ t.id = id ∧ Holds w t es ∧
      t.data.inode = some v.nextInode ∧ t.index.inode = some (v.nextInode + 1) ∧
      w.Laid ds (⟨d, id.fileName .data, v.nextInode⟩ ::
        ⟨d, id.fileName .index, v.nextInode + 1⟩ :: fs) ∧
      w.nextInode = v.nextInode + 2 ∧ ∀ i < v.nextInode, w.contents i = v.contents i := by
  obtain ⟨b, w₁, created, ident, dir, dataInode, indexInode, wrote₁, laid₁, next₁, kept₁⟩ :=
    create_laid h hd hv fun f hf same role => (absent f hf same role).2
  -- a fresh builder has no last key, so it takes the whole ascending run
  obtain ⟨b', w₂, fed, wrote₂, later⟩ :=
    wrote₁.feed_ascending lift storable.sorted fun k last => by
      rw [wrote₁.lastKey] at last
      cases last
  rw [List.nil_append] at wrote₂
  -- feeding only wrote to the two temporary files
  have laid₂ : w₂.Laid ds _ := laid₁.of_links later.links (Nat.le_of_eq later.nextInode.symm)
  obtain ⟨w₃, finished, laid₃, inodes₃, next₃⟩ :=
    finish_laid b' laid₂ hd (later.id.trans ident) (later.dir.trans dir) hv absent
  have same₃ : ∀ i, w₃.contents i = w₂.contents i := fun i => by
    simp only [Volume.contents, inodes₃]
  have data₃ : w₃.contents v.nextInode = dataOf es := by
    rw [same₃, ← dataInode, ← later.dataInode, wrote₂.data]
  have index₃ : w₃.contents (v.nextInode + 1) = indexOf es := by
    rw [same₃, ← indexInode, ← later.indexInode, wrote₂.index]
  obtain ⟨t, opened, tid, holds, tdata, tindex⟩ := open_of_laid laid₃ List.mem_cons_self
    (List.mem_cons_of_mem _ List.mem_cons_self) data₃ index₃ storable backend
  refine ⟨t, w₃, ?_, tid, holds, tdata, tindex, laid₃, ?_, fun i hi => ?_⟩
  · delta Table.write
    simp only [created, fed, finished, opened]
  · rw [next₃, later.nextInode, next₁]
  · rw [same₃, later.others i (by omega) (by omega), kept₁ i hi]

end Publish

end Table

end LsmStore
