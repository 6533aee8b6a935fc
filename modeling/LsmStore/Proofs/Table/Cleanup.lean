import Mathlib
import LsmStore.Proofs.Engine.Compaction

/-!
# Cleaning the table directory on startup

Startup reads the names of the table directory back to table identities, in any spelling the
name reader accepts (a plus sign and leading zeros included), and cleans the directory before
it opens anything. A temporary file goes. It then deals with the identities found one by one,
in the order a hash map yields them: an index whose data file is missing goes, and a data file
whose index never arrived stops startup there. Both files of a table that a compaction already
replaced go too: a table covered by another whose two files are there. The tables left are
opened newest first.

The order is any strict total order on identities (`YieldOrder`). Where every data file has its
index, the outcome is the same in every order. Where some data file lacks its index, it is not:
startup stops on the first such table the order meets, and the indexes removed before it are
those of the tables the order puts first.

Files are removed under the canonical names of the identities they were read as, so a file
whose name is spelled otherwise is never removed. Where every table file carries its canonical
name, startup does what it owes the directory: it fails on the first data file without its
index, and otherwise removes exactly the files named above, opens exactly the tables left,
strictly newest first, and keeps for every replaced table one that covers it.

## Main definitions

* `Table.named` — the identities and roles the names of a directory read as
* `Table.orphan`, `Table.complete`, `Table.replaced`, `Table.survives` — what those names say
  about one identity
* `Table.cleared` — a name startup removes
* `Table.strip`, `Table.Removes` — the volume left once some names of a directory are gone, and
  work that leaves it
* `Table.Startup` — the outcome startup owes a directory, dealing with identities in an order

## Main results

* `Table.openAllIn_of_orphan`, `Table.openAllIn_of_no_orphan` — what startup does, on every flat
  tree and in every order
* `Table.openAllIn_orderFree` — where every data file has its index, the order does not matter
* `Table.exists_survivor_covers` — every replaced table is covered by a table that is kept
* `Table.openAll_startup` — with canonical names, startup cleans and opens as owed
* `Table.openAll_keeps_strayIndex_and_stops_by_order` — a lone index spelled otherwise outlives
  startup, and where two data files lack their indexes the order decides where startup stops
-/

namespace LsmStore

open Volume

namespace TableId

/-- What a table file name read back is made of: a stem and the role's extension, the stem
the table prefix and then the numbers, one generation for a flushed table, or a base and a
generation joined at the first underscore, the base no greater, for a compacted one. -/
theorem parseFileName?_parts {name : String} {id : TableId} {role : FileRole}
    (h : parseFileName? name = some (id, role)) :
    ∃ stem, FileName.splitExtension? name = some (stem, role.extension) ∧
      namePrefix.toList.isPrefixOf stem.toList = true ∧
      ((FileName.splitFirst? '_' (stem.toList.drop namePrefix.toList.length) = none ∧
          ∃ g, FileName.parseNumber? (String.ofList (stem.toList.drop namePrefix.toList.length)) =
            some g ∧ id = .flushed g) ∨
        ∃ baseText genText b g,
          FileName.splitFirst? '_' (stem.toList.drop namePrefix.toList.length) =
            some (baseText, genText) ∧
          FileName.parseNumber? (String.ofList baseText) = some b ∧
          FileName.parseNumber? (String.ofList genText) = some g ∧ b ≤ g ∧ id = .compacted b g) := by
  unfold parseFileName? at h
  cases split : FileName.splitExtension? name with
  | none => simp only [split, Option.bind_eq_bind, Option.bind_none, reduceCtorEq] at h
  | some parts =>
    obtain ⟨stem, ext⟩ := parts
    simp only [split, Option.bind_eq_bind, Option.bind_some] at h
    -- the extension names the role: data, index, or no role at all
    obtain ⟨r, rfl⟩ : ∃ r : FileRole, ext = r.extension := by
      by_cases data : ext = "data"
      · exact ⟨.data, data⟩
      by_cases index : ext = "index"
      · exact ⟨.index, index⟩
      rw [if_neg data, if_neg index] at h
      cases h
    -- each role reads the stem alike
    cases r <;> simp only [FileRole.extension, String.reduceEq, if_true, if_false] at h
    all_goals
      -- a stem without the table prefix reads as nothing
      by_cases prefixed : namePrefix.toList.isPrefixOf stem.toList = true
      swap
      · rw [if_neg prefixed] at h
        cases h
      rw [if_pos prefixed] at h
      split at h
      · rename_i single
        obtain ⟨g, parsed, same⟩ := Option.bind_eq_some_iff.1 h
        simp only [pure, Option.some.injEq, Prod.mk.injEq] at same
        obtain ⟨rfl, rfl⟩ := same
        exact ⟨stem, rfl, prefixed, .inl ⟨single, g, parsed, rfl⟩⟩
      · rename_i baseText genText splitAt
        obtain ⟨b, parsedB, h⟩ := Option.bind_eq_some_iff.1 h
        obtain ⟨g, parsedG, h⟩ := Option.bind_eq_some_iff.1 h
        split_ifs at h with le
        simp only [pure, Option.some.injEq, Prod.mk.injEq] at h
        obtain ⟨rfl, rfl⟩ := h
        exact ⟨stem, rfl, prefixed, .inr ⟨baseText, genText, b, g, splitAt, parsedB, parsedG, le, rfl⟩⟩

theorem valid_of_parseFileName? {name : String} {id : TableId} {role : FileRole}
    (h : parseFileName? name = some (id, role)) : id.Valid := by
  obtain ⟨_, -, -, ⟨-, g, parsed, rfl⟩ | ⟨_, _, b, g, -, -, parsedG, le, rfl⟩⟩ :=
    parseFileName?_parts h
  · exact ⟨FileName.lt_of_parseNumber? parsed, Nat.le_refl g⟩
  · exact ⟨FileName.lt_of_parseNumber? parsedG, le⟩

/-- A temporary file's name is no table file name. -/
theorem parseFileName?_of_tmp {name : String} (h : FileName.extension? name = some "tmp") :
    parseFileName? name = none := by
  unfold FileName.extension? at h
  unfold parseFileName?
  split at h
  · rename_i stem ext split
    split_ifs at h
    cases h
    simp [split]
  · cases h

/-- Two identities that the recency order ties are a flushed table and the compaction of its
generation alone, and the compaction covers it. -/
theorem covers_of_tied {a b : TableId} (ne : a ≠ b) (ab : a.newestFirst b = true)
    (ba : b.newestFirst a = true) : a.covers b = true ∨ b.covers a = true := by
  simp only [newestFirst, Bool.or_eq_true, decide_eq_true_eq, Bool.and_eq_true] at ab ba
  have sameGen : a.generation = b.generation := by omega
  have sameBase : a.base = b.base := by omega
  simp only [covers, Bool.and_eq_true, bne_iff_ne, ne_eq, decide_eq_true_eq]
  cases a with
  | flushed g =>
    cases b with
    | flushed g' =>
      simp only [generation] at sameGen
      exact absurd (congrArg flushed sameGen) ne
    | compacted c g' =>
      simp only [generation, base] at sameGen sameBase
      right
      simp only [isCompacted, base, generation, reduceCtorEq, not_false_eq_true, and_true, true_and]
      omega
  | compacted c g =>
    cases b with
    | flushed g' =>
      simp only [generation, base] at sameGen sameBase
      left
      simp only [isCompacted, base, generation, reduceCtorEq, not_false_eq_true, and_true, true_and]
      omega
    | compacted c' g' =>
      simp only [generation, base] at sameGen sameBase
      exact absurd (by rw [sameGen, sameBase]) ne

/-- A compacted table is covered only by a strictly wider one. -/
theorem width_lt_of_covers {a b : TableId} (h : a.covers b = true) (hb : b.isCompacted = true) :
    (b.generation : ℤ) - b.base < (a.generation : ℤ) - a.base := by
  simp only [covers, Bool.and_eq_true, bne_iff_ne, ne_eq, decide_eq_true_eq] at h
  obtain ⟨⟨⟨kind, ne⟩, baseLe⟩, genLe⟩ := h
  cases a with
  | flushed g => cases kind
  | compacted c g =>
    cases b with
    | flushed g' => cases hb
    | compacted c' g' =>
      simp only [base, generation, compacted.injEq] at *
      omega

end TableId

namespace Table

open TableId

variable {v : Volume} {ds : List String} {fs : List FileLink} {d : String}

/-! ## Removing names from a directory -/

/-- The files of a tree left once the names `ns` are gone from its directory `d`. -/
def without (fs : List FileLink) (d : String) (ns : List String) : List FileLink :=
  fs.filter fun f => !(f.dir == d && ns.contains f.name)

@[simp] theorem mem_without {f : FileLink} {ns : List String} :
    f ∈ without fs d ns ↔ f ∈ fs ∧ (f.dir = d → f.name ∉ ns) := by
  simp [without, imp_iff_not_or]

theorem without_nil : without fs d [] = fs := by
  simp [without]

theorem without_without (ns ns' : List String) :
    without (without fs d ns) d ns' = without fs d (ns ++ ns') := by
  simp only [without, List.filter_filter, List.contains_append]
  congr 1
  funext f
  cases f.dir == d <;> simp [Bool.and_comm]

theorem without_singleton (n : String) : without fs d [n] = fs.filter (·.key != (d, n)) := by
  refine List.filter_congr fun f _ => ?_
  rw [Bool.eq_iff_iff]
  by_cases same : f.dir = d <;> simp [FileLink.key, same]

theorem without_eq_filter {ns : List String} {p : String → Bool}
    (same : ∀ f ∈ fs, f.dir = d → (f.name ∈ ns ↔ p f.name = true)) :
    without fs d ns = fs.filter fun f => !(f.dir == d && p f.name) := by
  refine List.filter_congr fun f hf => ?_
  by_cases inD : f.dir = d
  · simp [inD, same f hf inD]
  · simp [beq_false_of_ne inD]

/-- The volume left once the names `ns` of directory `d` are unbound, whether they are there or
not: only the links change. -/
def strip (v : Volume) (d : String) (ns : List String) : Volume :=
  { v with links := v.links.filter fun l => !ns.any fun n => l.1 == join d n }

@[simp] theorem inodes_strip (ns : List String) : (strip v d ns).inodes = v.inodes := rfl

@[simp] theorem contents_strip (ns : List String) (i : Nat) :
    (strip v d ns).contents i = v.contents i := rfl

theorem strip_nil : strip v d [] = v := by
  simp [strip]

theorem strip_singleton (n : String) : strip v d [n] = v.unbind (join d n) := by
  simp only [strip, Volume.unbind, List.any_cons, List.any_nil, Bool.or_false]
  rfl

theorem strip_strip (ns ns' : List String) : strip (strip v d ns) d ns' = strip v d (ns ++ ns') := by
  simp only [strip, List.filter_filter, List.any_append, Bool.not_or]
  congr 2
  funext l
  exact Bool.and_comm _ _

/-- Only which names go matters, not their order or how often each is listed. -/
theorem strip_congr {ns ns' : List String} (same : ∀ n, n ∈ ns ↔ n ∈ ns') :
    strip v d ns = strip v d ns' := by
  have any : ∀ l : String × Link,
      (ns.any fun n => l.1 == join d n) = ns'.any fun n => l.1 == join d n := fun l => by
    rw [Bool.eq_iff_iff]
    simp only [List.any_eq_true, same]
  simp only [strip, any]

/-- Unbinding names of a directory of the tree drops the files of those names. -/
theorem laid_strip (h : v.Laid ds fs) (hd : d ∈ ds) {ns : List String}
    (names : ∀ n ∈ ns, IsName n) : (strip v d ns).Laid ds (without fs d ns) := by
  induction ns generalizing v fs with
  | nil => rwa [strip_nil, without_nil]
  | cons n ns ih =>
    -- the first name goes by one unbinding, the others after it
    have first := h.unbind hd (names n List.mem_cons_self)
    rw [← List.singleton_append, ← strip_strip, ← without_without, strip_singleton,
      without_singleton]
    exact ih first fun m hm => names m (List.mem_cons_of_mem n hm)

/-- Work that removes the names `ns` from the directory `d` of every tree it runs on, whether
they are there or not, and changes nothing else. -/
def Removes (d : String) (ns : List String) (m : VolumeM Unit) : Prop :=
  ∀ {v : Volume} {ds : List String} {fs : List FileLink}, v.Laid ds fs → d ∈ ds →
    m.run.run v = (.ok (), strip v d ns) ∧ (strip v d ns).Laid ds (without fs d ns)

theorem removes_pure : Removes d [] (pure ()) := fun h _ => by
  rw [strip_nil, without_nil]
  exact ⟨rfl, h⟩

theorem removes_removeIfPresent {n : String} (hn : IsName n) :
    Removes d [n] (VolumeM.removeIfPresent (join d n)) := by
  intro v ds fs h hd
  obtain ⟨_, removed⟩ := h.removeIfExists_unbind hd hn
  rw [strip_singleton, without_singleton]
  exact ⟨VolumeM.removeIfPresent_run_ok removed, h.unbind hd hn⟩

theorem Removes.bind {ns ns' : List String} {m k : VolumeM Unit} (hm : Removes d ns m)
    (hk : Removes d ns' k) : Removes d (ns ++ ns') (m >>= fun _ => k) := by
  intro v ds fs h hd
  obtain ⟨run, laid⟩ := hm h hd
  obtain ⟨run', laid'⟩ := hk laid hd
  rw [strip_strip, without_without] at laid'
  rw [strip_strip] at run'
  refine ⟨?_, laid'⟩
  rw [VolumeM.run_bind, run]
  exact run'

theorem Removes.forM {α : Type} {l : List α} {f : α → VolumeM Unit} {names : α → List String}
    (each : ∀ x ∈ l, Removes d (names x) (f x)) : Removes d (l.flatMap names) (l.forM f) := by
  induction l with
  | nil => exact removes_pure
  | cons x xs ih =>
    rw [List.flatMap_cons]
    exact Removes.bind (each x List.mem_cons_self) (ih fun y hy => each y (List.mem_cons_of_mem x hy))

/-- Removing both files of each of some tables removes both their names. -/
theorem removes_tables {ids : List TableId} (valid : ∀ id ∈ ids, id.Valid) :
    Removes d (ids.flatMap fun id => [id.fileName .data] ++ [id.fileName .index])
      (ids.forM fun id => do
        VolumeM.removeIfPresent (join d (id.fileName .data))
        VolumeM.removeIfPresent (join d (id.fileName .index))) :=
  Removes.forM fun id hid =>
    Removes.bind (removes_removeIfPresent (fileName_isName (valid id hid) .data))
      (removes_removeIfPresent (fileName_isName (valid id hid) .index))

theorem mem_tableNames {ids : List TableId} {n : String} :
    n ∈ ids.flatMap (fun id => [id.fileName .data] ++ [id.fileName .index]) ↔
      ∃ id ∈ ids, ∃ role, n = id.fileName role := by
  rw [List.mem_flatMap]
  constructor
  · rintro ⟨id, hid, named⟩
    simp only [List.mem_append, List.mem_singleton] at named
    rcases named with named | named
    · exact ⟨id, hid, .data, named⟩
    · exact ⟨id, hid, .index, named⟩
  · rintro ⟨id, hid, role, named⟩
    refine ⟨id, hid, ?_⟩
    cases role <;> simp [named]

/-- Lifting answers into work on a volume answers as they do and changes nothing. -/
theorem mapM_lift_run_eq {α β : Type} (l : List α) (f : α → Except StoreError β) (v : Volume) :
    (l.mapM fun x => VolumeM.lift (f x)).run.run v = (l.mapM f, v) := by
  induction l with
  | nil => rfl
  | cons x xs ih =>
    rw [List.mapM_cons, List.mapM_cons]
    cases fx : f x with
    | error e => simp only [VolumeM.run_bind, VolumeM.lift_run]; rfl
    | ok y =>
      simp only [VolumeM.run_bind, VolumeM.lift_run, ih]
      cases xs.mapM f <;> rfl

/-! ## What the names of a directory say -/

/-- The identities and roles the file names of directory `d` read as, in any spelling the name
reader accepts. -/
def named (fs : List FileLink) (d : String) : List (TableId × FileRole) :=
  fs.filterMap fun f => if f.dir = d then parseFileName? f.name else none

/-- Some name of `d` reads as the `role` file of `id`. -/
def hasFile (fs : List FileLink) (d : String) (id : TableId) (role : FileRole) : Bool :=
  (named fs d).contains (id, role)

/-- A data file whose index never arrived. -/
def orphan (fs : List FileLink) (d : String) (id : TableId) : Bool :=
  hasFile fs d id .data && !hasFile fs d id .index

/-- Both files of the table are there. -/
def complete (fs : List FileLink) (d : String) (id : TableId) : Bool :=
  hasFile fs d id .data && hasFile fs d id .index

/-- A complete table that another complete table covers: a compaction already replaced it. -/
def replaced (fs : List FileLink) (d : String) (id : TableId) : Bool :=
  complete fs d id && (named fs d).any fun p => complete fs d p.1 && p.1.covers id

/-- A table startup keeps and opens. -/
def survives (fs : List FileLink) (d : String) (id : TableId) : Bool :=
  complete fs d id && !replaced fs d id

/-- The files of a table that startup removes: an index whose data never arrived, or a replaced
table. -/
def doomed (fs : List FileLink) (d : String) (id : TableId) : Bool :=
  !hasFile fs d id .data || replaced fs d id

/-- A name startup removes from `d`: a temporary file, or a file of a doomed table. -/
def cleared (fs : List FileLink) (d : String) (n : String) : Bool :=
  FileName.extension? n == some "tmp" || (parseFileName? n).any fun p => doomed fs d p.1

theorem mem_named {p : TableId × FileRole} :
    p ∈ named fs d ↔ ∃ f ∈ fs, f.dir = d ∧ parseFileName? f.name = some p := by
  simp only [named, List.mem_filterMap]
  constructor
  · rintro ⟨f, hf, read⟩
    by_cases same : f.dir = d
    · exact ⟨f, hf, same, by simpa [same] using read⟩
    · simp [same] at read
  · rintro ⟨f, hf, same, read⟩
    exact ⟨f, hf, by simpa [same] using read⟩

theorem hasFile_iff {id : TableId} {role : FileRole} :
    hasFile fs d id role = true ↔ (id, role) ∈ named fs d := by
  simp [hasFile]

theorem valid_of_hasFile {id : TableId} {role : FileRole} (h : hasFile fs d id role = true) :
    id.Valid := by
  obtain ⟨_, -, -, read⟩ := mem_named.1 (hasFile_iff.1 h)
  exact valid_of_parseFileName? read

theorem replaced_iff {id : TableId} :
    replaced fs d id = true ↔
      complete fs d id = true ∧ ∃ o, complete fs d o = true ∧ o.covers id = true := by
  simp only [replaced, Bool.and_eq_true, List.any_eq_true]
  constructor
  · rintro ⟨whole, ⟨o, role⟩, -, cover⟩
    exact ⟨whole, o, cover⟩
  · rintro ⟨whole, o, cover⟩
    refine ⟨whole, (o, .data), hasFile_iff.1 ?_, cover⟩
    simp only [complete, Bool.and_eq_true] at cover
    exact cover.1.1

/-- Every replaced table is covered by one that startup keeps: of the complete tables that
cover it, a widest one is covered by none. -/
theorem exists_survivor_covers {id : TableId} (hr : replaced fs d id = true) :
    ∃ s, survives fs d s = true ∧ s.covers id = true := by
  obtain ⟨-, o, whole, cover⟩ := replaced_iff.1 hr
  set covering := ((named fs d).map (·.1)).filter fun o => complete fs d o && o.covers id
  have mem_covering : ∀ o, o ∈ covering ↔ complete fs d o = true ∧ o.covers id = true := by
    intro o
    simp only [covering, List.mem_filter, List.mem_map, Bool.and_eq_true]
    constructor
    · exact fun found => found.2
    · intro both
      refine ⟨⟨(o, .data), hasFile_iff.1 ?_, rfl⟩, both⟩
      simp only [complete, Bool.and_eq_true] at both
      exact both.1.1
  let width : TableId → ℤ := fun t => (t.generation : ℤ) - t.base
  obtain ⟨s, widest⟩ : ∃ s, s ∈ covering.argmax width := by
    cases found : covering.argmax width with
    | none =>
      rw [List.argmax_eq_none] at found
      have := (mem_covering o).2 ⟨whole, cover⟩
      rw [found] at this
      cases this
    | some s => exact ⟨s, rfl⟩
  obtain ⟨sWhole, sCover⟩ := (mem_covering s).1 (List.argmax_mem widest)
  refine ⟨s, ?_, sCover⟩
  simp only [survives, sWhole, Bool.true_and, Bool.not_eq_eq_eq_not, Bool.not_true]
  rw [Bool.eq_false_iff]
  intro sReplaced
  obtain ⟨-, t, tWhole, tCover⟩ := replaced_iff.1 sReplaced
  -- `t` covers `s`, hence the table `s` covers, and is wider than `s`
  have ne : t ≠ id := by
    rintro rfl
    rw [covers_asymm sCover] at tCover
    cases tCover
  have tCoversId := covers_trans tCover sCover ne
  have sCompacted : s.isCompacted = true := by
    simp only [covers, Bool.and_eq_true] at sCover
    exact sCover.1.1.1
  have wider := width_lt_of_covers tCover sCompacted
  have notWider := List.le_of_mem_argmax ((mem_covering t).2 ⟨tWhole, tCoversId⟩) widest
  exact absurd notWider (not_le.2 wider)

/-- Two tables startup keeps are never tied in the recency order. -/
theorem newer_of_survives {a b : TableId} (ha : survives fs d a = true) (hb : survives fs d b = true)
    (ne : a ≠ b) (ab : a.newestFirst b = true) : Newer a b := by
  rw [newer_iff]
  refine ⟨ab, Bool.eq_false_iff.2 fun ba => ?_⟩
  simp only [survives, Bool.and_eq_true, Bool.not_eq_eq_eq_not, Bool.not_true] at ha hb
  rcases covers_of_tied ne ab ba with cover | cover
  · rw [replaced_iff.2 ⟨hb.1, a, ha.1, cover⟩] at hb
    cases hb.2
  · rw [replaced_iff.2 ⟨ha.1, b, hb.1, cover⟩] at ha
    cases ha.2

/-- Where no data file lacks its index, a table is complete exactly when its data file is
there. -/
theorem complete_eq_of_no_orphan (whole : ∀ id, orphan fs d id = false) (id : TableId) :
    complete fs d id = hasFile fs d id .data := by
  have noOrphan := whole id
  simp only [orphan, Bool.and_eq_false_iff, Bool.not_eq_false'] at noOrphan
  cases data : hasFile fs d id .data
  · simp only [complete, data, Bool.false_and]
  · simp only [complete, data, Bool.true_and]
    simpa [data] using noOrphan

/-- The names removed for lone indexes and for replaced tables are the names of doomed tables. -/
theorem doomed_name_iff {n : String} :
    ((∃ id, hasFile fs d id .index = true ∧ hasFile fs d id .data = false ∧
        n = id.fileName .index) ∨
      ∃ id, replaced fs d id = true ∧ ∃ role, n = id.fileName role) ↔
      ∃ id role, hasFile fs d id role = true ∧ doomed fs d id = true ∧ n = id.fileName role := by
  constructor
  · rintro (⟨id, hasIndex, noData, rfl⟩ | ⟨id, gone, role, rfl⟩)
    · exact ⟨id, .index, hasIndex, by simp [doomed, noData], rfl⟩
    · have both := (replaced_iff.1 gone).1
      simp only [complete, Bool.and_eq_true] at both
      refine ⟨id, role, ?_, by simp [doomed, gone], rfl⟩
      cases role
      · exact both.1
      · exact both.2
  · rintro ⟨id, role, has, doom, rfl⟩
    simp only [doomed, Bool.or_eq_true, Bool.not_eq_eq_eq_not, Bool.not_true] at doom
    rcases doom with noData | gone
    · -- a table named without its data file is named for its index
      cases role
      · rw [has] at noData
        cases noData
      · exact .inl ⟨id, has, noData, rfl⟩
    · exact .inr ⟨id, gone, role, rfl⟩

/-! ## Reading the names back -/

theorem mem_tmps (h : v.Laid ds fs) (hd : d ∈ ds) {f : FileLink} (hf : f ∈ fs) (same : f.dir = d) :
    f.name ∈ (v.names d).filter (FileName.extension? · == some "tmp") ↔
      FileName.extension? f.name = some "tmp" := by
  rw [List.mem_filter, beq_iff_eq]
  exact and_iff_right (h.mem_names_of_file hd hf same)

/-- What `discover` found in directory `d`: each identity named there once, with the roles it
is named for. -/
structure Found (fs : List FileLink) (d : String) (found : List (TableId × List FileRole)) : Prop where
  nodup : (found.map (·.1)).Nodup
  ids : ∀ id, id ∈ found.map (·.1) ↔ ∃ role, hasFile fs d id role = true
  roles : ∀ id rs, (id, rs) ∈ found → ∀ role, role ∈ rs ↔ hasFile fs d id role = true

/-- The names a directory of the tree lists, temporary ones left out, read as the names of its
files do. -/
theorem found_discover (h : v.Laid ds fs) (hd : d ∈ ds) :
    Found fs d (discover ((v.names d).filter (FileName.extension? · != some "tmp"))) := by
  have disc := discovered_discover ((v.names d).filter (FileName.extension? · != some "tmp"))
  have reads : ∀ p, (∃ n ∈ (v.names d).filter (FileName.extension? · != some "tmp"),
      parseFileName? n = some p) ↔ p ∈ named fs d := by
    intro p
    rw [mem_named]
    constructor
    · rintro ⟨n, hn, read⟩
      obtain ⟨f, hf, same, rfl⟩ := h.exists_file_of_mem_names hd (List.mem_filter.1 hn).1
      exact ⟨f, hf, same, read⟩
    · rintro ⟨f, hf, same, read⟩
      -- a name that reads as a table file is no temporary one
      have notTmp : (FileName.extension? f.name != some "tmp") = true := by
        rw [bne_iff_ne]
        intro tmp
        rw [parseFileName?_of_tmp tmp] at read
        cases read
      exact ⟨f.name, List.mem_filter.2 ⟨h.mem_names_of_file hd hf same, notTmp⟩, read⟩
  refine ⟨disc.nodup, fun id => ?_, fun id rs hx role => ?_⟩
  · rw [disc.ids id]
    constructor
    · rintro ⟨n, hn, role, read⟩
      exact ⟨role, hasFile_iff.2 ((reads _).1 ⟨n, hn, read⟩)⟩
    · rintro ⟨role, has⟩
      obtain ⟨n, hn, read⟩ := (reads _).2 (hasFile_iff.1 has)
      exact ⟨n, hn, role, read⟩
  · rw [disc.roles id rs hx role, reads, hasFile_iff]

/-- The index names startup removes while it deals with the identities `xs`: that of each one
found without its data file. -/
def loneNames (xs : List (TableId × List FileRole)) : List String :=
  xs.flatMap fun x => if x.2.contains .data then [] else [x.1.fileName .index]

theorem mem_loneNames {xs : List (TableId × List FileRole)} {n : String} :
    n ∈ loneNames xs ↔ ∃ x ∈ xs, FileRole.data ∉ x.2 ∧ n = x.1.fileName .index := by
  simp only [loneNames, List.mem_flatMap]
  refine exists_congr fun x => and_congr_right fun _ => ?_
  by_cases data : FileRole.data ∈ x.2 <;> simp [data]

theorem loneNames_isName {xs : List (TableId × List FileRole)} (valid : ∀ x ∈ xs, x.1.Valid) :
    ∀ n ∈ loneNames xs, IsName n := fun n hn => by
  obtain ⟨x, hx, -, rfl⟩ := mem_loneNames.1 hn
  exact fileName_isName (valid x hx) .index

section Found

variable {found : List (TableId × List FileRole)} (hf : Found fs d found)
include hf

theorem Found.contains {id : TableId} {rs : List FileRole} (hx : (id, rs) ∈ found)
    (role : FileRole) : rs.contains role = hasFile fs d id role := by
  rw [Bool.eq_iff_iff, List.contains_iff_mem]
  exact hf.roles id rs hx role

theorem Found.exists_of_hasFile {id : TableId} {role : FileRole} (has : hasFile fs d id role = true) :
    ∃ rs, (id, rs) ∈ found := by
  obtain ⟨⟨id', rs⟩, hx, same⟩ := List.mem_map.1 ((hf.ids id).2 ⟨role, has⟩)
  cases same
  exact ⟨rs, hx⟩

theorem Found.valid {x : TableId × List FileRole} (hx : x ∈ found) : x.1.Valid := by
  obtain ⟨role, has⟩ := (hf.ids x.1).1 (List.mem_map_of_mem hx)
  exact valid_of_hasFile has

/-- What was found is found in whatever order it is dealt with. -/
theorem Found.perm {found' : List (TableId × List FileRole)} (perm : found'.Perm found) :
    Found fs d found' where
  nodup := (perm.map _).nodup_iff.2 hf.nodup
  ids id := (perm.map _).mem_iff.trans (hf.ids id)
  roles id rs hx := hf.roles id rs (perm.subset hx)

/-- The identities found without a data file are those named for their index alone. -/
theorem Found.exists_lone_iff (q : TableId → Prop) :
    (∃ x ∈ found, FileRole.data ∉ x.2 ∧ q x.1) ↔
      ∃ id, hasFile fs d id .index = true ∧ hasFile fs d id .data = false ∧ q id := by
  constructor
  · rintro ⟨⟨id, rs⟩, hx, noData, holds⟩
    rw [hf.roles id rs hx] at noData
    -- the identity was named for some role, and it is not the data file
    obtain ⟨role, has⟩ := (hf.ids id).1 (List.mem_map_of_mem (f := (·.1)) hx)
    cases role
    · exact absurd has noData
    · exact ⟨id, has, Bool.eq_false_iff.2 noData, holds⟩
  · rintro ⟨id, hasIndex, noData, holds⟩
    obtain ⟨rs, hx⟩ := hf.exists_of_hasFile hasIndex
    refine ⟨(id, rs), hx, fun data => ?_, holds⟩
    rw [(hf.roles id rs hx .data).1 data] at noData
    cases noData

/-- The identities found with a data file. -/
theorem Found.mem_live (id : TableId) :
    id ∈ (found.filter fun x => x.2.contains .data).map (fun x => x.1) ↔
      hasFile fs d id .data = true := by
  simp only [List.mem_map, List.mem_filter]
  constructor
  · rintro ⟨⟨id', rs⟩, ⟨hx, data⟩, rfl⟩
    rwa [hf.contains hx] at data
  · intro has
    obtain ⟨rs, hx⟩ := hf.exists_of_hasFile has
    exact ⟨(id, rs), ⟨hx, by rwa [hf.contains hx]⟩, rfl⟩

theorem Found.live_nodup : ((found.filter fun x => x.2.contains .data).map (fun x => x.1)).Nodup :=
  hf.nodup.sublist ((List.filter_sublist).map _)

end Found

/-! ## Sorting newest first -/

/-- Sorting newest first lists every identity no later than those after it. -/
theorem sortNewestFirst_sorted (ids : List TableId) :
    (sortNewestFirst ids).Pairwise fun a b => a.newestFirst b = true := by
  unfold sortNewestFirst
  exact @List.pairwise_mergeSort _ TableId.newestFirst (fun _ _ _ => newestFirst_trans)
    newestFirst_total ids

theorem mem_sortNewestFirst {ids : List TableId} {id : TableId} :
    id ∈ sortNewestFirst ids ↔ id ∈ ids :=
  (List.mergeSort_perm _ _).mem_iff

theorem nodup_sortNewestFirst {ids : List TableId} (h : ids.Nodup) : (sortNewestFirst ids).Nodup :=
  (List.mergeSort_perm _ _).nodup_iff.2 h

/-! ## Dealing with the identities in a yield order -/

namespace YieldOrder

variable (order : YieldOrder)

theorem before_asymm {a b : TableId} (ab : order.before a b = true) : order.before b a = false :=
  Bool.eq_false_iff.2 fun ba => by
    have loop := order.trans a b a ab ba
    rw [order.irrefl] at loop
    cases loop

/-- The order read backwards. -/
def reverse : YieldOrder where
  before a b := order.before b a
  irrefl a := order.irrefl a
  trans a b c ab bc := order.trans c b a bc ab
  total a b ne := (order.total a b ne).symm

/-- The identities arranged in the order: none comes after one it goes before. -/
theorem arrange_sorted (found : List (TableId × List FileRole)) :
    (order.arrange found).Pairwise fun a b => order.before b.1 a.1 = false := by
  have sorted := @List.pairwise_mergeSort _
    (fun a b : TableId × List FileRole => !order.before b.1 a.1) ?trans ?total found
  case trans =>
    intro a b c ab bc
    simp only [Bool.not_eq_eq_eq_not, Bool.not_true] at ab bc ⊢
    rw [Bool.eq_false_iff]
    intro ca
    -- `c` goes before `a`, hence before `b`, wherever `a` and `b` stand
    by_cases same : a.1 = b.1
    · rw [same, bc] at ca
      cases ca
    · rcases order.total a.1 b.1 same with ab' | ba'
      · rw [order.trans c.1 a.1 b.1 ca ab'] at bc
        cases bc
      · rw [ba'] at ab
        cases ab
  case total =>
    intro a b
    cases ba : order.before b.1 a.1
    · simp
    · simp [order.before_asymm ba]
  simpa only [arrange, Bool.not_eq_eq_eq_not, Bool.not_true] using sorted

/-- Of the identities found, those dealt with before `x` are those the order puts before it. -/
theorem mem_front_iff {found pre post : List (TableId × List FileRole)}
    {x y : TableId × List FileRole} (ids : (found.map (·.1)).Nodup)
    (arranged : order.arrange found = pre ++ x :: post) (hy : y ∈ found) :
    y ∈ pre ↔ order.before y.1 x.1 = true := by
  have sorted := order.arrange_sorted found
  have perm : (pre ++ x :: post).Perm found := arranged ▸ List.mergeSort_perm _ _
  rw [arranged, List.pairwise_append, List.pairwise_cons] at sorted
  obtain ⟨-, ⟨afterX, -⟩, frontFirst⟩ := sorted
  have apart : ∀ z ∈ pre, z.1 ≠ x.1 := by
    have nodup := (perm.map (·.1)).nodup_iff.2 ids
    rw [List.map_append, List.nodup_append] at nodup
    exact fun z hz => nodup.2.2 _ (List.mem_map_of_mem hz) _
      (List.mem_map_of_mem List.mem_cons_self)
  constructor
  · intro front
    rcases order.total y.1 x.1 (apart y front) with yx | xy
    · exact yx
    · rw [frontFirst y front x List.mem_cons_self] at xy
      cases xy
  · intro yx
    rcases List.mem_append.1 (perm.symm.subset hy) with front | rest
    · exact front
    rcases List.mem_cons.1 rest with rfl | later
    · rw [order.irrefl] at yx
      cases yx
    · rw [afterX y later] at yx
      cases yx

/-- The order that ranks the identities `keys` by where they stand, before every other
identity, and the others newest first. -/
def ranked (keys : List TableId) : YieldOrder where
  before a b :=
    if a ∈ keys then (if b ∈ keys then decide (keys.idxOf a < keys.idxOf b) else true)
    else (if b ∈ keys then false else YieldOrder.newestFirst.before a b)
  irrefl a := by
    by_cases ha : a ∈ keys <;> simp [ha, YieldOrder.newestFirst.irrefl]
  trans a b c := by
    by_cases ha : a ∈ keys <;> by_cases hb : b ∈ keys <;> by_cases hc : c ∈ keys <;>
      simp [ha, hb, hc] <;> first | omega | exact YieldOrder.newestFirst.trans a b c
  total a b ne := by
    by_cases ha : a ∈ keys <;> by_cases hb : b ∈ keys <;> simp [ha, hb]
    · -- two ranked identities stand in different places
      have apart := (List.idxOf_inj ha).not.2 ne
      omega
    · exact YieldOrder.newestFirst.total a b ne

/-- Every order the identities found may come in, as a hash map may yield them, is the order
some yield order arranges them in. -/
theorem exists_arrange_eq {found found' : List (TableId × List FileRole)}
    (ids : (found.map (·.1)).Nodup) (perm : found'.Perm found) :
    ∃ order : YieldOrder, order.arrange found = found' := by
  have keys : (found'.map (·.1)).Nodup := (perm.map _).nodup_iff.2 ids
  refine ⟨ranked (found'.map (·.1)), List.Perm.eq_of_pairwise ?same
    ((ranked _).arrange_sorted found) ?sorted ((List.mergeSort_perm _ _).trans perm.symm)⟩
  case same =>
    intro a b ha hb ab ba
    -- neither goes before the other: they are one identity, found once
    have sameId : a.1 = b.1 := by
      by_contra ne
      rcases (ranked _).total a.1 b.1 ne with before | before
      · rw [before] at ba
        cases ba
      · rw [before] at ab
        cases ab
    exact List.inj_on_of_nodup_map ids ((List.mergeSort_perm _ _).subset ha) (perm.subset hb)
      sameId
  case sorted =>
    rw [List.pairwise_iff_getElem]
    intro i j hi hj earlier
    have mem : ∀ k (hk : k < found'.length), found'[k].1 ∈ found'.map (·.1) := fun k hk =>
      List.mem_map_of_mem (List.getElem_mem hk)
    have place : ∀ k (hk : k < found'.length), (found'.map (·.1)).idxOf found'[k].1 = k :=
      fun k hk => by
        have at_k := keys.idxOf_getElem k (by simpa using hk)
        rwa [List.getElem_map] at at_k
    simp only [ranked, mem i hi, mem j hj, if_true, place i hi, place j hj,
      decide_eq_false_iff_not, not_lt]
    omega

end YieldOrder

/-- Startup removes the index of a table it finds without its data file, and keeps nothing. -/
theorem sortOut_of_lone {x : TableId × List FileRole} (noData : FileRole.data ∉ x.2) :
    sortOut d x = VolumeM.removeIfPresent (join d (x.1.fileName .index)) >>= fun _ => pure none := by
  simp only [sortOut, List.contains_iff_mem, noData, ↓reduceIte]

/-- Startup stops on a table it finds with its data file and no index. -/
theorem sortOut_of_orphan {x : TableId × List FileRole} (data : FileRole.data ∈ x.2)
    (noIndex : FileRole.index ∉ x.2) : sortOut d x = throw (.table (.missingIndex x.1)) := by
  simp only [sortOut, List.contains_iff_mem, data, noIndex, ↓reduceIte]

/-- Dealing with identities none of which has a data file without its index removes the index
of each found without its data file and keeps, in order, those found with it; what comes after
runs on what is left. -/
theorem filterMapM_sortOut_append {pre rest : List (TableId × List FileRole)}
    (valid : ∀ x ∈ pre, x.1.Valid)
    (whole : ∀ x ∈ pre, FileRole.data ∈ x.2 → FileRole.index ∈ x.2)
    (h : v.Laid ds fs) (hd : d ∈ ds) :
    ((pre ++ rest).filterMapM (sortOut d)).run.run v =
      match (rest.filterMapM (sortOut d)).run.run (strip v d (loneNames pre)) with
      | (.ok ids, w) => (.ok ((pre.filter (·.2.contains .data)).map (·.1) ++ ids), w)
      | (.error e, w) => (.error e, w) := by
  induction pre generalizing v fs with
  | nil =>
    simp only [List.nil_append, loneNames, List.flatMap_nil, strip_nil, List.filter_nil,
      List.map_nil]
    rcases (rest.filterMapM (sortOut d)).run.run v with ⟨_ | _, _⟩ <;> rfl
  | cons x pre ih =>
    have valid' : ∀ y ∈ pre, y.1.Valid := fun y hy => valid y (List.mem_cons_of_mem x hy)
    have whole' := fun y hy => whole y (List.mem_cons_of_mem x hy)
    rw [List.cons_append, List.filterMapM_cons]
    by_cases data : FileRole.data ∈ x.2
    · -- both files are there: the identity is kept
      have index := whole x List.mem_cons_self data
      have names : loneNames (x :: pre) = loneNames pre := by
        simp [loneNames, data]
      rw [sortOut_of_complete data index, pure_bind, names,
        List.filter_cons_of_pos (p := fun y : TableId × List FileRole => y.2.contains .data) (List.contains_iff_mem.2 data)]
      simp only [VolumeM.run_bind, ih valid' whole' h]
      rcases (rest.filterMapM (sortOut d)).run.run (strip v d (loneNames pre)) with ⟨_ | _, _⟩ <;>
        rfl
    · -- the lone index goes, and nothing is kept
      obtain ⟨removed, laid⟩ := removes_removeIfPresent (d := d)
        (fileName_isName (valid x List.mem_cons_self) .index) h hd
      have names : loneNames (x :: pre) = [x.1.fileName .index] ++ loneNames pre := by
        simp [loneNames, data]
      rw [sortOut_of_lone data, names, ← strip_strip,
        List.filter_cons_of_neg (p := fun y : TableId × List FileRole => y.2.contains .data) (by simpa using data)]
      simp only [bind_assoc, pure_bind, VolumeM.run_bind, removed]
      exact ih valid' whole' laid

/-- Dealing with identities none of which has a data file without its index removes the index
of each found without its data file and keeps, in order, those found with it. -/
theorem filterMapM_sortOut_of_whole {xs : List (TableId × List FileRole)}
    (valid : ∀ x ∈ xs, x.1.Valid)
    (whole : ∀ x ∈ xs, FileRole.data ∈ x.2 → FileRole.index ∈ x.2)
    (h : v.Laid ds fs) (hd : d ∈ ds) :
    (xs.filterMapM (sortOut d)).run.run v =
      (.ok ((xs.filter (·.2.contains .data)).map (·.1)), strip v d (loneNames xs)) := by
  have run : ((xs ++ []).filterMapM (sortOut d)).run.run v = _ :=
    filterMapM_sortOut_append valid whole h hd
  rw [List.append_nil] at run
  rw [run]
  exact congrArg (fun ids => ((.ok ids : Except StoreError _), strip v d (loneNames xs)))
    (List.append_nil _)

/-- Dealing with identities stops at the first with a data file and no index, the indexes
without data files met before it removed. -/
theorem filterMapM_sortOut_of_orphan {pre post : List (TableId × List FileRole)}
    {o : TableId × List FileRole} (valid : ∀ x ∈ pre, x.1.Valid)
    (whole : ∀ x ∈ pre, FileRole.data ∈ x.2 → FileRole.index ∈ x.2)
    (data : FileRole.data ∈ o.2) (noIndex : FileRole.index ∉ o.2)
    (h : v.Laid ds fs) (hd : d ∈ ds) :
    ((pre ++ o :: post).filterMapM (sortOut d)).run.run v =
      (.error (.table (.missingIndex o.1)), strip v d (loneNames pre)) := by
  rw [filterMapM_sortOut_append valid whole h hd, List.filterMapM_cons,
    sortOut_of_orphan data noIndex]
  rfl

/-! ## What startup does -/

section Settle

variable {w : Volume} {fs' : List FileLink} {found : List (TableId × List FileRole)}

/-- Where every data file has its index, startup, whatever order it deals with the identities
found in, removes every index without its data file and both files of every replaced table,
each under its canonical name, and opens the tables that survive, newest first, on what is
left. -/
theorem settle_of_no_orphan (hw : w.Laid ds fs') (hd : d ∈ ds) (hf : Found fs d found)
    (whole : ∀ id, orphan fs d id = false) (order : YieldOrder) (backend : ReadBackend) :
    ∃ (kept : List TableId) (ns : List String),
      (settle order d backend found).run.run w =
        (kept.mapM fun id => Table.open (strip w d ns) d id backend, strip w d ns) ∧
      (∀ id, id ∈ kept ↔ survives fs d id = true) ∧ kept.Nodup ∧
      kept.Pairwise (fun a b => a.newestFirst b = true) ∧
      (∀ n, n ∈ ns ↔ ∃ id role, hasFile fs d id role = true ∧ doomed fs d id = true ∧
        n = id.fileName role) ∧
      (strip w d ns).Laid ds (without fs' d ns) := by
  set arranged := order.arrange found with harranged
  have ha : Found fs d arranged := hf.perm (List.mergeSort_perm _ _)
  set live := (arranged.filter fun x => x.2.contains .data).map fun x => x.1 with hlive
  set gone := live.filter (fun id => live.any fun x => x.covers id) with hgone
  have mem_live : ∀ id, id ∈ live ↔ complete fs d id = true := fun id => by
    rw [complete_eq_of_no_orphan whole, hlive, ha.mem_live]
  have mem_gone : ∀ id, id ∈ gone ↔ replaced fs d id = true := fun id => by
    rw [hgone, List.mem_filter, mem_live, List.any_eq_true, replaced_iff]
    simp only [mem_live]
  have valid : ∀ id ∈ live, id.Valid := fun id hid => by
    rw [mem_live, complete_eq_of_no_orphan whole] at hid
    exact valid_of_hasFile hid
  -- the indexes without data files go while the identities are dealt with, then both files of
  -- the replaced tables
  have whole' : ∀ x ∈ arranged, FileRole.data ∈ x.2 → FileRole.index ∈ x.2 := by
    intro x hx data
    rw [ha.roles x.1 x.2 hx] at data ⊢
    have noOrphan := whole x.1
    simpa [orphan, data] using noOrphan
  have dealt := filterMapM_sortOut_of_whole (fun x hx => ha.valid hx) whole' hw hd
  have lone := laid_strip hw hd (loneNames_isName fun x hx => ha.valid hx)
  obtain ⟨removed, laid⟩ := removes_tables (d := d)
    (fun id (hid : id ∈ gone) => valid id (List.mem_of_mem_filter hid)) lone hd
  refine ⟨sortNewestFirst (live.filter fun id => !gone.contains id),
    loneNames arranged ++ gone.flatMap (fun id => [id.fileName .data] ++ [id.fileName .index]),
    ?run, fun id => ?kept, ?nodup, sortNewestFirst_sorted _, fun n => ?names, ?laid⟩
  case run =>
    simp only [settle, VolumeM.run_bind]
    rw [← harranged, dealt]
    dsimp only
    rw [← hlive, ← hgone]
    simp only [removed, strip_strip, VolumeM.run_get, mapM_lift_run_eq]
  case kept =>
    have inGone : gone.contains id = replaced fs d id := by
      rw [Bool.eq_iff_iff, List.contains_iff_mem, mem_gone]
    rw [mem_sortNewestFirst, List.mem_filter, mem_live, inGone]
    simp only [survives, Bool.and_eq_true]
  case nodup => exact nodup_sortNewestFirst (ha.live_nodup.filter _)
  case names =>
    have replacedName :
        n ∈ gone.flatMap (fun id => [id.fileName .data] ++ [id.fileName .index]) ↔
        ∃ id, replaced fs d id = true ∧ ∃ role, n = id.fileName role := by
      simp only [mem_tableNames, mem_gone]
    rw [List.mem_append, mem_loneNames, ha.exists_lone_iff (fun id => n = id.fileName .index),
      replacedName, doomed_name_iff]
  case laid => rwa [strip_strip, without_without] at laid

/-- Where some data file has no index, startup stops on the first such table the order meets,
having removed the index without its data file of each table the order puts before it. -/
theorem settle_of_orphan (hw : w.Laid ds fs') (hd : d ∈ ds) (hf : Found fs d found) {o : TableId}
    (ho : orphan fs d o = true) (order : YieldOrder) (backend : ReadBackend) :
    ∃ (id : TableId) (ns : List String),
      (settle order d backend found).run.run w =
        (.error (.table (.missingIndex id)), strip w d ns) ∧
      orphan fs d id = true ∧ (∀ o', orphan fs d o' = true → order.before o' id = false) ∧
      (∀ n, n ∈ ns ↔ ∃ l, hasFile fs d l .index = true ∧ hasFile fs d l .data = false ∧
        order.before l id = true ∧ n = l.fileName .index) ∧
      (strip w d ns).Laid ds (without fs' d ns) := by
  set arranged := order.arrange found with harranged
  have perm : arranged.Perm found := List.mergeSort_perm _ _
  have ha : Found fs d arranged := hf.perm perm
  let isOrphan : TableId × List FileRole → Bool := fun x =>
    x.2.contains .data && !x.2.contains .index
  have isOrphan_iff : ∀ x ∈ arranged, isOrphan x = orphan fs d x.1 := fun x hx => by
    simp only [isOrphan, orphan, ha.contains hx]
  -- the orphan `o` is found, so the identities dealt with meet a first orphan
  obtain ⟨x, first⟩ : ∃ x, arranged.find? isOrphan = some x := by
    have hasData : hasFile fs d o .data = true := by
      simp only [orphan, Bool.and_eq_true] at ho
      exact ho.1
    obtain ⟨rs, hx⟩ := ha.exists_of_hasFile hasData
    cases met : arranged.find? isOrphan with
    | some x => exact ⟨x, rfl⟩
    | none =>
      have := List.find?_eq_none.1 met (o, rs) hx
      rw [isOrphan_iff _ hx, ho] at this
      exact absurd rfl this
  obtain ⟨orphaned, pre, post, split, earlier⟩ := List.find?_eq_some_iff_append.1 first
  have inPre : ∀ y ∈ pre, y ∈ arranged := fun y hy => split ▸ List.mem_append_left _ hy
  have hx : x ∈ arranged := split ▸ List.mem_append_right _ List.mem_cons_self
  have front : ∀ y ∈ arranged, y ∈ pre ↔ order.before y.1 x.1 = true := fun y hy =>
    order.mem_front_iff hf.nodup split (perm.subset hy)
  have whole : ∀ y ∈ pre, FileRole.data ∈ y.2 → FileRole.index ∈ y.2 := by
    intro y hy data
    have notOrphan : FileRole.data ∉ y.2 ∨ FileRole.index ∈ y.2 := by
      simpa [isOrphan] using earlier y hy
    exact notOrphan.resolve_left (not_not_intro data)
  obtain ⟨data, noIndex⟩ : FileRole.data ∈ x.2 ∧ FileRole.index ∉ x.2 := by
    simpa [isOrphan] using orphaned
  refine ⟨x.1, loneNames pre, ?run, by rw [← isOrphan_iff x hx]; exact orphaned,
    fun o' ho' => ?first, fun n => ?names,
    laid_strip hw hd (loneNames_isName fun y hy => ha.valid (inPre y hy))⟩
  case run =>
    simp only [settle, VolumeM.run_bind]
    rw [← harranged, split,
      filterMapM_sortOut_of_orphan (fun y hy => ha.valid (inPre y hy)) whole data noIndex hw hd]
  case first =>
    -- an orphan the order puts first would have been met first
    rw [Bool.eq_false_iff]
    intro sooner
    have hasData : hasFile fs d o' .data = true := by
      simp only [orphan, Bool.and_eq_true] at ho'
      exact ho'.1
    obtain ⟨rs, hy⟩ := ha.exists_of_hasFile hasData
    have notOrphan := earlier _ ((front _ hy).2 sooner)
    rw [isOrphan_iff _ hy, ho'] at notOrphan
    cases notOrphan
  case names =>
    rw [mem_loneNames,
      ← ha.exists_lone_iff (fun l => order.before l x.1 = true ∧ n = l.fileName .index)]
    constructor
    · rintro ⟨y, hy, noData, rfl⟩
      exact ⟨y, inPre y hy, noData, (front y (inPre y hy)).1 hy, rfl⟩
    · rintro ⟨y, hy, noData, sooner, rfl⟩
      exact ⟨y, (front y hy).2 sooner, noData, rfl⟩

end Settle

/-- Temporary files of a directory of the tree are removed, each under its own name. -/
theorem removes_tmp (h : v.Laid ds fs) (hd : d ∈ ds) :
    Removes d ((v.names d).filter (FileName.extension? · == some "tmp"))
      (((v.names d).filter (FileName.extension? · == some "tmp")).forM fun n =>
        VolumeM.removeIfPresent (join d n)) := by
  have each : Removes d (((v.names d).filter (FileName.extension? · == some "tmp")).flatMap
      fun n => [n]) (((v.names d).filter (FileName.extension? · == some "tmp")).forM fun n =>
        VolumeM.removeIfPresent (join d n)) := Removes.forM fun n hn => by
      obtain ⟨f, hf, -, rfl⟩ := h.exists_file_of_mem_names hd (List.mem_filter.1 hn).1
      exact removes_removeIfPresent (h.names f hf)
  rwa [List.flatMap_singleton'] at each

/-- Startup lists the directory, removes its temporary files and deals with its other names. -/
theorem openAllIn_run (h : v.Laid ds fs) (hd : d ∈ ds) (order : YieldOrder)
    (backend : ReadBackend) :
    (openAllIn order d backend).run.run v =
      (settle order d backend
        (discover ((v.names d).filter (FileName.extension? · != some "tmp")))).run.run
        (strip v d ((v.names d).filter (FileName.extension? · == some "tmp"))) := by
  simp only [openAllIn, VolumeM.run_bind,
    VolumeM.query_run_ok (f := fun x => x.children d) (h.children hd), VolumeM.run_get]
  rw [(List.filter_eq_self (l := v.names d)).2 ?isFile, (removes_tmp h hd h hd).1]
  case isFile =>
    intro n hn
    obtain ⟨f, hf, same, rfl⟩ := h.exists_file_of_mem_names hd hn
    rw [← same, h.find?_of_mem hf]

/-- Where some data file has no index, startup removes the temporary files and stops on the
first such table the order meets, having removed the index without its data file of each table
the order puts before it. -/
theorem openAllIn_of_orphan (h : v.Laid ds fs) (hd : d ∈ ds) {o : TableId}
    (ho : orphan fs d o = true) (order : YieldOrder) (backend : ReadBackend) :
    ∃ (id : TableId) (ns : List String),
      (openAllIn order d backend).run.run v = (.error (.table (.missingIndex id)), strip v d ns) ∧
      orphan fs d id = true ∧ (∀ o', orphan fs d o' = true → order.before o' id = false) ∧
      (∀ n, n ∈ ns ↔ n ∈ (v.names d).filter (FileName.extension? · == some "tmp") ∨
        ∃ l, hasFile fs d l .index = true ∧ hasFile fs d l .data = false ∧
          order.before l id = true ∧ n = l.fileName .index) ∧
      (strip v d ns).Laid ds (without fs d ns) := by
  obtain ⟨-, cleaned⟩ := removes_tmp h hd h hd
  obtain ⟨id, ns, run, orphaned, first, names, laid⟩ :=
    settle_of_orphan cleaned hd (found_discover h hd) ho order backend
  refine ⟨id, (v.names d).filter (FileName.extension? · == some "tmp") ++ ns, ?_, orphaned, first,
    fun n => by rw [List.mem_append, names], ?_⟩
  · rw [openAllIn_run h hd, run, strip_strip]
  · rwa [strip_strip, without_without] at laid

/-- Where every data file has its index, startup removes the temporary files, every index
without its data file and both files of every replaced table, each under its canonical name,
and opens the tables that survive, newest first, on what is left. -/
theorem openAllIn_of_no_orphan (h : v.Laid ds fs) (hd : d ∈ ds)
    (whole : ∀ id, orphan fs d id = false) (order : YieldOrder) (backend : ReadBackend) :
    ∃ (kept : List TableId) (ns : List String),
      (openAllIn order d backend).run.run v =
        (kept.mapM fun id => Table.open (strip v d ns) d id backend, strip v d ns) ∧
      (∀ id, id ∈ kept ↔ survives fs d id = true) ∧ kept.Nodup ∧
      kept.Pairwise (fun a b => a.newestFirst b = true) ∧
      (∀ n, n ∈ ns ↔ n ∈ (v.names d).filter (FileName.extension? · == some "tmp") ∨
        ∃ id role, hasFile fs d id role = true ∧ doomed fs d id = true ∧ n = id.fileName role) ∧
      (strip v d ns).Laid ds (without fs d ns) := by
  obtain ⟨-, cleaned⟩ := removes_tmp h hd h hd
  obtain ⟨kept, ns, run, members, nodup, sorted, names, laid⟩ :=
    settle_of_no_orphan cleaned hd (found_discover h hd) whole order backend
  refine ⟨kept, (v.names d).filter (FileName.extension? · == some "tmp") ++ ns, ?_, members, nodup,
    sorted, fun n => by rw [List.mem_append, names], ?_⟩
  · rw [openAllIn_run h hd, run, strip_strip]
  · rwa [strip_strip, without_without] at laid

/-- Where every data file has its index, startup answers and leaves the volume alike whatever
order it deals with the identities found in. -/
theorem openAllIn_orderFree (h : v.Laid ds fs) (hd : d ∈ ds)
    (whole : ∀ id, orphan fs d id = false) (order order' : YieldOrder) (backend : ReadBackend) :
    (openAllIn order' d backend).run.run v = (openAllIn order d backend).run.run v := by
  obtain ⟨kept, ns, run, members, nodup, sorted, names, -⟩ :=
    openAllIn_of_no_orphan h hd whole order backend
  obtain ⟨kept', ns', run', members', nodup', sorted', names', -⟩ :=
    openAllIn_of_no_orphan h hd whole order' backend
  -- the same names go, and the same tables open, sorted alike as no two of them are tied
  have sameNames : strip v d ns' = strip v d ns := strip_congr fun n => by rw [names', names]
  have sameKept : kept' = kept := by
    refine List.Perm.eq_of_pairwise (fun a b ha hb ab ba => ?_) sorted' sorted
      ((List.perm_ext_iff_of_nodup nodup' nodup).2 fun id => by rw [members', members])
    by_contra ne
    have newer := newer_of_survives ((members' a).1 ha) ((members b).1 hb) ne ab
    rw [((newer_iff a b).1 newer).2] at ba
    cases ba
  rw [run', run, sameNames, sameKept]

/-! ## What startup owes a directory -/

/-- Every table file of directory `d` carries the canonical name of the identity and role it
reads as. -/
def Canonical (fs : List FileLink) (d : String) : Prop :=
  ∀ f ∈ fs, f.dir = d → ∀ id role, parseFileName? f.name = some (id, role) →
    f.name = id.fileName role

/-- A directory whose files the store named itself, table files and their temporary names, has
canonical names. -/
theorem canonical_of_written (written : ∀ f ∈ fs, f.dir = d → ∃ (id : TableId) (role : FileRole),
    id.Valid ∧ (f.name = id.fileName role ∨ f.name = id.fileName role ++ ".tmp")) :
    Canonical fs d := by
  intro f hf same id role read
  obtain ⟨id', role', valid, named | named⟩ := written f hf same
  · rw [named, parseFileName?_fileName valid, Option.some.injEq, Prod.mk.injEq] at read
    obtain ⟨rfl, rfl⟩ := read
    exact named
  · rw [named, parseFileName?_tmp] at read
    cases read

/-- Under canonical names, a file bears the canonical name of a doomed table exactly when its
own name reads as one. -/
theorem doomed_named_iff (canonical : Canonical fs d) {f : FileLink} (hf : f ∈ fs)
    (same : f.dir = d) :
    (∃ id role, hasFile fs d id role = true ∧ doomed fs d id = true ∧ f.name = id.fileName role) ↔
      ((parseFileName? f.name).any fun p => doomed fs d p.1) = true := by
  constructor
  · rintro ⟨id, role, has, doom, named⟩
    rw [named, parseFileName?_fileName (valid_of_hasFile has) role]
    exact doom
  · intro doom
    cases read : parseFileName? f.name with
    | none => simp [read] at doom
    | some p =>
      obtain ⟨id, role⟩ := p
      rw [read] at doom
      exact ⟨id, role, hasFile_iff.2 (mem_named.2 ⟨f, hf, same, read⟩), doom,
        canonical f hf same id role read⟩

/-- Under canonical names, a file bears the index name of a table without its data file that
`q` holds of exactly when its own name reads as such a table's. -/
theorem lone_named_iff (canonical : Canonical fs d) {f : FileLink} (hf : f ∈ fs)
    (same : f.dir = d) (q : TableId → Bool) :
    (∃ l, hasFile fs d l .index = true ∧ hasFile fs d l .data = false ∧ q l = true ∧
        f.name = l.fileName .index) ↔
      ((parseFileName? f.name).any fun p => !hasFile fs d p.1 .data && q p.1) = true := by
  constructor
  · rintro ⟨l, has, noData, holds, named⟩
    rw [named, parseFileName?_fileName (valid_of_hasFile has) .index]
    simp [noData, holds]
  · intro lone
    cases read : parseFileName? f.name with
    | none => simp [read] at lone
    | some p =>
      obtain ⟨l, role⟩ := p
      rw [read] at lone
      simp only [Option.any_some, Bool.and_eq_true, Bool.not_eq_eq_eq_not, Bool.not_true] at lone
      have has := hasFile_iff.2 (mem_named.2 ⟨f, hf, same, read⟩)
      -- a name read as a table without its data file is that table's index
      cases role
      · rw [has] at lone
        cases lone.1
      · exact ⟨l, has, lone.1, lone.2, canonical f hf same l .index read⟩

/-- The outcome startup owes a directory `d` of a tree `fs` when it deals with the identities
found in `order`: the answer, and the volume after. Where some data file lacks its index,
startup fails naming such a table, one the order puts no other such before, and has removed the
temporary files and the index of each table without its data file that the order puts before
it. Otherwise it has removed exactly the cleared names, opens the tables that survive, strictly
newest first, and keeps for every replaced table one that covers it. -/
structure Startup (v : Volume) (ds : List String) (fs : List FileLink) (d : String)
    (order : YieldOrder) (backend : ReadBackend)
    (outcome : Except StoreError (List Table) × Volume) : Prop where
  inodes : outcome.2.inodes = v.inodes
  refused : ∀ o, orphan fs d o = true → ∃ id, outcome.1 = .error (.table (.missingIndex id)) ∧
    orphan fs d id = true ∧ (∀ o', orphan fs d o' = true → order.before o' id = false) ∧
    outcome.2.Laid ds (fs.filter fun f => !(f.dir == d &&
      (FileName.extension? f.name == some "tmp" ||
        (parseFileName? f.name).any fun p => !hasFile fs d p.1 .data && order.before p.1 id)))
  opened : (∀ o, orphan fs d o = false) → ∃ kept : List TableId,
    (∀ id, id ∈ kept ↔ survives fs d id = true) ∧ kept.Pairwise Newer ∧
    (∀ id, replaced fs d id = true → ∃ k ∈ kept, k.covers id = true) ∧
    outcome.1 = kept.mapM (fun id => Table.open outcome.2 d id backend) ∧
    outcome.2.Laid ds (fs.filter fun f => !(f.dir == d && cleared fs d f.name))

/-- Where every table file of the table directory carries its canonical name, startup owes the
directory what it does, in whatever order it deals with the identities found: it removes the
temporary files; it fails on a data file without its index, the first the order meets, having
removed the indexes without data files met before it; and otherwise it removes the indexes
without data files and the replaced tables and opens the rest, strictly newest first, alike in
every order. -/
theorem openAll_startup (h : v.Laid ds fs) (hd : d ∈ ds) (canonical : Canonical fs d)
    (order : YieldOrder) (backend : ReadBackend) :
    Startup v ds fs d order backend ((openAllIn order d backend).run.run v) ∧
      ((∀ o, orphan fs d o = false) → ∀ order' : YieldOrder,
        (openAllIn order' d backend).run.run v = (openAllIn order d backend).run.run v) := by
  refine ⟨?_, fun whole order' => openAllIn_orderFree h hd whole order order' backend⟩
  by_cases whole : ∀ o, orphan fs d o = false
  · obtain ⟨kept, ns, run, members, nodup, sorted, names, laid⟩ :=
      openAllIn_of_no_orphan h hd whole order backend
    rw [run]
    refine ⟨rfl, fun o ho => absurd ho (by rw [whole o]; decide), fun _ => ⟨kept, members, ?_, ?_,
      rfl, ?_⟩⟩
    · -- listed no later, and never tied: strictly newer
      exact (sorted.and nodup).imp_of_mem fun ha hb ⟨ab, ne⟩ =>
        newer_of_survives ((members _).1 ha) ((members _).1 hb) ne ab
    · intro id gone
      obtain ⟨s, survivor, cover⟩ := exists_survivor_covers gone
      exact ⟨s, (members s).2 survivor, cover⟩
    · rwa [without_eq_filter (p := cleared fs d) fun f hf same => by
        rw [names, mem_tmps h hd hf same, doomed_named_iff canonical hf same]
        simp [cleared]] at laid
  · obtain ⟨o, ho⟩ := not_forall.1 whole
    rw [Bool.not_eq_false] at ho
    obtain ⟨id, ns, run, orphaned, first, names, laid⟩ := openAllIn_of_orphan h hd ho order backend
    rw [run]
    refine ⟨rfl, fun _ _ => ⟨id, rfl, orphaned, first, ?_⟩,
      fun noOrphan => absurd (noOrphan o) (by rw [ho]; decide)⟩
    rwa [without_eq_filter (p := fun n => FileName.extension? n == some "tmp" ||
        (parseFileName? n).any fun p => !hasFile fs d p.1 .data && order.before p.1 id)
      fun f hf same => by
        rw [names, mem_tmps h hd hf same, lone_named_iff canonical hf same]
        simp] at laid

/-- A table directory left by a crash: table 1 and the compaction of generations 1 to 2, each
with both files, the index of table 3 without its data file, and the temporary data file of
table 4. -/
def crashedShelf : Volume :=
  (((((((({} : Volume).bind tableDir .dir).create (join tableDir ((TableId.flushed 1).fileName .data))
    [1]).create (join tableDir ((TableId.flushed 1).fileName .index)) []).create
    (join tableDir ((TableId.compacted 1 2).fileName .data)) [2]).create
    (join tableDir ((TableId.compacted 1 2).fileName .index)) []).create
    (join tableDir ((TableId.flushed 3).fileName .index)) []).create
    (join tableDir ((TableId.flushed 4).fileName .data ++ ".tmp")) [4])

/-- The files of `crashedShelf`, newest first. -/
def crashedFiles : List FileLink :=
  [⟨tableDir, (TableId.flushed 4).fileName .data ++ ".tmp", 5⟩,
    ⟨tableDir, (TableId.flushed 3).fileName .index, 4⟩,
    ⟨tableDir, (TableId.compacted 1 2).fileName .index, 3⟩,
    ⟨tableDir, (TableId.compacted 1 2).fileName .data, 2⟩,
    ⟨tableDir, (TableId.flushed 1).fileName .index, 1⟩,
    ⟨tableDir, (TableId.flushed 1).fileName .data, 0⟩]

theorem openAll_startup_crashedShelf :
    crashedShelf.Laid [tableDir] crashedFiles ∧ tableDir ∈ [tableDir] ∧
      Canonical crashedFiles tableDir ∧
      (Startup crashedShelf [tableDir] crashedFiles tableDir .newestFirst .mapped
          ((openAllIn .newestFirst tableDir .mapped).run.run crashedShelf) ∧
        ((∀ o, orphan crashedFiles tableDir o = false) → ∀ order' : YieldOrder,
          (openAllIn order' tableDir .mapped).run.run crashedShelf =
            (openAllIn .newestFirst tableDir .mapped).run.run crashedShelf)) := by
  have one : (TableId.flushed 1).Valid := by unfold TableId.Valid; decide
  have range : (TableId.compacted 1 2).Valid := by unfold TableId.Valid; decide
  have three : (TableId.flushed 3).Valid := by unfold TableId.Valid; decide
  have four : (TableId.flushed 4).Valid := by unfold TableId.Valid; decide
  have top : tableDir ∈ [tableDir] := List.mem_cons_self
  have laid : crashedShelf.Laid [tableDir] crashedFiles :=
    ((((((laid_empty.bind_dir tableDir_isName List.not_mem_nil).create top
      (fileName_isName one .data) (by decide) [1]).create top (fileName_isName one .index)
      (by decide) []).create top (fileName_isName range .data) (by decide) [2]).create top
      (fileName_isName range .index) (by decide) []).create top (fileName_isName three .index)
      (by decide) []).create top (tmp_isName four .data) (by decide) [4]
  have canonical : Canonical crashedFiles tableDir := canonical_of_written fun f hf _ => by
    simp only [crashedFiles, List.mem_cons, List.not_mem_nil, or_false] at hf
    rcases hf with rfl | rfl | rfl | rfl | rfl | rfl
    · exact ⟨_, _, four, .inr rfl⟩
    · exact ⟨_, _, three, .inl rfl⟩
    · exact ⟨_, _, range, .inl rfl⟩
    · exact ⟨_, _, range, .inl rfl⟩
    · exact ⟨_, _, one, .inl rfl⟩
    · exact ⟨_, _, one, .inl rfl⟩
  exact ⟨laid, top, canonical, openAll_startup laid top canonical .newestFirst .mapped⟩

/-- A table directory holding one index file, named `sstable_1.index` rather than
`sstable_000001.index`, and no data file. -/
def strayIndex : Volume :=
  (({} : Volume).bind tableDir .dir).create (join tableDir "sstable_1.index") []

/-- A table directory holding the data files of tables 1 and 2 without their indexes, and the
index of table 3 without its data file. -/
def orphanShelf : Volume :=
  (((({} : Volume).bind tableDir .dir).create (join tableDir ((TableId.flushed 1).fileName .data))
    [1]).create (join tableDir ((TableId.flushed 2).fileName .data)) [2]).create
    (join tableDir ((TableId.flushed 3).fileName .index)) []

/-- The files of `orphanShelf`, newest first. -/
def orphanFiles : List FileLink :=
  [⟨tableDir, (TableId.flushed 3).fileName .index, 2⟩,
    ⟨tableDir, (TableId.flushed 2).fileName .data, 1⟩,
    ⟨tableDir, (TableId.flushed 1).fileName .data, 0⟩]

theorem orphanShelf_laid : orphanShelf.Laid [tableDir] orphanFiles := by
  have one : (TableId.flushed 1).Valid := by unfold TableId.Valid; decide
  have two : (TableId.flushed 2).Valid := by unfold TableId.Valid; decide
  have three : (TableId.flushed 3).Valid := by unfold TableId.Valid; decide
  have top : tableDir ∈ [tableDir] := List.mem_cons_self
  exact (((laid_empty.bind_dir tableDir_isName List.not_mem_nil).create top
    (fileName_isName one .data) (by decide) [1]).create top (fileName_isName two .data)
    (by decide) [2]).create top (fileName_isName three .index) (by decide) []

/-- What the names of `orphanShelf` say: tables 1 and 2 lack their indexes, table 3 its data. -/
theorem named_orphanFiles :
    named orphanFiles tableDir = [(.flushed 3, .index), (.flushed 2, .data), (.flushed 1, .data)] := by
  have one : (TableId.flushed 1).Valid := by unfold TableId.Valid; decide
  have two : (TableId.flushed 2).Valid := by unfold TableId.Valid; decide
  have three : (TableId.flushed 3).Valid := by unfold TableId.Valid; decide
  simp [named, orphanFiles, parseFileName?_fileName one, parseFileName?_fileName two,
    parseFileName?_fileName three]

theorem orphan_orphanFiles_iff (id : TableId) :
    orphan orphanFiles tableDir id = true ↔ id = .flushed 2 ∨ id = .flushed 1 := by
  simp only [orphan, hasFile, named_orphanFiles]
  cases id with
  | flushed g =>
    simp
    omega
  | compacted b g => simp

/-- A lone index spelled otherwise outlives startup: startup reads `sstable_1.index` as the index
of table 1, whose data file is missing, and removes `sstable_000001.index`, which is not there. -/
theorem strayIndex_outlives_startup :
    ∃ w, (openAll tableDir .mapped).run.run strayIndex = (.ok [], w) ∧
      w.find? (join tableDir "sstable_1.index") = some (.file []) := by
  have stray : IsName "sstable_1.index" :=
    IsName.of_toList (by decide) (by decide) (by decide) (by decide)
  have laid : strayIndex.Laid [tableDir] [⟨tableDir, "sstable_1.index", 0⟩] :=
    (laid_empty.bind_dir tableDir_isName List.not_mem_nil).create List.mem_cons_self stray
      (fun _ member => absurd member List.not_mem_nil) []
  have read : named [⟨tableDir, "sstable_1.index", 0⟩] tableDir = [(.flushed 1, .index)] := by
    decide
  have whole : ∀ id, orphan [⟨tableDir, "sstable_1.index", 0⟩] tableDir id = false := fun id => by
    simp [orphan, hasFile, read]
  obtain ⟨kept, ns, run, members, -, -, names, laid'⟩ :=
    openAllIn_of_no_orphan laid List.mem_cons_self whole .newestFirst .mapped
  -- no table has its data file, so none is kept
  have none : kept = [] := List.eq_nil_iff_forall_not_mem.2 fun id kept => by
    have := (members id).1 kept
    simp [survives, complete, hasFile, read] at this
  -- the stray name is neither temporary nor the canonical name of a table it names
  have stays : "sstable_1.index" ∉ ns := by
    rw [names]
    rintro (tmp | ⟨id, role, has, -, named⟩)
    · exact absurd (List.mem_filter.1 tmp).2 (by decide)
    · rw [hasFile_iff, read, List.mem_singleton, Prod.mk.injEq] at has
      obtain ⟨rfl, rfl⟩ := has
      exact absurd named (by decide)
  have kept' : (⟨tableDir, "sstable_1.index", 0⟩ : FileLink) ∈
      without [⟨tableDir, "sstable_1.index", 0⟩] tableDir ns :=
    mem_without.2 ⟨List.mem_cons_self, fun _ => stays⟩
  refine ⟨_, by rw [openAll, run, none]; rfl, ?_⟩
  rw [laid'.find?_of_mem kept', contents_strip]
  rfl

/-- Dealing with the newest first, startup stops on table 2 of `orphanShelf`, newer than
table 1, having removed the index of table 3, newer still. -/
theorem orphanShelf_newestFirst :
    ∃ w, (openAll tableDir .mapped).run.run orphanShelf =
        (.error (.table (.missingIndex (.flushed 2))), w) ∧
      w.find? (join tableDir ((TableId.flushed 3).fileName .index)) = none := by
  have three : (TableId.flushed 3).Valid := by unfold TableId.Valid; decide
  obtain ⟨id, ns, run, orphaned, first, names, laid⟩ :=
    openAllIn_of_orphan orphanShelf_laid List.mem_cons_self
      ((orphan_orphanFiles_iff (.flushed 1)).2 (.inr rfl)) .newestFirst .mapped
  have two : id = .flushed 2 := by
    rcases (orphan_orphanFiles_iff id).1 orphaned with rfl | rfl
    · rfl
    · have := first (.flushed 2) ((orphan_orphanFiles_iff _).2 (.inl rfl))
      exact absurd this (by decide)
  subst two
  have gone : (TableId.flushed 3).fileName .index ∈ ns :=
    (names _).2 (.inr ⟨.flushed 3, by simp [hasFile, named_orphanFiles],
      by simp [hasFile, named_orphanFiles], by decide, rfl⟩)
  refine ⟨_, by rw [openAll, run], laid.find?_of_absent List.mem_cons_self
    (fileName_isName three .index) fun f hf same => ?_⟩
  obtain ⟨-, kept⟩ := mem_without.1 hf
  simp only [FileLink.key, Prod.mk.injEq] at same
  exact kept same.1 (same.2 ▸ gone)

/-- Dealing with the oldest first, startup stops on table 1 of `orphanShelf` and leaves the
index of table 3, which comes after it. -/
theorem orphanShelf_oldestFirst :
    ∃ w, (openAllIn YieldOrder.newestFirst.reverse tableDir .mapped).run.run orphanShelf =
        (.error (.table (.missingIndex (.flushed 1))), w) ∧
      w.find? (join tableDir ((TableId.flushed 3).fileName .index)) = some (.file []) := by
  have three : (TableId.flushed 3).Valid := by unfold TableId.Valid; decide
  obtain ⟨id, ns, run, orphaned, first, names, laid⟩ :=
    openAllIn_of_orphan orphanShelf_laid List.mem_cons_self
      ((orphan_orphanFiles_iff (.flushed 1)).2 (.inr rfl)) YieldOrder.newestFirst.reverse .mapped
  have one : id = .flushed 1 := by
    rcases (orphan_orphanFiles_iff id).1 orphaned with rfl | rfl
    · have := first (.flushed 1) ((orphan_orphanFiles_iff _).2 (.inr rfl))
      exact absurd this (by decide)
    · rfl
  subst one
  have stays : (TableId.flushed 3).fileName .index ∉ ns := by
    rw [names]
    rintro (tmp | ⟨l, has, -, sooner, named⟩)
    · have notTmp := (List.mem_filter.1 tmp).2
      rw [extension?_fileName] at notTmp
      exact absurd notTmp (by decide)
    · -- the name is table 3's index and no other's
      have same : l = .flushed 3 := by
        have read := parseFileName?_fileName (valid_of_hasFile has) .index
        rw [← named, parseFileName?_fileName three] at read
        simp only [Option.some.injEq, Prod.mk.injEq] at read
        exact read.1.symm
      subst same
      exact absurd sooner (by decide)
  have kept : (⟨tableDir, (TableId.flushed 3).fileName .index, 2⟩ : FileLink) ∈
      without orphanFiles tableDir ns :=
    mem_without.2 ⟨List.mem_cons_self, fun _ => stays⟩
  refine ⟨_, run, ?_⟩
  rw [laid.find?_of_mem kept, contents_strip]
  rfl

/-- Startup neither cleans what a name spelled otherwise stands for nor stops alike in every
order: a lone index named `sstable_1.index` outlives it, and where tables 1 and 2 lack their
indexes and table 3 its data file, dealing with the newest first it stops on table 2 with the
index of table 3 removed, and dealing with the oldest first on table 1 with that index left. -/
theorem openAll_keeps_strayIndex_and_stops_by_order :
    (parseFileName? "sstable_1.index" = some (.flushed 1, .index) ∧
      ∃ w, (openAll tableDir .mapped).run.run strayIndex = (.ok [], w) ∧
        w.find? (join tableDir "sstable_1.index") = some (.file [])) ∧
    (∃ w, (openAll tableDir .mapped).run.run orphanShelf =
        (.error (.table (.missingIndex (.flushed 2))), w) ∧
      w.find? (join tableDir ((TableId.flushed 3).fileName .index)) = none) ∧
    ∃ w, (openAllIn YieldOrder.newestFirst.reverse tableDir .mapped).run.run orphanShelf =
        (.error (.table (.missingIndex (.flushed 1))), w) ∧
      w.find? (join tableDir ((TableId.flushed 3).fileName .index)) = some (.file []) :=
  ⟨⟨by decide, strayIndex_outlives_startup⟩, orphanShelf_newestFirst, orphanShelf_oldestFirst⟩

end Table

end LsmStore
