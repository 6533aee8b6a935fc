import Mathlib
import LsmStore.Proofs.Volume.Paths

/-!
# Volumes laid out as directories of files

The store keeps a flat tree: a few directories at the top of the volume and files directly
inside them. Such a volume is described by the list of its directories and the list of its files,
each file with its directory, its name and its inode. The description fixes every answer the
volume gives about those paths: what a path is bound to, what a directory lists, what a file
holds. Each operation on a path of the tree changes the description in one place: a new file
is added with a fresh inode, a removed one is dropped, a renamed one moves its inode to the new
name, and writing to a file changes only the contents of its inode.

The order of the links inside the volume is not part of the description: the volume's links
are a permutation of the described ones.

## Main definitions

* `Volume.FileLink` — a file of the tree: directory, name, inode
* `Volume.layout` — the links of a described tree
* `Volume.Laid` — a volume that a description describes

## Main results

* `Laid.lookup_dir`, `Laid.lookup_path`, `Laid.lookup_join_eq_none` — what a path is bound to
* `Laid.names_perm` — what a directory lists
* `Laid.create`, `Laid.unbind`, `Laid.rename`, `Laid.setContents` — how operations change the
  description
* `Laid.removeTree`, `Laid.createDirAll_of_not_mem` — removing a directory with its files, and
  making it again
-/

namespace LsmStore

namespace Volume

/-- A file of a volume's tree: its directory, its name there, and its inode. -/
structure FileLink where
  dir : String
  name : String
  inode : Nat
deriving DecidableEq, Repr

namespace FileLink

/-- The path of the file. -/
def path (f : FileLink) : String := join f.dir f.name

/-- What tells the file apart from every other one: its directory and its name. -/
def key (f : FileLink) : String × String := (f.dir, f.name)

/-- The link of the file. -/
def link (f : FileLink) : String × Link := (f.path, .file f.inode)

end FileLink

/-- The links of a tree with the directories `ds` at the top and the files `fs` inside them. -/
def layout (ds : List String) (fs : List FileLink) : List (String × Link) :=
  ds.map (fun d => (d, Link.dir)) ++ fs.map FileLink.link

/-- A volume whose links are those of directories `ds` at the top and files `fs` inside them,
every directory and file name a component, no directory or file twice, and each file with an
inode of its own below the next fresh one. -/
structure Laid (v : Volume) (ds : List String) (fs : List FileLink) : Prop where
  perm : v.links.Perm (layout ds fs)
  dirs : ∀ d ∈ ds, IsName d
  dirsNodup : ds.Nodup
  inDir : ∀ f ∈ fs, f.dir ∈ ds
  names : ∀ f ∈ fs, IsName f.name
  keysNodup : (fs.map FileLink.key).Nodup
  inodesNodup : (fs.map FileLink.inode).Nodup
  fresh : ∀ f ∈ fs, f.inode < v.nextInode

/-! ## Lookups in a list of links with distinct paths -/

section Lookup

variable {xs : List (String × Link)} {p : String} {l : Link}

/-- In links with distinct paths, a path finds the link it is bound to. -/
theorem find?_map_eq_some_iff (keys : (xs.map (·.1)).Nodup) :
    (xs.find? (·.1 == p)).map (·.2) = some l ↔ (p, l) ∈ xs := by
  constructor
  · intro found
    obtain ⟨x, hx, rfl⟩ := Option.map_eq_some_iff.mp found
    have same : x.1 = p := by simpa using List.find?_some hx
    rw [← same]
    exact List.mem_of_find?_eq_some hx
  · intro mem
    have found : (xs.find? (·.1 == p)).isSome = true := List.find?_isSome.mpr ⟨(p, l), mem, by simp⟩
    cases hx : xs.find? (·.1 == p) with
    | none => rw [hx] at found; cases found
    | some x =>
      have same : x.1 = p := by simpa using List.find?_some hx
      have eq : x = (p, l) :=
        List.inj_on_of_nodup_map keys (List.mem_of_find?_eq_some hx) mem same
      rw [eq]
      rfl

/-- In links with distinct paths, a path bound to nothing finds nothing. -/
theorem find?_map_eq_none_iff :
    (xs.find? (·.1 == p)).map (·.2) = none ↔ ∀ l, (p, l) ∉ xs := by
  simp only [Option.map_eq_none_iff, List.find?_eq_none, beq_iff_eq]
  constructor
  · intro none l mem
    exact none _ mem rfl
  · intro none x mem same
    exact none x.2 (by rw [← same]; exact mem)

end Lookup

/-! ## What a laid-out volume answers -/

section Queries

variable {v : Volume} {ds : List String} {fs : List FileLink}

theorem Laid.file_path_ne_dir (h : v.Laid ds fs) {f : FileLink} (hf : f ∈ fs) {d : String}
    (hd : d ∈ ds) : f.path ≠ d :=
  join_ne_of_isName (h.dirs _ (h.inDir f hf)) (h.dirs d hd)

/-- No two files of the tree share an inode. -/
theorem Laid.inode_inj (h : v.Laid ds fs) {f g : FileLink} (hf : f ∈ fs) (hg : g ∈ fs)
    (same : f.inode = g.inode) : f = g :=
  List.inj_on_of_nodup_map h.inodesNodup hf hg same

theorem Laid.path_inj (h : v.Laid ds fs) {f g : FileLink} (hf : f ∈ fs) (hg : g ∈ fs) :
    f.path = g.path ↔ f.key = g.key := by
  rw [FileLink.path, FileLink.path, join_inj (h.dirs _ (h.inDir f hf)) (h.names f hf)
    (h.dirs _ (h.inDir g hg)) (h.names g hg)]
  simp [FileLink.key]

/-- The paths of a described tree are distinct. -/
theorem Laid.layout_keys_nodup (h : v.Laid ds fs) : ((layout ds fs).map (·.1)).Nodup := by
  simp only [layout, List.map_append, List.map_map]
  rw [List.nodup_append]
  refine ⟨?_, ?_, ?_⟩
  · simpa [Function.comp_def] using h.dirsNodup
  · refine List.Nodup.map_on ?_ (List.Nodup.of_map _ h.keysNodup)
    intro f hf g hg same
    exact List.inj_on_of_nodup_map h.keysNodup hf hg ((h.path_inj hf hg).mp same)
  · simp only [List.mem_map, Function.comp_apply]
    rintro _ ⟨d, hd, rfl⟩ _ ⟨f, hf, rfl⟩ same
    exact h.file_path_ne_dir hf hd same.symm

theorem Laid.keys_nodup (h : v.Laid ds fs) : (v.links.map (·.1)).Nodup :=
  ((h.perm.map _).nodup_iff).mpr h.layout_keys_nodup

/-- What a non-root path is bound to is read off the described links. -/
theorem Laid.lookup_eq_some_iff (h : v.Laid ds fs) {p : String} (hp : p ≠ "") {l : Link} :
    v.lookup p = some l ↔ (p, l) ∈ layout ds fs := by
  have ne : p.isEmpty = false := by simp [hp]
  simp only [lookup, ne, Bool.false_eq_true, if_false]
  rw [find?_map_eq_some_iff h.keys_nodup, h.perm.mem_iff]

theorem Laid.lookup_eq_none_iff (h : v.Laid ds fs) {p : String} (hp : p ≠ "") :
    v.lookup p = none ↔ ∀ l, (p, l) ∉ layout ds fs := by
  have ne : p.isEmpty = false := by simp [hp]
  simp only [lookup, ne, Bool.false_eq_true, if_false]
  rw [find?_map_eq_none_iff]
  simp only [h.perm.mem_iff]

/-- A directory of the tree is a directory. -/
theorem Laid.lookup_dir (h : v.Laid ds fs) {d : String} (hd : d ∈ ds) : v.lookup d = some .dir :=
  (h.lookup_eq_some_iff (h.dirs d hd).ne_empty).mpr (List.mem_append_left _ (by simpa using hd))

/-- The paths bound to a directory are the directories of the tree. -/
theorem Laid.lookup_eq_dir_iff (h : v.Laid ds fs) {d : String} (hd : IsName d) :
    v.lookup d = some .dir ↔ d ∈ ds := by
  rw [h.lookup_eq_some_iff hd.ne_empty]
  simp [layout, FileLink.link]

/-- A file of the tree is bound to its inode. -/
theorem Laid.lookup_path (h : v.Laid ds fs) {f : FileLink} (hf : f ∈ fs) :
    v.lookup f.path = some (.file f.inode) := by
  have ne : f.path ≠ "" := by
    intro empty
    have := @toList_join f.dir f.name (h.dirs _ (h.inDir f hf)).ne_empty
    rw [← FileLink.path, empty] at this
    simp at this
  exact (h.lookup_eq_some_iff ne).mpr (List.mem_append_right _ (List.mem_map_of_mem hf))

/-- A joined path that names no file of the tree is bound to nothing. -/
theorem Laid.lookup_join_eq_none (h : v.Laid ds fs) {d n : String} (hd : d ∈ ds) (hn : IsName n)
    (absent : ∀ f ∈ fs, f.key ≠ (d, n)) : v.lookup (join d n) = none := by
  have ne : join d n ≠ "" := by
    intro empty
    have := @toList_join d n (h.dirs d hd).ne_empty
    rw [empty] at this
    simp at this
  rw [h.lookup_eq_none_iff ne]
  intro l mem
  simp only [layout, List.mem_append, List.mem_map] at mem
  rcases mem with ⟨d', hd', same⟩ | ⟨f, hf, same⟩
  · simp only [Prod.mk.injEq] at same
    exact join_ne_of_isName (h.dirs d hd) (h.dirs d' hd') same.1.symm
  · simp only [FileLink.link, Prod.mk.injEq] at same
    apply absent f hf
    have := (join_inj (h.dirs _ (h.inDir f hf)) (h.names f hf) (h.dirs d hd) hn).mp same.1
    simp [FileLink.key, this.1, this.2]

/-- A directory of the tree lists the names of its files. -/
theorem Laid.names_perm (h : v.Laid ds fs) {d : String} (hd : d ∈ ds) :
    (v.names d).Perm (fs.filterMap fun f => if f.dir = d then some f.name else none) := by
  unfold Volume.names
  refine (h.perm.filterMap _).trans (List.Perm.of_eq ?_)
  simp only [layout, List.filterMap_append, List.filterMap_map]
  -- the directories themselves lie in no directory, so only files are listed
  have noDirs : ds.filterMap (fun d' : String => if within d d' = true then
      (if '/' ∈ (relative d d').toList then none else some (relative d d')) else none) = [] := by
    rw [List.filterMap_eq_nil_iff]
    intro d' hd'
    simp [within_of_isName (h.dirs d hd) (h.dirs d' hd')]
  simp only [Function.comp_def, FileLink.link, noDirs, List.nil_append]
  refine List.filterMap_congr fun f hf => ?_
  simp only [FileLink.path, within_join (h.dirs _ (h.inDir f hf)) (h.dirs d hd)]
  by_cases same : f.dir = d
  · subst same
    simp [relative_join (h.dirs _ (h.inDir f hf)), (h.names f hf).no_slash]
  · simp [same, Ne.symm same]

/-- Every name a directory of the tree lists is the name of one of its files. -/
theorem Laid.exists_file_of_mem_names (h : v.Laid ds fs) {d : String} (hd : d ∈ ds) {n : String}
    (hn : n ∈ v.names d) : ∃ f ∈ fs, f.dir = d ∧ f.name = n := by
  obtain ⟨f, hf, listed⟩ := List.mem_filterMap.1 ((h.names_perm hd).mem_iff.1 hn)
  by_cases same : f.dir = d
  · simp only [same, if_true, Option.some.injEq] at listed
    exact ⟨f, hf, same, listed⟩
  · simp [same] at listed

/-- A directory of the tree lists the name of each of its files. -/
theorem Laid.mem_names_of_file (h : v.Laid ds fs) {d : String} (hd : d ∈ ds) {f : FileLink}
    (hf : f ∈ fs) (same : f.dir = d) : f.name ∈ v.names d :=
  (h.names_perm hd).mem_iff.2 (List.mem_filterMap.2 ⟨f, hf, by simp [same]⟩)

end Queries

/-! ## Contents of inodes -/

section Contents

variable (v : Volume)

@[simp] theorem contents_setContents (i : Nat) (bs : Bytes) (j : Nat) :
    (v.setContents i bs).contents j = if j = i then bs else v.contents j := by
  unfold contents setContents
  by_cases same : j = i
  · subst same
    simp
  · have skip : ((v.inodes.filter (·.1 != i)).find? (·.1 == j)) = v.inodes.find? (·.1 == j) := by
      rw [List.find?_filter]
      congr 1
      funext x
      by_cases hx : x.1 = j
      · simp [hx, same]
      · simp [hx]
    simp [same, Ne.symm same, skip]

/-- A positioned write at the end of a file appends to it. -/
theorem contents_writeAt_length (i : Nat) (bs : Bytes) (j : Nat) :
    (v.writeAt i (v.contents i).length bs).contents j =
      if j = i then v.contents i ++ bs else v.contents j := by
  unfold writeAt
  by_cases empty : bs.isEmpty
  · have : bs = [] := List.isEmpty_iff.mp empty
    subst this
    simp only [List.isEmpty_nil, if_true, List.append_nil]
    split <;> simp_all
  · simp only [empty, Bool.false_eq_true, if_false, if_true, contents_setContents]

/-- A positioned write changes no other inode. -/
theorem contents_writeAt_of_ne {i j : Nat} (off : Nat) (bs : Bytes) (other : j ≠ i) :
    (v.writeAt i off bs).contents j = v.contents j := by
  unfold writeAt
  dsimp only
  split
  · rfl
  · split <;> simp [other]

/-- Cutting a file keeps its first bytes. -/
theorem contents_resize_of_le (i len : Nat) (short : len ≤ (v.contents i).length) (j : Nat) :
    (v.resize i len).contents j = if j = i then (v.contents i).take len else v.contents j := by
  simp only [resize, contents_setContents, Nat.sub_eq_zero_of_le short, List.replicate_zero,
    List.append_nil]

@[simp] theorem links_setContents (i : Nat) (bs : Bytes) : (v.setContents i bs).links = v.links := rfl

@[simp] theorem nextInode_setContents (i : Nat) (bs : Bytes) :
    (v.setContents i bs).nextInode = v.nextInode := rfl

@[simp] theorem links_writeAt (i off : Nat) (bs : Bytes) : (v.writeAt i off bs).links = v.links := by
  unfold writeAt
  dsimp only
  split
  · rfl
  · split <;> rfl

@[simp] theorem nextInode_writeAt (i off : Nat) (bs : Bytes) :
    (v.writeAt i off bs).nextInode = v.nextInode := by
  unfold writeAt
  dsimp only
  split
  · rfl
  · split <;> rfl

@[simp] theorem links_resize (i len : Nat) : (v.resize i len).links = v.links := rfl

@[simp] theorem nextInode_resize (i len : Nat) : (v.resize i len).nextInode = v.nextInode := rfl

@[simp] theorem contents_bind (p : String) (l : Link) (j : Nat) :
    (v.bind p l).contents j = v.contents j := rfl

@[simp] theorem nextInode_bind (p : String) (l : Link) : (v.bind p l).nextInode = v.nextInode := rfl

@[simp] theorem contents_unbind (p : String) (j : Nat) : (v.unbind p).contents j = v.contents j := rfl

@[simp] theorem nextInode_unbind (p : String) : (v.unbind p).nextInode = v.nextInode := rfl

@[simp] theorem contents_create (p : String) (bs : Bytes) (j : Nat) :
    (v.create p bs).contents j = if j = v.nextInode then bs else v.contents j := by
  simp only [create, contents_setContents]
  rfl

@[simp] theorem nextInode_create (p : String) (bs : Bytes) :
    (v.create p bs).nextInode = v.nextInode + 1 := rfl

end Contents

/-! ## How operations change a laid-out volume -/

section Updates

variable {v : Volume} {ds : List String} {fs : List FileLink}

/-- A volume whose links are those of a tree, with the same next fresh inode, is laid out
as that tree. -/
theorem Laid.of_links {w : Volume} (h : v.Laid ds fs) (links : w.links = v.links)
    (next : v.nextInode ≤ w.nextInode) : w.Laid ds fs where
  perm := links ▸ h.perm
  dirs := h.dirs
  dirsNodup := h.dirsNodup
  inDir := h.inDir
  names := h.names
  keysNodup := h.keysNodup
  inodesNodup := h.inodesNodup
  fresh := fun f hf => Nat.lt_of_lt_of_le (h.fresh f hf) next

theorem Laid.setContents (h : v.Laid ds fs) (i : Nat) (bs : Bytes) : (v.setContents i bs).Laid ds fs :=
  h.of_links rfl (Nat.le_refl _)

theorem Laid.writeAt (h : v.Laid ds fs) (i off : Nat) (bs : Bytes) : (v.writeAt i off bs).Laid ds fs :=
  h.of_links (links_writeAt v i off bs) (Nat.le_of_eq (nextInode_writeAt v i off bs).symm)

theorem Laid.resize (h : v.Laid ds fs) (i len : Nat) : (v.resize i len).Laid ds fs :=
  h.of_links rfl (Nat.le_refl _)

/-- The empty volume is the tree of nothing. -/
theorem laid_empty : ({} : Volume).Laid [] [] where
  perm := List.Perm.refl _
  dirs := by simp
  dirsNodup := List.nodup_nil
  inDir := by simp
  names := by simp
  keysNodup := List.nodup_nil
  inodesNodup := List.nodup_nil
  fresh := by simp

/-- Dropping the links of one path of the tree drops that file from the description. -/
theorem Laid.layout_filter (h : v.Laid ds fs) {d n : String} (hd : d ∈ ds) (hn : IsName n) :
    (layout ds fs).filter (·.1 != join d n) = layout ds (fs.filter (·.key != (d, n))) := by
  -- no directory is the path, and a file is the path exactly when it has that key
  have dirsKept : ds.filter ((·.1 != join d n) ∘ fun d' => (d', Link.dir)) = ds := by
    rw [List.filter_eq_self]
    intro d' hd'
    simpa using (join_ne_of_isName (h.dirs d hd) (h.dirs d' hd')).symm
  have filesKept : fs.filter ((·.1 != join d n) ∘ FileLink.link) = fs.filter (·.key != (d, n)) := by
    refine List.filter_congr fun f hf => ?_
    have same := join_inj (h.dirs _ (h.inDir f hf)) (h.names f hf) (h.dirs d hd) hn
    simp only [Function.comp_apply, FileLink.link, FileLink.path, FileLink.key]
    rw [Bool.eq_iff_iff]
    simp only [bne_iff_ne, ne_eq, same, Prod.mk.injEq]
  simp only [layout, List.filter_append, List.filter_map, dirsKept, filesKept]

/-- Binding a path of the tree to an inode that no other file of the tree uses makes that file
the only one of its name. -/
theorem Laid.bind_file (h : v.Laid ds fs) {d n : String} (hd : d ∈ ds) (hn : IsName n) {i : Nat}
    (hi : i < v.nextInode) (unused : ∀ f ∈ fs, f.key ≠ (d, n) → f.inode ≠ i) :
    (v.bind (join d n) (.file i)).Laid ds (⟨d, n, i⟩ :: fs.filter (·.key != (d, n))) where
  perm := by
    simp only [bind]
    refine ((h.perm.filter _).cons _).trans ?_
    rw [h.layout_filter hd hn]
    simp only [layout, List.map_cons]
    exact List.perm_middle.symm
  dirs := h.dirs
  dirsNodup := h.dirsNodup
  inDir := by
    intro f hf
    rcases List.mem_cons.mp hf with rfl | hf
    · exact hd
    · exact h.inDir f (List.mem_of_mem_filter hf)
  names := by
    intro f hf
    rcases List.mem_cons.mp hf with rfl | hf
    · exact hn
    · exact h.names f (List.mem_of_mem_filter hf)
  keysNodup := by
    simp only [List.map_cons]
    refine List.Nodup.cons ?_ (h.keysNodup.sublist (List.Sublist.map _ List.filter_sublist))
    simp only [List.mem_map, List.mem_filter, not_exists, not_and]
    intro f ⟨_, kept⟩ same
    rw [same] at kept
    simp [FileLink.key] at kept
  inodesNodup := by
    simp only [List.map_cons]
    refine List.Nodup.cons ?_ ((h.inodesNodup.sublist (List.Sublist.map _ List.filter_sublist)))
    simp only [List.mem_map, List.mem_filter, not_exists, not_and]
    intro f ⟨hf, kept⟩ same
    exact unused f hf (by simpa using kept) same
  fresh := by
    intro f hf
    rcases List.mem_cons.mp hf with rfl | hf
    · exact hi
    · exact h.fresh f (List.mem_of_mem_filter hf)

/-- Removing the link of a path of the tree drops the file of that name, if there is one. -/
theorem Laid.unbind (h : v.Laid ds fs) {d n : String} (hd : d ∈ ds) (hn : IsName n) :
    (v.unbind (join d n)).Laid ds (fs.filter (·.key != (d, n))) where
  perm := by
    simp only [Volume.unbind]
    rw [← h.layout_filter hd hn]
    exact h.perm.filter _
  dirs := h.dirs
  dirsNodup := h.dirsNodup
  inDir := fun f hf => h.inDir f (List.mem_of_mem_filter hf)
  names := fun f hf => h.names f (List.mem_of_mem_filter hf)
  keysNodup := h.keysNodup.sublist (List.Sublist.map _ List.filter_sublist)
  inodesNodup := h.inodesNodup.sublist (List.Sublist.map _ List.filter_sublist)
  fresh := fun f hf => h.fresh f (List.mem_of_mem_filter hf)

/-- Dropping the files of a name that no file has drops nothing. -/
theorem filter_key_ne_of_absent {k : String × String} (absent : ∀ f ∈ fs, f.key ≠ k) :
    fs.filter (·.key != k) = fs := by
  rw [List.filter_eq_self]
  intro f hf
  simpa using absent f hf

/-- A new file of the tree gets the next fresh inode. -/
theorem Laid.create (h : v.Laid ds fs) {d n : String} (hd : d ∈ ds) (hn : IsName n)
    (absent : ∀ f ∈ fs, f.key ≠ (d, n)) (bs : Bytes) :
    (v.create (join d n) bs).Laid ds (⟨d, n, v.nextInode⟩ :: fs) := by
  have kept := filter_key_ne_of_absent absent
  have bumped : ({ v with nextInode := v.nextInode + 1 } : Volume).Laid ds fs :=
    h.of_links rfl (Nat.le_succ _)
  have bound := bumped.bind_file hd hn (Nat.lt_succ_self v.nextInode)
    (fun f hf _ same => Nat.lt_irrefl _ (same ▸ h.fresh f hf))
  rw [kept] at bound
  exact bound.setContents v.nextInode bs

/-- Renaming a file of the tree moves its inode to the new name, replacing any file there. -/
theorem Laid.rename (h : v.Laid ds fs) {d n d' n' : String} {i : Nat} (hf : ⟨d, n, i⟩ ∈ fs)
    (hd' : d' ∈ ds) (hn' : IsName n') :
    ((v.unbind (join d n)).bind (join d' n') (.file i)).Laid ds
      (⟨d', n', i⟩ :: (fs.filter (·.key != (d, n))).filter (·.key != (d', n'))) := by
  apply (h.unbind (h.inDir _ hf) (h.names _ hf)).bind_file hd' hn' (h.fresh _ hf)
  -- the inode was the renamed file's alone, and that file is gone
  intro f kept _ same
  obtain ⟨hf', other⟩ := List.mem_filter.1 kept
  have := h.inode_inj hf' hf same
  subst this
  simp [FileLink.key] at other

/-- A new directory at the top of the tree holds no file yet. -/
theorem Laid.bind_dir (h : v.Laid ds fs) {d : String} (hd : IsName d) (fresh : d ∉ ds) :
    (v.bind d .dir).Laid (d :: ds) fs where
  perm := by
    have absent : v.links.filter (·.1 != d) = v.links := by
      rw [List.filter_eq_self]
      intro x hx
      have inLayout := h.perm.mem_iff.mp hx
      simp only [layout, List.mem_append, List.mem_map] at inLayout
      rcases inLayout with ⟨d', hd', rfl⟩ | ⟨f, hf, rfl⟩
      · simpa using fun same : d' = d => fresh (same ▸ hd')
      · simpa [FileLink.link, FileLink.path] using join_ne_of_isName (h.dirs _ (h.inDir f hf)) hd
    simp only [bind, absent, layout, List.map_cons, List.cons_append]
    exact h.perm.cons _
  dirs := by
    intro d' hd'
    rcases List.mem_cons.mp hd' with rfl | hd'
    · exact hd
    · exact h.dirs d' hd'
  dirsNodup := h.dirsNodup.cons fresh
  inDir := fun f hf => List.mem_cons_of_mem _ (h.inDir f hf)
  names := h.names
  keysNodup := h.keysNodup
  inodesNodup := h.inodesNodup
  fresh := h.fresh

end Updates

/-! ## Operations at paths of the tree -/

section Operations

variable {v : Volume} {ds : List String} {fs : List FileLink} {d n : String} {i : Nat}

theorem Laid.resolve_join (h : v.Laid ds fs) (hd : d ∈ ds) (hn : IsName n) :
    v.resolve (join d n) = .ok (join d n) :=
  Volume.resolve_join v (h.dirs d hd) hn (h.lookup_dir hd)

theorem Laid.lookup_of_mem (h : v.Laid ds fs) (hf : ⟨d, n, i⟩ ∈ fs) :
    v.lookup (join d n) = some (.file i) :=
  h.lookup_path hf

/-- The files of the tree, read as a function from keys: absent keys are bound to nothing. -/
theorem Laid.absent_of_not_mem (h : v.Laid ds fs) (hd : d ∈ ds) (hn : IsName n)
    (absent : ∀ f ∈ fs, f.key ≠ (d, n)) : v.lookup (join d n) = none :=
  h.lookup_join_eq_none hd hn absent

theorem Laid.touch_of_mem (h : v.Laid ds fs) (hf : ⟨d, n, i⟩ ∈ fs) :
    v.touch (join d n) = .ok (i, v) := by
  simp only [touch, h.resolve_join (h.inDir _ hf) (h.names _ hf), Bind.bind, Except.bind,
    h.lookup_of_mem hf]

theorem Laid.touch_of_absent (h : v.Laid ds fs) (hd : d ∈ ds) (hn : IsName n)
    (absent : ∀ f ∈ fs, f.key ≠ (d, n)) :
    v.touch (join d n) = .ok (v.nextInode, v.create (join d n) []) := by
  simp only [touch, h.resolve_join hd hn, Bind.bind, Except.bind, h.absent_of_not_mem hd hn absent]

theorem Laid.write_of_mem (h : v.Laid ds fs) (hf : ⟨d, n, i⟩ ∈ fs) (bs : Bytes) :
    v.write (join d n) bs = .ok (v.setContents i bs) := by
  simp only [write, h.touch_of_mem hf, Bind.bind, Except.bind]
  rfl

theorem Laid.write_of_absent (h : v.Laid ds fs) (hd : d ∈ ds) (hn : IsName n)
    (absent : ∀ f ∈ fs, f.key ≠ (d, n)) (bs : Bytes) :
    v.write (join d n) bs = .ok ((v.create (join d n) []).setContents v.nextInode bs) := by
  simp only [write, h.touch_of_absent hd hn absent, Bind.bind, Except.bind]
  rfl

theorem Laid.read_of_mem (h : v.Laid ds fs) (hf : ⟨d, n, i⟩ ∈ fs) :
    v.read (join d n) = .ok (v.contents i) := by
  simp only [read, h.resolve_join (h.inDir _ hf) (h.names _ hf), Bind.bind, Except.bind,
    h.lookup_of_mem hf]

theorem Laid.read_of_absent (h : v.Laid ds fs) (hd : d ∈ ds) (hn : IsName n)
    (absent : ∀ f ∈ fs, f.key ≠ (d, n)) : v.read (join d n) = .error .notFound := by
  simp only [read, h.resolve_join hd hn, Bind.bind, Except.bind, h.absent_of_not_mem hd hn absent]

theorem Laid.find?_of_mem (h : v.Laid ds fs) (hf : ⟨d, n, i⟩ ∈ fs) :
    v.find? (join d n) = some (.file (v.contents i)) := by
  simp only [find?, normalize_join (h.dirs _ (h.inDir _ hf)) (h.names _ hf), h.lookup_of_mem hf,
    Option.map_some]

theorem Laid.find?_of_absent (h : v.Laid ds fs) (hd : d ∈ ds) (hn : IsName n)
    (absent : ∀ f ∈ fs, f.key ≠ (d, n)) : v.find? (join d n) = none := by
  simp only [find?, normalize_join (h.dirs d hd) hn, h.absent_of_not_mem hd hn absent,
    Option.map_none]

theorem Laid.inode?_of_mem (h : v.Laid ds fs) (hf : ⟨d, n, i⟩ ∈ fs) :
    v.inode? (join d n) = some i := by
  simp only [inode?, normalize_join (h.dirs _ (h.inDir _ hf)) (h.names _ hf), h.lookup_of_mem hf]

theorem Laid.remove_of_mem (h : v.Laid ds fs) (hf : ⟨d, n, i⟩ ∈ fs) :
    v.remove (join d n) = .ok (v.unbind (join d n)) := by
  simp only [remove, h.resolve_join (h.inDir _ hf) (h.names _ hf), Bind.bind, Except.bind,
    h.lookup_of_mem hf]

theorem Laid.removeIfExists_of_mem (h : v.Laid ds fs) (hf : ⟨d, n, i⟩ ∈ fs) :
    v.removeIfExists (join d n) = .ok (true, v.unbind (join d n)) := by
  simp only [removeIfExists, h.remove_of_mem hf]

theorem Laid.removeIfExists_of_absent (h : v.Laid ds fs) (hd : d ∈ ds) (hn : IsName n)
    (absent : ∀ f ∈ fs, f.key ≠ (d, n)) : v.removeIfExists (join d n) = .ok (false, v) := by
  have gone : v.remove (join d n) = .error .notFound := by
    simp only [remove, h.resolve_join hd hn, Bind.bind, Except.bind, h.absent_of_not_mem hd hn absent]
  simp only [removeIfExists, gone]

/-- Unbinding a name the tree lacks changes nothing. -/
theorem Laid.unbind_of_absent (h : v.Laid ds fs) (hd : d ∈ ds) (hn : IsName n)
    (absent : ∀ f ∈ fs, f.key ≠ (d, n)) : v.unbind (join d n) = v := by
  have unbound := h.absent_of_not_mem hd hn absent
  simp only [lookup] at unbound
  split at unbound
  · cases unbound
  · rw [Option.map_eq_none_iff, List.find?_eq_none] at unbound
    have keep : v.links.filter (·.1 != join d n) = v.links :=
      List.filter_eq_self.2 fun l hl => by simpa using unbound l hl
    simp only [Volume.unbind, keep]

/-- Removing a name of a directory of the tree, there or not, unbinds it. -/
theorem Laid.removeIfExists_unbind (h : v.Laid ds fs) (hd : d ∈ ds) (hn : IsName n) :
    ∃ b, v.removeIfExists (join d n) = .ok (b, v.unbind (join d n)) := by
  by_cases present : ∃ i, (⟨d, n, i⟩ : FileLink) ∈ fs
  · obtain ⟨i, hf⟩ := present
    exact ⟨true, h.removeIfExists_of_mem hf⟩
  · have absent : ∀ f ∈ fs, f.key ≠ (d, n) := by
      intro f hf same
      simp only [FileLink.key, Prod.mk.injEq] at same
      exact present ⟨f.inode, by rw [← same.1, ← same.2]; exact hf⟩
    refine ⟨false, ?_⟩
    rw [h.unbind_of_absent hd hn absent]
    exact h.removeIfExists_of_absent hd hn absent

/-- Removing a name of a directory of the tree, there or not, drops the file of that name and
keeps every inode's contents. -/
theorem Laid.removeIfExists (h : v.Laid ds fs) (hd : d ∈ ds) (hn : IsName n) :
    ∃ b w, v.removeIfExists (join d n) = .ok (b, w) ∧ w.Laid ds (fs.filter (·.key != (d, n))) ∧
      w.inodes = v.inodes ∧ w.nextInode = v.nextInode := by
  obtain ⟨b, removed⟩ := h.removeIfExists_unbind hd hn
  exact ⟨b, _, removed, h.unbind hd hn, rfl, rfl⟩

/-- Renaming a file of the tree to a name in a directory of the tree moves its inode there,
replacing whatever file had that name. -/
theorem Laid.rename_of_mem (h : v.Laid ds fs) (hf : ⟨d, n, i⟩ ∈ fs) {d' n' : String}
    (hd' : d' ∈ ds) (hn' : IsName n') :
    v.rename (join d n) (join d' n') = .ok ((v.unbind (join d n)).bind (join d' n') (.file i)) := by
  have notDir : v.lookup (join d' n') ≠ some .dir := by
    intro isDir
    have := (h.lookup_eq_some_iff (by
      intro empty
      have := @toList_join d' n' (h.dirs d' hd').ne_empty
      rw [empty] at this
      simp at this)).mp isDir
    simp only [layout, List.mem_append, List.mem_map, Prod.mk.injEq] at this
    rcases this with ⟨d'', hd'', same, -⟩ | ⟨f, -, same⟩
    · exact join_ne_of_isName (h.dirs d' hd') (h.dirs d'' hd'') same.symm
    · simp [FileLink.link] at same
  simp only [Volume.rename, h.resolve_join (h.inDir _ hf) (h.names _ hf), Bind.bind, Except.bind,
    h.lookup_of_mem hf, h.resolve_join hd' hn']
  revert notDir
  cases v.lookup (join d' n') with
  | none => intro; rfl
  | some l =>
    cases l with
    | dir => intro notDir; exact absurd rfl notDir
    | file j => intro; rfl

/-- A directory of the tree can be listed. -/
theorem Laid.children (h : v.Laid ds fs) (hd : d ∈ ds) : v.children d = .ok (v.names d) := by
  simp only [Volume.children, resolve_of_isName v (h.dirs d hd), Bind.bind, Except.bind, h.lookup_dir hd]

/-- Making a directory that the tree has changes nothing. -/
theorem Laid.createDirAll_of_mem (h : v.Laid ds fs) (hd : d ∈ ds) : v.createDirAll d = .ok v := by
  have isName := h.dirs d hd
  have empty : d.isEmpty = false := by simp [isName.ne_empty]
  have top : ancestors d = [] := by simp [ancestors, parts_of_isName isName]
  simp only [createDirAll, normalize_of_isName isName, empty, Bool.false_eq_true, if_false, top,
    List.nil_append, List.foldlM_cons, List.foldlM_nil, h.lookup_dir hd, Bind.bind, Except.bind]
  rfl

/-- A name at the top that is no directory of the tree is bound to nothing: no file of the tree
lies at the top. -/
theorem Laid.lookup_of_not_mem (h : v.Laid ds fs) (hd : IsName d) (missing : d ∉ ds) :
    v.lookup d = none := by
  rw [h.lookup_eq_none_iff hd.ne_empty]
  intro l mem
  simp only [layout, List.mem_append, List.mem_map, Prod.mk.injEq] at mem
  rcases mem with ⟨d', hd', same, -⟩ | ⟨f, hf, same⟩
  · exact missing (same ▸ hd')
  · simp only [FileLink.link, Prod.mk.injEq] at same
    exact join_ne_of_isName (h.dirs _ (h.inDir f hf)) hd same.1

/-- Opening a file in a directory the tree lacks fails on the missing parent. -/
theorem Laid.touch_of_missing (h : v.Laid ds fs) (hd : IsName d) (hn : IsName n) (missing : d ∉ ds) :
    v.touch (join d n) = .error .notFound := by
  simp only [touch, resolve_join_of_missing v hd hn (h.lookup_of_not_mem hd missing)]
  rfl

/-- Writing a file into a directory the tree lacks fails on the missing parent. -/
theorem Laid.write_of_missing (h : v.Laid ds fs) (hd : IsName d) (hn : IsName n) (missing : d ∉ ds)
    (bs : Bytes) : v.write (join d n) bs = .error .notFound := by
  simp only [write, h.touch_of_missing hd hn missing]
  rfl

/-- Making a directory at the top that the tree lacks adds it. -/
theorem Laid.createDirAll_of_not_mem (h : v.Laid ds fs) (hd : IsName d) (fresh : d ∉ ds) :
    v.createDirAll d = .ok (v.bind d .dir) := by
  have empty : d.isEmpty = false := by simp [hd.ne_empty]
  have top : ancestors d = [] := by simp [ancestors, parts_of_isName hd]
  simp only [createDirAll, normalize_of_isName hd, empty, Bool.false_eq_true, if_false, top,
    List.nil_append, List.foldlM_cons, List.foldlM_nil, h.lookup_of_not_mem hd fresh,
    parts_of_isName hd, List.getLast?_singleton, Option.getD_some, hd.short, Bind.bind, Except.bind]
  rfl

theorem links_removeTree (hd : IsName d) :
    (v.removeTree d).links = v.links.filter fun x => x.1 != d && !within d x.1 := by
  simp only [removeTree, normalize_of_isName hd]

/-- Removing a directory at the top of the tree removes it with every file in it, and changes no
inode. -/
theorem Laid.removeTree (h : v.Laid ds fs) (hd : d ∈ ds) :
    (v.removeTree d).Laid (ds.erase d) (fs.filter (·.dir != d)) ∧
      (v.removeTree d).inodes = v.inodes ∧ (v.removeTree d).nextInode = v.nextInode := by
  have named := h.dirs d hd
  -- the links that stay are those of the other directories and of the files outside `d`
  have kept : (layout ds fs).filter (fun x => x.1 != d && !within d x.1) =
      layout (ds.erase d) (fs.filter (·.dir != d)) := by
    rw [layout, layout, List.filter_append, h.dirsNodup.erase_eq_filter, List.filter_map,
      List.filter_map, List.map_inj_left.2 fun _ _ => rfl]
    congr 1
    · congr 1
      apply List.filter_congr
      intro d' hd'
      simp [within_of_isName named (h.dirs d' hd')]
    · congr 1
      apply List.filter_congr
      intro f hf
      have apart : join f.dir f.name ≠ d := join_ne_of_isName (h.dirs _ (h.inDir f hf)) named
      have inside := within_join (n := f.name) (h.dirs _ (h.inDir f hf)) named
      by_cases same : f.dir = d
      · subst same
        simp [FileLink.link, FileLink.path, inside]
      · simp only [Function.comp, FileLink.link, FileLink.path, inside, decide_eq_false (Ne.symm same),
          Bool.not_false, Bool.and_true]
        rw [bne_iff_ne.2 apart, bne_iff_ne.2 same]
  refine ⟨⟨?_, fun d' hd' => h.dirs d' (List.mem_of_mem_erase hd'), h.dirsNodup.erase d,
    fun f hf => ?_, fun f hf => h.names f (List.mem_of_mem_filter hf),
    (List.filter_sublist.map _).nodup h.keysNodup, (List.filter_sublist.map _).nodup h.inodesNodup,
    fun f hf => h.fresh f (List.mem_of_mem_filter hf)⟩, rfl, rfl⟩
  · rw [links_removeTree named, ← kept]
    exact h.perm.filter _
  · obtain ⟨hf, other⟩ := List.mem_filter.1 hf
    exact (List.mem_erase_of_ne (by simpa using other)).2 (h.inDir f hf)

/-- Removing a directory the tree lacks changes nothing. -/
theorem Laid.removeTree_of_not_mem (h : v.Laid ds fs) (hd : IsName d) (missing : d ∉ ds) :
    v.removeTree d = v := by
  have none : ∀ x ∈ v.links, (x.1 != d && !within d x.1) = true := by
    intro x hx
    have listed := h.perm.mem_iff.1 hx
    simp only [layout, List.mem_append, List.mem_map] at listed
    rcases listed with ⟨d', hd', rfl⟩ | ⟨f, hf, rfl⟩
    · have ne : d' ≠ d := fun same => missing (same ▸ hd')
      simp [ne, within_of_isName hd (h.dirs d' hd')]
    · have apart : join f.dir f.name ≠ d := join_ne_of_isName (h.dirs _ (h.inDir f hf)) hd
      have outside : f.dir ≠ d := fun same => missing (same ▸ h.inDir f hf)
      simp [FileLink.link, FileLink.path, apart, within_join (h.dirs _ (h.inDir f hf)) hd,
        Ne.symm outside]
  rw [show v.removeTree d = { v with links := (v.removeTree d).links } from rfl, links_removeTree hd,
    List.filter_eq_self.2 none]

end Operations

end Volume

/-! ## Work on a volume, step by step -/

namespace VolumeM

variable {α β : Type}

theorem run_bind (x : VolumeM α) (f : α → VolumeM β) (v : Volume) :
    (x >>= f).run.run v = match x.run.run v with
      | (.ok a, v') => (f a).run.run v'
      | (.error e, v') => (.error e, v') := by
  simp only [ExceptT.run_bind, StateT.run_bind]
  rcases x.run.run v with ⟨_ | a, v'⟩ <;> rfl

@[simp] theorem run_get (v : Volume) : (get : VolumeM Volume).run.run v = (.ok v, v) := rfl

@[simp] theorem run_set (v w : Volume) : (set w : VolumeM Unit).run.run v = (.ok (), w) := rfl

@[simp] theorem run_pure (a : α) (v : Volume) : (pure a : VolumeM α).run.run v = (.ok a, v) := rfl

@[simp] theorem run_throw (e : StoreError) (v : Volume) :
    (throw e : VolumeM α).run.run v = (.error e, v) := rfl

theorem io_run (f : Volume → Except IoFault Volume) (v : Volume) :
    (io f).run.run v = match f v with
      | .ok v' => (.ok (), v')
      | .error e => (.error (.io e), v) := by
  simp only [io, run_bind, run_get]
  cases f v <;> rfl

theorem io_run_ok {f : Volume → Except IoFault Volume} {v v' : Volume} (h : f v = .ok v') :
    (io f).run.run v = (.ok (), v') := by
  rw [io_run, h]

theorem query_run_ok {f : Volume → Except IoFault α} {v : Volume} {a : α} (h : f v = .ok a) :
    (query f).run.run v = (.ok a, v) := by
  simp only [query, run_bind, run_get, h]
  rfl

theorem lift_run (r : Except StoreError α) (v : Volume) : (lift r).run.run v = (r, v) := by
  cases r <;> rfl

/-- Removing a file of the tree, or a name the tree lacks, always succeeds. -/
theorem removeIfPresent_run_ok {v v' : Volume} {p : String} {b : Bool}
    (h : v.removeIfExists p = .ok (b, v')) : (removeIfPresent p).run.run v = (.ok (), v') := by
  apply io_run_ok
  rw [h]
  rfl

/-- Removing a name of a directory of the tree drops the file of that name, if any. -/
theorem removeIfPresent_laid {v : Volume} {ds : List String} {fs : List Volume.FileLink}
    {d n : String} (h : v.Laid ds fs) (hd : d ∈ ds) (hn : Volume.IsName n) :
    ∃ w, (removeIfPresent (Volume.join d n)).run.run v = (.ok (), w) ∧
      w.Laid ds (fs.filter (·.key != (d, n))) ∧ w.inodes = v.inodes ∧ w.nextInode = v.nextInode := by
  obtain ⟨_, w, removed, laid, inodes, next⟩ := h.removeIfExists hd hn
  exact ⟨w, removeIfPresent_run_ok removed, laid, inodes, next⟩

end VolumeM

end LsmStore
