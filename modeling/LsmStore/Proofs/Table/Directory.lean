import Mathlib
import LsmStore.Proofs.Table.Write

/-!
# Opening a clean table directory

The names of a table directory are read back to identities, each with the roles (data,
index) its names were read as. In a directory that holds, for each of some tables, its two
files and nothing else, none of which replaces another, opening cleans nothing: no temporary
file, no lone index, no replaced table is there. Every table opens, newest first, holding the
entries its files hold, and the volume stays as it is.

## Main definitions

* `Table.Discovered` — what the names of a directory say about the tables in it
* `Table.Shelf` — a directory holding the two files of each of some tables, and nothing else
* `TableId.Newer` — strictly newer, in the order tables are listed

## Main results

* `Table.discovered_discover` — `discover` reads every name once
* `Table.sortNewestFirst_of_perm` — sorting restores the order of tables listed strictly newest first
* `Table.openAllIn_shelf` — opening a clean directory opens its tables, newest first, in
  whatever order the identities found are dealt with
-/

namespace LsmStore

namespace TableId

/-- `a` is listed strictly before `b`: a higher generation, or the same generation and a higher
base. -/
def Newer (a b : TableId) : Prop :=
  b.generation < a.generation ∨ (b.generation = a.generation ∧ b.base < a.base)

theorem newer_iff (a b : TableId) : Newer a b ↔ a.newestFirst b = true ∧ b.newestFirst a = false := by
  simp only [Newer, newestFirst, Bool.or_eq_true, decide_eq_true_eq, Bool.and_eq_true,
    Bool.or_eq_false_iff, decide_eq_false_iff_not, Bool.and_eq_false_iff]
  omega

theorem newestFirst_of_newer {a b : TableId} (h : Newer a b) : a.newestFirst b = true :=
  ((newer_iff a b).1 h).1

theorem newestFirst_total (a b : TableId) : (a.newestFirst b || b.newestFirst a) = true := by
  simp only [newestFirst, Bool.or_eq_true, decide_eq_true_eq, Bool.and_eq_true]
  omega

theorem newestFirst_trans {a b c : TableId} (hab : a.newestFirst b = true)
    (hbc : b.newestFirst c = true) : a.newestFirst c = true := by
  simp only [newestFirst, Bool.or_eq_true, decide_eq_true_eq, Bool.and_eq_true] at *
  omega

end TableId

namespace Table

open Run Volume TableId

/-! ## What the names of a directory say -/

/-- What `discover` found among some names: each identity once, with every role a name of it
was read as. -/
structure Discovered (names : List String) (found : List (TableId × List FileRole)) : Prop where
  nodup : (found.map (·.1)).Nodup
  ids : ∀ id, id ∈ found.map (·.1) ↔ ∃ n ∈ names, ∃ role, parseFileName? n = some (id, role)
  roles : ∀ id rs, (id, rs) ∈ found →
    ∀ role, role ∈ rs ↔ ∃ n ∈ names, parseFileName? n = some (id, role)

variable {names : List String} {acc : List (TableId × List FileRole)}

theorem exists_mem_concat {P : String → Prop} {n : String} :
    (∃ x ∈ names ++ [n], P x) ↔ (∃ x ∈ names, P x) ∨ P n := by
  simp [or_and_right, exists_or]

/-- Reading one more name keeps the account right. -/
theorem Discovered.step (h : Discovered names acc) (n : String) :
    Discovered (names ++ [n]) (match parseFileName? n with
      | none => acc
      | some (id, role) =>
        if acc.any (·.1 == id) then acc.map fun (i, rs) => if i == id then (i, role :: rs) else (i, rs)
        else acc ++ [(id, [role])]) := by
  cases parsed : parseFileName? n with
  | none =>
    -- a name that reads as no table adds nothing
    refine ⟨h.nodup, fun id => ?_, fun id rs mem role => ?_⟩
    · rw [h.ids, exists_mem_concat]
      simp [parsed]
    · rw [h.roles id rs mem role, exists_mem_concat]
      simp [parsed]
  | some p =>
    obtain ⟨id, role⟩ := p
    dsimp only
    by_cases seen : acc.any (·.1 == id) = true
    · -- the identity was seen: its roles gain `role`
      have seenId : id ∈ acc.map (·.1) := by simpa using seen
      have firsts : (acc.map fun (i, rs) => if i == id then (i, role :: rs) else (i, rs)).map (·.1) =
          acc.map (·.1) := by
        rw [List.map_map]
        congr 1
        funext x
        by_cases same : x.1 = id <;> simp [same]
      rw [if_pos seen]
      refine ⟨firsts ▸ h.nodup, fun id' => ?_, fun id' rs' mem role' => ?_⟩
      · rw [firsts, h.ids, exists_mem_concat, parsed]
        constructor
        · exact .inl
        · rintro (old | ⟨_, same⟩)
          · exact old
          · cases same
            exact (h.ids id).1 seenId
      · obtain ⟨⟨i, rs⟩, old, updated⟩ := List.mem_map.1 mem
        rw [exists_mem_concat, parsed]
        by_cases same : i = id
        · subst same
          simp only [beq_self_eq_true, if_true, Prod.mk.injEq] at updated
          obtain ⟨rfl, rfl⟩ := updated
          rw [List.mem_cons, h.roles i rs old role']
          simp only [Option.some.injEq, Prod.mk.injEq, true_and]
          constructor
          · rintro (rfl | named)
            · exact .inr rfl
            · exact .inl named
          · rintro (named | rfl)
            · exact .inr named
            · exact .inl rfl
        · simp only [same, beq_iff_eq, if_false, Prod.mk.injEq] at updated
          obtain ⟨rfl, rfl⟩ := updated
          rw [h.roles i rs old role']
          simp [Ne.symm same]
    · -- a new identity, with the one role
      have fresh : id ∉ acc.map (·.1) := by simpa using seen
      rw [if_neg seen]
      refine ⟨?_, fun id' => ?_, fun id' rs' mem role' => ?_⟩
      · rw [List.map_append, List.nodup_append]
        refine ⟨h.nodup, List.nodup_singleton _, ?_⟩
        intro x hx y hy
        simp only [List.map_cons, List.map_nil, List.mem_singleton] at hy
        subst hy
        rintro rfl
        exact fresh hx
      · rw [List.map_append, List.mem_append, h.ids, exists_mem_concat, parsed]
        simp [eq_comm]
      · rw [exists_mem_concat, parsed]
        rcases List.mem_append.1 mem with old | new
        · have other : id' ≠ id := fun same => fresh (same ▸ List.mem_map_of_mem old)
          rw [h.roles id' rs' old role']
          simp [Ne.symm other]
        · simp only [List.mem_singleton, Prod.mk.injEq] at new
          obtain ⟨rfl, rfl⟩ := new
          have unseen : ¬ ∃ x ∈ names, parseFileName? x = some (id', role') := by
            rintro ⟨x, hx, named⟩
            exact fresh ((h.ids id').2 ⟨x, hx, role', named⟩)
          simp only [List.mem_singleton, unseen, false_or, Option.some.injEq, Prod.mk.injEq, true_and]
          exact eq_comm

/-- `discover` reads every name once and keeps the account right. -/
theorem discovered_discover (names : List String) : Discovered names (discover names) := by
  induction names using List.reverseRecOn with
  | nil => exact ⟨List.nodup_nil, by simp [discover], by simp [discover]⟩
  | append_singleton names n ih =>
    unfold discover at ih ⊢
    rw [List.foldl_append, List.foldl_cons, List.foldl_nil]
    exact ih.step n

/-! ## Tables kept in a directory -/

/-- One of the two files of a table. -/
def file (t : Table) : FileRole → Source
  | .data => t.data
  | .index => t.index

/-- What each file of a table of the entries `es` holds. -/
def image (es : List Entry) : FileRole → Bytes
  | .data => dataOf es
  | .index => indexOf es

variable {v : Volume} {ds : List String} {fs : List FileLink} {d : String}

/-- An open table of the tree: its two files are the files of its names in `d`, and they hold
the entries `es`. -/
structure Stored (v : Volume) (fs : List FileLink) (d : String) (t : Table) (es : List Entry) :
    Prop where
  holds : Holds v t es
  valid : t.id.Valid
  files : ∀ role, ∃ i, (t.file role).inode = some i ∧ ⟨d, t.id.fileName role, i⟩ ∈ fs

/-- A table whose files hold some entries opens as a stored table of them. -/
theorem stored_open (h : v.Laid ds fs) {id : TableId} {es : List Entry} (hv : id.Valid)
    (files : ∀ role, ∃ i, ⟨d, id.fileName role, i⟩ ∈ fs ∧ v.contents i = image es role)
    (storable : Storable es) (backend : ReadBackend) :
    ∃ t, Table.open v d id backend = .ok t ∧ t.id = id ∧ Stored v fs d t es := by
  obtain ⟨iD, hD, data⟩ := files .data
  obtain ⟨iI, hI, index⟩ := files .index
  obtain ⟨t, opened, ident, holds, dataInode, indexInode⟩ :=
    open_of_laid h hD hI data index storable backend
  refine ⟨t, opened, ident, holds, ident ▸ hv, ?_⟩
  intro role
  cases role with
  | data => exact ⟨iD, dataInode, ident ▸ hD⟩
  | index => exact ⟨iI, indexInode, ident ▸ hI⟩

/-- A directory of the tree that holds the two files of each of the tables `tabs` and nothing
else. The tables are listed strictly newest first, each with the entries its files hold, and
none replaces another. -/
structure Shelf (v : Volume) (fs : List FileLink) (d : String) (tabs : List (TableId × List Entry)) :
    Prop where
  files : ∀ p ∈ tabs, ∀ role, ∃ i, ⟨d, p.1.fileName role, i⟩ ∈ fs ∧ v.contents i = image p.2 role
  only : ∀ f ∈ fs, f.dir = d → ∃ p ∈ tabs, ∃ role, f.name = p.1.fileName role
  valid : ∀ p ∈ tabs, p.1.Valid
  storable : ∀ p ∈ tabs, Storable p.2
  newest : (tabs.map (·.1)).Pairwise Newer
  uncovered : ∀ p ∈ tabs, ∀ q ∈ tabs, p.1.covers q.1 = false

variable {tabs : List (TableId × List Entry)}

/-- The names a shelf lists are the file names of its tables. -/
theorem Shelf.mem_names (h : v.Laid ds fs) (hd : d ∈ ds) (shelf : Shelf v fs d tabs) {n : String} :
    n ∈ v.names d ↔ ∃ p ∈ tabs, ∃ role, n = p.1.fileName role := by
  rw [(h.names_perm hd).mem_iff, List.mem_filterMap]
  constructor
  · rintro ⟨f, hf, named⟩
    by_cases same : f.dir = d
    · simp only [same, if_true, Option.some.injEq] at named
      subst named
      exact shelf.only f hf same
    · simp [same] at named
  · rintro ⟨p, hp, role, rfl⟩
    obtain ⟨i, hf, -⟩ := shelf.files p hp role
    exact ⟨_, hf, by simp⟩

/-- A name of a shelf reads as the table and role it belongs to. -/
theorem Shelf.parse (h : v.Laid ds fs) (hd : d ∈ ds) (shelf : Shelf v fs d tabs) {n : String}
    (hn : n ∈ v.names d) : ∃ p ∈ tabs, ∃ role, n = p.1.fileName role ∧
      parseFileName? n = some (p.1, role) := by
  obtain ⟨p, hp, role, rfl⟩ := (shelf.mem_names h hd).1 hn
  exact ⟨p, hp, role, rfl, parseFileName?_fileName (shelf.valid p hp) role⟩

/-- On a shelf, discovery finds the shelf's tables, each with both files. -/
theorem Shelf.discovered (h : v.Laid ds fs) (hd : d ∈ ds) (shelf : Shelf v fs d tabs)
    {found : List (TableId × List FileRole)} (disc : Discovered (v.names d) found) :
    (∀ id, id ∈ found.map (·.1) ↔ id ∈ tabs.map (·.1)) ∧
      ∀ x ∈ found, FileRole.data ∈ x.2 ∧ FileRole.index ∈ x.2 := by
  -- every name is a file of a table of the shelf, and each of those has both names listed
  have listed : ∀ p ∈ tabs, ∀ role, ∃ n ∈ v.names d, parseFileName? n = some (p.1, role) :=
    fun p hp role => ⟨p.1.fileName role, (shelf.mem_names h hd).2 ⟨p, hp, role, rfl⟩,
      parseFileName?_fileName (shelf.valid p hp) role⟩
  refine ⟨fun id => ?_, fun x hx => ?_⟩
  · rw [disc.ids id, List.mem_map]
    constructor
    · rintro ⟨n, hn, role, read⟩
      obtain ⟨p, hp, role', -, read'⟩ := shelf.parse h hd hn
      rw [read] at read'
      cases read'
      exact ⟨p, hp, rfl⟩
    · rintro ⟨p, hp, rfl⟩
      obtain ⟨n, hn, read⟩ := listed p hp .data
      exact ⟨n, hn, .data, read⟩
  · obtain ⟨id, rs⟩ := x
    obtain ⟨n, hn, role, read⟩ := (disc.ids id).1 (List.mem_map_of_mem (f := (·.1)) hx)
    obtain ⟨p, hp, role', -, read'⟩ := shelf.parse h hd hn
    rw [read] at read'
    cases read'
    exact ⟨(disc.roles _ rs hx .data).2 (listed p hp .data),
      (disc.roles _ rs hx .index).2 (listed p hp .index)⟩

/-- Of two different members of a list ordered pairwise, one is related to the other. -/
theorem rel_or_rel_of_pairwise {α : Type} {R : α → α → Prop} {l : List α} (h : l.Pairwise R)
    {a b : α} (ha : a ∈ l) (hb : b ∈ l) (ne : a ≠ b) : R a b ∨ R b a := by
  induction l with
  | nil => cases ha
  | cons x xs ih =>
    obtain ⟨first, rest⟩ := List.pairwise_cons.1 h
    rcases List.mem_cons.1 ha with rfl | inA
    · rcases List.mem_cons.1 hb with rfl | inB
      · exact absurd rfl ne
      · exact .inl (first b inB)
    · rcases List.mem_cons.1 hb with rfl | inB
      · exact .inr (first a inA)
      · exact ih rest inA inB

/-- Sorting newest first, by identity, any arrangement of a list whose identities are listed
strictly newest first gives that list back. -/
theorem mergeSort_newestFirst_of_perm {α : Type} (f : α → TableId) {xs ys : List α} (perm : ys.Perm xs)
    (newest : (xs.map f).Pairwise Newer) : ys.mergeSort (fun a b => (f a).newestFirst (f b)) = xs := by
  have ordered := List.pairwise_map.1 newest
  refine ((List.mergeSort_perm _ _).trans perm).eq_of_pairwise ?_
    (@List.pairwise_mergeSort _ (fun a b => (f a).newestFirst (f b)) (fun _ _ _ => newestFirst_trans)
      (fun a b => newestFirst_total (f a) (f b)) _)
    (ordered.imp newestFirst_of_newer)
  -- two members each listed no later than the other are the same member
  intro a b ha hb ab ba
  have ha' : a ∈ xs := ((List.mergeSort_perm _ _).trans perm).subset ha
  by_contra ne
  rcases rel_or_rel_of_pairwise ordered ha' hb ne with newer | newer
  · rw [((newer_iff _ _).1 newer).2] at ba
    cases ba
  · rw [((newer_iff _ _).1 newer).2] at ab
    cases ab

/-- Sorting any arrangement of tables listed strictly newest first gives that list back. -/
theorem sortNewestFirst_of_perm {ids ids' : List TableId} (perm : ids'.Perm ids)
    (newest : ids.Pairwise Newer) : sortNewestFirst ids' = ids :=
  mergeSort_newestFirst_of_perm (fun x => x) perm (by rwa [List.map_id'])

/-! ## Opening every table of a shelf -/

/-- Work that succeeds on each member without changing anything succeeds on all of them. -/
theorem forM_run_of_pure {α : Type} {l : List α} {f : α → VolumeM Unit} (v : Volume)
    (each : ∀ x ∈ l, f x = pure ()) : (l.forM f).run.run v = (.ok (), v) := by
  induction l with
  | nil => rfl
  | cons x xs ih =>
    show (f x >>= fun _ => xs.forM f).run.run v = _
    rw [each x List.mem_cons_self, VolumeM.run_bind, VolumeM.run_pure]
    exact ih fun y hy => each y (List.mem_cons_of_mem x hy)

/-- Lifting answers that all succeed succeeds with them and changes nothing. -/
theorem mapM_lift_run {α β : Type} {l : List α} {f : α → Except StoreError β} {ys : List β}
    (h : l.mapM f = .ok ys) (v : Volume) :
    (l.mapM fun x => VolumeM.lift (f x)).run.run v = (.ok ys, v) := by
  induction l generalizing ys with
  | nil =>
    cases h
    rfl
  | cons x xs ih =>
    rw [List.mapM_cons] at h ⊢
    cases fx : f x with
    | error e => simp [fx, Bind.bind, Except.bind] at h
    | ok y =>
      cases rest : xs.mapM f with
      | error e => simp [fx, rest, Bind.bind, Except.bind] at h
      | ok ys' =>
        simp only [fx, rest, Bind.bind, Except.bind, pure, Except.pure, Except.ok.injEq] at h
        subst h
        simp only [VolumeM.run_bind, VolumeM.lift_run, ih rest]
        rfl

/-- Tables whose files are on the tree all open, each as a stored table of its entries. -/
theorem mapM_open (h : v.Laid ds fs) (backend : ReadBackend)
    (each : ∀ p ∈ tabs, p.1.Valid ∧ Storable p.2 ∧
      ∀ role, ∃ i, ⟨d, p.1.fileName role, i⟩ ∈ fs ∧ v.contents i = image p.2 role) :
    ∃ ts, (tabs.map (·.1)).mapM (fun id => Table.open v d id backend) = .ok ts ∧
      List.Forall₂ (fun t p => t.id = p.1 ∧ Stored v fs d t p.2) ts tabs := by
  induction tabs with
  | nil => exact ⟨[], rfl, .nil⟩
  | cons p ps ih =>
    obtain ⟨hv, storable, files⟩ := each p List.mem_cons_self
    obtain ⟨t, opened, ident, stored⟩ := stored_open h hv files storable backend
    obtain ⟨ts, rest, all⟩ := ih fun q hq => each q (List.mem_cons_of_mem p hq)
    refine ⟨t :: ts, ?_, .cons ⟨ident, stored⟩ all⟩
    simp only [List.map_cons, List.mapM_cons, opened, rest, Bind.bind, Except.bind, pure, Except.pure]

/-- Startup keeps a table it finds with both files, and touches nothing. -/
theorem sortOut_of_complete {x : TableId × List FileRole} (data : FileRole.data ∈ x.2)
    (index : FileRole.index ∈ x.2) : sortOut d x = pure (some x.1) := by
  simp [sortOut, data, index]

/-- Startup keeps, in the order found, every table it finds with both files, and touches
nothing. -/
theorem filterMapM_sortOut_of_complete {xs : List (TableId × List FileRole)}
    (each : ∀ x ∈ xs, FileRole.data ∈ x.2 ∧ FileRole.index ∈ x.2) (v : Volume) :
    (xs.filterMapM (sortOut d)).run.run v = (.ok (xs.map (·.1)), v) := by
  induction xs with
  | nil => rfl
  | cons x xs ih =>
    obtain ⟨data, index⟩ := each x List.mem_cons_self
    rw [List.filterMapM_cons, sortOut_of_complete data index, pure_bind, VolumeM.run_bind,
      ih fun y hy => each y (List.mem_cons_of_mem x hy)]
    rfl

/-- Opening a shelf, whatever order the identities found are dealt with in, cleans nothing and
opens its tables, newest first, each holding its entries; the volume stays as it is. -/
theorem openAllIn_shelf (h : v.Laid ds fs) (hd : d ∈ ds) (shelf : Shelf v fs d tabs)
    (order : YieldOrder) (backend : ReadBackend) :
    ∃ ts, (openAllIn order d backend).run.run v = (.ok ts, v) ∧
      List.Forall₂ (fun t p => t.id = p.1 ∧ Stored v fs d t p.2) ts tabs := by
  obtain ⟨ts, opened, stored⟩ := mapM_open h backend fun p hp =>
    ⟨shelf.valid p hp, shelf.storable p hp, shelf.files p hp⟩
  have disc := discovered_discover (v.names d)
  obtain ⟨sameIds, bothRoles⟩ := shelf.discovered h hd disc
  refine ⟨ts, ?_, stored⟩
  simp only [openAllIn, settle, VolumeM.run_bind,
    VolumeM.query_run_ok (f := fun x => x.children d) (h.children hd), VolumeM.run_get]
  -- every name is a table file: no directory, no temporary file
  rw [(List.filter_eq_self (l := v.names d)).2 ?isFile,
    (List.filter_eq_nil_iff (l := v.names d)).2 ?notTmp,
    (List.filter_eq_self (l := v.names d)).2 ?notTmp']
  case isFile =>
    intro n hn
    obtain ⟨p, hp, role, rfl, -⟩ := shelf.parse h hd hn
    obtain ⟨i, hf, -⟩ := shelf.files p hp role
    rw [h.find?_of_mem hf]
  case notTmp =>
    intro n hn
    obtain ⟨p, -, role, rfl, -⟩ := shelf.parse h hd hn
    cases role <;> simp [extension?_fileName, FileRole.extension]
  case notTmp' =>
    intro n hn
    obtain ⟨p, -, role, rfl, -⟩ := shelf.parse h hd hn
    cases role <;> simp [extension?_fileName, FileRole.extension]
  have nothingToRemove : (([] : List String).forM fun n => VolumeM.removeIfPresent (join d n)).run.run v =
      (.ok (), v) := rfl
  have nothingReplaced : (([] : List TableId).forM fun id => do
      VolumeM.removeIfPresent (join d (id.fileName FileRole.data))
      VolumeM.removeIfPresent (join d (id.fileName FileRole.index))).run.run v = (.ok (), v) := rfl
  -- the tables found, in the order they are dealt with, are those of the shelf, each complete
  set found := order.arrange (discover (v.names d))
  have arranged : found.Perm (discover (v.names d)) := List.mergeSort_perm _ _
  have ids : (tabs.map (·.1)).Nodup := shelf.newest.imp fun newer same => by
    subst same
    simp [Newer] at newer
  have perm : (found.map (·.1)).Perm (tabs.map (·.1)) :=
    (arranged.map _).trans ((List.perm_ext_iff_of_nodup disc.nodup ids).2 sameIds)
  have kept := filterMapM_sortOut_of_complete (d := d)
    (fun x (hx : x ∈ found) => bothRoles x (arranged.subset hx)) v
  simp only [nothingToRemove, kept]
  rw [(List.filter_eq_nil_iff (l := found.map (·.1))).2 ?noneReplaced]
  case noneReplaced =>
    intro id hid
    obtain ⟨p, hp, rfl⟩ := List.mem_map.1 (perm.subset hid)
    simp only [List.any_eq_true, not_exists, not_and, Bool.not_eq_true]
    intro a ha
    obtain ⟨q, hq, rfl⟩ := List.mem_map.1 (perm.subset ha)
    exact shelf.uncovered q hq p hp
  have keptAll : (found.map (·.1)).filter (fun id => !([] : List TableId).contains id) =
      found.map (·.1) := by
    simp
  simp only [nothingReplaced, keptAll, sortNewestFirst_of_perm perm shelf.newest,
    mapM_lift_run opened]

/-- Opening a shelf as the engine does cleans nothing and opens its tables, newest first. -/
theorem openAll_shelf (h : v.Laid ds fs) (hd : d ∈ ds) (shelf : Shelf v fs d tabs)
    (backend : ReadBackend) :
    ∃ ts, (openAll d backend).run.run v = (.ok ts, v) ∧
      List.Forall₂ (fun t p => t.id = p.1 ∧ Stored v fs d t p.2) ts tabs :=
  openAllIn_shelf h hd shelf .newestFirst backend

end Table

end LsmStore
