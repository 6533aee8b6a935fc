import Mathlib
import LsmStore.Volume

/-!
# Paths inside a directory

The store reaches every file through a path made of a directory and a name joined by a slash.
When both are single components (not empty, not `.`, without a slash, short enough for a
directory entry) such a path is already normalized, resolves component by component once the
directory exists, and lies in that directory and in no other, where it is listed under its
name. Two such paths are equal exactly when their directories and their names are.

## Main definitions

* `Volume.IsName` — a text that a path keeps as one component

## Main results

* `Volume.normalize_join` — a joined path is normalized
* `Volume.join_inj` — a joined path determines its directory and its name
* `Volume.within_join`, `Volume.relative_join` — the directory a joined path lies in, and its
  name there
* `Volume.resolve_join` — a joined path resolves once its directory exists
-/

namespace LsmStore

namespace Volume

/-- A text that a path keeps as one component: not empty, not `.`, without a slash, and no
longer than a directory entry allows. -/
structure IsName (n : String) : Prop where
  ne_empty : n ≠ ""
  ne_dot : n ≠ "."
  no_slash : '/' ∉ n.toList
  short : tooLong n = false

/-- A text holds at most four bytes per character. -/
theorem utf8ByteSize_le (s : String) : s.utf8ByteSize ≤ 4 * s.length := by
  rw [← String.ofList_toList (s := s), String.length_ofList]
  induction s.toList with
  | nil => simp
  | cons c cs ih =>
    rw [show c :: cs = [c] ++ cs from rfl, String.ofList_append, String.utf8ByteSize_append,
      ← String.singleton_eq_ofList, String.utf8ByteSize_singleton]
    have := Char.utf8Size_le_four c
    simp only [List.length_append, List.length_singleton]
    omega

/-- A text of at most 63 characters fits in a directory entry. -/
theorem tooLong_eq_false {n : String} (few : n.length ≤ 63) : tooLong n = false := by
  have := utf8ByteSize_le n
  simp only [tooLong, nameMax]
  exact decide_eq_false (by omega)

/-- A name made of characters other than the slash, with something other than a lone dot in
it and at most 63 characters, is a component. -/
theorem IsName.of_toList {n : String} (cs : n.toList ≠ []) (dot : n.toList ≠ ['.'])
    (noSlash : '/' ∉ n.toList) (few : n.length ≤ 63) : IsName n where
  ne_empty := fun h => cs (by rw [h]; rfl)
  ne_dot := fun h => dot (by rw [h]; rfl)
  no_slash := noSlash
  short := tooLong_eq_false few

variable {dir dir' n n' : String}

theorem toList_join (hd : dir ≠ "") : (join dir n).toList = dir.toList ++ '/' :: n.toList := by
  have : dir.isEmpty = false := by
    cases h : dir.isEmpty
    · rfl
    · exact absurd (String.isEmpty_iff.mp h) hd
  have slash : "/".toList = ['/'] := rfl
  simp only [join, this, Bool.false_eq_true, if_false, String.toList_append, slash,
    List.append_assoc, List.singleton_append]

theorem parts_of_isName (h : IsName n) : parts n = [n] := by
  simp only [parts, List.splitOn_eq_singleton h.no_slash, List.map_cons, List.map_nil,
    String.ofList_toList]

theorem parts_join (hd : IsName dir) (hn : IsName n) : parts (join dir n) = [dir, n] := by
  simp only [parts, toList_join hd.ne_empty, List.splitOn_append_cons_self_of_not_mem hd.no_slash,
    List.splitOn_eq_singleton hn.no_slash, List.map_cons, List.map_nil, String.ofList_toList]

/-- A component is its own normal form. -/
theorem normalize_of_isName (h : IsName n) : normalize n = n := by
  have keep : (!n.isEmpty && n != ".") = true := by
    simp [h.ne_empty, h.ne_dot]
  simp only [normalize, components, parts_of_isName h, List.filter_cons, keep, if_true,
    List.filter_nil, String.intercalate_singleton]

/-- A directory and a name joined make a normalized path. -/
theorem normalize_join (hd : IsName dir) (hn : IsName n) : normalize (join dir n) = join dir n := by
  have keepDir : (!dir.isEmpty && dir != ".") = true := by
    simp [hd.ne_empty, hd.ne_dot]
  have keepName : (!n.isEmpty && n != ".") = true := by
    simp [hn.ne_empty, hn.ne_dot]
  have joined : join dir n = dir ++ "/" ++ n := by
    simp [join, hd.ne_empty]
  simp only [normalize, components, parts_join hd hn, List.filter_cons, keepDir, keepName,
    if_true, List.filter_nil, String.intercalate_cons_cons, String.intercalate_singleton]
  rw [joined]

/-- Two texts without a slash, each followed by one, agree up to the slash only if they are
equal. -/
theorem eq_of_slash_append_isPrefixOf {xs ys zs : List Char} (hx : '/' ∉ xs) (hy : '/' ∉ ys)
    (pre : xs ++ ['/'] <+: ys ++ '/' :: zs) : xs = ys := by
  induction xs generalizing ys with
  | nil =>
    cases ys with
    | nil => rfl
    | cons y ys =>
      obtain ⟨t, ht⟩ := pre
      simp only [List.nil_append, List.cons_append, List.cons.injEq] at ht
      exact absurd (ht.1 ▸ List.mem_cons_self ..) hy
  | cons x xs ih =>
    cases ys with
    | nil =>
      obtain ⟨t, ht⟩ := pre
      simp only [List.cons_append, List.nil_append, List.cons.injEq] at ht
      exact absurd (ht.1 ▸ List.mem_cons_self ..) hx
    | cons y ys =>
      obtain ⟨t, ht⟩ := pre
      simp only [List.cons_append, List.append_assoc, List.cons.injEq] at ht
      rw [ht.1, ih (fun h => hx (List.mem_cons_of_mem _ h)) (fun h => hy (List.mem_cons_of_mem _ h))
        ⟨t, by rw [List.append_assoc]; exact ht.2⟩]

/-- A joined path determines its directory and its name. -/
theorem join_inj (hd : IsName dir) (hn : IsName n) (hd' : IsName dir') (hn' : IsName n') :
    join dir n = join dir' n' ↔ dir = dir' ∧ n = n' := by
  constructor
  · intro h
    have := congrArg parts h
    rw [parts_join hd hn, parts_join hd' hn'] at this
    simpa using this
  · rintro ⟨rfl, rfl⟩
    rfl

/-- A joined path is never a component. -/
theorem join_ne_of_isName (hd : IsName dir) (hm : IsName n') : join dir n ≠ n' := by
  intro h
  apply hm.no_slash
  rw [← h, toList_join hd.ne_empty]
  simp

/-- A joined path lies in its own directory and in no other. -/
theorem within_join (hd : IsName dir) (hd' : IsName dir') :
    within dir' (join dir n) = decide (dir' = dir) := by
  have ne : dir'.isEmpty = false := by simp [hd'.ne_empty]
  simp only [within, ne, Bool.false_eq_true, if_false, String.toList_append, toList_join hd.ne_empty]
  by_cases same : dir' = dir
  · subst same
    simp only [decide_true, List.isPrefixOf_iff_prefix]
    exact ⟨n.toList, by simp⟩
  · rw [decide_eq_false same, Bool.eq_false_iff]
    intro pre
    rw [List.isPrefixOf_iff_prefix] at pre
    exact same (String.toList_injective (eq_of_slash_append_isPrefixOf hd'.no_slash hd.no_slash pre))

/-- A component lies inside no directory. -/
theorem within_of_isName (hd : IsName dir) (hn : IsName n) : within dir n = false := by
  have ne : dir.isEmpty = false := by simp [hd.ne_empty]
  simp only [within, ne, Bool.false_eq_true, if_false, Bool.eq_false_iff]
  intro pre
  rw [List.isPrefixOf_iff_prefix, String.toList_append] at pre
  exact hn.no_slash (pre.subset (by simp))

/-- A joined path is listed in its directory under its name. -/
theorem relative_join (hd : IsName dir) : relative dir (join dir n) = n := by
  have ne : dir.isEmpty = false := by simp [hd.ne_empty]
  simp only [relative, ne, Bool.false_eq_true, if_false, toList_join hd.ne_empty]
  rw [← String.length_toList, show dir.toList.length + 1 = (dir.toList ++ ['/']).length by simp,
    show dir.toList ++ '/' :: n.toList = (dir.toList ++ ['/']) ++ n.toList by simp,
    List.drop_left, String.ofList_toList]

/-- A component is a path with nothing above it to check. -/
theorem resolve_of_isName (v : Volume) (hn : IsName n) : v.resolve n = .ok n := by
  simp only [resolve, normalize_of_isName hn, parts_of_isName hn, walk, hn.short]
  rfl

/-- A joined path resolves once its directory exists. -/
theorem resolve_join (v : Volume) (hd : IsName dir) (hn : IsName n) (isDir : v.lookup dir = some .dir) :
    v.resolve (join dir n) = .ok (join dir n) := by
  have top : join "" dir = dir := by simp [join]
  simp only [resolve, normalize_join hd hn, parts_join hd hn, walk, hd.short, hn.short, top, isDir]
  rfl

/-- A path inside a directory the volume lacks does not resolve: the parent is missing. -/
theorem resolve_join_of_missing (v : Volume) (hd : IsName dir) (hn : IsName n)
    (missing : v.lookup dir = none) : v.resolve (join dir n) = .error .notFound := by
  have top : join "" dir = dir := by simp [join]
  simp only [resolve, normalize_join hd hn, parts_join hd hn, walk, hd.short, top, missing]
  rfl

end Volume

end LsmStore
