import Mathlib
import LsmStore.Engine.Basic
import LsmStore.Proofs.Volume.Paths

/-!
# The names of the store's files

The store finds its files again by their names alone: the log segment of a generation is
`{generation:06}.log` in `wal`, a table's files are `sstable_{gen:06}.data` and `.index` (or
`sstable_{base:06}_{gen:06}`) in `sstables`, and a table being written sits under its final name
with `.tmp` appended. Every such name is a single path component, reads back as what it was
written from, and no two of them coincide, as long as the numbers in it are 64-bit words and a
compacted range is not reversed.

## Main definitions

* `TableId.Valid` — an identity whose file names read back

## Main results

* `FileName.parseNumber?_padded` — a padded number reads back
* `Wal.parseSegmentName?_segmentName`, `Wal.segmentName_inj` — segment names
* `TableId.parseFileName?_fileName`, `TableId.fileName_inj` — table file names
* `TableId.extension?_tmp`, `Table.tmpName_join` — temporary names
-/

namespace LsmStore

open Volume

namespace Bytes

theorem toList_padded (w n : Nat) :
    (padded w n).toList = List.replicate (w - (Nat.toDigits 10 n).length) '0' ++ Nat.toDigits 10 n := by
  simp [padded]

theorem isDigit_of_mem_padded {w n : Nat} {c : Char} (h : c ∈ (padded w n).toList) :
    c.isDigit = true := by
  rw [toList_padded, List.mem_append, List.mem_replicate] at h
  rcases h with ⟨-, rfl⟩ | h
  · rfl
  · exact Nat.isDigit_of_mem_toDigits (by decide) (by decide) h

theorem toList_padded_ne_nil (w n : Nat) : (padded w n).toList ≠ [] := by
  simp [toList_padded, Nat.toDigits_ne_nil]

/-- A 64-bit word takes at most twenty digits, however it is padded to six. -/
theorem length_padded_le {n : Nat} (hn : n < 2 ^ 64) : (padded 6 n).length ≤ 20 := by
  have digits : (Nat.toDigits 10 n).length ≤ 20 :=
    (Nat.length_toDigits_le_iff (by decide) (by decide)).2 (Nat.lt_trans hn (by decide))
  rw [← String.length_toList, toList_padded, List.length_append, List.length_replicate]
  omega

end Bytes

namespace FileName

theorem digitsValue_eq (ds : List Char) : digitsValue ds = Nat.ofDigitChars 10 ds 0 := rfl

/-- A padded 64-bit number reads back as itself: the zeros in front add nothing. -/
theorem parseNumber?_padded {w n : Nat} (hn : n < 2 ^ 64) :
    parseNumber? (Bytes.padded w n) = some n := by
  have value : digitsValue (Bytes.padded w n).toList = n := by
    rw [digitsValue_eq, Bytes.toList_padded, Nat.ofDigitChars_append,
      Nat.ofDigitChars_replicate_zero, Nat.mul_zero, Nat.ofDigitChars_ten_toDigits]
  have digits : (Bytes.padded w n).toList.all Char.isDigit = true :=
    List.all_eq_true.2 fun c hc => Bytes.isDigit_of_mem_padded hc
  have full := Bytes.toList_padded_ne_nil w n
  have unsigned : ∀ rest, (Bytes.padded w n).toList ≠ '+' :: rest := fun rest h =>
    absurd (Bytes.isDigit_of_mem_padded (h ▸ List.mem_cons_self (a := '+') (l := rest))) (by decide)
  unfold parseNumber?
  -- a padded number starts with a digit, so no sign is stripped: `unsigned` settles the match
  simp only [ne_eq, full, not_false_eq_true, digits, value, hn, and_self, if_true]

/-- What reads as a number is a 64-bit word. -/
theorem lt_of_parseNumber? {s : String} {n : Nat} (h : parseNumber? s = some n) : n < 2 ^ 64 := by
  unfold parseNumber? at h
  dsimp only at h
  split_ifs at h with ok
  cases h
  exact ok.2.2

/-- A text without `c` followed by `c` splits there. -/
theorem splitFirst?_append {c : Char} {xs ys : List Char} (hx : c ∉ xs) :
    splitFirst? c (xs ++ c :: ys) = some (xs, ys) := by
  have keep : ∀ a ∈ xs, (a != c) = true := fun a ha => by
    rw [bne_iff_ne]
    rintro rfl
    exact hx ha
  simp [splitFirst?, List.span_eq_takeWhile_dropWhile, List.takeWhile_append_of_pos keep,
    List.dropWhile_append_of_pos keep]

/-- A text without `c` does not split at it. -/
theorem splitFirst?_of_not_mem {c : Char} {xs : List Char} (hx : c ∉ xs) : splitFirst? c xs = none := by
  have keep : ∀ a ∈ xs, (a != c) = true := fun a ha => by
    rw [bne_iff_ne]
    rintro rfl
    exact hx ha
  simp only [splitFirst?, List.span_eq_takeWhile_dropWhile, List.dropWhile_eq_nil_iff.2 keep]

/-- A name splits at the dot before an extension that has no dot in it. -/
theorem splitExtension?_append {stem ext : String} (hext : '.' ∉ ext.toList) :
    splitExtension? (stem ++ "." ++ ext) = some (stem, ext) := by
  have reversed : (stem ++ "." ++ ext).toList.reverse = ext.toList.reverse ++ '.' :: stem.toList.reverse := by
    simp
  rw [splitExtension?, reversed, splitFirst?_append (by simpa using hext)]
  simp

theorem extension?_append {stem ext : String} (hstem : stem ≠ "") (hext : '.' ∉ ext.toList) :
    extension? (stem ++ "." ++ ext) = some ext := by
  have full : stem.isEmpty = false := by simp [hstem]
  simp only [extension?, splitExtension?_append hext, full, Bool.false_eq_true, if_false]

end FileName

/-! ## Directories -/

theorem walDir_isName : IsName walDir := IsName.of_toList (by decide) (by decide) (by decide) (by decide)

theorem tableDir_isName : IsName tableDir :=
  IsName.of_toList (by decide) (by decide) (by decide) (by decide)

theorem walDir_ne_tableDir : walDir ≠ tableDir := by decide

/-! ## Log segments -/

namespace Wal

theorem toList_segmentName (g : Nat) :
    (segmentName g).toList = (Bytes.padded 6 g).toList ++ ".log".toList := by
  simp [segmentName]

theorem segmentName_isName {g : Nat} (hg : g < 2 ^ 64) : IsName (segmentName g) := by
  have few := Bytes.length_padded_le hg
  apply IsName.of_toList
  · simp [toList_segmentName]
  · intro h
    have := congrArg List.length h
    simp [toList_segmentName] at this
  · intro slash
    rw [toList_segmentName, List.mem_append] at slash
    rcases slash with slash | slash
    · exact absurd (Bytes.isDigit_of_mem_padded slash) (by decide)
    · exact absurd slash (by decide)
  · rw [← String.length_toList, toList_segmentName, List.length_append, String.length_toList]
    simp only [show ".log".toList.length = 4 from rfl]
    omega

/-- A segment's name reads back as its generation. -/
theorem parseSegmentName?_segmentName {g : Nat} (hg : g < 2 ^ 64) :
    parseSegmentName? (segmentName g) = some g := by
  have noDot : '.' ∉ "log".toList := by decide
  have stem : Bytes.padded 6 g ≠ "" := fun h => Bytes.toList_padded_ne_nil 6 g (by rw [h]; rfl)
  have split : segmentName g = Bytes.padded 6 g ++ "." ++ "log" := by
    simp only [segmentName, String.append_assoc]
    rfl
  simp only [parseSegmentName?, split, FileName.extension?_append stem noDot,
    FileName.splitExtension?_append noDot, FileName.parseNumber?_padded hg]

/-- What reads as a segment's generation is a 64-bit word. -/
theorem lt_of_parseSegmentName? {name : String} {g : Nat} (h : parseSegmentName? name = some g) :
    g < 2 ^ 64 := by
  unfold parseSegmentName? at h
  split at h
  · exact FileName.lt_of_parseNumber? h
  · cases h

theorem segmentName_inj {g g' : Nat} (hg : g < 2 ^ 64) (hg' : g' < 2 ^ 64) :
    segmentName g = segmentName g' ↔ g = g' := by
  constructor
  · intro same
    have := congrArg parseSegmentName? same
    rwa [parseSegmentName?_segmentName hg, parseSegmentName?_segmentName hg', Option.some_inj] at this
  · rintro rfl
    rfl

end Wal

/-! ## Table files -/

namespace TableId

/-- An identity whose file names read back as it: its numbers are 64-bit words, and a compacted
range does not run backwards. -/
def Valid (id : TableId) : Prop := id.generation < 2 ^ 64 ∧ id.base ≤ id.generation

theorem toList_stem (id : TableId) : id.stem.toList = namePrefix.toList ++ match id with
    | .flushed g => (Bytes.padded 6 g).toList
    | .compacted b g => (Bytes.padded 6 b).toList ++ '_' :: (Bytes.padded 6 g).toList := by
  cases id <;> simp [stem]

theorem mem_stem {id : TableId} {c : Char} (h : c ∈ id.stem.toList) :
    c ∈ namePrefix.toList ∨ c = '_' ∨ c.isDigit = true := by
  rw [toList_stem, List.mem_append] at h
  rcases h with h | h
  · exact .inl h
  · cases id with
    | flushed g => exact .inr (.inr (Bytes.isDigit_of_mem_padded h))
    | compacted b g =>
      simp only [List.mem_append, List.mem_cons] at h
      rcases h with h | h | h
      · exact .inr (.inr (Bytes.isDigit_of_mem_padded h))
      · exact .inr (.inl h)
      · exact .inr (.inr (Bytes.isDigit_of_mem_padded h))

theorem slash_not_mem_stem (id : TableId) : '/' ∉ id.stem.toList := by
  intro h
  rcases mem_stem h with h | h | h
  · exact absurd h (by decide)
  · exact absurd h (by decide)
  · exact absurd h (by decide)

theorem length_stem_le {id : TableId} (hv : id.Valid) : id.stem.length ≤ 49 := by
  have hg := Bytes.length_padded_le hv.1
  have hb := Bytes.length_padded_le (Nat.lt_of_le_of_lt hv.2 hv.1)
  rw [← String.length_toList, toList_stem]
  cases id with
  | flushed g =>
    simp only [generation] at hg
    simp only [List.length_append, String.length_toList, show namePrefix.toList.length = 8 from rfl]
    omega
  | compacted b g =>
    simp only [generation, base] at hg hb
    simp only [List.length_append, List.length_cons, String.length_toList,
      show namePrefix.toList.length = 8 from rfl]
    omega

theorem extension_no_dot (role : FileRole) : '.' ∉ role.extension.toList := by
  cases role <;> decide

theorem toList_fileName (id : TableId) (role : FileRole) :
    (id.fileName role).toList = id.stem.toList ++ '.' :: role.extension.toList := by
  simp [fileName]

theorem fileName_isName {id : TableId} (hv : id.Valid) (role : FileRole) : IsName (id.fileName role) := by
  have few := length_stem_le hv
  apply IsName.of_toList
  · simp [toList_fileName]
  · intro h
    have := congrArg List.length h
    cases role <;> simp [toList_fileName, FileRole.extension] at this
  · intro slash
    rw [toList_fileName, List.mem_append, List.mem_cons] at slash
    rcases slash with slash | slash | slash
    · exact slash_not_mem_stem id slash
    · exact absurd slash (by decide)
    · cases role <;> exact absurd slash (by decide)
  · rw [← String.length_toList, toList_fileName, List.length_append, List.length_cons,
      String.length_toList]
    cases role <;> simp only [FileRole.extension, show "data".toList.length = 4 from rfl,
      show "index".toList.length = 5 from rfl] <;> omega

theorem fileName_eq_append (id : TableId) (role : FileRole) :
    id.fileName role = id.stem ++ "." ++ role.extension := rfl

theorem stem_ne_empty (id : TableId) : id.stem ≠ "" := by
  intro h
  have named : namePrefix.toList ≠ [] := by decide
  have := congrArg String.toList h
  rw [toList_stem] at this
  exact named (List.append_eq_nil_iff.1 this).1

theorem fileName_ne_empty (id : TableId) (role : FileRole) : id.fileName role ≠ "" := by
  intro h
  have := congrArg String.toList h
  rw [toList_fileName] at this
  simp at this

theorem extension?_fileName (id : TableId) (role : FileRole) :
    FileName.extension? (id.fileName role) = some role.extension := by
  have stem := stem_ne_empty id
  rw [fileName_eq_append, FileName.extension?_append stem (extension_no_dot role)]

/-- A table's file name reads back as its identity and role: the extension names the role, and
what follows the prefix is one number, or two joined by the first underscore. -/
theorem parseFileName?_fileName {id : TableId} (hv : id.Valid) (role : FileRole) :
    parseFileName? (id.fileName role) = some (id, role) := by
  have pre : ∀ rest, namePrefix.toList.isPrefixOf (namePrefix.toList ++ rest) = true := fun rest =>
    List.isPrefixOf_iff_prefix.2 (List.prefix_append _ _)
  have notData : ¬ ("index" = "data") := by decide
  rw [parseFileName?, fileName_eq_append, FileName.splitExtension?_append (extension_no_dot role)]
  cases id with
  | flushed g =>
    have hg : g < 2 ^ 64 := hv.1
    have noSep : '_' ∉ (Bytes.padded 6 g).toList := fun h =>
      absurd (Bytes.isDigit_of_mem_padded h) (by decide)
    cases role <;> simp only [Option.bind_eq_bind, Option.bind_some, FileRole.extension, toList_stem,
      pre, if_true, if_neg notData, List.drop_left, FileName.splitFirst?_of_not_mem noSep,
      String.ofList_toList, FileName.parseNumber?_padded hg] <;> rfl
  | compacted b g =>
    have hg : g < 2 ^ 64 := hv.1
    have le : b ≤ g := hv.2
    have noSep : '_' ∉ (Bytes.padded 6 b).toList := fun h =>
      absurd (Bytes.isDigit_of_mem_padded h) (by decide)
    cases role <;> simp only [Option.bind_eq_bind, Option.bind_some, FileRole.extension, toList_stem,
      pre, if_true, if_neg notData, List.drop_left, FileName.splitFirst?_append noSep,
      String.ofList_toList, FileName.parseNumber?_padded (Nat.lt_of_le_of_lt le hg),
      FileName.parseNumber?_padded hg, le] <;> rfl

theorem fileName_inj {id id' : TableId} {role role' : FileRole} (hv : id.Valid) (hv' : id'.Valid) :
    id.fileName role = id'.fileName role' ↔ id = id' ∧ role = role' := by
  constructor
  · intro same
    have := congrArg parseFileName? same
    rw [parseFileName?_fileName hv, parseFileName?_fileName hv', Option.some_inj, Prod.mk.injEq] at this
    exact this
  · rintro ⟨rfl, rfl⟩
    rfl

/-- The temporary name of a table file is a component too. -/
theorem tmp_isName {id : TableId} (hv : id.Valid) (role : FileRole) :
    IsName (id.fileName role ++ ".tmp") := by
  have named := fileName_isName hv role
  have few := length_stem_le hv
  apply IsName.of_toList
  · simp
  · intro h
    have := congrArg List.length h
    simp at this
  · intro slash
    rw [String.toList_append, List.mem_append] at slash
    rcases slash with slash | slash
    · exact named.no_slash slash
    · exact absurd slash (by decide)
  · rw [← String.length_toList, String.toList_append, List.length_append, toList_fileName,
      List.length_append, List.length_cons, String.length_toList]
    cases role <;> simp only [FileRole.extension, show "data".toList.length = 4 from rfl,
      show "index".toList.length = 5 from rfl, show ".tmp".toList.length = 4 from rfl] <;> omega

/-- A temporary name has the extension `tmp`. -/
theorem extension?_tmp (id : TableId) (role : FileRole) :
    FileName.extension? (id.fileName role ++ ".tmp") = some "tmp" := by
  have full := fileName_ne_empty id role
  rw [show id.fileName role ++ ".tmp" = id.fileName role ++ "." ++ "tmp" by
      rw [String.append_assoc]; rfl,
    FileName.extension?_append full (by decide)]

/-- A temporary name is no table file name. -/
theorem parseFileName?_tmp (id : TableId) (role : FileRole) :
    parseFileName? (id.fileName role ++ ".tmp") = none := by
  rw [parseFileName?, show id.fileName role ++ ".tmp" = id.fileName role ++ "." ++ "tmp" by
      rw [String.append_assoc]; rfl,
    FileName.splitExtension?_append (by decide)]
  have notData : ¬ ("tmp" = "data") := by decide
  have notIndex : ¬ ("tmp" = "index") := by decide
  simp only [Option.bind_eq_bind, Option.bind_some, if_neg notData, if_neg notIndex, Option.bind_none]

theorem fileName_ne_tmp (id id' : TableId) (role role' : FileRole) :
    id.fileName role ≠ id'.fileName role' ++ ".tmp" := by
  intro same
  have := congrArg FileName.extension? same
  rw [extension?_fileName, extension?_tmp, Option.some_inj] at this
  cases role <;> exact absurd this (by decide)

theorem tmp_inj {id id' : TableId} {role role' : FileRole} (hv : id.Valid) (hv' : id'.Valid) :
    id.fileName role ++ ".tmp" = id'.fileName role' ++ ".tmp" ↔ id = id' ∧ role = role' := by
  rw [← fileName_inj hv hv']
  constructor
  · intro same
    have := congrArg String.toList same
    simp only [String.toList_append, List.append_cancel_right_eq] at this
    exact String.toList_injective this
  · intro same
    rw [same]

end TableId

theorem Table.tmpName_join (d n : String) (hd : d ≠ "") :
    Table.tmpName (Volume.join d n) = Volume.join d (n ++ ".tmp") := by
  have full : d.isEmpty = false := by simp [hd]
  simp only [Table.tmpName, Volume.join, full, Bool.false_eq_true, if_false, String.append_assoc]

end LsmStore
