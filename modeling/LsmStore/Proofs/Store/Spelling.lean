import Mathlib
import LsmStore.Proofs.Store.Names
import LsmStore.Proofs.Table.Cleanup

/-!
# Every spelling of a name

The store writes the numbers in its file names zero-padded to six digits, and reads them back
with a 64-bit decimal parse. That parse also takes a plus sign in front and any number of
leading zeros, so writing a name and reading it back gives the number again, but reading is not
injective: `sstable_5.data`, `sstable_+000005.data` and `sstable_000005.data` all read as the
data file of table 5, and `5.log` reads as the segment of generation 5. Of these, only the
last table name and `000005.log` are names the store writes, and opens or removes.

This module says exactly which names read as what. A number is read from a spelling: an
optional plus sign, some zeros, then its decimal digits. A table file name is the table prefix,
the spelling of its generation (or of its base and generation, joined by an underscore), a dot
and the role's extension. A segment name is a spelling of its generation followed by `.log`.

## Main definitions

* `FileName.Spells` — a text that the 64-bit parse reads as a given number
* `TableId.Spells` — a text that reads as the numbers of a table identity

## Main results

* `FileName.parseNumber?_eq_some_iff` — what reads as a number
* `TableId.parseFileName?_eq_some_iff` — what reads as a table file name
* `Wal.parseSegmentName?_eq_some_iff` — what reads as a segment name
* `names_read_back_spellings` — writing then reading gives the name's meaning back, and reading
  accepts exactly the spellings
-/

namespace LsmStore

namespace FileName

/-- `s` spells `n` as the 64-bit parse reads it: an optional plus sign, some zeros, then the
decimal digits of `n`. -/
def Spells (n : Nat) (s : String) : Prop :=
  ∃ (plus : Bool) (zeros : Nat),
    s.toList = (if plus then ['+'] else []) ++ List.replicate zeros '0' ++ Nat.toDigits 10 n

/-! ## Digits and their value -/

/-- A decimal digit character is the digit of its value. -/
theorem digitChar_of_isDigit {c : Char} (digit : c.isDigit = true) : (c.toNat - 48).digitChar = c := by
  have range : 48 ≤ c.toNat ∧ c.toNat ≤ 57 := by
    simp only [Char.isDigit, Bool.and_eq_true, decide_eq_true_eq] at digit
    exact ⟨digit.1, digit.2⟩
  apply Char.toNat_inj.1
  rw [Nat.toNat_digitChar_of_lt_ten (by omega)]
  omega

theorem digitsValue_append_digit (ds : List Char) (d : Char) :
    digitsValue (ds ++ [d]) = 10 * digitsValue ds + (d.toNat - 48) := by
  simp only [digitsValue_eq, Nat.ofDigitChars_append, Nat.ofDigitChars_cons, Nat.ofDigitChars_nil]
  rfl

theorem digitsValue_zero_cons (ds : List Char) : digitsValue ('0' :: ds) = digitsValue ds := by
  simp only [digitsValue_eq, Nat.ofDigitChars_cons]
  rfl

/-- Digits that do not start with a zero have a positive value. -/
theorem digitsValue_pos {d : Char} {ds : List Char} (digit : d.isDigit = true) (lead : d ≠ '0') :
    0 < digitsValue (d :: ds) := by
  have value : 0 < d.toNat - 48 := by
    have := digitChar_of_isDigit digit
    by_contra zero
    rw [show d.toNat - 48 = 0 by omega] at this
    exact lead this.symm
  have first : 10 * 0 + (d.toNat - '0'.toNat) = d.toNat - 48 := by simp
  rw [digitsValue_eq, Nat.ofDigitChars_cons, Nat.ofDigitChars_eq_ofDigitChars_zero, first]
  have ten : 0 < 10 ^ ds.length := Nat.pow_pos (by decide)
  have := Nat.mul_pos ten value
  omega

/-- Digits that do not start with a zero are the decimal digits of their value. -/
theorem toDigits_digitsValue {ds : List Char} (digits : ∀ c ∈ ds, c.isDigit = true) (full : ds ≠ [])
    (lead : ds.head? ≠ some '0') : Nat.toDigits 10 (digitsValue ds) = ds := by
  induction ds using List.reverseRecOn with
  | nil => exact absurd rfl full
  | append_singleton ds d ih =>
    have digit : d.isDigit = true := digits d (by simp)
    have small : d.toNat - 48 < 10 := by
      have := digitChar_of_isDigit digit
      simp only [Char.isDigit, Bool.and_eq_true, decide_eq_true_eq] at digit
      have : d.toNat ≤ 57 := digit.2
      omega
    rw [digitsValue_append_digit]
    cases ds with
    | nil =>
      -- a single digit, which is not a zero
      show Nat.toDigits 10 (10 * 0 + (d.toNat - 48)) = [d]
      rw [Nat.mul_zero, Nat.zero_add, Nat.toDigits_of_lt_base small, digitChar_of_isDigit digit]
    | cons c cs =>
      -- the digits before the last one keep their leading digit, and their value is positive
      have front : ∀ x ∈ c :: cs, x.isDigit = true := fun x hx => digits x (List.mem_append_left [d] hx)
      have leadC : c ≠ '0' := by simpa using lead
      have pos : 0 < digitsValue (c :: cs) := digitsValue_pos (front c (by simp)) leadC
      rw [← Nat.toDigits_append_toDigits (by decide) pos small, ih front (by simp) (by simpa using lead),
        Nat.toDigits_of_lt_base small, digitChar_of_isDigit digit]

/-- Any decimal digits are some zeros followed by the decimal digits of their value. -/
theorem eq_zeros_append_toDigits {ds : List Char} (digits : ∀ c ∈ ds, c.isDigit = true) (full : ds ≠ []) :
    ∃ zeros, ds = List.replicate zeros '0' ++ Nat.toDigits 10 (digitsValue ds) := by
  induction ds with
  | nil => exact absurd rfl full
  | cons c rest ih =>
    by_cases zero : c = '0'
    · subst zero
      cases rest with
      | nil => exact ⟨0, rfl⟩
      | cons c' rest' =>
        -- a leading zero adds nothing to the value
        obtain ⟨zeros, split⟩ := ih (fun x hx => digits x (List.mem_cons_of_mem _ hx)) (by simp)
        refine ⟨zeros + 1, ?_⟩
        rw [digitsValue_zero_cons, List.replicate_succ, List.cons_append, ← split]
    · exact ⟨0, by rw [toDigits_digitsValue digits full (by simpa using zero)]; rfl⟩

/-! ## Numbers -/

theorem toList_spelling (plus : Bool) (zeros n : Nat) :
    ((if plus then ['+'] else []) ++ List.replicate zeros '0' ++ Nat.toDigits 10 n).all Char.isDigit =
      !plus := by
  have body : (List.replicate zeros '0' ++ Nat.toDigits 10 n).all Char.isDigit = true := by
    rw [List.all_eq_true]
    intro c hc
    rcases List.mem_append.1 hc with hc | hc
    · rw [(List.mem_replicate.1 hc).2]
      rfl
    · exact Nat.isDigit_of_mem_toDigits (by decide) (by decide) hc
  cases plus
  · simpa using body
  · simp

/-- The test and value of the 64-bit parse, once the sign is stripped: digits that spell `n`
read as `n`. -/
theorem parseDigits_spelling {n : Nat} (small : n < 2 ^ 64) (zeros : Nat) :
    (if List.replicate zeros '0' ++ Nat.toDigits 10 n ≠ [] ∧
        (List.replicate zeros '0' ++ Nat.toDigits 10 n).all Char.isDigit ∧
        digitsValue (List.replicate zeros '0' ++ Nat.toDigits 10 n) < 2 ^ (64 : Nat)
      then some (digitsValue (List.replicate zeros '0' ++ Nat.toDigits 10 n)) else none) = some n := by
  have value : digitsValue (List.replicate zeros '0' ++ Nat.toDigits 10 n) = n := by
    rw [digitsValue_eq, Nat.ofDigitChars_append, Nat.ofDigitChars_replicate_zero, Nat.mul_zero,
      Nat.ofDigitChars_ten_toDigits]
  have digits : (List.replicate zeros '0' ++ Nat.toDigits 10 n).all Char.isDigit = true := by
    simpa using toList_spelling false zeros n
  have full : List.replicate zeros '0' ++ Nat.toDigits 10 n ≠ [] := by simp
  rw [if_pos ⟨full, digits, by rw [value]; exact small⟩, value]

/-- The 64-bit parse strips a plus sign, if there is one, and tests and reads the digits left. -/
theorem parseNumber?_sign (s : String) :
    ∃ (plus : Bool) (ds : List Char), s.toList = (if plus then ['+'] else []) ++ ds ∧
      (plus = false → ds.head? ≠ some '+') ∧
      parseNumber? s = if ds ≠ [] ∧ ds.all Char.isDigit ∧ digitsValue ds < 2 ^ (64 : Nat)
        then some (digitsValue ds) else none := by
  unfold parseNumber?
  dsimp only
  split
  · rename_i rest signed
    exact ⟨true, rest, by rw [signed]; rfl, fun wrong => absurd wrong (by decide), rfl⟩
  · rename_i cs unsigned
    refine ⟨false, s.toList, rfl, fun _ head => ?_, rfl⟩
    obtain ⟨rest, signed⟩ : ∃ rest, s.toList = '+' :: rest := by
      cases h : s.toList with
      | nil => rw [h] at head; cases head
      | cons c rest => rw [h] at head; cases head; exact ⟨rest, rfl⟩
    exact unsigned rest signed

/-- A text reads as a number exactly when it spells a 64-bit word. -/
theorem parseNumber?_eq_some_iff {s : String} {n : Nat} :
    parseNumber? s = some n ↔ n < 2 ^ 64 ∧ Spells n s := by
  obtain ⟨signed, ds, split, unsigned, parse⟩ := parseNumber?_sign s
  rw [parse]
  constructor
  · intro parsed
    split_ifs at parsed with ok
    cases parsed
    obtain ⟨full, digits, small⟩ := ok
    obtain ⟨zeros, digitsEq⟩ := eq_zeros_append_toDigits (List.all_eq_true.1 digits) full
    refine ⟨small, signed, zeros, ?_⟩
    rw [split, List.append_assoc]
    exact congrArg _ digitsEq
  · rintro ⟨small, plus, zeros, spelled⟩
    -- the digits the parse reads are those after the sign of the spelling
    have digitsEq : ds = List.replicate zeros '0' ++ Nat.toDigits 10 n := by
      have digits := toList_spelling false zeros n
      simp only [Bool.false_eq_true, if_false, List.nil_append, Bool.not_false] at digits
      rw [split] at spelled
      cases signed <;> cases plus <;>
        simp only [Bool.false_eq_true, if_false, if_true, List.nil_append, List.cons_append,
          List.cons.injEq, true_and] at spelled
      · exact spelled
      · exact absurd (by rw [spelled]; rfl) (unsigned rfl)
      · rw [← spelled] at digits
        simp at digits
      · exact spelled
    rw [digitsEq]
    exact parseDigits_spelling small zeros

/-- A spelling is made of a sign and digits only. -/
theorem Spells.mem {n : Nat} {s : String} (spelled : Spells n s) {c : Char} (hc : c ∈ s.toList) :
    c = '+' ∨ c.isDigit = true := by
  obtain ⟨plus, zeros, spelled⟩ := spelled
  rw [spelled, List.mem_append, List.mem_append] at hc
  rcases hc with (sign | zero) | digit
  · left
    cases plus
    · cases sign
    · simpa using sign
  · right
    rw [(List.mem_replicate.1 zero).2]
    rfl
  · exact .inr (Nat.isDigit_of_mem_toDigits (by decide) (by decide) digit)

theorem Spells.underscore_not_mem {n : Nat} {s : String} (spelled : Spells n s) : '_' ∉ s.toList :=
  fun hc => by rcases spelled.mem hc with bad | bad <;> revert bad <;> decide

theorem Spells.ne_empty {n : Nat} {s : String} (spelled : Spells n s) : s ≠ "" := by
  rintro rfl
  obtain ⟨plus, zeros, spelled⟩ := spelled
  have := congrArg List.length spelled
  simp only [String.toList_empty, List.length_nil, List.length_append, List.length_replicate] at this
  have : 0 < (Nat.toDigits 10 n).length := Nat.length_toDigits_pos
  omega

/-! ## Splitting names -/

/-- A split at the first `c` cuts the text at a `c` that nothing before it equals. -/
theorem splitFirst?_eq_some {c : Char} {xs before after : List Char}
    (h : splitFirst? c xs = some (before, after)) : xs = before ++ c :: after ∧ c ∉ before := by
  unfold splitFirst? at h
  rw [List.span_eq_takeWhile_dropWhile] at h
  split at h
  · rename_i x rest dropped
    simp only [Option.some.injEq, Prod.mk.injEq] at h
    obtain ⟨rfl, rfl⟩ := h
    simp only [Prod.mk.injEq] at dropped
    obtain ⟨taken, dropped⟩ := dropped
    -- the first character kept back is the first `c`
    have kept : xs.dropWhile (fun a => a != c) ≠ [] := by rw [dropped]; simp
    have stop := List.head_dropWhile_not (fun a => a != c) kept
    simp only [dropped, List.head_cons, bne_eq_false_iff_eq] at stop
    refine ⟨?_, fun hc => ?_⟩
    · have whole : xs.takeWhile (fun a => a != c) ++ xs.dropWhile (fun a => a != c) = xs :=
        List.takeWhile_append_dropWhile
      rw [← whole, dropped, stop, taken]
    · have := List.mem_takeWhile_imp (taken ▸ hc)
      simp at this
  · cases h

/-- A name splits at its last dot into the stem before it and the extension after it. -/
theorem splitExtension?_eq_some {name stem ext : String} (h : splitExtension? name = some (stem, ext)) :
    name = stem ++ "." ++ ext := by
  unfold splitExtension? at h
  split at h
  · rename_i extR stemR split
    simp only [Option.some.injEq, Prod.mk.injEq] at h
    obtain ⟨rfl, rfl⟩ := h
    have reversed := (splitFirst?_eq_some split).1
    apply String.ext
    rw [← List.reverse_reverse name.toList, reversed]
    simp
  · cases h

/-- A name with an extension splits at its last dot, and something stands before that dot. -/
theorem splitExtension?_of_extension? {name ext : String} (h : extension? name = some ext) :
    ∃ stem, splitExtension? name = some (stem, ext) ∧ stem ≠ "" := by
  unfold extension? at h
  split at h
  · rename_i stem ext' split
    split_ifs at h with empty
    cases h
    exact ⟨stem, split, by simpa using empty⟩
  · cases h

end FileName

namespace TableId

open FileName

/-- `s` spells the numbers of `id` as a table file name holds them: the generation of a flushed
table, or the base and the generation of a compacted one joined by an underscore. -/
def Spells : TableId → String → Prop
  | .flushed g, s => FileName.Spells g s
  | .compacted b g, s => ∃ sb sg, FileName.Spells b sb ∧ FileName.Spells g sg ∧ s = sb ++ "_" ++ sg

/-- A stem that starts with the table prefix is the prefix followed by the rest of it. -/
theorem stem_of_isPrefixOf {stem : String} (h : namePrefix.toList.isPrefixOf stem.toList = true) :
    stem = namePrefix ++ String.ofList (stem.toList.drop namePrefix.toList.length) := by
  apply String.ext
  rw [String.toList_append, String.toList_ofList]
  exact (List.prefix_iff_eq_append.1 (List.isPrefixOf_iff_prefix.1 h)).symm

/-- The numbers of a compacted table's name: two spellings joined at the first underscore. -/
theorem spells_compacted {numbers baseText genText : List Char} {b g : Nat}
    (split : splitFirst? '_' numbers = some (baseText, genText))
    (parsedB : parseNumber? (String.ofList baseText) = some b)
    (parsedG : parseNumber? (String.ofList genText) = some g) :
    g < 2 ^ 64 ∧ (compacted b g).Spells (String.ofList numbers) := by
  obtain ⟨numbersEq, -⟩ := splitFirst?_eq_some split
  refine ⟨(parseNumber?_eq_some_iff.1 parsedG).1, _, _, (parseNumber?_eq_some_iff.1 parsedB).2,
    (parseNumber?_eq_some_iff.1 parsedG).2, ?_⟩
  rw [numbersEq, List.append_cons, String.ofList_append, String.ofList_append]

/-- A name that reads as a table file is the table prefix, a spelling of the identity's numbers,
a dot and the role's extension. -/
theorem spells_of_parseFileName? {name : String} {id : TableId} {role : FileRole}
    (h : parseFileName? name = some (id, role)) :
    ∃ s, id.Spells s ∧ name = namePrefix ++ s ++ "." ++ role.extension := by
  obtain ⟨stem, split, prefixed, numbers⟩ := parseFileName?_parts h
  have nameEq := splitExtension?_eq_some split
  rw [stem_of_isPrefixOf prefixed] at nameEq
  refine ⟨_, ?_, nameEq⟩
  rcases numbers with ⟨-, g, parsed, rfl⟩ | ⟨baseText, genText, b, g, splitAt, parsedB, parsedG, -, rfl⟩
  · exact (parseNumber?_eq_some_iff.1 parsed).2
  · exact (spells_compacted splitAt parsedB parsedG).2

/-- The prefix, a spelling of a valid identity's numbers, a dot and a role's extension read as
that identity and role. -/
theorem parseFileName?_spelling {id : TableId} {s : String} (valid : id.Valid) (spelled : id.Spells s)
    (role : FileRole) : parseFileName? (namePrefix ++ s ++ "." ++ role.extension) = some (id, role) := by
  have prefixed : namePrefix.toList.isPrefixOf (namePrefix ++ s).toList = true := by
    rw [String.toList_append]
    exact List.isPrefixOf_iff_prefix.2 (List.prefix_append _ _)
  have numbers : (namePrefix ++ s).toList.drop namePrefix.toList.length = s.toList := by
    rw [String.toList_append]
    exact List.drop_left' rfl
  unfold parseFileName?
  rw [splitExtension?_append (extension_no_dot role)]
  cases role <;> simp only [Option.bind_eq_bind, Option.bind_some, FileRole.extension, if_true,
    prefixed, numbers, show ("index" = "data") = False from by decide, if_false]
  -- whichever the role, the numbers read as the identity
  all_goals
    cases id with
    | flushed g =>
      rw [splitFirst?_of_not_mem (Spells.underscore_not_mem spelled), String.ofList_toList,
        parseNumber?_eq_some_iff.2 ⟨valid.1, spelled⟩]
      rfl
    | compacted b g =>
      obtain ⟨sb, sg, spelledB, spelledG, rfl⟩ := spelled
      have split : (sb ++ "_" ++ sg).toList = sb.toList ++ '_' :: sg.toList := by simp
      rw [split, splitFirst?_append spelledB.underscore_not_mem]
      dsimp only
      rw [String.ofList_toList, String.ofList_toList,
        parseNumber?_eq_some_iff.2 ⟨Nat.lt_of_le_of_lt valid.2 valid.1, spelledB⟩,
        parseNumber?_eq_some_iff.2 ⟨valid.1, spelledG⟩]
      simp only [Option.bind_some, if_pos valid.2]
      rfl

/-- A name reads as a table file exactly when it is the table prefix, a spelling of a valid
identity's numbers, a dot and the role's extension. -/
theorem parseFileName?_eq_some_iff {name : String} {id : TableId} {role : FileRole} :
    parseFileName? name = some (id, role) ↔
      id.Valid ∧ ∃ s, id.Spells s ∧ name = namePrefix ++ s ++ "." ++ role.extension := by
  constructor
  · intro parsed
    exact ⟨valid_of_parseFileName? parsed, spells_of_parseFileName? parsed⟩
  · rintro ⟨valid, s, spelled, rfl⟩
    exact parseFileName?_spelling valid spelled role

end TableId

namespace Wal

open FileName

/-- A name reads as a segment exactly when it is a spelling of a 64-bit generation followed by
`.log`. -/
theorem parseSegmentName?_eq_some_iff {name : String} {g : Nat} :
    parseSegmentName? name = some g ↔ g < 2 ^ 64 ∧ ∃ s, FileName.Spells g s ∧ name = s ++ ".log" := by
  have noDot : '.' ∉ "log".toList := by decide
  constructor
  · intro parsed
    unfold parseSegmentName? at parsed
    split at parsed
    · rename_i stem ext hasExt split
      obtain ⟨stem', split', -⟩ := splitExtension?_of_extension? hasExt
      rw [split, Option.some.injEq, Prod.mk.injEq] at split'
      obtain ⟨rfl, rfl⟩ := split'
      obtain ⟨small, spelled⟩ := parseNumber?_eq_some_iff.1 parsed
      refine ⟨small, stem, spelled, ?_⟩
      rw [splitExtension?_eq_some split, String.append_assoc]
      rfl
    · cases parsed
  · rintro ⟨small, s, spelled, rfl⟩
    have split : s ++ ".log" = s ++ "." ++ "log" := by
      rw [String.append_assoc]
      rfl
    simp only [parseSegmentName?, split, extension?_append spelled.ne_empty noDot,
      splitExtension?_append noDot, parseNumber?_eq_some_iff.2 ⟨small, spelled⟩]

end Wal

open TableId in
/-- Writing a table file name or a segment name and reading it back gives back what it was
written from. Reading is no more than a left inverse: it accepts exactly the names made of the
spellings of the numbers, an optional plus sign and any number of zeros before the digits, so
the names the store writes, padded to six digits, are only some of those that read as a table
file or a segment. -/
theorem names_read_back_spellings (id : TableId) (role : FileRole) (g : Nat) (name : String) :
    (id.Valid → parseFileName? (id.fileName role) = some (id, role)) ∧
    (g < 2 ^ 64 → Wal.parseSegmentName? (Wal.segmentName g) = some g) ∧
    (parseFileName? name = some (id, role) ↔
      id.Valid ∧ ∃ s, id.Spells s ∧ name = namePrefix ++ s ++ "." ++ role.extension) ∧
    (Wal.parseSegmentName? name = some g ↔
      g < 2 ^ 64 ∧ ∃ s, FileName.Spells g s ∧ name = s ++ ".log") :=
  ⟨fun valid => parseFileName?_fileName valid role,
    fun small => Wal.parseSegmentName?_segmentName small,
    parseFileName?_eq_some_iff,
    Wal.parseSegmentName?_eq_some_iff⟩

/-- `sstable_+0005_07.index` spells the index file of the compaction of generations 5 to 7. -/
theorem names_read_back_spellings_signedCompaction :
    TableId.parseFileName? "sstable_+0005_07.index" = some (.compacted 5 7, .index) :=
  (names_read_back_spellings (.compacted 5 7) .index 0 "sstable_+0005_07.index").2.2.1.2
    ⟨by unfold TableId.Valid; decide, "+0005_07",
      ⟨"+0005", "07", ⟨true, 3, by decide⟩, ⟨false, 1, by decide⟩, by decide⟩, by decide⟩

/-- Names the store never writes read as its files: `sstable_5.data` as the data file of table 5,
whose name is `sstable_000005.data`, and `5.log` as the segment of generation 5, whose name is
`000005.log`. -/
theorem parse_accepts_unwritten_names :
    TableId.parseFileName? "sstable_5.data" = some (.flushed 5, .data) ∧
      (TableId.flushed 5).fileName .data ≠ "sstable_5.data" ∧
      Wal.parseSegmentName? "5.log" = some 5 ∧ Wal.segmentName 5 ≠ "5.log" := by
  decide

end LsmStore
