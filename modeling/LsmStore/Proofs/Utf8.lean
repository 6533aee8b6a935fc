import Mathlib
import LsmStore.Utf8

/-!
# Lossy decoding keeps well-formed text

The command line stores the text it is given as its UTF-8 bytes and prints stored bytes by
lossy decoding. On bytes that are UTF-8, lossy decoding replaces nothing: every character's
encoding is a well-formed sequence of one to four bytes, and each such sequence decodes whole
to the code point it spells. So text that goes in comes out the same.

The decoder reads the lead byte's range of the next byte and the number of bytes after it, and
tests each later byte; its masks keep low bits, so on natural numbers every step is a
remainder, which is how the encoder writes the bytes too.

## Main results

* `Bytes.decodeLossy_one`, `decodeLossy_two`, `decodeLossy_three`, `decodeLossy_four` — each
  well-formed sequence of that length decodes whole
* `Bytes.decodeLossy_utf8EncodeChar` — a character's encoding decodes to that character
* `Bytes.toStringLossy_ofString` — text written as bytes prints back as the same text
-/

namespace LsmStore

namespace Bytes

/-! ## Bytes as numbers -/

/-- A mask of `k` one bits keeps a byte's value below `2 ^ k`. -/
theorem toNat_and_ones (b m : UInt8) (k : Nat) (hm : m.toNat = 2 ^ k - 1) :
    (b &&& m).toNat = b.toNat % 2 ^ k := by
  rw [UInt8.toNat_and, hm, Nat.and_two_pow_sub_one_eq_mod]

theorem byte_inside {lo hi c : UInt8} (above : lo.toNat ≤ c.toNat) (below : c.toNat ≤ hi.toNat) :
    lo ≤ c ∧ c ≤ hi :=
  ⟨UInt8.le_iff_toNat_le.2 above, UInt8.le_iff_toNat_le.2 below⟩

/-- A continuation byte, `80..BF`. -/
theorem tail_inside {c : UInt8} (tail : 0x80 ≤ c.toNat ∧ c.toNat ≤ 0xBF) :
    (0x80 : UInt8) ≤ c ∧ c ≤ 0xBF :=
  byte_inside tail.1 tail.2

theorem toNat_ite (p : Prop) [Decidable p] (x y : UInt8) :
    (if p then x else y).toNat = if p then x.toNat else y.toNat := by
  split <;> rfl

/-- A byte written as a remainder plus an offset that stay below 256 has that value. -/
theorem toNat_ofNat_mod_add (a m k : Nat) (pos : 0 < m) (fits : m + k ≤ 256) :
    (UInt8.ofNat (a % m + k)).toNat = a % m + k :=
  UInt8.toNat_ofNat_of_lt' (Nat.lt_of_lt_of_le (Nat.add_lt_add_right (Nat.mod_lt a pos) k) fits)

/-! ## The decoder's steps -/

theorem leadRange_of_two {b : UInt8} (lead : 0xC2 ≤ b.toNat ∧ b.toNat ≤ 0xDF) :
    leadRange b = some (b.toNat % 32, 0x80, 0xBF, 1) := by
  rw [leadRange, if_pos (byte_inside lead.1 lead.2 : (0xC2 : UInt8) ≤ b ∧ b ≤ 0xDF),
    toNat_and_ones b 0x1F 5 rfl]
  rfl

/-- A lead byte `E0..EF` takes two more bytes; after `E0` the next is at least `A0` (no
overlong form), and after `ED` at most `9F` (no surrogate). -/
theorem leadRange_of_three {b : UInt8} (lead : 0xE0 ≤ b.toNat ∧ b.toNat ≤ 0xEF) :
    leadRange b = some (b.toNat % 16, if b.toNat = 0xE0 then 0xA0 else 0x80,
      if b.toNat = 0xED then 0x9F else 0xBF, 2) := by
  have four := toNat_and_ones b 0x0F 4 rfl
  simp only [leadRange, UInt8.le_iff_toNat_le, ← UInt8.toNat_inj, four, UInt8.reduceToNat,
    Nat.reducePow]
  generalize b.toNat = n at lead ⊢
  -- the decoder tests `E0`, `E1..EC`, `ED` and `EE..EF` apart
  obtain rfl | mid | rfl | high :
      n = 0xE0 ∨ (0xE1 ≤ n ∧ n ≤ 0xEC) ∨ n = 0xED ∨ (0xEE ≤ n ∧ n ≤ 0xEF) := by omega
  · rfl
  · rw [if_neg (by omega), if_neg (by omega), if_pos mid, if_neg (by omega), if_neg (by omega)]
  · rfl
  · rw [if_neg (by omega), if_neg (by omega), if_neg (by omega), if_neg (by omega), if_pos high,
      if_neg (by omega), if_neg (by omega)]

/-- A lead byte `F0..F4` takes three more bytes; after `F0` the next is at least `90` (no
overlong form), and after `F4` at most `8F` (nothing past `10FFFF`). -/
theorem leadRange_of_four {b : UInt8} (lead : 0xF0 ≤ b.toNat ∧ b.toNat ≤ 0xF4) :
    leadRange b = some (b.toNat % 8, if b.toNat = 0xF0 then 0x90 else 0x80,
      if b.toNat = 0xF4 then 0x8F else 0xBF, 3) := by
  have three := toNat_and_ones b 0x07 3 rfl
  simp only [leadRange, UInt8.le_iff_toNat_le, ← UInt8.toNat_inj, three, UInt8.reduceToNat,
    Nat.reducePow]
  generalize b.toNat = n at lead ⊢
  -- the decoder tests `F0`, `F1..F3` and `F4` apart
  obtain rfl | mid | rfl : n = 0xF0 ∨ (0xF1 ≤ n ∧ n ≤ 0xF3) ∨ n = 0xF4 := by omega
  · rfl
  · rw [if_neg (by omega), if_neg (by omega), if_neg (by omega), if_neg (by omega),
      if_neg (by omega), if_neg (by omega), if_pos mid, if_neg (by omega), if_neg (by omega)]
  · rfl

@[simp] theorem continuation_zero (lo hi : UInt8) (acc : Nat) (cs : Bytes) :
    continuation lo hi acc 0 cs = (0, acc) := by
  rw [continuation]

theorem continuation_cons {lo hi c : UInt8} (acc n : Nat) (cs : Bytes) (inside : lo ≤ c ∧ c ≤ hi) :
    continuation lo hi acc (n + 1) (c :: cs) =
      ((continuation 0x80 0xBF (acc * 64 + c.toNat % 64) n cs).1 + 1,
        (continuation 0x80 0xBF (acc * 64 + c.toNat % 64) n cs).2) := by
  rw [continuation, if_pos inside, toNat_and_ones c 0x3F 6 rfl]
  rfl

/-- A lead byte whose later bytes all continue it decodes to the code point they build. -/
theorem decodeLossy_lead {b : UInt8} {rest : Bytes} {bits n code : Nat} {lo hi : UInt8}
    (big : 0x80 ≤ b.toNat) (lead : leadRange b = some (bits, lo, hi, n))
    (whole : continuation lo hi bits n rest = (n, code)) :
    decodeLossy (b :: rest) = Char.ofNat code :: decodeLossy (rest.drop n) := by
  rw [decodeLossy, if_neg (by rw [UInt8.lt_iff_toNat_lt]; simpa using big), lead]
  simp only [whole, if_pos]

/-! ## Well-formed sequences decode whole -/

theorem decodeLossy_one {b : UInt8} (rest : Bytes) (small : b.toNat < 0x80) :
    decodeLossy (b :: rest) = Char.ofNat b.toNat :: decodeLossy rest := by
  rw [decodeLossy, if_pos (UInt8.lt_iff_toNat_lt.2 small)]

theorem decodeLossy_two {b c : UInt8} (rest : Bytes) (lead : 0xC2 ≤ b.toNat ∧ b.toNat ≤ 0xDF)
    (tc : 0x80 ≤ c.toNat ∧ c.toNat ≤ 0xBF) :
    decodeLossy (b :: c :: rest) =
      Char.ofNat (b.toNat % 32 * 64 + c.toNat % 64) :: decodeLossy rest := by
  refine decodeLossy_lead (by omega) (leadRange_of_two lead) ?_
  rw [continuation_cons _ _ _ (tail_inside tc), continuation_zero]

theorem decodeLossy_three {b c d : UInt8} (rest : Bytes) (lead : 0xE0 ≤ b.toNat ∧ b.toNat ≤ 0xEF)
    (tc : 0x80 ≤ c.toNat ∧ c.toNat ≤ 0xBF) (e0 : b.toNat = 0xE0 → 0xA0 ≤ c.toNat)
    (ed : b.toNat = 0xED → c.toNat ≤ 0x9F) (td : 0x80 ≤ d.toNat ∧ d.toNat ≤ 0xBF) :
    decodeLossy (b :: c :: d :: rest) =
      Char.ofNat ((b.toNat % 16 * 64 + c.toNat % 64) * 64 + d.toNat % 64) :: decodeLossy rest := by
  refine decodeLossy_lead (by omega) (leadRange_of_three lead) ?_
  have second : (if b.toNat = 0xE0 then 0xA0 else 0x80 : UInt8) ≤ c ∧
      c ≤ if b.toNat = 0xED then 0x9F else 0xBF := by
    refine byte_inside ?_ ?_ <;> rw [toNat_ite] <;> split
    exacts [e0 ‹_›, tc.1, ed ‹_›, tc.2]
  rw [continuation_cons _ _ _ second, continuation_cons _ _ _ (tail_inside td), continuation_zero]

theorem decodeLossy_four {b c d e : UInt8} (rest : Bytes) (lead : 0xF0 ≤ b.toNat ∧ b.toNat ≤ 0xF4)
    (tc : 0x80 ≤ c.toNat ∧ c.toNat ≤ 0xBF) (f0 : b.toNat = 0xF0 → 0x90 ≤ c.toNat)
    (f4 : b.toNat = 0xF4 → c.toNat ≤ 0x8F) (td : 0x80 ≤ d.toNat ∧ d.toNat ≤ 0xBF)
    (te : 0x80 ≤ e.toNat ∧ e.toNat ≤ 0xBF) :
    decodeLossy (b :: c :: d :: e :: rest) =
      Char.ofNat (((b.toNat % 8 * 64 + c.toNat % 64) * 64 + d.toNat % 64) * 64 + e.toNat % 64) ::
        decodeLossy rest := by
  refine decodeLossy_lead (by omega) (leadRange_of_four lead) ?_
  have second : (if b.toNat = 0xF0 then 0x90 else 0x80 : UInt8) ≤ c ∧
      c ≤ if b.toNat = 0xF4 then 0x8F else 0xBF := by
    refine byte_inside ?_ ?_ <;> rw [toNat_ite] <;> split
    exacts [f0 ‹_›, tc.1, f4 ‹_›, tc.2]
  rw [continuation_cons _ _ _ second, continuation_cons _ _ _ (tail_inside td),
    continuation_cons _ _ _ (tail_inside te), continuation_zero]

/-! ## Characters and text -/

/-- Lossy decoding reads a character's UTF-8 encoding back as that character. -/
theorem decodeLossy_utf8EncodeChar (c : Char) (rest : Bytes) :
    decodeLossy (String.utf8EncodeChar c ++ rest) = c :: decodeLossy rest := by
  -- a scalar value is below `D800`, or above `DFFF` and below `110000`
  have valid : c.toNat < 0xD800 ∨ (0xDFFF < c.toNat ∧ c.toNat < 0x110000) := c.valid
  have back : ∀ {n}, n = c.toNat → Char.ofNat n = c := fun h => h ▸ Char.ofNat_toNat c
  unfold String.utf8EncodeChar
  simp only [Char.toNat_val]
  -- the encoder's cases are the sequence lengths; past one byte, each byte it writes is a
  -- remainder plus a marker, below 256
  split_ifs with one two three
  · have small : (UInt8.ofNat c.toNat).toNat = c.toNat :=
      UInt8.toNat_ofNat_of_lt' (Nat.lt_of_le_of_lt one (by decide))
    rw [List.singleton_append, decodeLossy_one _ (by rw [small]; omega), small, back rfl]
  · rw [List.cons_append, List.singleton_append, decodeLossy_two]
    all_goals simp (disch := decide) only [toNat_ofNat_mod_add]
    · rw [back (by omega)]
    all_goals omega
  · rw [List.cons_append, List.cons_append, List.singleton_append, decodeLossy_three]
    all_goals simp (disch := decide) only [toNat_ofNat_mod_add]
    · rw [back (by omega)]
    all_goals omega
  · rw [List.cons_append, List.cons_append, List.cons_append, List.singleton_append,
      decodeLossy_four]
    all_goals simp (disch := decide) only [toNat_ofNat_mod_add]
    · rw [back (by omega)]
    all_goals omega

theorem decodeLossy_flatMap_utf8EncodeChar (cs : List Char) :
    decodeLossy (cs.flatMap String.utf8EncodeChar) = cs := by
  induction cs with
  | nil => rw [List.flatMap_nil, decodeLossy]
  | cons c cs ih => rw [List.flatMap_cons, decodeLossy_utf8EncodeChar, ih]

/-- The bytes of a byte array, as a list, are those of its array. -/
theorem toList_byteArray (bs : ByteArray) : bs.toList = bs.data.toList := by
  obtain ⟨data⟩ := bs
  have size : ByteArray.size ⟨data⟩ = data.toList.length := by
    rw [Array.length_toList]
    rfl
  -- the loop has taken the first `i` bytes, last first
  have loop : ∀ i r, ByteArray.toList.loop ⟨data⟩ i r = r.reverse ++ data.toList.drop i := by
    intro i r
    fun_induction ByteArray.toList.loop ⟨data⟩ i r with
    | case1 i r inside ih =>
      rw [size] at inside
      have at_i : ByteArray.get! ⟨data⟩ i = data.toList[i] := by
        show data[i]! = _
        rw [getElem!_pos data i (by simpa using inside), Array.getElem_toList]
      rw [ih, List.reverse_cons, List.append_assoc, List.singleton_append, at_i,
        ← List.drop_eq_getElem_cons]
    | case2 i r past =>
      rw [size, Nat.not_lt] at past
      rw [List.drop_eq_nil_of_le past, List.append_nil]
  exact (loop 0 []).trans (List.nil_append _)

theorem ofString_eq (s : String) : ofString s = s.toList.flatMap String.utf8EncodeChar := by
  rw [ofString, String.toUTF8_eq_toByteArray, ← String.utf8Encode_toList, List.utf8Encode,
    toList_byteArray, List.toList_data_toByteArray]

/-- Text written as bytes prints back as the same text: lossy decoding replaces nothing in
well-formed UTF-8. -/
theorem toStringLossy_ofString (s : String) : toStringLossy (ofString s) = s := by
  rw [toStringLossy, ofString_eq, decodeLossy_flatMap_utf8EncodeChar, String.ofList_toList]

end Bytes

end LsmStore
