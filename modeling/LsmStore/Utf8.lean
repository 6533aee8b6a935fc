import LsmStore.Bytes

/-!
# Reading bytes as text, lossily

Keys and values are bytes; to print them, each well-formed UTF-8 sequence becomes its character
and everything else becomes the replacement character U+FFFD. An ill-formed sequence is
replaced one maximal prefix at a time: a lead byte followed by as many bytes as could still
continue it, and the first byte that cannot continue it starts over. So `E2 82` before an ASCII
byte gives one replacement character, and a stray continuation byte gives one on its own.

## Main definitions

* `Bytes.leadRange` — what may follow a lead byte
* `Bytes.toStringLossy` — the text of some bytes, with replacements
-/

namespace LsmStore

namespace Bytes

/-- For a byte that leads a sequence of two to four bytes: the bits it contributes, the range
of the byte after it, and the number of bytes after it. Any later byte lies in `80..BF`. The
ranges rule out overlong forms, surrogates and code points past `10FFFF`. -/
def leadRange (b : UInt8) : Option (Nat × UInt8 × UInt8 × Nat) :=
  if 0xC2 ≤ b ∧ b ≤ 0xDF then some ((b &&& 0x1F).toNat, 0x80, 0xBF, 1)
  else if b = 0xE0 then some ((b &&& 0x0F).toNat, 0xA0, 0xBF, 2)
  else if 0xE1 ≤ b ∧ b ≤ 0xEC then some ((b &&& 0x0F).toNat, 0x80, 0xBF, 2)
  else if b = 0xED then some ((b &&& 0x0F).toNat, 0x80, 0x9F, 2)
  else if 0xEE ≤ b ∧ b ≤ 0xEF then some ((b &&& 0x0F).toNat, 0x80, 0xBF, 2)
  else if b = 0xF0 then some ((b &&& 0x07).toNat, 0x90, 0xBF, 3)
  else if 0xF1 ≤ b ∧ b ≤ 0xF3 then some ((b &&& 0x07).toNat, 0x80, 0xBF, 3)
  else if b = 0xF4 then some ((b &&& 0x07).toNat, 0x80, 0x8F, 3)
  else none

/-- How many of the next `n` bytes continue a sequence, the first in `[lo, hi]` and the rest in
`80..BF`, and the code point they build on `acc`. -/
def continuation (lo hi : UInt8) (acc : Nat) : Nat → Bytes → Nat × Nat
  | 0, _ => (0, acc)
  | _ + 1, [] => (0, acc)
  | n + 1, c :: cs =>
    if lo ≤ c ∧ c ≤ hi then
      let (k, code) := continuation 0x80 0xBF (acc * 64 + (c &&& 0x3F).toNat) n cs
      (k + 1, code)
    else (0, acc)

/-- The characters of some bytes, with each maximal ill-formed prefix replaced by U+FFFD. -/
def decodeLossy (bs : Bytes) : List Char :=
  match bs with
  | [] => []
  | b :: rest =>
    if b < 0x80 then Char.ofNat b.toNat :: decodeLossy rest
    else match leadRange b with
      | none => '�' :: decodeLossy rest
      | some (bits, lo, hi, n) =>
        let (k, code) := continuation lo hi bits n rest
        if k = n then Char.ofNat code :: decodeLossy (rest.drop n)
        else '�' :: decodeLossy (rest.drop k)
termination_by bs.length
decreasing_by all_goals simp only [List.length_drop, List.length_cons]; omega

/-- The text of some bytes, with replacement characters where they are not UTF-8. -/
def toStringLossy (bs : Bytes) : String := String.ofList (decodeLossy bs)

end Bytes

end LsmStore
