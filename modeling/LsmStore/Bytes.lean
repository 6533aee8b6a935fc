/-!
# Byte strings

Keys, values, log records and table files are all byte strings. This module fixes the
representation (a list of bytes, so that framing lemmas are list lemmas), the fixed-width
little-endian words every on-disk format here uses, and the few textual renderings of
numbers and bytes that appear in messages.

## Main definitions

* `LsmStore.Bytes` — a byte string
* `Bytes.ofNatLE` / `Bytes.toNatLE` — little-endian words of a given width
* `Bytes.takeWord` — split a word off the front of a buffer, if it holds one
* `Bytes.toHex`, `Bytes.decimal`, `Bytes.padded`, `Bytes.hexWord` — renderings used in texts

## Main results

* `toNatLE_ofNatLE` — a word read back is the number written, reduced modulo its width
* `takeWord_ofNatLE_append` — a written word is split off again, leaving the rest
-/

namespace LsmStore

/-- Powers of natural numbers go through `Nat.pow`, whatever algebra is imported beside this
library, so that a statement about a power means the same wherever it is read. -/
instance (priority := high) natPow : Pow Nat Nat := instPowNat

/-- A byte string: a key, a value, a log record or a file's contents. -/
abbrev Bytes := List UInt8

namespace Bytes

/-- The `width` low bytes of `n`, least significant first. -/
def ofNatLE : Nat → Nat → Bytes
  | 0, _ => []
  | w + 1, n => UInt8.ofNat (n % 256) :: ofNatLE w (n / 256)

/-- Reads bytes as an unsigned number, least significant first. -/
def toNatLE : Bytes → Nat
  | [] => 0
  | b :: bs => b.toNat + 256 * toNatLE bs

/-- Splits a `width`-byte little-endian word off the front of `bs`, if `bs` is long enough. -/
def takeWord (width : Nat) (bs : Bytes) : Option (Nat × Bytes) :=
  if width ≤ bs.length then some (toNatLE (bs.take width), bs.drop width) else none

@[simp] theorem length_ofNatLE (w n : Nat) : (ofNatLE w n).length = w := by
  induction w generalizing n with
  | zero => rfl
  | succ w ih => simp [ofNatLE, ih]

theorem toNatLE_ofNatLE (w n : Nat) : toNatLE (ofNatLE w n) = n % 256 ^ w := by
  induction w generalizing n with
  | zero => simp [ofNatLE, toNatLE, Nat.mod_one]
  | succ w ih =>
    have h256 : (UInt8.ofNat (n % 256)).toNat = n % 256 := by simp
    simp only [ofNatLE, toNatLE, h256, ih]
    rw [Nat.pow_succ, Nat.mul_comm (256 ^ w) 256, Nat.mod_mul, Nat.add_comm]

theorem takeWord_ofNatLE_append (w n : Nat) (rest : Bytes) :
    takeWord w (ofNatLE w n ++ rest) = some (n % 256 ^ w, rest) := by
  simp [takeWord, List.take_left', List.drop_left', toNatLE_ofNatLE]

/-- The digit of `d < 16` in lowercase hexadecimal. -/
def hexDigit (d : Nat) : Char :=
  if d < 10 then Char.ofNat (48 + d) else Char.ofNat (87 + d)

/-- Two lowercase hexadecimal digits per byte, most significant digit first. -/
def toHex (bs : Bytes) : String :=
  String.ofList (bs.flatMap fun b => [hexDigit (b.toNat / 16), hexDigit (b.toNat % 16)])

/-- The value of one hexadecimal digit of either case. -/
def hexValue? (c : Char) : Option Nat :=
  if '0' ≤ c ∧ c ≤ '9' then some (c.toNat - 48)
  else if 'a' ≤ c ∧ c ≤ 'f' then some (c.toNat - 87)
  else if 'A' ≤ c ∧ c ≤ 'F' then some (c.toNat - 55)
  else none

/-- Pairs of hexadecimal digits read as bytes; `none` on a stray digit or a bad character. -/
def ofHexDigits? : List Char → Option Bytes
  | [] => some []
  | [_] => none
  | hi :: lo :: rest => do
    let h ← hexValue? hi
    let l ← hexValue? lo
    let tail ← ofHexDigits? rest
    pure (UInt8.ofNat (16 * h + l) :: tail)

/-- Decimal digits of `n`, most significant first. -/
def decimal (n : Nat) : String :=
  String.ofList (Nat.toDigits 10 n)

/-- Decimal digits of `n`, padded with zeros on the left to at least `width` characters. -/
def padded (width n : Nat) : String :=
  let digits := Nat.toDigits 10 n
  String.ofList (List.replicate (width - digits.length) '0' ++ digits)

/-- A 32-bit word as `0x` and eight lowercase hexadecimal digits. -/
def hexWord (n : Nat) : String :=
  "0x" ++ String.ofList ((List.range 8).reverse.map fun i => hexDigit (n / 16 ^ i % 16))

/-- The bytes of a text in its UTF-8 encoding. -/
def ofString (s : String) : Bytes := s.toUTF8.toList

/-- The text that the bytes encode, when they are valid UTF-8. -/
def toString? (bs : Bytes) : Option String := String.fromUTF8? ⟨bs.toArray⟩

end Bytes

end LsmStore
