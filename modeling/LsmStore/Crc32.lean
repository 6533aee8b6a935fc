import LsmStore.Bytes

/-!
# CRC-32 checksums

The write-ahead log protects each record with the standard CRC-32 (the IEEE polynomial in its
reflected form `0xEDB88320`, initial value and final mask all ones), the checksum of zip and
Ethernet. It is computed here bit by bit, which is short enough to read against the standard.

## Main definitions

* `LsmStore.Crc32.checksum` — the CRC-32 of a byte string

## Main results

* `checksum_append` — the checksum of a concatenation is the register run over both parts
-/

namespace LsmStore

namespace Crc32

/-- The reflected generator polynomial of CRC-32. -/
def polynomial : UInt32 := 0xEDB88320

/-- One shift of the register: the low bit decides whether the polynomial is folded in. -/
def shift (c : UInt32) : UInt32 :=
  if c &&& 1 = 1 then (c >>> 1) ^^^ polynomial else c >>> 1

/-- `k` shifts of the register. -/
def shifts : Nat → UInt32 → UInt32
  | 0, c => c
  | k + 1, c => shifts k (shift c)

/-- Feeds one byte into the register, low bit first. -/
def feed (c : UInt32) (b : UInt8) : UInt32 :=
  shifts 8 (c ^^^ b.toUInt32)

/-- Feeds a byte string into the register. -/
def feedAll (c : UInt32) (bs : Bytes) : UInt32 :=
  bs.foldl feed c

/-- The CRC-32 of a byte string. -/
def checksum (bs : Bytes) : UInt32 :=
  feedAll 0xFFFFFFFF bs ^^^ 0xFFFFFFFF

theorem checksum_append (xs ys : Bytes) :
    checksum (xs ++ ys) = feedAll (feedAll 0xFFFFFFFF xs) ys ^^^ 0xFFFFFFFF := by
  simp [checksum, feedAll, List.foldl_append]

end Crc32

end LsmStore
