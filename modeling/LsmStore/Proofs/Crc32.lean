import Mathlib
import LsmStore.Proofs.Wal.Prefix

/-!
# CRC-32 catches every change inside four bytes

The checksum register is a linear function of the bits fed into it. One shift halves the
register and, when the bit shifted out was set, folds in the polynomial, and both steps commute
with exclusive or. The polynomial's top bit is set, so the top bit of a shifted 32-bit register
tells which way the shift went, and a shift loses nothing. Feeding up to four bytes into the
register is the same as exclusive-or-ing them into it as one little-endian word and shifting
eight times per byte. Hence two messages that differ only inside four consecutive bytes leave
different registers behind those bytes, and the bytes after them, fed into registers that lose
nothing, keep them apart until the end.

This is the burst-error property of a CRC of degree 32, proved here for the bitwise register of
`Crc32`: every change confined to four consecutive bytes changes the checksum. The register is
read as a natural number below `2 ^ 32`, on which shifting and folding are halving and
exclusive or.

## Main definitions

* `Crc32.shiftNat`, `Crc32.shiftsNat`, `Crc32.feedNat`, `Crc32.feedAllNat` — the register as a
  natural number

## Main results

* `Crc32.shiftNat_xor` — a shift is linear in exclusive or
* `Crc32.shiftNat_inj` — a shift of a 32-bit register loses nothing
* `Crc32.feedAllNat_eq_shiftsNat` — bytes fed in are a word folded in and shifted
* `Crc32.checksum_ne_of_burst` — a change inside four consecutive bytes changes the checksum
-/

namespace LsmStore

namespace Crc32

/-! ## The register as a number -/

/-- One shift of the register, read as a number. -/
def shiftNat (c : Nat) : Nat := if c % 2 = 1 then c / 2 ^^^ polynomial.toNat else c / 2

/-- `k` shifts of the register, read as a number. -/
def shiftsNat : Nat → Nat → Nat
  | 0, c => c
  | k + 1, c => shiftsNat k (shiftNat c)

/-- One byte fed into the register, read as a number. -/
def feedNat (c : Nat) (b : UInt8) : Nat := shiftsNat 8 (c ^^^ b.toNat)

/-- Bytes fed into the register, read as a number. -/
def feedAllNat (c : Nat) (bs : Bytes) : Nat := bs.foldl feedNat c

theorem polynomial_toNat : polynomial.toNat = 3988292384 := by decide

theorem toNat_shift (c : UInt32) : (shift c).toNat = shiftNat c.toNat := by
  have low : c &&& 1 = 1 ↔ c.toNat % 2 = 1 := by
    rw [← UInt32.toNat_inj, UInt32.toNat_and, show (1 : UInt32).toNat = 1 from rfl, Nat.and_one_is_mod]
  have half : (c >>> 1).toNat = c.toNat / 2 := by
    rw [UInt32.toNat_shiftRight, Nat.shiftRight_eq_div_pow]
    rfl
  unfold shift shiftNat
  by_cases odd : c.toNat % 2 = 1
  · rw [if_pos (low.2 odd), if_pos odd, UInt32.toNat_xor, half]
  · rw [if_neg (fun h => odd (low.1 h)), if_neg odd, half]

theorem toNat_shifts (k : Nat) (c : UInt32) : (shifts k c).toNat = shiftsNat k c.toNat := by
  induction k generalizing c with
  | zero => rfl
  | succ k ih => rw [shifts, shiftsNat, ih, toNat_shift]

theorem toNat_feedAll (c : UInt32) (bs : Bytes) : (feedAll c bs).toNat = feedAllNat c.toNat bs := by
  induction bs generalizing c with
  | nil => rfl
  | cons b bs ih =>
    have step : (feed c b).toNat = feedNat c.toNat b := by
      rw [feed, toNat_shifts, UInt32.toNat_xor, UInt8.toNat_toUInt32]
      rfl
    simp only [feedAll, feedAllNat, List.foldl_cons] at ih ⊢
    rw [ih, step]

/-! ## Shifts are linear -/

theorem shiftNat_xor (a b : Nat) : shiftNat (a ^^^ b) = shiftNat a ^^^ shiftNat b := by
  have low : (a ^^^ b) % 2 = a % 2 ^^^ b % 2 := by
    simpa using (Nat.xor_mod_two_pow : (a ^^^ b) % 2 ^ 1 = a % 2 ^ 1 ^^^ b % 2 ^ 1)
  unfold shiftNat
  rw [Nat.xor_div_two, low]
  -- the bit shifted out is the exclusive or of the two bits shifted out
  rcases Nat.mod_two_eq_zero_or_one a with ha | ha <;>
    rcases Nat.mod_two_eq_zero_or_one b with hb | hb <;>
    simp only [ha, hb] <;> simp
  · ac_rfl
  · ac_rfl
  · -- both bits set: the polynomial is folded in twice and cancels
    rw [Nat.xor_assoc (a / 2), ← Nat.xor_assoc polynomial.toNat, Nat.xor_comm polynomial.toNat,
      Nat.xor_assoc (b / 2), Nat.xor_self, Nat.xor_zero]

theorem shiftsNat_xor (k a b : Nat) : shiftsNat k (a ^^^ b) = shiftsNat k a ^^^ shiftsNat k b := by
  induction k generalizing a b with
  | zero => rfl
  | succ k ih => rw [shiftsNat, shiftsNat, shiftsNat, shiftNat_xor, ih]

theorem shiftsNat_add (m n c : Nat) : shiftsNat (m + n) c = shiftsNat m (shiftsNat n c) := by
  induction n generalizing c with
  | zero => rfl
  | succ n ih => rw [← Nat.add_assoc, shiftsNat, ih, shiftsNat]

/-- Bits below position `k` that are all clear are shifted out without folding anything in. -/
theorem shiftsNat_two_pow_mul (k t : Nat) : shiftsNat k (2 ^ k * t) = t := by
  induction k generalizing t with
  | zero => simp [shiftsNat]
  | succ k ih =>
    have even : shiftNat (2 ^ (k + 1) * t) = 2 ^ k * t := by
      unfold shiftNat
      rw [Nat.pow_succ, Nat.mul_comm (2 ^ k) 2, Nat.mul_assoc, Nat.mul_mod_right, if_neg (by decide),
        Nat.mul_div_cancel_left _ (by decide)]
    rw [shiftsNat, even, ih]

/-! ## Shifts of a 32-bit register lose nothing -/

theorem xor_polynomial_lt {c : Nat} (h : c < 2 ^ 31) : c ^^^ polynomial.toNat < 2 ^ 32 :=
  Nat.xor_lt_two_pow (by omega) (by rw [polynomial_toNat]; decide)

/-- Folding the polynomial into a halved register sets its top bit. -/
theorem le_xor_polynomial {c : Nat} (h : c < 2 ^ 31) : 2 ^ 31 ≤ c ^^^ polynomial.toNat := by
  have top : (c ^^^ polynomial.toNat) / 2 ^ 31 = 1 := by
    rw [Nat.xor_div_two_pow, Nat.div_eq_of_lt h, polynomial_toNat]
    rfl
  by_contra below
  rw [Nat.div_eq_of_lt (by omega)] at top
  cases top

theorem shiftNat_lt {c : Nat} (h : c < 2 ^ 32) : shiftNat c < 2 ^ 32 := by
  unfold shiftNat
  split
  · exact xor_polynomial_lt (by omega)
  · omega

/-- A shift of a 32-bit register is undone by its top bit: set exactly when the polynomial was
folded in, that is when the bit shifted out was set. -/
theorem shiftNat_inj {a b : Nat} (ha : a < 2 ^ 32) (hb : b < 2 ^ 32) (same : shiftNat a = shiftNat b) :
    a = b := by
  unfold shiftNat at same
  by_cases oddA : a % 2 = 1 <;> by_cases oddB : b % 2 = 1 <;>
    simp only [oddA, oddB, if_true, if_false] at same
  · have := Nat.xor_left_inj.1 same
    omega
  · have := le_xor_polynomial (show a / 2 < 2 ^ 31 by omega)
    omega
  · have := le_xor_polynomial (show b / 2 < 2 ^ 31 by omega)
    omega
  · omega

theorem shiftsNat_lt (k : Nat) {c : Nat} (h : c < 2 ^ 32) : shiftsNat k c < 2 ^ 32 := by
  induction k generalizing c with
  | zero => exact h
  | succ k ih => exact ih (shiftNat_lt h)

theorem shiftsNat_inj (k : Nat) {a b : Nat} (ha : a < 2 ^ 32) (hb : b < 2 ^ 32)
    (same : shiftsNat k a = shiftsNat k b) : a = b := by
  induction k generalizing a b with
  | zero => exact same
  | succ k ih => exact shiftNat_inj ha hb (ih (shiftNat_lt ha) (shiftNat_lt hb) same)

/-! ## Bytes fed in -/

/-- A byte below a multiple of `256` is added to it without carries. -/
theorem xor_eq_add_of_lt {b : Nat} (hb : b < 256) (t : Nat) : b ^^^ 256 * t = 256 * t + b := by
  have low : (b ^^^ 256 * t) % 2 ^ 8 = b := by
    rw [Nat.xor_mod_two_pow, Nat.mod_eq_of_lt (by simpa using hb), show (2 : Nat) ^ 8 = 256 from rfl,
      Nat.mul_mod_right, Nat.xor_zero]
  have high : (b ^^^ 256 * t) / 2 ^ 8 = t := by
    rw [Nat.xor_div_two_pow, Nat.div_eq_of_lt (by simpa using hb), show (2 : Nat) ^ 8 = 256 from rfl,
      Nat.mul_div_cancel_left _ (by decide), Nat.zero_xor]
  have := Nat.div_add_mod (b ^^^ 256 * t) (2 ^ 8)
  rw [low, high] at this
  exact this.symm

/-- Bytes fed into the register are their little-endian word folded into it, followed by eight
shifts per byte. -/
theorem feedAllNat_eq_shiftsNat (c : Nat) (bs : Bytes) :
    feedAllNat c bs = shiftsNat (8 * bs.length) (c ^^^ Bytes.toNatLE bs) := by
  induction bs generalizing c with
  | nil => simp [feedAllNat, shiftsNat, Bytes.toNatLE]
  | cons b bs ih =>
    have byte : b.toNat < 256 := UInt8.toNat_lt b
    -- the first byte's eight shifts move the rest of the word down to where `bs` starts
    have first : shiftsNat 8 (c ^^^ Bytes.toNatLE (b :: bs)) = feedNat c b ^^^ Bytes.toNatLE bs := by
      rw [Bytes.toNatLE, Nat.add_comm, ← xor_eq_add_of_lt byte, ← Nat.xor_assoc, shiftsNat_xor,
        show (256 : Nat) = 2 ^ 8 from rfl, shiftsNat_two_pow_mul]
      rfl
    rw [feedAllNat, List.foldl_cons, ← feedAllNat, ih, List.length_cons, Nat.mul_succ, shiftsNat_add,
      ← first]

theorem feedAll_append (c : UInt32) (xs ys : Bytes) : feedAll c (xs ++ ys) = feedAll (feedAll c xs) ys := by
  simp [feedAll, List.foldl_append]

theorem feedNat_lt {c : Nat} (b : UInt8) (h : c < 2 ^ 32) : feedNat c b < 2 ^ 32 :=
  shiftsNat_lt 8 (Nat.xor_lt_two_pow h (Nat.lt_trans (UInt8.toNat_lt b) (by decide)))

/-- A byte fed into two different 32-bit registers leaves different registers. -/
theorem feedNat_inj {x y : Nat} (b : UInt8) (hx : x < 2 ^ 32) (hy : y < 2 ^ 32)
    (same : feedNat x b = feedNat y b) : x = y := by
  have byte : b.toNat < 2 ^ 32 := Nat.lt_trans (UInt8.toNat_lt b) (by decide)
  exact Nat.xor_left_inj.1
    (shiftsNat_inj 8 (Nat.xor_lt_two_pow hx byte) (Nat.xor_lt_two_pow hy byte) same)

theorem feedAllNat_inj (bs : Bytes) {x y : Nat} (hx : x < 2 ^ 32) (hy : y < 2 ^ 32)
    (same : feedAllNat x bs = feedAllNat y bs) : x = y := by
  -- the registers stay below `2 ^ 32` byte after byte
  induction bs generalizing x y with
  | nil => exact same
  | cons b bs ih => exact feedNat_inj b hx hy (ih (feedNat_lt b hx) (feedNat_lt b hy) same)

/-- Feeding the same bytes into two different 32-bit registers leaves different registers. -/
theorem feedAll_injective (bs : Bytes) : Function.Injective fun c : UInt32 => feedAll c bs := by
  intro c c' same
  have registers := congrArg UInt32.toNat same
  simp only [toNat_feedAll] at registers
  exact UInt32.toNat_inj.1 (feedAllNat_inj bs (UInt32.toNat_lt c) (UInt32.toNat_lt c') registers)

/-- Up to four bytes of the same length fed into one register leave different registers when
they differ. -/
theorem feedAll_inj_of_short {c : UInt32} {ys ys' : Bytes} (width : ys.length = ys'.length)
    (short : ys.length ≤ 4) (same : feedAll c ys = feedAll c ys') : ys = ys' := by
  have word : ∀ zs : Bytes, zs.length ≤ 4 → Bytes.toNatLE zs < 2 ^ 32 := by
    intro zs hz
    have := Bytes.toNatLE_lt zs
    have : 256 ^ zs.length ≤ 256 ^ 4 := Nat.pow_le_pow_right (by decide) hz
    simp only [show (256 : Nat) ^ 4 = 2 ^ 32 from rfl] at this
    omega
  have register : c.toNat < 2 ^ 32 := UInt32.toNat_lt c
  have := congrArg UInt32.toNat same
  rw [toNat_feedAll, toNat_feedAll, feedAllNat_eq_shiftsNat, feedAllNat_eq_shiftsNat, ← width] at this
  have words := Nat.xor_right_inj.1 (shiftsNat_inj _ (Nat.xor_lt_two_pow register (word ys short))
    (Nat.xor_lt_two_pow register (word ys' (width ▸ short))) this)
  rw [← Bytes.ofNatLE_toNatLE ys, ← Bytes.ofNatLE_toNatLE ys', words, width]

/-- A change confined to four consecutive bytes changes the CRC-32 of a message. -/
theorem checksum_ne_of_burst (xs ys ys' zs : Bytes) (width : ys.length = ys'.length)
    (short : ys.length ≤ 4) (changed : ys ≠ ys') :
    checksum (xs ++ ys ++ zs) ≠ checksum (xs ++ ys' ++ zs) := by
  intro same
  rw [checksum_append, checksum_append, feedAll_append, feedAll_append] at same
  -- the final mask cancels, the bytes after the change keep registers apart, and so do the four
  have registers := feedAll_injective zs ((UInt32.xor_left_inj _).1 same)
  exact changed (feedAll_inj_of_short width short registers)

end Crc32

end LsmStore
