import Mathlib
import LsmStore.Proofs.Codec
import LsmStore.Proofs.Crc32

/-!
# Small damage to a record is always caught

A record is written as four fields: the LSN, the checksum, the payload length and the payload.
Change between one and four consecutive bytes of a written record, all inside one field, and
neither decoding the changed bytes nor reading them at the front of a log accepts a record.

Each field is guarded in its own way. The checksum covers the LSN, the length and the payload,
and CRC-32 catches every change confined to four consecutive bytes, so a changed LSN or payload
no longer matches it. A changed checksum field no longer matches the checksum of the unchanged
rest. A changed length field disagrees with the number of bytes that follow it, and a reader that
takes the length at its word reads a window of another size: a record read there would have the
payload of the original, since an encoded payload is never a proper prefix of another, and so
the original length after all.

Both results come from one fact, `Damaged.ne_encode_append`: the changed bytes, followed by
anything, never start with the encoding of a record that fits the format. Decoding accepts only
such encodings, and a read that returns a record has taken one off the front.

## Main definitions

* `Wal.Field` — the four fields of a written record, with the offsets they span
* `Wal.Burst` — a change of one to four consecutive bytes inside a window of offsets
* `Wal.Damaged` — a record's encoding with one of its fields changed by a burst

## Main results

* `Wal.Burst.within` — a burst inside the window of one part of some bytes is a burst of that part
* `Wal.Record.payload_eq_of_append` — payloads of fitting entries are prefix-free
* `Wal.Damaged.ne_encode_append` — damaged bytes never start with a record that fits
* `Wal.damage_inside_field_detected` — decoding and reading both refuse a damaged record
-/

namespace LsmStore

namespace Bytes

/-- A word wide enough for both numbers tells them apart. -/
theorem ofNatLE_inj {w m n : Nat} (hm : m < 256 ^ w) (hn : n < 256 ^ w)
    (same : ofNatLE w m = ofNatLE w n) : m = n := by
  have words := congrArg toNatLE same
  rwa [toNatLE_ofNatLE, toNatLE_ofNatLE, Nat.mod_eq_of_lt hm, Nat.mod_eq_of_lt hn] at words

/-- Two checksums written as four-byte words are equal only if the checksums are. -/
theorem ofNatLE_toNat_inj {c c' : UInt32} (same : ofNatLE 4 c.toNat = ofNatLE 4 c'.toNat) :
    c = c' :=
  UInt32.toNat_inj.1 (ofNatLE_inj (UInt32.toNat_lt c) (UInt32.toNat_lt c') same)

end Bytes

namespace Wal

/-- The fields of a written record, in the order they are written. -/
inductive Field where
  | lsn
  | crc
  | len
  | payload
deriving DecidableEq, Repr

namespace Field

/-- The offset of the field's first byte in a record. -/
def start : Field → Nat
  | .lsn => 0
  | .crc => 8
  | .len => 12
  | .payload => headerSize

/-- The offset just past the field's last byte, in a record of `size` bytes. -/
def stop (size : Nat) : Field → Nat
  | .lsn => 8
  | .crc => 12
  | .len => headerSize
  | .payload => size

end Field

/-- `w'` is `w` with one to four consecutive bytes changed, all of them at offsets in
`[lo, hi)`. The changed bytes are replaced by as many, so nothing moves. -/
inductive Burst (lo hi : Nat) : Bytes → Bytes → Prop
  | intro (pre old new post : Bytes) (width : new.length = old.length) (short : old.length ≤ 4)
      (changed : new ≠ old) (from_lo : lo ≤ pre.length) (to_hi : pre.length + old.length ≤ hi) :
      Burst lo hi (pre ++ old ++ post) (pre ++ new ++ post)

namespace Burst

variable {lo hi : Nat} {w w' : Bytes}

theorem length_eq (burst : Burst lo hi w w') : w'.length = w.length := by
  cases burst with
  | intro pre old new post width => simp [width]

theorem ne (burst : Burst lo hi w w') : w' ≠ w := by
  cases burst with
  | intro pre old new post width short changed =>
    intro same
    exact changed (List.append_cancel_left (List.append_cancel_right same))

/-- A burst changes the CRC-32 of every message it is part of. -/
theorem checksum_ne (burst : Burst lo hi w w') (xs zs : Bytes) :
    Crc32.checksum (xs ++ w' ++ zs) ≠ Crc32.checksum (xs ++ w ++ zs) := by
  cases burst with
  | intro pre old new post width short changed =>
    have differ := Crc32.checksum_ne_of_burst (xs ++ pre) new old (post ++ zs) width
      (width ▸ short) changed
    simpa only [List.append_assoc] using differ

/-- Bytes `pre ++ old ++ post` split as `A ++ F ++ C`, with `old` inside the span of `F`: then
`F` is `old` with bytes on either side, `pre` reaches into `F`, and `post` starts inside it. -/
theorem eq_append_of_inside {A F C pre old post : Bytes} (split : pre ++ old ++ post = A ++ F ++ C)
    (lo : A.length ≤ pre.length) (hi : pre.length + old.length ≤ A.length + F.length) :
    ∃ p q, F = p ++ old ++ q ∧ pre = A ++ p ∧ post = q ++ C := by
  -- `pre` is `A` followed by the first bytes of `F`; cancelling it leaves `old ++ post`
  have front : pre = A ++ F.take (pre.length - A.length) := by
    have h := congrArg (List.take pre.length) split
    rwa [List.append_assoc, List.take_left' rfl, List.append_assoc, List.take_append,
      List.take_of_length_le lo, List.take_append_of_le_length (by omega)] at h
  have back : old ++ post = F.drop (pre.length - A.length) ++ C := by
    rw [front] at split
    simp only [List.append_assoc] at split
    have rest : F ++ C = F.take (pre.length - A.length) ++ (F.drop (pre.length - A.length) ++ C) := by
      rw [← List.append_assoc, List.take_append_drop]
    rw [rest] at split
    exact List.append_cancel_left (List.append_cancel_left split)
  -- `old` fits in what is left of `F`, so it is the front of it
  have width : old.length = ((F.drop (pre.length - A.length)).take old.length).length := by
    simp only [List.length_take, List.length_drop]
    omega
  rw [← List.take_append_drop old.length (F.drop (pre.length - A.length)), List.append_assoc] at back
  obtain ⟨hold, hpost⟩ := List.append_inj back width
  have whole : F = F.take (pre.length - A.length) ++ ((F.drop (pre.length - A.length)).take
      old.length ++ (F.drop (pre.length - A.length)).drop old.length) := by
    rw [List.take_append_drop, List.take_append_drop]
  rw [← hold, ← List.append_assoc] at whole
  exact ⟨_, _, whole, front, hpost⟩

/-- A burst inside the window that the part `F` of `A ++ F ++ C` spans is a burst of `F` alone,
the bytes around it untouched. -/
theorem within {A F C : Bytes} (burst : Burst lo hi w w') (split : w = A ++ F ++ C)
    (lo_eq : lo = A.length) (hi_eq : hi = A.length + F.length) :
    ∃ F', Burst 0 F.length F F' ∧ w' = A ++ F' ++ C := by
  cases burst with
  | intro pre old new post width short changed from_lo to_hi =>
    obtain ⟨p, q, hF, hpre, hpost⟩ := eq_append_of_inside split (lo_eq ▸ from_lo) (hi_eq ▸ to_hi)
    subst hF hpre hpost
    refine ⟨p ++ new ++ q, ?_, by simp only [List.append_assoc]⟩
    exact Burst.intro p old new q width short changed (Nat.zero_le _) (by simp)

end Burst

/-! ## Damage inside one field -/

/-- The encoding of `r` with one of its four fields changed by a burst inside that field. -/
inductive Damaged (r : Record) : Bytes → Prop
  | lsn {x : Bytes} : Burst 0 8 (Bytes.ofNatLE 8 r.lsn) x →
      Damaged r (x ++ Bytes.ofNatLE 4 r.crc ++ Bytes.ofNatLE 4 r.payload.length ++ r.payload)
  | crc {x : Bytes} : Burst 0 4 (Bytes.ofNatLE 4 r.crc) x →
      Damaged r (Bytes.ofNatLE 8 r.lsn ++ x ++ Bytes.ofNatLE 4 r.payload.length ++ r.payload)
  | len {x : Bytes} : Burst 0 4 (Bytes.ofNatLE 4 r.payload.length) x →
      Damaged r (Bytes.ofNatLE 8 r.lsn ++ Bytes.ofNatLE 4 r.crc ++ x ++ r.payload)
  | payload {x : Bytes} : Burst 0 r.payload.length r.payload x →
      Damaged r (Bytes.ofNatLE 8 r.lsn ++ Bytes.ofNatLE 4 r.crc ++ Bytes.ofNatLE 4 r.payload.length ++ x)

/-- A burst of a record's encoding inside the offsets of one field damages that field. -/
theorem Damaged.of_burst {r : Record} {b' : Bytes} {f : Field}
    (burst : Burst f.start (f.stop r.encode.length) r.encode b') : Damaged r b' := by
  have size : r.encode.length = headerSize + r.payload.length := Record.length_encode_eq r
  cases f with
  | lsn =>
    have split : r.encode = [] ++ Bytes.ofNatLE 8 r.lsn ++
        (Bytes.ofNatLE 4 r.crc ++ Bytes.ofNatLE 4 r.payload.length ++ r.payload) := by
      simp only [Record.encode, List.nil_append, List.append_assoc]
    obtain ⟨x, bx, rfl⟩ := burst.within split rfl (by simp [Field.stop])
    rw [Bytes.length_ofNatLE] at bx
    simpa only [List.nil_append, List.append_assoc] using Damaged.lsn bx
  | crc =>
    have split : r.encode = Bytes.ofNatLE 8 r.lsn ++ Bytes.ofNatLE 4 r.crc ++
        (Bytes.ofNatLE 4 r.payload.length ++ r.payload) := by
      simp only [Record.encode, List.append_assoc]
    obtain ⟨x, bx, rfl⟩ := burst.within split (by simp [Field.start]) (by simp [Field.stop])
    rw [Bytes.length_ofNatLE] at bx
    simpa only [List.append_assoc] using Damaged.crc bx
  | len =>
    have split : r.encode = Bytes.ofNatLE 8 r.lsn ++ Bytes.ofNatLE 4 r.crc ++
        Bytes.ofNatLE 4 r.payload.length ++ r.payload := rfl
    obtain ⟨x, bx, rfl⟩ := burst.within split (by simp [Field.start])
      (by simp [Field.stop, headerSize])
    rw [Bytes.length_ofNatLE] at bx
    exact Damaged.len bx
  | payload =>
    have split : r.encode = Bytes.ofNatLE 8 r.lsn ++ Bytes.ofNatLE 4 r.crc ++
        Bytes.ofNatLE 4 r.payload.length ++ r.payload ++ [] := (List.append_nil _).symm
    obtain ⟨x, bx, rfl⟩ := burst.within split (by simp [Field.start, headerSize])
      (by simp [Field.stop, size, headerSize])
    simpa only [List.append_nil] using Damaged.payload bx

/-! ## Records at the front of some bytes -/

namespace Record

/-- The entry of a record whose payload fits its 32-bit length word fits the entry encoding. -/
theorem entry_fits {r : Record} (small : r.payload.length < 2 ^ 32) : r.entry.Fits := by
  simp only [length_payload, Entry.encodedLen] at small
  refine ⟨by omega, fun v hv => ?_⟩
  simp only [hv, Option.map_some, Option.getD_some] at small
  simp only [Entry.tombstoneMark]
  omega

/-- Payloads are prefix-free: two payloads whose entries fit, each followed by some bytes, that
read alike, are the same payload. The timestamp is a fixed eight bytes and the entry encoding
says where it ends. -/
theorem payload_eq_of_append {r r' : Record} {rest rest' : Bytes} (fits : r.entry.Fits)
    (fits' : r'.entry.Fits) (same : r.payload ++ rest = r'.payload ++ rest') :
    r.payload = r'.payload := by
  simp only [payload, List.append_assoc] at same ⊢
  obtain ⟨stamps, entries⟩ := List.append_inj same (by simp)
  have decoded := Entry.decode_encode_append r.entry rest fits.1 fits.2
  rw [entries, Entry.decode_encode_append r'.entry rest' fits'.1 fits'.2, Prod.mk.injEq,
    Except.ok.injEq] at decoded
  rw [stamps, decoded.1]

/-- Bytes that start with a record that fits, read as the three header words and the rest:
the words are the record's LSN, checksum and payload length, and the rest starts with its
payload. -/
theorem encode_append_eq {r : Record} {X Y Z Q rest rest' : Bytes} (hX : X.length = 8)
    (hY : Y.length = 4) (hZ : Z.length = 4) (same : X ++ Y ++ Z ++ Q ++ rest = r.encode ++ rest') :
    X = Bytes.ofNatLE 8 r.lsn ∧ Y = Bytes.ofNatLE 4 r.crc ∧
      Z = Bytes.ofNatLE 4 r.payload.length ∧ Q ++ rest = r.payload ++ rest' := by
  simp only [encode, List.append_assoc] at same
  obtain ⟨lsn, same⟩ := List.append_inj same (by simp [hX])
  obtain ⟨crc, same⟩ := List.append_inj same (by simp [hY])
  obtain ⟨len, same⟩ := List.append_inj same (by simp [hZ])
  exact ⟨lsn, crc, len, same⟩

/-- Where a record that fits is read at the front of some bytes whose length word announces
exactly the payload `Q` that follows, the checksum word is the checksum of the other three. -/
theorem sealed_of_encode_append {r : Record} (fits : r.Fits) {X Y Q rest rest' : Bytes}
    (hX : X.length = 8) (hY : Y.length = 4) (hQ : Q.length < 2 ^ 32)
    (same : X ++ Y ++ Bytes.ofNatLE 4 Q.length ++ Q ++ rest = r.encode ++ rest') :
    Y = Bytes.ofNatLE 4 (Crc32.checksum (X ++ Bytes.ofNatLE 4 Q.length ++ Q)).toNat := by
  obtain ⟨lsn, crc, len, payload⟩ := encode_append_eq hX hY (Bytes.length_ofNatLE 4 _) same
  -- the length words agree, so the payload read is `Q` itself
  have lengths : Q.length = r.payload.length := Bytes.ofNatLE_inj hQ fits.2.2 len
  have body : Q = r.payload := List.append_inj_left payload lengths
  rw [crc, lsn, lengths, body]
  rfl

/-- The checksum word of any record is the checksum of its LSN word, length word and payload. -/
theorem crc_word (r : Record) : Bytes.ofNatLE 4 r.crc =
    Bytes.ofNatLE 4 (Crc32.checksum (Bytes.ofNatLE 8 r.lsn ++ Bytes.ofNatLE 4 r.payload.length ++
      r.payload)).toNat := rfl

end Record

/-- Damaged bytes, followed by anything, never start with the encoding of a record that fits.
A damaged length word gives the original payload back, and so the original length word; any
other damage leaves the length word and the payload window alone, and then the checksum word
disagrees with the checksum of the other three. -/
theorem Damaged.ne_encode_append {r : Record} {b : Bytes} (damaged : Damaged r b)
    (small : r.payload.length < 2 ^ 32) {r' : Record} (fits : r'.Fits) (rest rest' : Bytes) :
    b ++ rest ≠ r'.encode ++ rest' := by
  intro same
  cases damaged with
  | lsn burst =>
    have sealed := Record.sealed_of_encode_append fits (by rw [burst.length_eq]; simp) (by simp)
      small same
    have differ := burst.checksum_ne [] (Bytes.ofNatLE 4 r.payload.length ++ r.payload)
    simp only [List.nil_append, ← List.append_assoc] at differ
    exact differ (Bytes.ofNatLE_toNat_inj (sealed.symm.trans (Record.crc_word r)))
  | crc burst =>
    have sealed := Record.sealed_of_encode_append fits (by simp) (by rw [burst.length_eq]; simp)
      small same
    exact burst.ne (sealed.trans (Record.crc_word r).symm)
  | len burst =>
    obtain ⟨-, -, len, payload⟩ := Record.encode_append_eq (by simp) (by simp)
      (by rw [burst.length_eq]; simp) same
    have body := Record.payload_eq_of_append (Record.entry_fits small)
      (Record.entry_fits fits.2.2) payload
    exact burst.ne (body ▸ len)
  | payload burst =>
    have width := burst.length_eq
    rw [← width] at same
    have sealed := Record.sealed_of_encode_append fits (by simp) (by simp) (width ▸ small) same
    have differ := burst.checksum_ne (Bytes.ofNatLE 8 r.lsn ++ Bytes.ofNatLE 4 r.payload.length) []
    simp only [List.append_nil] at differ
    rw [width] at sealed
    exact differ (Bytes.ofNatLE_toNat_inj (sealed.symm.trans (Record.crc_word r)))

/-- Damage of one to four consecutive bytes inside one field of a written record is always
caught: decoding the damaged bytes fails, and a reader whose unread bytes start with them does
not return a valid record from that read, whatever follows them. -/
theorem damage_inside_field_detected {r : Record} {b b' : Bytes} {f : Field}
    (written : r.encode? = .ok b) (burst : Burst f.start (f.stop b.length) b b') :
    (∃ fault, Record.decode b' = .error fault) ∧
      ∀ (rd : Reader) (rest : Bytes), rd.unread = b' ++ rest →
        ∀ r', rd.next.1 ≠ some (.valid r') := by
  -- writing checked the payload length, and wrote the encoding
  have small : r.payload.length < 2 ^ 32 := by
    unfold Record.encode? at written
    split at written
    · assumption
    · cases written
  rw [Record.encode?, if_pos small, Except.ok.injEq] at written
  subst written
  have damaged := Damaged.of_burst burst
  refine ⟨?decode, ?read⟩
  case decode =>
    cases decoded : Record.decode b' with
    | error fault => exact ⟨fault, rfl⟩
    | ok r' =>
      obtain ⟨fits, rfl⟩ := Record.decode_eq_ok decoded
      exact absurd rfl (damaged.ne_encode_append small fits [] [])
  case read =>
    intro rd rest unread r' valid
    obtain ⟨fits, split, -⟩ := Reader.next_eq_valid (Prod.ext valid rfl)
    exact damaged.ne_encode_append small fits rest _ (unread ▸ split)

/-- A small record, as written. -/
def smallWritten : Record := ⟨1, 0, .put [97] [49]⟩

/-- `smallWritten` with the low byte of its LSN cleared. -/
def lsnCleared : Bytes := [0] ++ smallWritten.encode.drop 1

/-- Clearing one bit of the LSN of a written record is caught by decoding and by reading. -/
theorem damage_inside_field_detected_lsnCleared :
    (∃ fault, Record.decode lsnCleared = .error fault) ∧
      ∀ (rd : Reader) (rest : Bytes), rd.unread = lsnCleared ++ rest →
        ∀ r', rd.next.1 ≠ some (.valid r') := by
  have split : smallWritten.encode = [] ++ [1] ++ smallWritten.encode.drop 1 := rfl
  have burst : Burst Field.lsn.start (Field.lsn.stop smallWritten.encode.length)
      smallWritten.encode lsnCleared := by
    rw [split]
    exact Burst.intro [] [1] [0] _ rfl (by decide) (by decide) (Nat.le_refl 0) (by decide)
  exact damage_inside_field_detected (Record.encode?_of_fits (by decide)) burst

end Wal

end LsmStore
