import Mathlib
import LsmStore.Proofs.Wal.Prefix

/-!
# The entry and record codecs

Entries are written in one length-prefixed encoding inside log payloads and table data files,
and log records wrap an entry in a header and a timestamp. Both codecs are bijections onto their
images. Writing and then reading gives back what was written, and reading accepts nothing but
what writing produces. So each accepted byte string has one written form, and what it decodes
to fits the format.

For entries the bound is exact. A key length must fit its 32-bit word, and a value must be
shorter than the all-ones length that marks a tombstone. Every decoded entry meets both bounds,
and every entry that meets them reads back. For records the payload length must fit its 32-bit
word, which is what writing a record checks, and the LSN and the timestamp must fit their 64-bit
words, which the 64-bit fields of a record in memory guarantee.

## Main results

* `Entry.decode_iff_encode` — an entry is decoded from a buffer exactly when the buffer starts
  with its encoding and the entry fits
* `Wal.Record.decode_eq_ok` — a decoded record fits and its bytes are its encoding
* `Wal.Record.decode_encode` — a record that fits reads back from its encoding
* `Wal.Record.decode_iff_encode?` — writing refuses exactly the records whose payload outgrows
  32 bits, writes `serializedSize` bytes, and reading accepts exactly what writing produces
-/

namespace LsmStore

namespace Entry

/-- The entry codec is canonical. The encoding is `encodedLen` bytes long, and decoding a buffer
gives an entry and a rest exactly when the entry fits and the buffer is its encoding followed by
that rest: empty keys and values, and tombstones, alike. -/
theorem decode_iff_encode (e : Entry) (buf rest : Bytes) :
    e.encode.length = e.encodedLen ∧
      (decode buf = (.ok e, rest) ↔ e.Fits ∧ buf = e.encode ++ rest) := by
  refine ⟨length_encode e, decode_eq_ok, ?_⟩
  rintro ⟨⟨key, value⟩, rfl⟩
  exact decode_encode_append e rest key value

/-- An empty value is not a deletion: it reads back as a value. -/
example : decode ((Entry.put [107] []).encode ++ [7]) = (.ok (Entry.put [107] []), [7]) := by
  decide

end Entry

namespace Wal

namespace Record

/-- A record decoded from some bytes fits the format, and the bytes are its encoding. -/
theorem decode_eq_ok {bs : Bytes} {r : Record} (decoded : decode bs = .ok r) :
    r.Fits ∧ bs = r.encode := by
  unfold decode at decoded
  cases read : Header.read? bs with
  | none => simp [read] at decoded
  | some h =>
    rw [read] at decoded
    dsimp only at decoded
    split at decoded
    · cases decoded
    rename_i sameLength
    have whole : (bs.drop headerSize).length = h.len := not_not.mp sameLength
    obtain ⟨head, lsnWord, lenWord⟩ := Header.eq_of_read? read
    obtain ⟨lsn, payload, crc, stamp⟩ := eq_of_ofParts decoded whole
    refine ⟨⟨lsn ▸ lsnWord, stamp, by rw [payload, whole]; exact lenWord⟩, ?_⟩
    -- the header words are the record's, and the payload is the rest of the bytes
    rw [encode, lsn, crc, payload, whole, ← head, List.take_append_drop]

/-- A record that fits the format reads back from its encoding. -/
theorem decode_encode {r : Record} (fits : r.Fits) : decode r.encode = .ok r := by
  have read : Header.read? r.encode = some r.header := by
    simpa using Header.read?_encode_append fits []
  have payload : r.encode.drop headerSize = r.payload := by
    rw [encode_eq_headerBytes_append]
    exact List.drop_left' (length_headerBytes r)
  unfold decode
  simp only [read, payload, header_len, ne_eq, not_true_eq_false, if_false]
  exact ofParts_header fits

/-- Writing a record that fits the format gives its encoding. -/
theorem encode?_of_fits {r : Record} (fits : r.Fits) : r.encode? = .ok r.encode := by
  rw [encode?, if_pos fits.2.2]

/-- The log record codec is a bijection onto its image. Writing a record refuses it exactly when
its payload outgrows a 32-bit length, and otherwise writes `serializedSize` bytes. Reading some
bytes gives a record exactly when the record fits the format and writing it gives those bytes. -/
theorem decode_iff_encode? (r : Record) (bs : Bytes) :
    (r.encode? = .ok bs → bs.length = r.serializedSize) ∧
      ((∃ fault, r.encode? = .error fault) ↔ 2 ^ 32 ≤ r.payload.length) ∧
      (decode bs = .ok r ↔ r.Fits ∧ r.encode? = .ok bs) := by
  refine ⟨?size, ?refused, ?canonical⟩
  case size =>
    intro written
    unfold encode? at written
    split at written
    · cases written
      exact length_encode r
    · cases written
  case refused =>
    unfold encode?
    split
    · rename_i small
      simpa using small
    · rename_i large
      simpa using large
  case canonical =>
    constructor
    · intro decoded
      obtain ⟨fits, rfl⟩ := decode_eq_ok decoded
      exact ⟨fits, encode?_of_fits fits⟩
    · rintro ⟨fits, written⟩
      rw [encode?_of_fits fits, Except.ok.injEq] at written
      rw [← written]
      exact decode_encode fits

end Record

end Wal

end LsmStore
