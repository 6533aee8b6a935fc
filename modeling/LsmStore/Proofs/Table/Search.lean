import Mathlib
import LsmStore.Proofs.Table.Total

/-!
# The binary search of any table

Lookups and range scans find their positions by a binary search over the keys, each key read
straight from the data file at the offset its index slot gives. Opening a table checks nothing
about those keys, so a table that opens may hold keys out of order, or keys that cannot be read
at all, and the search must still mean something there: `get?` and `cursor` take their bounds
from it.

It does. Whenever the search returns a position, the key just before that position was read
and is below the key asked for, and the key at that position was read and is not below it. The
search compared both keys itself, and since reads are functions of the files, reading them
again gives the same keys. A search whose every key can be read always answers. When the keys
are strictly ascending, its answer is the number of keys below the one asked for. The loop
ends because every step shrinks the range `[lo, hi)` it still has to search.

## Main definitions

* `Table.Splits` — a position that splits a range of positions at a key, as far as keys were read

## Main results

* `Table.searchFrom_splits` — the invariant of the search loop, on any table
* `Table.searchFrom_ok_of_readable` — a search whose keys can all be read answers
* `Table.countP_lt_of_splits` — on ascending keys a split is the number of keys below
* `Table.lowerBound_partition_point` — what the search returns, on any table
-/

namespace LsmStore

namespace Table

open Run

/-- Position `p` splits the positions `[lo, hi)` of `t` at `key`: it lies between `lo` and
`hi`, the key before it (if that is still in the range) reads as one below `key`, and the key at
it (if that is still in the range) reads as one not below `key`. Nothing is said about keys that
were never read. -/
structure Splits (v : Volume) (t : Table) (key : Bytes) (lo hi p : Nat) : Prop where
  lo_le : lo ≤ p
  le_hi : p ≤ hi
  below : lo < p → ∃ k, t.keyAt v (p - 1) = .ok k ∧ k < key
  above : p < hi → ∃ k, t.keyAt v p = .ok k ∧ key ≤ k

namespace Splits

variable {v : Volume} {t : Table} {key : Bytes} {lo hi mid p : Nat}

/-- An empty range is split at its only position. -/
theorem empty (done : ¬ lo < hi) (order : lo ≤ hi) : Splits v t key lo hi lo where
  lo_le := Nat.le_refl lo
  le_hi := order
  below := fun lt => absurd lt (Nat.lt_irrefl lo)
  above := fun lt => absurd lt done

/-- A key below `key` at `mid`: a split of the range above `mid` splits the whole range, the key
at `mid` being the one before the split when the split is right after it. -/
theorem of_right {k : Bytes} (read : t.keyAt v mid = .ok k) (lt : k < key) (inside : lo ≤ mid)
    (s : Splits v t key (mid + 1) hi p) : Splits v t key lo hi p where
  lo_le := by have := s.lo_le; omega
  le_hi := s.le_hi
  below := by
    intro _
    by_cases next : mid + 1 < p
    · exact s.below next
    · have : p - 1 = mid := by have := s.lo_le; omega
      exact ⟨k, this ▸ read, lt⟩
  above := s.above

/-- A key not below `key` at `mid`: a split of the range below `mid` splits the whole range, the
key at `mid` being the one at the split when the split is `mid` itself. -/
theorem of_left {k : Bytes} (read : t.keyAt v mid = .ok k) (ge : key ≤ k) (inside : mid < hi)
    (s : Splits v t key lo mid p) : Splits v t key lo hi p where
  lo_le := s.lo_le
  le_hi := by have := s.le_hi; omega
  below := s.below
  above := by
    intro _
    by_cases before : p < mid
    · exact s.above before
    · have : p = mid := by have := s.le_hi; omega
      exact ⟨k, this ▸ read, ge⟩

end Splits

variable {v : Volume} {t : Table} {key : Bytes}

/-- The loop invariant: whatever keys the files hold, a position the search returns splits its
range at `key`. -/
theorem searchFrom_splits {lo hi p : Nat} (order : lo ≤ hi) (found : t.searchFrom v key lo hi = .ok p) :
    Splits v t key lo hi p := by
  induction lo, hi using Table.searchFrom.induct with
  | case1 lo hi inside mid above below =>
    rw [Table.searchFrom, dif_pos inside, bind_eq_ok] at found
    obtain ⟨k, read, found⟩ := found
    -- the key read at the midpoint decides which half is searched, and it stays a witness
    split at found
    · exact Splits.of_right read ‹_› (by omega) (above (by omega) found)
    · exact Splits.of_left read ‹_› (by omega) (below (by omega) found)
  | case2 lo hi done =>
    rw [Table.searchFrom, dif_neg done] at found
    cases found
    exact Splits.empty done order

/-- A search over a range whose keys can all be read returns a position. -/
theorem searchFrom_ok_of_readable {lo hi : Nat}
    (readable : ∀ i, lo ≤ i → i < hi → ∃ k, t.keyAt v i = .ok k) :
    ∃ p, t.searchFrom v key lo hi = .ok p := by
  induction lo, hi using Table.searchFrom.induct with
  | case1 lo hi inside mid above below =>
    obtain ⟨k, read⟩ := readable (lo + (hi - lo) / 2) (by omega) (by omega)
    rw [Table.searchFrom, dif_pos inside]
    simp only [Bind.bind, Except.bind, read]
    split
    · exact above fun i hi' hi'' => readable i (by omega) hi''
    · exact below fun i hi' hi'' => readable i hi' (by omega)
  | case2 lo hi done =>
    rw [Table.searchFrom, dif_neg done]
    exact ⟨lo, rfl⟩

/-- On strictly ascending keys, a position with keys below `key` just before it and keys not
below `key` from it on is the number of keys below `key`. -/
theorem countP_lt_of_splits {keys : List Bytes} (sorted : keys.Pairwise (· < ·)) {p : Nat}
    (le : p ≤ keys.length) (below : ∀ h : 0 < p, keys[p - 1] < key)
    (above : ∀ h : p < keys.length, key ≤ keys[p]) :
    keys.countP (· < key) = p := by
  have order := List.pairwise_iff_getElem.1 sorted
  -- every key before `p` is at most the one just before it, and so below `key`
  have front : ∀ a ∈ keys.take p, a < key := by
    intro a member
    obtain ⟨i, hi, rfl⟩ := List.getElem_of_mem member
    rw [List.length_take] at hi
    rw [List.getElem_take]
    rcases Nat.lt_or_eq_of_le (show i ≤ p - 1 by omega) with lt | eq
    · exact key_lt_trans (order i (p - 1) (by omega) (by omega) lt) (below (by omega))
    · simpa [eq] using below (by omega)
  -- every key from `p` on is at least the one at `p`, and so not below `key`
  have back : ∀ a ∈ keys.drop p, ¬ a < key := by
    intro a member lt
    obtain ⟨j, hj, rfl⟩ := List.getElem_of_mem member
    rw [List.length_drop] at hj
    rw [List.getElem_drop] at lt
    rcases Nat.lt_or_eq_of_le (Nat.le_add_right p j) with gt | eq
    · exact above (by omega) (key_lt_trans (order p (p + j) (by omega) (by omega) gt) lt)
    · exact above (by omega) (by simpa [← eq] using lt)
  calc keys.countP (· < key)
      = (keys.take p).countP (· < key) + (keys.drop p).countP (· < key) := by
        rw [← List.countP_append, List.take_append_drop]
    _ = p + 0 := by
        rw [List.countP_eq_length.2 (fun a member => by simpa using front a member),
          List.countP_eq_zero.2 (fun a member => by simpa using back a member),
          List.length_take_of_le le]
    _ = p := Nat.add_zero p

/-- The binary search returns a partition point on any table, whatever bytes its files hold. A
position it returns is at most the number of entries, the key before it reads as one below
`key` and the key at it as one not below `key`. When every key can be read the search answers,
and when the keys read are strictly ascending its answer is the number of keys below `key`. -/
theorem lowerBound_partition_point (v : Volume) (t : Table) (key : Bytes) :
    (∀ p, t.lowerBound v key = .ok p → Splits v t key 0 t.entryCount p) ∧
    ((∀ i < t.entryCount, ∃ k, t.keyAt v i = .ok k) → ∃ p, t.lowerBound v key = .ok p) ∧
    ∀ keys : List Bytes, keys.length = t.entryCount →
      (∀ i (h : i < keys.length), t.keyAt v i = .ok keys[i]) → keys.Pairwise (· < ·) →
        t.lowerBound v key = .ok (keys.countP (· < key)) := by
  have splits : ∀ p, t.lowerBound v key = .ok p → Splits v t key 0 t.entryCount p :=
    fun p found => searchFrom_splits (Nat.zero_le _) found
  have answers : (∀ i < t.entryCount, ∃ k, t.keyAt v i = .ok k) → ∃ p, t.lowerBound v key = .ok p :=
    fun readable => searchFrom_ok_of_readable fun i _ hi => readable i hi
  refine ⟨splits, answers, ?_⟩
  intro keys count reads sorted
  obtain ⟨p, found⟩ := answers fun i hi => ⟨keys[i], reads i (count ▸ hi)⟩
  have s := splits p found
  -- the keys the search compared are the listed ones
  have le : p ≤ keys.length := count ▸ s.le_hi
  have below : ∀ h : 0 < p, keys[p - 1] < key := by
    intro pos
    obtain ⟨k, read, lt⟩ := s.below pos
    rw [reads (p - 1) (by omega), Except.ok.injEq] at read
    exact read ▸ lt
  have above : ∀ h : p < keys.length, key ≤ keys[p] := by
    intro inside
    obtain ⟨k, read, ge⟩ := s.above (count ▸ inside)
    rw [reads p inside, Except.ok.injEq] at read
    exact read ▸ ge
  rw [found, countP_lt_of_splits sorted le below above]

/-- Two entries, keys `a` and `c`, in the files a builder writes for them. -/
def twoKeys : List Entry := [Entry.put [97] [49], Entry.put [99] [51]]

/-- A volume whose inodes 0 and 1 hold the data and index files of `twoKeys`. -/
def twoKeysVolume : Volume := { inodes := [(0, dataOf twoKeys), (1, indexOf twoKeys)] }

/-- The table of `twoKeys`, opened through file handles. -/
def twoKeysTable : Table :=
  ⟨.flushed 1, ⟨some 0, (dataOf twoKeys).length, false⟩, ⟨some 1, (indexOf twoKeys).length, false⟩⟩

/-- Searching `a`, `c` for `b` stops between them, having read `a` below `b` and `c` above. -/
theorem lowerBound_partition_point_twoKeys :
    twoKeysTable.lowerBound twoKeysVolume [98] = .ok 1 ∧
      Splits twoKeysVolume twoKeysTable [98] 0 twoKeysTable.entryCount 1 := by
  have found := (lowerBound_partition_point twoKeysVolume twoKeysTable [98]).2.2 [[97], [99]]
    (by decide) (by decide) (by decide)
  have one : [[97], [99]].countP (fun k : Bytes => decide (k < [98])) = 1 := by decide
  rw [one] at found
  exact ⟨found, (lowerBound_partition_point twoKeysVolume twoKeysTable [98]).1 1 found⟩

end Table

end LsmStore
