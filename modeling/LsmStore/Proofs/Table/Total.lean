import Mathlib
import LsmStore.Proofs.Table.RoundTrip

/-!
# Reading any table

Opening a table checks only its index: the index must be whole 8-byte slots and, unless it is
empty, the offset in its last slot must lie inside the data file. Every other offset, key length
and value length is read from the files as they are, so any bytes at all may stand in a table
that opens. Reading such a table still never goes wrong in any other way: every lookup, binary
search and scan either answers or reports a damaged table, and every read it makes lies inside
the file it reads. A scan yields at most one item per position it covers, nothing after its first
fault, and once it has ended it stays ended. Whether the files are read through handles or
through memory mappings changes no answer.

All of this holds as long as the two files are still the regular files the table opened, at the
lengths they had then (`Table.Intact`); a table opened from two files of a tree is intact.

## Main definitions

* `Table.OkOrCorrupt` — a read that answers or reports a damaged table, and fails in no other way
* `Table.Intact` — an open table whose files are still the regular files it opened
* `Table.ReadsAlike` — two open tables whose files give the same bytes
* `Table.lastOffset` — the offset in the last slot of an index, which opening checks
* `Table.ReadsTotal` — what reading an open table guarantees
* `Table.OpensTotal` — what opening a table of two files, and reading it, guarantees

## Main results

* `Table.open_of_files` — what opening a table of two regular files gives
* `Table.Intact.readsTotal` — reads of an intact table answer or report damage
* `Table.ReadsAlike.get?`, `lowerBound`, `cursor`, `toList` — alike files, alike answers
* `Table.open_reads_total` — opening any two files, and every read of the table opened
-/

namespace LsmStore

namespace Table

open Run Volume TableId

/-! ## Reads that answer or report damage -/

/-- A read that answers or reports a damaged table, and fails in no other way. -/
def OkOrCorrupt {α : Type} (r : Except StoreError α) : Prop :=
  ∀ e, r = .error e → ∃ f, e = .table f

namespace OkOrCorrupt

variable {α β : Type}

theorem ok (a : α) : OkOrCorrupt (.ok a : Except StoreError α) := fun _ h => nomatch h

theorem table (f : TableFault) : OkOrCorrupt (.error (.table f) : Except StoreError α) := by
  intro e h
  cases h
  exact ⟨f, rfl⟩

theorem bind {r : Except StoreError α} {k : α → Except StoreError β} (hr : OkOrCorrupt r)
    (hk : ∀ a, r = .ok a → OkOrCorrupt (k a)) : OkOrCorrupt (r >>= k) := by
  cases r with
  | error e =>
    intro e' failed
    have same : e = e' := by simpa [Bind.bind, Except.bind] using failed
    exact hr e' (same ▸ rfl)
  | ok a => exact hk a rfl

end OkOrCorrupt

/-- A bound read succeeds exactly when its first read does and the rest does on its answer. -/
theorem bind_eq_ok {ε α β : Type} {r : Except ε α} {k : α → Except ε β} {b : β} :
    r >>= k = .ok b ↔ ∃ a, r = .ok a ∧ k a = .ok b := by
  cases r <;> simp [Bind.bind, Except.bind]

/-! ## Files that are still the files opened -/

/-- A file of an open table that is still the regular file it opened, at the length it had
then. -/
def Source.Intact (v : Volume) (s : Source) : Prop :=
  ∃ i, s.inode = some i ∧ (v.contents i).length = s.length

/-- An open table whose two files are still the regular files it opened. -/
structure Intact (v : Volume) (t : Table) : Prop where
  data : t.data.Intact v
  index : t.index.Intact v

namespace Source

variable {v : Volume} {s : Source}

/-- A read of a regular file checks the range against the length taken at opening, and then
gives the bytes there. -/
theorem readAt_of_inode {i : Nat} (hi : s.inode = some i) (hl : (v.contents i).length = s.length)
    (off len : Nat) :
    s.readAt v off len = if s.length < off + len then .error (.table (.readPastEnd len off s.length))
      else .ok (((v.contents i).drop off).take len) := by
  split
  · rename_i past
    unfold readAt
    rw [if_pos past]
  · exact readAt_eq hi rfl hl.symm off len (by omega)

theorem Intact.okOrCorrupt (h : s.Intact v) (off len : Nat) : OkOrCorrupt (s.readAt v off len) := by
  obtain ⟨i, hi, hl⟩ := h
  rw [readAt_of_inode hi hl]
  split
  · exact OkOrCorrupt.table _
  · exact OkOrCorrupt.ok _

/-- A read of an intact file that succeeds lies inside the file: it reaches no byte past the
length taken at opening, and gives as many bytes as it asked for. -/
theorem Intact.inside (h : s.Intact v) {off len : Nat} {bs : Bytes} (hr : s.readAt v off len = .ok bs) :
    off + len ≤ s.length ∧ bs.length = len := by
  obtain ⟨i, hi, hl⟩ := h
  rw [readAt_of_inode hi hl] at hr
  split at hr
  · cases hr
  · rename_i fits
    cases hr
    refine ⟨by omega, ?_⟩
    simp only [List.length_take, List.length_drop]
    omega

/-- An intact file reads alike through a handle and through a mapping. -/
theorem Intact.readAt_mapped (h : s.Intact v) (b : Bool) (off len : Nat) :
    ({ s with mapped := b } : Source).readAt v off len = s.readAt v off len := by
  obtain ⟨i, hi, hl⟩ := h
  rw [readAt_of_inode (s := { s with mapped := b }) hi hl, readAt_of_inode hi hl]

end Source

/-! ## Positional reads -/

variable {v : Volume} {t : Table}

namespace Intact

variable (h : t.Intact v)
include h

theorem offset (pos : Nat) : OkOrCorrupt (t.offset v pos) :=
  (h.index.okOrCorrupt _ _).bind fun _ _ => OkOrCorrupt.ok _

theorem keyAt (pos : Nat) : OkOrCorrupt (t.keyAt v pos) :=
  (h.offset pos).bind fun _ _ => (h.data.okOrCorrupt _ _).bind fun _ _ => h.data.okOrCorrupt _ _

theorem entryAt (pos : Nat) : OkOrCorrupt (t.entryAt v pos) := by
  unfold Table.entryAt
  refine (h.offset pos).bind fun start _ => ?_
  dsimp only
  -- the entry stops at the next offset, or at the end of the data file
  split
  all_goals refine OkOrCorrupt.bind ?_ fun stop _ => ?_
  on_goal 1 => exact h.offset _
  on_goal 2 => exact OkOrCorrupt.ok _
  -- offsets that decrease are damage; otherwise the bytes must decode to exactly one entry
  all_goals
    split
    · exact OkOrCorrupt.bind (OkOrCorrupt.table _) fun _ thrown => nomatch thrown
    · refine (h.data.okOrCorrupt _ _).bind fun buf _ => ?_
      split
      · exact OkOrCorrupt.table _
      · split
        · exact OkOrCorrupt.ok _
        · exact OkOrCorrupt.table _

/-- The binary search over any keys read from the files answers or reports damage. -/
theorem searchFrom (key : Bytes) (lo hi : Nat) : OkOrCorrupt (t.searchFrom v key lo hi) := by
  induction lo, hi using Table.searchFrom.induct with
  | case1 lo hi inside mid above below =>
    rw [Table.searchFrom, dif_pos inside]
    refine (h.keyAt _).bind fun k _ => ?_
    split
    · exact above
    · exact below
  | case2 lo hi done =>
    rw [Table.searchFrom, dif_neg done]
    exact OkOrCorrupt.ok _

theorem lowerBound (key : Bytes) : OkOrCorrupt (t.lowerBound v key) := h.searchFrom key _ _

theorem get? (key : Bytes) : OkOrCorrupt (t.get? v key) := by
  unfold Table.get?
  refine (h.lowerBound key).bind fun pos _ => ?_
  split
  · exact OkOrCorrupt.ok _
  · exact (h.entryAt pos).bind fun _ _ => OkOrCorrupt.ok _

theorem cursor (lower upper : Option Bytes) : OkOrCorrupt (t.cursor v lower upper) := by
  unfold Table.cursor
  split
  · exact OkOrCorrupt.ok _
  · dsimp only
    -- each bound is a binary search, or the start or the end
    split
    all_goals refine OkOrCorrupt.bind ?_ fun start _ => ?_
    on_goal 1 => exact h.lowerBound _
    on_goal 2 => exact OkOrCorrupt.ok _
    all_goals
      split
      · exact (h.lowerBound _).bind fun _ _ => OkOrCorrupt.ok _
      · exact OkOrCorrupt.ok _

/-- An entry read is the decoding of exactly the bytes from its offset up to the next offset, or
to the end of the data file: bytes inside the file, the next offset not below its own. -/
theorem entryAt_bytes {pos : Nat} {e : Entry} (read : t.entryAt v pos = .ok e) :
    ∃ start stop buf, t.offset v pos = .ok start ∧ start ≤ stop ∧ stop ≤ t.data.length ∧
      t.data.readAt v start (stop - start) = .ok buf ∧ Entry.decode buf = (.ok e, []) := by
  unfold Table.entryAt at read
  obtain ⟨start, started, read⟩ := bind_eq_ok.1 read
  dsimp only at read
  split at read
  all_goals
    obtain ⟨stop, -, read⟩ := bind_eq_ok.1 read
    split at read
    · obtain ⟨_, thrown, -⟩ := bind_eq_ok.1 read
      cases thrown
    · rename_i ordered
      obtain ⟨buf, bufRead, read⟩ := bind_eq_ok.1 read
      have within := (h.data.inside bufRead).1
      split at read
      · cases read
      · rename_i e' rest decoded
        split at read
        · rename_i whole
          cases read
          rw [List.isEmpty_iff.1 whole] at decoded
          exact ⟨start, stop, buf, started, by omega, by omega, bufRead, decoded⟩
        · cases read

end Intact

/-! ## Where searches and scans stay -/

variable {key : Bytes} {p : Nat}

/-- The binary search answers a position between its bounds, whatever keys it reads. -/
theorem searchFrom_le {lo hi : Nat} (order : lo ≤ hi) (found : t.searchFrom v key lo hi = .ok p) :
    lo ≤ p ∧ p ≤ hi := by
  induction lo, hi using Table.searchFrom.induct with
  | case1 lo hi inside mid above below =>
    rw [Table.searchFrom, dif_pos inside, bind_eq_ok] at found
    obtain ⟨k, -, found⟩ := found
    split at found
    · have := above (by omega) found
      omega
    · have := below (by omega) found
      omega
  | case2 lo hi done =>
    rw [Table.searchFrom, dif_neg done] at found
    cases found
    omega

theorem lowerBound_le (found : t.lowerBound v key = .ok p) : p ≤ t.entryCount :=
  (searchFrom_le (Nat.zero_le _) found).2

/-- A range scan covers positions of its own table, up to the table's entry count. -/
theorem cursor_bounds {lower upper : Option Bytes} {c : Cursor} (opened : t.cursor v lower upper = .ok c) :
    c.table = t ∧ c.stop ≤ t.entryCount := by
  unfold Table.cursor at opened
  split at opened
  · cases opened
    exact ⟨rfl, Nat.zero_le _⟩
  · dsimp only at opened
    split at opened
    all_goals
      obtain ⟨start, -, opened⟩ := bind_eq_ok.1 opened
      split at opened
      all_goals
        obtain ⟨stop, stopped, opened⟩ := bind_eq_ok.1 opened
        cases opened
    · exact ⟨rfl, lowerBound_le stopped⟩
    · cases stopped
      exact ⟨rfl, Nat.le_refl _⟩
    · exact ⟨rfl, lowerBound_le stopped⟩
    · cases stopped
      exact ⟨rfl, Nat.le_refl _⟩

/-! ## Scans -/

namespace Cursor

variable {c : Cursor} {e : Entry} {f : StoreError}

/-- A scan that answers the end stays as it is, so it answers the end from then on. -/
theorem next_of_next_none (ended : (c.next v).1 = none) : (c.next v).2 = c := by
  by_cases more : c.pos < c.stop
  · cases read : c.table.entryAt v c.pos with
    | ok e => simp [next_of_entry more read] at ended
    | error f => simp [next_of_fault more read] at ended
  · rw [next_of_done more]

/-- After a fault a scan has ended. -/
theorem next_after_fault (faulted : (c.next v).1 = some (.error f)) : ((c.next v).2.next v).1 = none := by
  by_cases more : c.pos < c.stop
  · cases read : c.table.entryAt v c.pos with
    | ok e => simp [next_of_entry more read] at faulted
    | error f' =>
      rw [next_of_fault more read, next_of_done (by simp)]
  · rw [next_of_done more] at faulted
    cases faulted

/-- A scan yields at most one item per position it covers: entries, and at most one fault after
them. -/
theorem toList_shape (c : Cursor) :
    (c.toList v).length ≤ c.stop - c.pos ∧
      ∃ (es : List Entry) (rest : List (Except StoreError Entry)),
        c.toList v = es.map .ok ++ rest ∧ rest.length ≤ 1 := by
  -- induction on the number of positions left
  induction width : c.stop - c.pos generalizing c with
  | zero =>
    rw [toList_of_next_none (next_of_done (by omega))]
    exact ⟨Nat.zero_le _, [], [], rfl, Nat.zero_le _⟩
  | succ n ih =>
    have more : c.pos < c.stop := by omega
    cases read : c.table.entryAt v c.pos with
    | ok e =>
      obtain ⟨length, es, rest, items, short⟩ := ih { c with pos := c.pos + 1 } (by simp; omega)
      rw [toList_of_next_some (next_of_entry more read), items]
      refine ⟨?_, e :: es, rest, rfl, short⟩
      rw [← items, List.length_cons]
      omega
    | error f =>
      -- the fault is the last item
      rw [toList_of_next_some (next_of_fault more read),
        toList_of_next_none (next_of_done (by simp))]
      exact ⟨by simp, [], [.error f], rfl, by simp⟩

/-- Every item of a scan over an intact table is an entry or a report of damage. -/
theorem toList_okOrCorrupt (h : c.table.Intact v) : ∀ x ∈ c.toList v, OkOrCorrupt x := by
  induction width : c.stop - c.pos generalizing c with
  | zero => simp [toList_of_next_none (next_of_done (c := c) (v := v) (by omega))]
  | succ n ih =>
    have more : c.pos < c.stop := by omega
    cases read : c.table.entryAt v c.pos with
    | ok e =>
      rw [toList_of_next_some (next_of_entry more read)]
      intro x hx
      rcases List.mem_cons.1 hx with rfl | hx
      · exact OkOrCorrupt.ok _
      · exact ih (c := { c with pos := c.pos + 1 }) h (by simp; omega) x hx
    | error f =>
      rw [toList_of_next_some (next_of_fault more read),
        toList_of_next_none (next_of_done (by simp))]
      intro x hx
      rw [List.mem_singleton.1 hx]
      have := h.entryAt c.pos
      rw [read] at this
      intro e' same
      exact this e' same

end Cursor

/-! ## Files that read alike -/

/-- Two open tables with the same identity whose files have the same lengths and give the same
bytes. -/
structure ReadsAlike (v : Volume) (t t' : Table) : Prop where
  id : t'.id = t.id
  dataLength : t'.data.length = t.data.length
  indexLength : t'.index.length = t.index.length
  data : ∀ off len, t'.data.readAt v off len = t.data.readAt v off len
  index : ∀ off len, t'.index.readAt v off len = t.index.readAt v off len

namespace ReadsAlike

variable {t' : Table} (h : ReadsAlike v t t')
include h

theorem entryCount : t'.entryCount = t.entryCount := by
  simp [Table.entryCount, h.indexLength]

theorem offset (pos : Nat) : t'.offset v pos = t.offset v pos := by
  simp only [Table.offset, h.index]

theorem keyAt (pos : Nat) : t'.keyAt v pos = t.keyAt v pos := by
  simp only [Table.keyAt, h.offset, h.data]

theorem entryAt (pos : Nat) : t'.entryAt v pos = t.entryAt v pos := by
  simp only [Table.entryAt, h.offset, h.entryCount, h.dataLength, h.id, h.data]

theorem searchFrom (key : Bytes) (lo hi : Nat) :
    t'.searchFrom v key lo hi = t.searchFrom v key lo hi := by
  induction lo, hi using Table.searchFrom.induct with
  | case1 lo hi inside mid above below =>
    have above : t'.searchFrom v key (lo + (hi - lo) / 2 + 1) hi =
        t.searchFrom v key (lo + (hi - lo) / 2 + 1) hi := above
    have below : t'.searchFrom v key lo (lo + (hi - lo) / 2) = t.searchFrom v key lo (lo + (hi - lo) / 2) :=
      below
    rw [Table.searchFrom, Table.searchFrom, dif_pos inside, dif_pos inside]
    simp only [h.keyAt, above, below]
  | case2 lo hi done =>
    rw [Table.searchFrom, Table.searchFrom, dif_neg done, dif_neg done]

theorem lowerBound (key : Bytes) : t'.lowerBound v key = t.lowerBound v key := by
  simp only [Table.lowerBound, h.searchFrom, h.entryCount]

theorem get? (key : Bytes) : t'.get? v key = t.get? v key := by
  simp only [Table.get?, h.lowerBound, h.entryCount, h.entryAt]

/-- Alike files give the same range scan, over the other table. -/
theorem cursor (lower upper : Option Bytes) :
    t'.cursor v lower upper = (t.cursor v lower upper).map fun c => { c with table := t' } := by
  unfold Table.cursor
  split
  · rfl
  · -- the bounds are the same binary searches
    cases lower with
    | none =>
      cases upper with
      | none =>
        simp only [h.entryCount]
        rfl
      | some b =>
        simp only [h.lowerBound]
        cases t.lowerBound v b <;> rfl
    | some a =>
      cases upper with
      | none =>
        simp only [h.lowerBound, h.entryCount]
        cases t.lowerBound v a <;> rfl
      | some b =>
        simp only [h.lowerBound]
        cases t.lowerBound v a <;> cases t.lowerBound v b <;> rfl

/-- Alike files give the same scan over the same positions. -/
theorem toList (pos stop : Nat) :
    (⟨t', pos, stop⟩ : Cursor).toList v = (⟨t, pos, stop⟩ : Cursor).toList v := by
  -- induction on the number of positions left
  induction width : stop - pos generalizing pos with
  | zero =>
    rw [Cursor.toList_of_next_none (Cursor.next_of_done (by simp; omega)),
      Cursor.toList_of_next_none (Cursor.next_of_done (by simp; omega))]
  | succ n ih =>
    have more : pos < stop := by omega
    cases read : t.entryAt v pos with
    | ok e =>
      rw [Cursor.toList_of_next_some (Cursor.next_of_entry more (by simpa [h.entryAt] using read)),
        Cursor.toList_of_next_some (Cursor.next_of_entry (c := ⟨t, pos, stop⟩) more read)]
      exact congrArg _ (ih (pos + 1) (by omega))
    | error f =>
      rw [Cursor.toList_of_next_some (Cursor.next_of_fault more (by simpa [h.entryAt] using read)),
        Cursor.toList_of_next_some (Cursor.next_of_fault (c := ⟨t, pos, stop⟩) more read),
        Cursor.toList_of_next_none (Cursor.next_of_done (by simp)),
        Cursor.toList_of_next_none (Cursor.next_of_done (c := ⟨t, stop, stop⟩) (by simp))]

end ReadsAlike

/-! ## What reading an intact table guarantees -/

/-- What reading an open table guarantees, whatever bytes its files hold. -/
structure ReadsTotal (v : Volume) (t : Table) : Prop where
  /-- A read of either file that succeeds lies inside the file and gives the bytes asked for. -/
  inside : ∀ s ∈ [t.data, t.index], ∀ off len bs, s.readAt v off len = .ok bs →
    off + len ≤ s.length ∧ bs.length = len
  /-- An entry read is exactly the bytes from its offset to the next offset, or to the end of the
  data file, which does not lie below it. -/
  entry : ∀ pos e, t.entryAt v pos = .ok e → ∃ start stop buf, t.offset v pos = .ok start ∧
    start ≤ stop ∧ stop ≤ t.data.length ∧ t.data.readAt v start (stop - start) = .ok buf ∧
    Entry.decode buf = (.ok e, [])
  /-- A lookup answers or reports damage. -/
  get : ∀ key, OkOrCorrupt (t.get? v key)
  /-- The binary search answers a position of the table or reports damage. -/
  lowerBound : ∀ key, OkOrCorrupt (t.lowerBound v key) ∧
    ∀ p, t.lowerBound v key = .ok p → p ≤ t.entryCount
  /-- A range scan opens over positions of the table or reports damage. -/
  range : ∀ lower upper, OkOrCorrupt (t.cursor v lower upper) ∧
    ∀ c, t.cursor v lower upper = .ok c → c.table = t ∧ c.stop ≤ t.entryCount
  /-- A scan over positions of the table yields at most one item per entry: entries, each read or
  a report of damage, and nothing after a fault. -/
  scan : ∀ c : Cursor, c.table = t → c.stop ≤ t.entryCount →
    (c.toList v).length ≤ t.entryCount ∧ (∀ x ∈ c.toList v, OkOrCorrupt x) ∧
    ∃ (es : List Entry) (rest : List (Except StoreError Entry)),
      c.toList v = es.map .ok ++ rest ∧ rest.length ≤ 1
  /-- A scan that has answered the end stays as it is, so it answers the end from then on. -/
  ended : ∀ c : Cursor, c.table = t → (c.next v).1 = none → (c.next v).2 = c
  /-- After a fault a scan has ended. -/
  faulted : ∀ (c : Cursor) e, c.table = t → (c.next v).1 = some (.error e) →
    ((c.next v).2.next v).1 = none

/-- Every read of an intact table answers or reports damage, and stays inside its files. -/
theorem Intact.readsTotal (h : t.Intact v) : ReadsTotal v t where
  inside := by
    intro s hs off len bs read
    rcases List.mem_pair.1 hs with rfl | rfl
    · exact h.data.inside read
    · exact h.index.inside read
  entry := fun _ _ read => h.entryAt_bytes read
  get := h.get?
  lowerBound := fun key => ⟨h.lowerBound key, fun _ found => lowerBound_le found⟩
  range := fun lower upper => ⟨h.cursor lower upper, fun _ opened => cursor_bounds opened⟩
  scan := by
    intro c own bounded
    obtain ⟨length, shape⟩ := Cursor.toList_shape (v := v) c
    exact ⟨by omega, Cursor.toList_okOrCorrupt (own ▸ h), shape⟩
  ended := fun _ _ ended => Cursor.next_of_next_none ended
  faulted := fun _ _ _ faulted => Cursor.next_after_fault faulted

/-- An intact table read through the other back end reads alike. -/
theorem Intact.readsAlike_mapped (h : t.Intact v) (b : Bool) :
    ReadsAlike v t { t with data := { t.data with mapped := b }, index := { t.index with mapped := b } } :=
  ⟨rfl, rfl, rfl, h.data.readAt_mapped b, h.index.readAt_mapped b⟩

/-! ## Opening two files -/

/-- The offset in the last slot of an index. -/
def lastOffset (index : Bytes) : Nat :=
  Bytes.toNatLE ((index.drop (index.length - offsetSize)).take offsetSize)

variable {ds : List String} {fs : List FileLink} {d : String} {id : TableId} {iD iI : Nat}

/-- Opening a table whose two files are regular files of a tree reads their lengths and checks
only the index: it must be whole slots, and the offset in its last slot must lie inside the data
file. -/
theorem open_of_files (h : v.Laid ds fs) (hD : ⟨d, id.fileName .data, iD⟩ ∈ fs)
    (hI : ⟨d, id.fileName .index, iI⟩ ∈ fs) (backend : ReadBackend) :
    Table.open v d id backend =
      if (v.contents iI).length % offsetSize ≠ 0 then
        .error (.table (.indexLength id (v.contents iI).length))
      else if v.contents iI ≠ [] ∧ (v.contents iD).length ≤ lastOffset (v.contents iI) then
        .error (.table (.lastOffset id (lastOffset (v.contents iI)) (v.contents iD).length))
      else .ok ⟨id, ⟨some iD, (v.contents iD).length, backend == .mapped⟩,
        ⟨some iI, (v.contents iI).length, backend == .mapped⟩⟩ := by
  simp only [Table.open, Source.open_of_mem h hD, Source.open_of_mem h hI, Bind.bind, Except.bind]
  by_cases whole : (v.contents iI).length % offsetSize = 0
  · rw [if_neg (not_not.2 whole), if_neg (not_not.2 whole)]
    dsimp only [Table.entryCount]
    by_cases empty : v.contents iI = []
    · -- no slot: nothing more to check
      have none : ¬ 0 < (v.contents iI).length / offsetSize := by simp [empty]
      rw [if_neg (fun bad => bad.1 empty)]
      simp only [none, if_false]
      rfl
    · -- the last slot is the last eight bytes of the index
      have long : 0 < (v.contents iI).length := List.length_pos_iff.2 empty
      have slots : 0 < (v.contents iI).length / offsetSize := by
        simp only [offsetSize] at whole ⊢
        omega
      have slot : ((v.contents iI).length / offsetSize - 1) * offsetSize =
          (v.contents iI).length - offsetSize := by
        simp only [offsetSize] at whole ⊢
        omega
      have read : Table.offset v ⟨id, ⟨some iD, (v.contents iD).length, backend == .mapped⟩,
          ⟨some iI, (v.contents iI).length, backend == .mapped⟩⟩
            ((v.contents iI).length / offsetSize - 1) = .ok (lastOffset (v.contents iI)) := by
        simp only [Table.offset, slot]
        rw [Source.readAt_eq rfl rfl rfl _ _ (by simp only [offsetSize] at whole ⊢; omega)]
        rfl
      simp only [slots, if_true, read]
      by_cases far : (v.contents iD).length ≤ lastOffset (v.contents iI)
      · rw [if_pos far, if_pos ⟨empty, far⟩]
        rfl
      · rw [if_neg far, if_neg (fun bad => far bad.2)]
        rfl
  · rw [if_pos whole, if_pos whole]
    rfl

/-- What opening a table of two files holding `data` and `index` through `backend` does: it
answers or reports damage, refuses exactly an index that is not whole slots or whose last offset
does not lie inside the data file, gives a table whose reads answer or report damage, and gives
a table that answers every call as the one opened through the other back end. -/
structure OpensTotal (v : Volume) (d : String) (id : TableId) (data index : Bytes)
    (backend : ReadBackend) : Prop where
  okOrCorrupt : OkOrCorrupt (Table.open v d id backend)
  refused : (∃ e, Table.open v d id backend = .error e) ↔
    index.length % offsetSize ≠ 0 ∨ (index ≠ [] ∧ data.length ≤ lastOffset index)
  reads : ∀ t, Table.open v d id backend = .ok t → ReadsTotal v t
  backends : ∀ t, Table.open v d id backend = .ok t → ∀ other : ReadBackend,
    ∃ t', Table.open v d id other = .ok t' ∧
      (∀ key, t'.get? v key = t.get? v key) ∧ (∀ key, t'.lowerBound v key = t.lowerBound v key) ∧
      (∀ lower upper, t'.cursor v lower upper = (t.cursor v lower upper).map fun c => { c with table := t' }) ∧
      ∀ pos stop, (⟨t', pos, stop⟩ : Cursor).toList v = (⟨t, pos, stop⟩ : Cursor).toList v

/-- Opening a table of any two regular files, through either back end, answers or reports
damage, and refuses exactly an index that is not whole 8-byte slots or whose last offset is not
inside the data file. Every lookup, binary search, range scan and full scan of the table opened
answers or reports damage; every read stays inside its file, an entry is read from between its
offset and the next one, not below it; searches and scans stay within the table's entries, and a
scan yields nothing after a fault and stays ended once it has ended. The other back end opens the
same table, and it answers every call alike. -/
theorem open_reads_total (h : v.Laid ds fs) (hD : ⟨d, id.fileName .data, iD⟩ ∈ fs)
    (hI : ⟨d, id.fileName .index, iI⟩ ∈ fs) (backend : ReadBackend) :
    OpensTotal v d id (v.contents iD) (v.contents iI) backend := by
  have opened := open_of_files h hD hI backend
  refine ⟨?_, ?_, fun t ht => ?_, fun t ht other => ?_⟩
  · rw [opened]
    split
    · exact OkOrCorrupt.table _
    · split
      · exact OkOrCorrupt.table _
      · exact OkOrCorrupt.ok _
  · rw [opened]
    by_cases whole : (v.contents iI).length % offsetSize ≠ 0
    · simp [whole]
    · by_cases far : v.contents iI ≠ [] ∧ (v.contents iD).length ≤ lastOffset (v.contents iI)
      · rw [if_neg whole, if_pos far]
        exact ⟨fun _ => .inr far, fun _ => ⟨_, rfl⟩⟩
      · simp only [if_neg whole, if_neg far]
        simp only [reduceCtorEq, exists_false, false_iff, not_or]
        exact ⟨whole, far⟩
  -- the table opened is the two files at their lengths, read through `backend`
  all_goals
    rw [opened] at ht
    split at ht
    · cases ht
    split at ht
    · cases ht
    cases ht
  · exact Intact.readsTotal ⟨⟨iD, rfl, rfl⟩, ⟨iI, rfl, rfl⟩⟩
  · rename_i whole far
    have intact : Intact v ⟨id, ⟨some iD, (v.contents iD).length, backend == .mapped⟩,
        ⟨some iI, (v.contents iI).length, backend == .mapped⟩⟩ := ⟨⟨iD, rfl, rfl⟩, ⟨iI, rfl, rfl⟩⟩
    have alike := intact.readsAlike_mapped (other == .mapped)
    refine ⟨_, ?_, alike.get?, alike.lowerBound, alike.cursor, alike.toList⟩
    rw [open_of_files h hD hI other, if_neg whole, if_neg far]

/-- A table directory holding table 1 with three stray bytes as its data file and one slot of
offset 0 as its index: it opens, and its one entry cannot be read. -/
def strayTable : Volume :=
  ((({} : Volume).bind tableDir .dir).create (join tableDir ((TableId.flushed 1).fileName .data))
    [1, 2, 3]).create (join tableDir ((TableId.flushed 1).fileName .index)) (List.replicate 8 0)

theorem open_reads_total_strayTable :
    strayTable.Laid [tableDir] [⟨tableDir, (TableId.flushed 1).fileName .index, 1⟩,
      ⟨tableDir, (TableId.flushed 1).fileName .data, 0⟩] ∧
    OpensTotal strayTable tableDir (.flushed 1) (strayTable.contents 0) (strayTable.contents 1) .mapped := by
  have valid : (TableId.flushed 1).Valid := by
    unfold TableId.Valid
    decide
  have laid : strayTable.Laid [tableDir] [⟨tableDir, (TableId.flushed 1).fileName .index, 1⟩,
      ⟨tableDir, (TableId.flushed 1).fileName .data, 0⟩] :=
    ((laid_empty.bind_dir tableDir_isName List.not_mem_nil).create List.mem_cons_self
      (fileName_isName valid .data) (fun _ member => nomatch member) [1, 2, 3]).create
      List.mem_cons_self (fileName_isName valid .index)
      (fun f hf same => by
        rw [List.mem_singleton.1 hf] at same
        exact data_ne_index valid (congrArg Prod.snd same)) (List.replicate 8 0)
  exact ⟨laid, open_reads_total laid (List.mem_cons_of_mem _ List.mem_cons_self) List.mem_cons_self .mapped⟩

end Table

end LsmStore
