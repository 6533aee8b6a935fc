import Mathlib
import LsmStore.Proofs.Wal.Progress

/-!
# The LSN after the last one

LSNs are 64-bit words. Three places add one to an LSN: the scan, to measure the gap in LSNs
across a run of damage; the search for the tail of a log, to give the appender the LSN after the
last valid record; and the appender, after each record it writes.

The scan's sum never leaves the word. It is taken only when a record follows damage, and that
record was reached by the search for a record start, which asks for an LSN above the reader's
last one. The reader's last LSN is the report's at every turn of the scan (`Wal.Reader.Guarded`),
so the report's last LSN lies below an LSN of the file.

The other two have no such guard. The LSN after `2 ^ 64 - 1` is `0`: the search for the tail
of a log whose last valid record carries the largest LSN answers `0`, and so does an appender
whose last record carries it. Short of that LSN both add exactly one, and the appender hands
out LSNs above the last one in its log; at it, the LSN handed out is below every other
(`Wal.append_after_top_lsn_wraps`).

## Main definitions

* `Wal.Reader.Turns` — the turns of a loop over the slots of a log
* `Wal.Reader.Guarded` — where the scan stands between two reads

## Main results

* `Wal.nextLsnAfter_eq_succ_iff`, `Wal.lt_nextLsnAfter_iff` — the successor of an LSN wraps
  exactly at the largest one
* `Wal.Reader.Guarded.succ_lastLsn_lt` — the scan's sum stays below `2 ^ 64`
* `Wal.lsn_successor_fits` — where each of the three sums stays in the word
* `Wal.append_after_top_lsn_wraps` — a log whose next LSN is `0`
-/

namespace LsmStore

namespace Wal

open Volume

/-! ## The successor of an LSN -/

/-- The LSN after `lsn` is `lsn + 1` exactly when that sum fits the word. -/
theorem nextLsnAfter_eq_succ_iff (lsn : Nat) : nextLsnAfter lsn = lsn + 1 ↔ lsn + 1 < 2 ^ 64 := by
  constructor
  · intro same
    have := nextLsnAfter_lt lsn
    rwa [same] at this
  · intro small
    exact Nat.mod_eq_of_lt small

/-- The LSN after `lsn` is above it exactly when `lsn + 1` fits the word. -/
theorem lt_nextLsnAfter_iff (lsn : Nat) : lsn < nextLsnAfter lsn ↔ lsn + 1 < 2 ^ 64 := by
  constructor
  · intro above
    -- past the word, the successor wraps below `2 ^ 64`, which is not above `lsn`
    have := nextLsnAfter_lt lsn
    omega
  · intro small
    rw [(nextLsnAfter_eq_succ_iff lsn).2 small]
    exact Nat.lt_succ_self lsn

namespace Reader

/-! ## The scan's sum -/

/-- The turns a loop over the slots of a log takes from the reader `rd` and the state `s`: the
reader and the state each turn starts with. A turn reads a valid or damaged slot and hands it to
`step`. -/
inductive Turns {σ : Type} (step : σ → Slot → Reader → σ) (rd : Reader) (s : σ) :
    Reader → σ → Prop
  | start : Turns step rd s rd s
  | read {rd₁ rd₂ : Reader} {s₁ : σ} {slot : Slot} : Turns step rd s rd₁ s₁ →
      rd₁.next = (some slot, rd₂) → slot ≠ .torn → Turns step rd s rd₂ (step s₁ slot rd₂)

variable {rd rd' : Reader}

/-- A damaged read keeps the last LSN read, and leaves the reader at the end of the log or at a
record start above that LSN. -/
theorem next_eq_damaged_resynced {lsn : Nat} {fault : WalFault}
    (damaged : rd.next = (some (.damaged lsn fault), rd')) :
    rd'.lastLsn = rd.lastLsn ∧
      (rd'.unread = [] ∨ isRecordStart rd'.lastLsn rd'.unread rd'.unread.length = true) := by
  obtain ⟨-, landed⟩ := next_eq_damaged_lands damaged
  rcases landed with ⟨k, found, rfl⟩ | ⟨-, rfl⟩
  · obtain ⟨-, -, start, -⟩ := resync_eq_some found
    exact ⟨rfl, .inr (by simpa only [List.length_drop] using start)⟩
  · exact ⟨rfl, .inl rfl⟩

/-- A record read at a record start above `last` carries an LSN above `last`. -/
theorem lt_lsn_of_recordStart {last : Nat}
    (start : isRecordStart last rd.unread rd.unread.length = true) {r : Record}
    (read : rd.next = (some (.valid r), rd')) : last < r.lsn := by
  obtain ⟨fits, split, -, -⟩ := next_eq_valid read
  have reads : recordAt? (rd.unread.drop 0) = some r := by
    rw [List.drop_zero, split]
    exact recordAt?_encode_append fits _
  have atFront : StartAt rd.unread last 0 := by
    simpa only [StartAt, List.drop_zero, Nat.sub_zero] using start
  exact atFront.lt_lsn reads

/-- Where the scan stands between two reads: the reader's last LSN is the report's, and after
damage the reader is at the end of the log or at a record start above that LSN. -/
structure Guarded (rd : Reader) (turn : List Record × Nat × Report) : Prop where
  last : rd.lastLsn = turn.2.2.lastLsn
  resynced : 0 < turn.2.1 →
    rd.unread = [] ∨ isRecordStart rd.lastLsn rd.unread rd.unread.length = true

/-- The scan starts guarded, with its report's last LSN at 0 and no damage read. -/
theorem guarded_start (file : Bytes) : Guarded (start file) ([], 0, {}) :=
  ⟨rfl, fun none => absurd none (Nat.lt_irrefl 0)⟩

/-- One turn of the scan keeps it guarded: a record sets both last LSNs to its own, and damage
keeps both and leaves the reader at a record start or at the end. -/
theorem Guarded.step {turn : List Record × Nat × Report} (g : Guarded rd turn) {slot : Slot}
    (read : rd.next = (some slot, rd')) (notTorn : slot ≠ .torn) :
    Guarded rd' (scanStep turn slot rd') := by
  obtain ⟨done, pending, acc⟩ := turn
  cases slot with
  | valid r =>
    obtain ⟨-, -, -, last⟩ := next_eq_valid read
    exact ⟨last, fun none => absurd none (Nat.lt_irrefl 0)⟩
  | damaged lsn fault =>
    obtain ⟨same, resynced⟩ := next_eq_damaged_resynced read
    exact ⟨same.trans g.last, fun _ => resynced⟩
  | torn => exact absurd rfl notTorn

/-- Every turn of the scan of a file is guarded. -/
theorem Guarded.of_turns {file : Bytes} {turn : List Record × Nat × Report}
    (turns : Turns scanStep (start file) ([], 0, {}) rd turn) : Guarded rd turn := by
  -- induction on the turns, one read at a time
  induction turns with
  | start => exact guarded_start file
  | read _ read notTorn g => exact g.step read notTorn

/-- Where the scan adds one to its last LSN, after damage and before a record, the sum stays
below `2 ^ 64`: the record carries an LSN above the last one. -/
theorem Guarded.succ_lastLsn_lt {done : List Record} {pending : Nat} {acc : Report}
    (g : Guarded rd (done, pending, acc)) (damage : 0 < pending) {r : Record}
    (read : rd.next = (some (.valid r), rd')) : acc.lastLsn + 1 < 2 ^ 64 := by
  have fits := (next_eq_valid read).1
  rcases g.resynced damage with empty | start
  · rw [next_of_unread_nil empty] at read
    cases read
  · have above := lt_lsn_of_recordStart start read
    rw [g.last] at above
    exact Nat.lt_of_le_of_lt above fits.1

end Reader

/-! ## The appender's sums -/

namespace Appender

variable {ds : List String} {fs : List FileLink} {d n : String} {p : SyncPolicy} {v : Volume}
  {a : Appender} {rs : List Record}

/-- An appender continuing a log hands out `lastLsn + 1` after the log's last LSN exactly when
that sum fits the word, and only then an LSN above it. -/
theorem Continues.nextLsn_iff (h : Continues ds fs d n p v a rs) :
    (a.nextLsn = lastLsnOf rs + 1 ↔ lastLsnOf rs + 1 < 2 ^ 64) ∧
      (lastLsnOf rs < a.nextLsn ↔ lastLsnOf rs + 1 < 2 ^ 64) := by
  rw [h.nextLsn]
  exact ⟨nextLsnAfter_eq_succ_iff _, lt_nextLsnAfter_iff _⟩

end Appender

/-! ## Where the sums stay in the word -/

/-- Where the three sums of one to an LSN stay below `2 ^ 64`, for any bytes of a log file.

The scan's sum always does: at every turn of the scan of the file where it adds one to its last
LSN, with damage read since the last record and a record read next, the sum is below `2 ^ 64`.

The search for the tail of the file answers the last valid LSN plus one exactly when that sum is
below `2 ^ 64`.

An appender opened on the file, where the scan counts nothing lost (or where no file is), then
given any calls that fit the log format, answers as its log says, and its file and buffer hold
the log. Its next LSN is the log's last LSN plus one, and above it, exactly when that sum is
below `2 ^ 64`.

An appender opened on the file wherever the tree holds it, whatever its scan counts lost, hands
out first the LSN after the file's last valid one: that LSN plus one, and above it, exactly when
the sum is below `2 ^ 64`. Each append hands out the next LSN and moves it on by one, modulo
`2 ^ 64`. -/
theorem lsn_successor_fits (file : Bytes) :
    (∀ (rd : Reader) (turn : List Record × Nat × Report),
      Reader.Turns scanStep (Reader.start file) ([], 0, {}) rd turn → 0 < turn.2.1 →
        ∀ (r : Record) (rd' : Reader), rd.next = (some (.valid r), rd') →
          turn.2.2.lastLsn + 1 < 2 ^ 64) ∧
    ((tailOf file).1 = (verify file).lastLsn + 1 ↔ (verify file).lastLsn + 1 < 2 ^ 64) ∧
    (∀ (v : Volume) (ds : List String) (fs : List FileLink) (d n : String),
      v.Laid ds fs → d ∈ ds → IsName n →
      ((∃ i, ⟨d, n, i⟩ ∈ fs ∧ v.contents i = file) ∨
        ((∀ f ∈ fs, f.key ≠ (d, n)) ∧ file = [])) →
      lostCount file = 0 → ∀ (policy : SyncPolicy) (calls : List Call), (∀ c ∈ calls, c.Fits) →
      ∃ a v₁ a' v', Appender.open v (join d n) policy = .ok (a, v₁) ∧
        a.performAll v₁ calls = .ok (Call.answers (recover file).1 calls, a', v') ∧
        let log := calls.foldl Call.logAfter (recover file).1
        v'.contents a'.inode ++ a'.buffered = (log.map Record.encode).flatten ∧
        (a'.nextLsn = lastLsnOf log + 1 ↔ lastLsnOf log + 1 < 2 ^ 64) ∧
        (lastLsnOf log < a'.nextLsn ↔ lastLsnOf log + 1 < 2 ^ 64)) ∧
    (∀ (v : Volume) (ds : List String) (fs : List FileLink) (d n : String) (i : Nat),
      v.Laid ds fs → ⟨d, n, i⟩ ∈ fs → v.contents i = file → ∀ policy : SyncPolicy,
      ∃ a v₁, Appender.open v (join d n) policy = .ok (a, v₁) ∧
        (a.nextLsn = (verify file).lastLsn + 1 ↔ (verify file).lastLsn + 1 < 2 ^ 64) ∧
        ((verify file).lastLsn < a.nextLsn ↔ (verify file).lastLsn + 1 < 2 ^ 64) ∧
        ∀ (e : Entry) (ts : Nat), (⟨a.nextLsn, ts, e⟩ : Record).payload.length < 2 ^ 32 →
          ∃ a' v', a.append v₁ e ts = .ok (a.nextLsn, a', v') ∧
            a'.nextLsn = nextLsnAfter a.nextLsn) := by
  refine ⟨?scan, ?tail, ?writer, ?opened⟩
  case scan =>
    rintro rd ⟨done, pending, acc⟩ turns damage r rd' read
    exact (Reader.Guarded.of_turns turns).succ_lastLsn_lt damage read
  case tail =>
    rw [tailOf_eq_verify]
    exact nextLsnAfter_eq_succ_iff _
  case writer =>
    intro v ds fs d n laid hd hn present clean policy calls fit
    obtain ⟨fs', a, v₁, opened, h, -⟩ := Appender.open_continues laid hd hn present clean policy
    obtain ⟨a', v', ran, h', -⟩ := h.performAll calls fit
    exact ⟨a, v₁, a', v', opened, ran, h'.log, h'.nextLsn_iff⟩
  case opened =>
    intro v ds fs d n i laid hf contents policy
    obtain ⟨v₁, opened, -, -⟩ := Appender.open_of_mem laid hf policy
    rw [contents, tailOf_eq_verify] at opened
    refine ⟨_, v₁, opened, nextLsnAfter_eq_succ_iff _, lt_nextLsnAfter_iff _,
      fun e ts fits => ⟨_, _, Appender.append_eq e ts fits, ?_⟩⟩
    -- a sync, due or not, leaves the next LSN as the write set it
    dsimp only
    split_ifs <;> rfl

/-- An appender opened where no log is yet, given two appends: they hand out LSNs 1 and 2, and
the next LSN is 3. -/
theorem lsn_successor_fits_twoAppends :
    ∃ a v₁ a' v', Appender.open (({} : Volume).bind walDir .dir) (join walDir (segmentName 1))
        .everyWrite = .ok (a, v₁) ∧
      a.performAll v₁ [.append (.put [1] [2]) 7, .append (.put [3] [4]) 8] =
        .ok ([some 1, some 2], a', v') ∧ a'.nextLsn = 3 := by
  have laid := laid_empty.bind_dir walDir_isName List.not_mem_nil
  have clean : lostCount [] = 0 := by
    rw [lostCount, scanFrom_of_next_none (Reader.next_of_unread_nil rfl)]
  obtain ⟨-, -, writer, -⟩ := lsn_successor_fits []
  obtain ⟨a, v₁, a', v', opened, ran, -, next, -⟩ := writer _ _ _ _ _ laid List.mem_cons_self
    (@segmentName_isName 1 (by norm_num)) (.inr ⟨fun _ member => absurd member List.not_mem_nil, rfl⟩)
    clean .everyWrite [.append (.put [1] [2]) 7, .append (.put [3] [4]) 8] (by decide)
  have empty : (recover []).1 = [] := by
    simp [recover]
  have answers : Call.answers [] [.append (.put [1] [2]) 7, .append (.put [3] [4]) 8] =
      [some 1, some 2] := by
    decide
  have last : lastLsnOf ([Call.append (.put [1] [2]) 7, .append (.put [3] [4]) 8].foldl
      Call.logAfter []) = 2 := by
    decide
  rw [empty, answers] at ran
  rw [empty, last] at next
  exact ⟨a, v₁, a', v', opened, ran, next.2 (by norm_num)⟩

/-- A record carrying the largest LSN. -/
def topRecord : Record := ⟨2 ^ 64 - 1, 0, .put [97] [49]⟩

/-- The log of `topRecord` alone, opened: the search for its tail wraps to LSN 0, and the first
append hands out LSN 0, below the LSN of the log's last valid record. -/
theorem append_after_top_lsn_wraps :
    (verify topRecord.encode).lastLsn = 2 ^ 64 - 1 ∧ (tailOf topRecord.encode).1 = 0 ∧
      ∃ a v₁ a' v', Appender.open ((({} : Volume).bind walDir .dir).create
          (join walDir (segmentName 1)) topRecord.encode) (join walDir (segmentName 1))
            .everyWrite = .ok (a, v₁) ∧
        a.append v₁ (.put [98] [50]) 0 = .ok (0, a', v') := by
  have fits : ∀ r ∈ [topRecord], r.Fits := by
    decide
  have written : ([topRecord].map Record.encode).flatten = topRecord.encode := by
    simp
  have verified : (verify topRecord.encode).lastLsn = 2 ^ 64 - 1 := by
    rw [verify, ← written, scan_encodes fits]
    rfl
  have wraps : nextLsnAfter (2 ^ 64 - 1) = 0 := by
    decide
  have clean : lostCount topRecord.encode = 0 := by
    rw [lostCount, ← written,
      @scanFrom_encodes [topRecord] fits (Reader.start ([topRecord].map Record.encode).flatten) rfl {} rfl]
  have laid := (laid_empty.bind_dir walDir_isName List.not_mem_nil).create List.mem_cons_self
    (@segmentName_isName 1 (by norm_num)) (fun _ member => absurd member List.not_mem_nil)
    topRecord.encode
  -- the log is clean, so the appender continues it after its last record, at LSN 0
  obtain ⟨fs', a, v₁, opened, h, -, -, -, next⟩ := Appender.open_continues laid List.mem_cons_self
    (@segmentName_isName 1 (by norm_num))
    (.inl ⟨_, List.mem_cons_self, by rw [contents_create, if_pos rfl]⟩) clean .everyWrite
  rw [← written, recover_encodes fits] at next
  obtain ⟨a', v', appended, -⟩ := h.append (.put [98] [50])
    (show (0 : Nat) < 2 ^ 64 by norm_num) (by decide)
  rw [next] at appended
  exact ⟨verified, by rw [tailOf_eq_verify, verified, wraps], a, v₁, a', v', opened, appended⟩

end Wal

end LsmStore
