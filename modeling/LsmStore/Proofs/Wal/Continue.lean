import Mathlib
import LsmStore.Proofs.Wal.Log
import LsmStore.Proofs.Wal.Prefix

/-!
# Continuing a log

An appender opened on a log file continues it. It reads the file as recovery does, cuts it back
to the end of the last valid record and gives the next record the LSN after that record's. A
client then appends, syncs, truncates and reopens the log in any order. This module shows that
through every such run, when the scan of the file counted nothing as lost, the file followed by
the write buffer holds the log's records back to back: the records recovery found in the file,
or none once a truncation came, then the appended records, each with the LSN after the one
before. After a sync, a truncation or a reopening, and once the appender is closed, the file
holds all of them, and recovery gives them back with nothing damaged, lost or cut off.

The invariant `Wal.Appender.Continues` says this of an appender and its volume, and one lemma
per call keeps it. Reopening rests on two facts about reading: opening finds the end of the log
that recovery finds (`tailOf_eq_verify`), and records written back to back all read back,
whatever their LSNs (`scan_encodes`).

What matters is the exact count of lost records. The report stores it as a 64-bit word, so a
file whose report shows no loss may still hold damage in its valid part; the appender keeps
those bytes, and recovery of the continued file reports them as damaged.

## Main definitions

* `Wal.Call` — a call a client makes on an open log
* `Wal.Appender.perform`, `Wal.Appender.performAll` — one call, and calls in turn
* `Wal.Call.answers`, `Wal.Call.logAfter` — the LSNs appends give, and the log calls leave
* `Wal.Appender.Continues` — an appender whose file and buffer hold a log

## Main results

* `Wal.scan_encodes` — records written back to back read back, whatever their LSNs
* `Wal.tailOf_eq_verify` — opening finds the end of the log that recovery finds
* `Wal.Appender.Continues.perform` — every call keeps the invariant
* `Wal.Appender.open_continues_log` — a log opened on a file with nothing lost continues
  through every run of calls
-/

namespace LsmStore

/-- The most appended records a sync policy leaves unsynced: none when every write is synced,
and fewer than the count otherwise, so none for a count of 0. -/
def SyncPolicy.unsyncedBound : SyncPolicy → Nat
  | .everyWrite => 0
  | .everyN count => count - 1

namespace Wal

open Volume

theorem nextLsnAfter_lt (lsn : Nat) : nextLsnAfter lsn < 2 ^ 64 :=
  Nat.mod_lt _ (by positivity)

@[simp] theorem nextLsnAfter_zero : nextLsnAfter 0 = 1 := by
  simp [nextLsnAfter]

/-! ## Reading records written back to back -/

/-- Records written back to back are all read, whatever their LSNs: the scan ends past the last
of them, counting each as recovered and nothing as damaged or lost, with the last record's
LSN. -/
theorem scanFrom_encodes {rs : List Record} (fits : ∀ r ∈ rs, r.Fits) {rd : Reader}
    (unread : rd.unread = (rs.map Record.encode).flatten) {acc : Report}
    (accLen : acc.validLen = rd.position) :
    scanFrom rd 0 acc =
      (rs, { acc with recovered := acc.recovered + rs.length,
                      lastLsn := (rs.getLast?.map (·.lsn)).getD acc.lastLsn,
                      validLen := rd.position + ((rs.map Record.encode).flatten).length }) := by
  rw [@scanFrom_encodes_append rs fits rd [] (by rw [unread, List.append_nil]) acc accLen]
  -- nothing follows the records
  simp only [scanFrom_of_unread_nil, List.append_nil]

/-- The records of a log written back to back are what a scan returns, with a report that
counts them all as recovered, finds nothing damaged, lost or after them, and holds the last
one's LSN. -/
theorem scan_encodes {rs : List Record} (fits : ∀ r ∈ rs, r.Fits) :
    scan (rs.map Record.encode).flatten =
      (rs, { recovered := rs.length, lastLsn := lastLsnOf rs,
             validLen := ((rs.map Record.encode).flatten).length }) := by
  simp only [scan, @scanFrom_encodes _ fits (Reader.start _) rfl {} rfl]
  simp [Reader.start, lastLsnOf]

/-- An empty file holds no record, and its report is empty. -/
@[simp] theorem scan_nil : scan [] = ([], {}) :=
  @scan_encodes [] (fun _ member => absurd member List.not_mem_nil)

/-- Recovery of records written back to back gives them back and leaves the file whole. -/
theorem recover_encodes {rs : List Record} (fits : ∀ r ∈ rs, r.Fits) :
    recover (rs.map Record.encode).flatten =
      (rs, { recovered := rs.length, lastLsn := lastLsnOf rs,
             validLen := ((rs.map Record.encode).flatten).length },
        (rs.map Record.encode).flatten) := by
  simp only [recover, scan_encodes fits]
  rfl

/-- When a scan counts nothing as lost, the records it returns fit the format, the last of
them carries the report's last LSN, and back to back they are the valid part of the file. -/
theorem scan_of_lostCount_eq_zero {file : Bytes} (clean : lostCount file = 0) :
    (∀ r ∈ (scan file).1, r.Fits) ∧ (scan file).2.lastLsn = lastLsnOf (scan file).1 ∧
      (scan file).2.validLen ≤ file.length ∧
      file.take (scan file).2.validLen = ((scan file).1.map Record.encode).flatten := by
  obtain ⟨rd, pending, s⟩ := scanned_scanFrom (Scanned.start file)
  rw [List.nil_append] at s
  unfold lostCount at clean
  unfold scan
  generalize scanFrom (Reader.start file) 0 {} = result at s clean
  obtain ⟨records, report⟩ := result
  exact ⟨s.fits, s.last, Nat.le_trans s.validLen_le s.inFile, s.exact clean⟩

/-! ## Where an appender continues a log -/

section Tail

variable {rd rd' : Reader} {lastLsn validEnd : Nat}

theorem tailFrom_of_next_none (next : rd.next = (none, rd')) :
    tailFrom rd lastLsn validEnd = (nextLsnAfter lastLsn, validEnd) := by
  rw [tailFrom]
  split <;> simp_all

theorem tailFrom_of_next_torn (next : rd.next = (some .torn, rd')) :
    tailFrom rd lastLsn validEnd = (nextLsnAfter lastLsn, validEnd) := by
  rw [tailFrom]
  split <;> simp_all

theorem tailFrom_of_next_valid {r : Record} (next : rd.next = (some (.valid r), rd')) :
    tailFrom rd lastLsn validEnd = tailFrom rd' r.lsn rd'.position := by
  rw [tailFrom]
  split <;> simp_all

theorem tailFrom_of_next_damaged {lsn : Nat} {fault : WalFault}
    (next : rd.next = (some (.damaged lsn fault), rd')) :
    tailFrom rd lastLsn validEnd = tailFrom rd' lastLsn validEnd := by
  rw [tailFrom]
  split <;> simp_all

end Tail

/-- Reading a log to its end finds where a scan ends the valid part, and the LSN after the last
valid record's. -/
theorem tailFrom_eq_scanFrom (rd : Reader) (pending : Nat) (acc : Report) :
    tailFrom rd acc.lastLsn acc.validLen =
      (nextLsnAfter (scanFrom rd pending acc).2.lastLsn, (scanFrom rd pending acc).2.validLen) := by
  match next : rd.next with
  | (none, _) => rw [tailFrom_of_next_none next, scanFrom_of_next_none next]
  | (some .torn, _) => rw [tailFrom_of_next_torn next, scanFrom_of_next_torn next]
  | (some (.valid r), rd') =>
    have := Reader.next_shrinks rd _ rd' next (by simp)
    rw [tailFrom_of_next_valid next, scanFrom_of_next_valid next]
    dsimp only
    exact tailFrom_eq_scanFrom rd' 0
      { acc with lost := _, recovered := _, lastLsn := r.lsn, validLen := rd'.position }
  | (some (.damaged lsn fault), rd') =>
    have := Reader.next_shrinks rd _ rd' next (by simp)
    rw [tailFrom_of_next_damaged next, scanFrom_of_next_damaged next]
    exact tailFrom_eq_scanFrom rd' (pending + 1) { acc with corrupted := acc.corrupted + 1 }
termination_by rd.unread.length

/-- Opening a log finds the end of the log that recovery finds: the next LSN follows the last
valid record's, and writing goes on at the end of the valid part. -/
theorem tailOf_eq_verify (file : Bytes) :
    tailOf file = (nextLsnAfter (verify file).lastLsn, (verify file).validLen) := by
  have tail := tailFrom_eq_scanFrom (Reader.start file) 0 {}
  unfold tailOf verify scan
  generalize scanFrom (Reader.start file) 0 {} = result at tail
  obtain ⟨records, report⟩ := result
  exact tail

/-! ## Calls on an open log -/

/-- A call a client makes on an open log: append an entry stamped with a time, force the log
to disk, drop every record, or let go of the appender and open the log again. -/
inductive Call where
  | append (entry : Entry) (timestamp : Nat)
  | sync
  | truncate
  | reopen
deriving Repr

namespace Call

/-- A call the log format can take: an append's timestamp is a 64-bit word and its record's
payload fits the 32-bit length field. -/
def Fits : Call → Prop
  | .append entry timestamp => timestamp < 2 ^ 64 ∧ 8 + entry.encodedLen < 2 ^ 32
  | _ => True

instance : (c : Call) → Decidable c.Fits
  | .append _ _ => inferInstanceAs (Decidable (_ ∧ _))
  | .sync | .truncate | .reopen => inferInstanceAs (Decidable True)

/-- Whether a call leaves the whole log in the file: all but an append. -/
def commits : Call → Bool
  | .append _ _ => false
  | _ => true

/-- What a call answers on the log `rs`: an append the LSN of its record, the one after the
last record's as a 64-bit word; the others nothing. -/
def answer (rs : List Record) : Call → Option Nat
  | .append _ _ => some (nextLsnAfter (lastLsnOf rs))
  | _ => none

/-- The log a call leaves, from the log `rs`: an append adds its record with the LSN after the
last one, a truncation drops every record, and a sync or a reopening keeps the log. -/
def logAfter (rs : List Record) : Call → List Record
  | .append entry timestamp => rs ++ [⟨nextLsnAfter (lastLsnOf rs), timestamp, entry⟩]
  | .truncate => []
  | _ => rs

/-- What calls made in turn answer, from the log `rs`. -/
def answers : List Record → List Call → List (Option Nat)
  | _, [] => []
  | rs, c :: cs => c.answer rs :: answers (c.logAfter rs) cs

end Call

namespace Appender

/-- Makes a call on an appender: an append answers the LSN it gave its record, and the other
calls nothing. A reopening closes the appender and opens its log again with its policy. -/
def perform (a : Appender) (v : Volume) : Call → Except StoreError (Option Nat × Appender × Volume)
  | .append entry timestamp => do
    let (lsn, a, v) ← a.append v entry timestamp
    pure (some lsn, a, v)
  | .sync => pure (none, (a.sync v).1, (a.sync v).2)
  | .truncate => pure (none, (a.truncate v).1, (a.truncate v).2)
  | .reopen => do
    let (a', v') ← Appender.open (a.close v) a.path a.policy
    pure (none, a', v')

/-- Makes calls in turn and collects the answers; a refused call ends the run. -/
def performAll (a : Appender) (v : Volume) :
    List Call → Except StoreError (List (Option Nat) × Appender × Volume)
  | [] => pure ([], a, v)
  | c :: cs => do
    let (answer, a, v) ← a.perform v c
    let (answers, a, v) ← a.performAll v cs
    pure (answer :: answers, a, v)

variable {a a' : Appender} {v v' : Volume} {bs : Bytes}

@[simp] theorem uncommitted_write : (a.write v bs).1.uncommitted = a.uncommitted := by
  rw [write_eq]
  dsimp only
  split <;> split <;> rfl

@[simp] theorem inode_write : (a.write v bs).1.inode = a.inode := by
  rw [write_eq]
  dsimp only
  split <;> split <;> rfl

/-- An append leaves fewer records unsynced than its policy allows, whatever it found. -/
theorem unsynced_append {e : Entry} {ts lsn : Nat} (ran : a.append v e ts = .ok (lsn, a', v')) :
    a'.uncommitted ≤ a.policy.unsyncedBound := by
  by_cases fits : (⟨a.nextLsn, ts, e⟩ : Record).payload.length < 2 ^ 32
  · rw [append_eq e ts fits] at ran
    dsimp only at ran
    cases ran
    -- a sync due empties the count; otherwise the count stays below the policy's
    cases policy : a.policy with
    | everyWrite => simp [policy, sync, SyncPolicy.unsyncedBound]
    | everyN count =>
      split_ifs with due
      · exact Nat.zero_le _
      · simp only [decide_eq_true_eq, uncommitted_write] at due
        simp only [SyncPolicy.unsyncedBound, uncommitted_write]
        omega
  · rw [append_of_too_large e ts fits] at ran
    cases ran

/-- Opening a log at a name its directory holds continues the file there: the next LSN and the
end of writing come from reading the file to its last valid record, and the file is cut at
that end, in the same tree of files. -/
theorem open_of_mem {ds : List String} {fs : List FileLink} {d n : String} {i : Nat}
    (h : v.Laid ds fs) (hf : ⟨d, n, i⟩ ∈ fs) (policy : SyncPolicy) :
    ∃ v₁, Appender.open v (join d n) policy =
      .ok ({ path := join d n, inode := i,
             position := min (v.contents i).length (tailOf (v.contents i)).2,
             nextLsn := (tailOf (v.contents i)).1, policy }, v₁) ∧
      v₁.Laid ds fs ∧ v₁.contents i = (v.contents i).take (tailOf (v.contents i)).2 := by
  refine ⟨if (tailOf (v.contents i)).2 < (v.contents i).length then
      v.resize i (tailOf (v.contents i)).2 else v, ?_, ?laid, ?cut⟩
  · simp only [Appender.open, h.find?_of_mem hf, h.touch_of_mem hf, Except.mapError, pure,
      Except.pure, Bind.bind, Except.bind]
  case laid =>
    split_ifs
    · exact h.resize _ _
    · exact h
  case cut =>
    split_ifs with short
    · rw [contents_resize_of_le _ i _ (Nat.le_of_lt short), if_pos rfl]
    · rw [List.take_of_length_le (Nat.le_of_not_lt short)]

/-! ## The invariant of a continued log -/

variable {ds : List String} {fs : List FileLink} {d n : String} {p : SyncPolicy}
  {rs : List Record}

/-- An appender with policy `p` on the file at `join d n` of a tree of files, continuing the
log `rs`: the file followed by the write buffer holds the records back to back, each fitting
the format; writing goes on at the end of the file; the next LSN follows the last record's; and
fewer records are unsynced than the policy allows. -/
structure Continues (ds : List String) (fs : List FileLink) (d n : String) (p : SyncPolicy)
    (v : Volume) (a : Appender) (rs : List Record) : Prop where
  laid : v.Laid ds fs
  linked : ⟨d, n, a.inode⟩ ∈ fs
  path : a.path = join d n
  policy : a.policy = p
  log : v.contents a.inode ++ a.buffered = (rs.map Record.encode).flatten
  atEnd : a.position = (v.contents a.inode).length
  fits : ∀ r ∈ rs, r.Fits
  nextLsn : a.nextLsn = nextLsnAfter (lastLsnOf rs)
  unsynced : a.uncommitted ≤ p.unsyncedBound

/-- With nothing in the write buffer, the file holds the whole log. -/
theorem Continues.read (h : Continues ds fs d n p v a rs) (empty : a.buffered = []) :
    v.read (join d n) = .ok (rs.map Record.encode).flatten := by
  rw [h.laid.read_of_mem h.linked, ← h.log, empty, List.append_nil]

/-- Bytes that only move from the buffer into the file keep the log. -/
theorem Continues.of_extends (h : Continues ds fs d n p v a rs) (moved : Extends a v [] a' v')
    (path : a'.path = a.path) (policy : a'.policy = a.policy) (lsn : a'.nextLsn = a.nextLsn)
    (unsynced : a'.uncommitted ≤ p.unsyncedBound) : Continues ds fs d n p v' a' rs where
  laid := h.laid.of_links moved.links (Nat.le_of_eq moved.nextInode.symm)
  linked := moved.inode ▸ h.linked
  path := path.trans h.path
  policy := policy.trans h.policy
  log := by rw [moved.inode, moved.written, List.append_nil, h.log]
  atEnd := moved.atEnd'
  fits := h.fits
  nextLsn := lsn.trans h.nextLsn
  unsynced := unsynced

/-- Closing the appender leaves the whole log in the file, in the same tree of files. -/
theorem Continues.close (h : Continues ds fs d n p v a rs) :
    (a.close v).contents a.inode = (rs.map Record.encode).flatten ∧ (a.close v).Laid ds fs := by
  have moved := flushBuffer_extends (v := v) h.atEnd
  have written := moved.written
  rw [buffered_flushBuffer, List.append_nil, List.append_nil, h.log] at written
  exact ⟨written, h.laid.of_links moved.links (Nat.le_of_eq moved.nextInode.symm)⟩

/-- A sync keeps the log and leaves nothing buffered or unsynced. -/
theorem Continues.sync (h : Continues ds fs d n p v a rs) :
    Continues ds fs d n p (a.sync v).2 (a.sync v).1 rs ∧ (a.sync v).1.buffered = [] ∧
      (a.sync v).1.uncommitted = 0 :=
  ⟨h.of_extends (sync_extends h.atEnd) path_sync policy_sync nextLsn_sync (Nat.zero_le _), rfl, rfl⟩

/-- An append that fits adds its record, with the LSN after the last one, to the log. -/
theorem Continues.append (h : Continues ds fs d n p v a rs) (e : Entry) {ts : Nat}
    (stamp : ts < 2 ^ 64) (small : 8 + e.encodedLen < 2 ^ 32) :
    ∃ a' v', a.append v e ts = .ok (a.nextLsn, a', v') ∧
      Continues ds fs d n p v' a' (rs ++ [⟨a.nextLsn, ts, e⟩]) := by
  have payload : (⟨a.nextLsn, ts, e⟩ : Record).payload.length < 2 ^ 32 := by
    rw [Record.length_payload]
    exact small
  obtain ⟨a', v', appended, ext, lsn⟩ := append_extends h.atEnd e ts payload
  obtain ⟨path, policy⟩ := path_policy_append appended
  refine ⟨a', v', appended, ⟨h.laid.of_links ext.links (Nat.le_of_eq ext.nextInode.symm),
    ext.inode ▸ h.linked, path.trans h.path, policy.trans h.policy, ?log, ext.atEnd', ?fits,
    ?nextLsn, h.policy ▸ unsynced_append appended⟩⟩
  case log =>
    rw [ext.inode, ext.written, h.log, List.map_append, List.flatten_append]
    simp
  case fits =>
    intro r hr
    rcases List.mem_append.1 hr with old | new
    · exact h.fits r old
    · rw [List.mem_singleton.1 new]
      exact ⟨h.nextLsn ▸ nextLsnAfter_lt _, stamp, payload⟩
  case nextLsn =>
    rw [lsn, lastLsnOf_append_singleton]

/-- A truncation empties the file and the buffer and restarts the LSNs at 1. -/
theorem Continues.truncate (h : Continues ds fs d n p v a rs) :
    Continues ds fs d n p (a.truncate v).2 (a.truncate v).1 [] ∧ (a.truncate v).1.buffered = [] ∧
      (a.truncate v).1.uncommitted = 0 := by
  have moved := flushBuffer_extends (v := v) h.atEnd
  have laid := h.laid.of_links moved.links (Nat.le_of_eq moved.nextInode.symm)
  -- the flushed file is cut to nothing
  have emptied : ((a.flushBuffer v).2.resize a.inode 0).contents a.inode = [] := by
    rw [contents_resize_of_le _ a.inode 0 (Nat.zero_le _), if_pos rfl, List.take_zero]
  refine ⟨⟨laid.resize a.inode 0, h.linked, h.path, h.policy, ?_, ?_, by simp,
    by rw [lastLsnOf_nil, nextLsnAfter_zero]; rfl, Nat.zero_le _⟩, rfl, rfl⟩
  · show ((a.flushBuffer v).2.resize a.inode 0).contents a.inode ++ [] = _
    rw [emptied]
    rfl
  · show 0 = (((a.flushBuffer v).2.resize a.inode 0).contents a.inode).length
    rw [emptied]
    rfl

/-- A reopening closes the appender and opens the log again where it ended: the file keeps the
whole log, and the LSN goes on as before. -/
theorem Continues.reopen (h : Continues ds fs d n p v a rs) :
    ∃ a' v', Appender.open (a.close v) a.path a.policy = .ok (a', v') ∧
      Continues ds fs d n p v' a' rs ∧ a'.nextLsn = a.nextLsn ∧ a'.buffered = [] ∧
      a'.uncommitted = 0 := by
  obtain ⟨closed, laid⟩ := h.close
  have tail : tailOf ((a.close v).contents a.inode) =
      (nextLsnAfter (lastLsnOf rs), ((rs.map Record.encode).flatten).length) := by
    rw [closed, tailOf_eq_verify, verify, scan_encodes h.fits]
  obtain ⟨v₁, opened, laid₁, kept⟩ := open_of_mem laid h.linked a.policy
  rw [tail, closed, List.take_length] at kept
  rw [tail, closed, Nat.min_self] at opened
  rw [h.path]
  refine ⟨_, v₁, opened, ⟨laid₁, h.linked, rfl, h.policy, ?_, ?_, h.fits, rfl, Nat.zero_le _⟩,
    h.nextLsn.symm, rfl, rfl⟩
  · rw [kept, List.append_nil]
  · rw [kept]

/-- Every call that fits the log format answers as the log says and keeps the invariant; after
a sync, a truncation or a reopening nothing is buffered or unsynced. -/
theorem Continues.perform (h : Continues ds fs d n p v a rs) {c : Call} (fit : c.Fits) :
    ∃ a' v', a.perform v c = .ok (c.answer rs, a', v') ∧
      Continues ds fs d n p v' a' (c.logAfter rs) ∧
      (c.commits = true → a'.buffered = [] ∧ a'.uncommitted = 0) := by
  cases c with
  | append e ts =>
    obtain ⟨a', v', appended, h'⟩ := h.append e fit.1 fit.2
    refine ⟨a', v', ?_, ?_, fun commits => absurd commits Bool.false_ne_true⟩
    · simp only [Appender.perform, appended, Call.answer, h.nextLsn, Bind.bind, Except.bind,
        pure, Except.pure]
    · simpa only [Call.logAfter, h.nextLsn] using h'
  | sync =>
    obtain ⟨h', empty, none⟩ := h.sync
    exact ⟨_, _, rfl, h', fun _ => ⟨empty, none⟩⟩
  | truncate =>
    obtain ⟨h', empty, none⟩ := h.truncate
    exact ⟨_, _, rfl, h', fun _ => ⟨empty, none⟩⟩
  | reopen =>
    obtain ⟨a', v', opened, h', -, empty, none⟩ := h.reopen
    refine ⟨a', v', ?_, h', fun _ => ⟨empty, none⟩⟩
    simp only [Appender.perform, opened, Call.answer, Bind.bind, Except.bind, pure, Except.pure]

/-- Opening a log on a file whose scan counts nothing as lost, or where no file is, cuts the
file to the valid part recovery finds and continues the log of the records recovery returns,
after the LSN of the last of them, with nothing buffered or unsynced. -/
theorem open_continues {v : Volume} (laid : v.Laid ds fs) (hd : d ∈ ds) (hn : IsName n)
    {F : Bytes}
    (file : (∃ i, ⟨d, n, i⟩ ∈ fs ∧ v.contents i = F) ∨ ((∀ f ∈ fs, f.key ≠ (d, n)) ∧ F = []))
    (clean : lostCount F = 0) (policy : SyncPolicy) :
    ∃ fs' a v₁, Appender.open v (join d n) policy = .ok (a, v₁) ∧
      Continues ds fs' d n policy v₁ a (recover F).1 ∧ a.buffered = [] ∧ a.uncommitted = 0 ∧
      v₁.contents a.inode = F.take (recover F).2.1.validLen ∧
      a.nextLsn = nextLsnAfter (recover F).2.1.lastLsn := by
  obtain ⟨fits, last, within, valid⟩ := scan_of_lostCount_eq_zero clean
  rcases file with ⟨i, hf, rfl⟩ | ⟨absent, rfl⟩
  · -- the file is there: it is cut to its valid part, which holds the records recovery returns
    obtain ⟨v₁, opened, laid₁, cut⟩ := open_of_mem laid hf policy
    rw [tailOf_eq_verify] at opened cut
    dsimp only [verify] at opened cut
    rw [Nat.min_eq_right within] at opened
    refine ⟨fs, _, v₁, opened, ⟨laid₁, hf, rfl, rfl, ?_, ?_, fits, ?_, Nat.zero_le _⟩, rfl, rfl,
      cut, rfl⟩
    · rw [cut, List.append_nil]
      exact valid
    · rw [cut, List.length_take, Nat.min_eq_left within]
    · exact congrArg nextLsnAfter last
  · -- no file is there: it is created empty, and the log starts at LSN 1
    rw [open_absent laid hd hn absent]
    refine ⟨_, _, _, rfl, ⟨laid.create hd hn absent [], List.mem_cons_self, rfl, rfl, ?_, ?_, ?_,
      ?_, Nat.zero_le _⟩, rfl, rfl, ?_, ?_⟩ <;>
      simp [recover]

/-- A run of calls that fit the log format answers as the log says, call by call, and keeps
the invariant for the log the calls leave; when the last call is a sync, a truncation or a
reopening, nothing is buffered or unsynced. -/
theorem Continues.performAll (h : Continues ds fs d n p v a rs) (calls : List Call)
    (fit : ∀ c ∈ calls, c.Fits) :
    ∃ a' v', a.performAll v calls = .ok (Call.answers rs calls, a', v') ∧
      Continues ds fs d n p v' a' (calls.foldl Call.logAfter rs) ∧
      ∀ c ∈ calls.getLast?, c.commits = true → a'.buffered = [] ∧ a'.uncommitted = 0 := by
  -- induction on the calls, with the appender, its volume and the log moving along
  induction calls generalizing a v rs with
  | nil => exact ⟨a, v, rfl, h, fun c last => absurd last (by simp)⟩
  | cons c cs ih =>
    obtain ⟨a₁, v₁, ran, h₁, settled⟩ := h.perform (fit c List.mem_cons_self)
    obtain ⟨a', v', rest, h', last⟩ := ih h₁ (fun c' member => fit c' (List.mem_cons_of_mem c member))
    refine ⟨a', v', ?_, h', ?_⟩
    · simp only [Appender.performAll, ran, rest, Call.answers, Bind.bind, Except.bind, pure,
        Except.pure]
    · intro c' isLast commits
      cases cs with
      | nil =>
        -- the last call is `c`, and no call after it moves the appender
        simp only [Appender.performAll, pure, Except.pure, Except.ok.injEq, Prod.mk.injEq] at rest
        obtain ⟨-, rfl, rfl⟩ := rest
        simp only [List.getLast?_singleton, Option.mem_def, Option.some.injEq] at isLast
        subst isLast
        exact settled commits
      | cons c₂ cs =>
        rw [List.getLast?_cons_cons] at isLast
        exact last c' isLast commits

/-! ## Continuing a log through a run of calls -/

/-- A log opened on a file whose scan counts nothing as lost, or where no file is, continues
through every run of calls that fit the log format. Opening cuts the file to the valid part
recovery finds and continues after the LSN of its last valid record. The calls then answer as
the log says: each append gives its record the LSN after the last record's, and a truncation
restarts the LSNs at 1, so a reopening keeps the next LSN. The appender never has more records
unsynced than its policy allows. After a sync, a truncation or a reopening, and once the
appender is closed, the file holds the log: the records recovery found in the file, or none
once a truncation came, then the appended records with their LSNs; and recovery of it gives
them back with nothing damaged, lost or cut off. -/
theorem open_continues_log {v : Volume} (laid : v.Laid ds fs) (hd : d ∈ ds) (hn : IsName n)
    {F : Bytes}
    (file : (∃ i, ⟨d, n, i⟩ ∈ fs ∧ v.contents i = F) ∨ ((∀ f ∈ fs, f.key ≠ (d, n)) ∧ F = []))
    (clean : lostCount F = 0) (policy : SyncPolicy) (calls : List Call)
    (fit : ∀ c ∈ calls, c.Fits) :
    ∃ a v₁, Appender.open v (join d n) policy = .ok (a, v₁) ∧
      v₁.read (join d n) = .ok (F.take (recover F).2.1.validLen) ∧
      a.nextLsn = nextLsnAfter (recover F).2.1.lastLsn ∧
      ∃ a' v', a.performAll v₁ calls = .ok (Call.answers (recover F).1 calls, a', v') ∧
        let log := calls.foldl Call.logAfter (recover F).1
        let written := (log.map Record.encode).flatten
        a'.nextLsn = nextLsnAfter (lastLsnOf log) ∧ a'.uncommitted ≤ policy.unsyncedBound ∧
        (calls.getLast?.all Call.commits = true →
          a'.uncommitted = 0 ∧ v'.read (join d n) = .ok written) ∧
        (a'.close v').read (join d n) = .ok written ∧
        recover written =
          (log, { recovered := log.length, lastLsn := lastLsnOf log, validLen := written.length },
            written) := by
  obtain ⟨fs', a, v₁, opened, h, empty, none, cut, lsn⟩ := open_continues laid hd hn file clean policy
  obtain ⟨a', v', ran, h', settled⟩ := h.performAll calls fit
  refine ⟨a, v₁, opened, ?_, lsn, a', v', ran, h'.nextLsn, h'.unsynced, ?_, ?_,
    recover_encodes h'.fits⟩
  · rw [h.laid.read_of_mem h.linked, cut]
  · intro commits
    -- with no call made, the appender is the one opening gave
    cases last : calls.getLast? with
    | none =>
      obtain rfl := List.getLast?_eq_none_iff.mp last
      simp only [Appender.performAll, pure, Except.pure, Except.ok.injEq, Prod.mk.injEq] at ran
      obtain ⟨-, rfl, rfl⟩ := ran
      exact ⟨none, h.read empty⟩
    | some c =>
      rw [last, Option.all_some] at commits
      obtain ⟨empty', none'⟩ := settled c last commits
      exact ⟨none', h'.read empty'⟩
  · obtain ⟨closed, laid'⟩ := h'.close
    rw [laid'.read_of_mem h'.linked, closed]

/-- A log opened where no file is yet, then appended to, truncated, appended to again and
reopened: the appends give LSNs 1 and, after the truncation, 1 again, and the closed file holds
the second record alone. -/
theorem open_continues_log_fresh :
    ∃ a v₁ a' v', Appender.open (({} : Volume).bind walDir .dir) (join walDir (segmentName 1))
        (.everyN 2) = .ok (a, v₁) ∧
      a.performAll v₁ [.append (.put [1] [2]) 7, .truncate, .append (.put [3] [4]) 8, .reopen] =
        .ok ([some 1, none, some 1, none], a', v') ∧
      (a'.close v').read (join walDir (segmentName 1)) = .ok (Record.encode ⟨1, 8, .put [3] [4]⟩) := by
  have laid := laid_empty.bind_dir walDir_isName List.not_mem_nil
  have clean : lostCount [] = 0 := by
    rw [lostCount, scanFrom_of_next_none (Reader.next_of_unread_nil rfl)]
  obtain ⟨a, v₁, opened, -, -, a', v', ran, -, -, -, closed, -⟩ :=
    open_continues_log laid List.mem_cons_self (@segmentName_isName 1 (by norm_num))
      (Or.inr ⟨fun _ member => absurd member List.not_mem_nil, rfl⟩) clean (.everyN 2)
      [.append (.put [1] [2]) 7, .truncate, .append (.put [3] [4]) 8, .reopen] (by decide)
  have empty : (recover []).1 = [] := by
    simp [recover]
  have answers : Call.answers []
      [.append (.put [1] [2]) 7, .truncate, .append (.put [3] [4]) 8, .reopen] =
        [some 1, none, some 1, none] := by
    decide
  rw [empty, answers] at ran
  rw [empty] at closed
  refine ⟨a, v₁, a', v', opened, ran, closed.trans ?_⟩
  have log : [Call.append (.put [1] [2]) 7, .truncate, .append (.put [3] [4]) 8, .reopen].foldl
      Call.logAfter [] = [⟨1, 8, .put [3] [4]⟩] := by
    decide
  rw [log, List.map_singleton, List.flatten_singleton]

set_option maxRecDepth 4000 in
/-- The log `wrapLog`, whose report shows nothing lost, opened, appended to and synced: the
appender keeps the damaged records of the valid part, and recovery of the file it leaves
reports both. -/
theorem continue_keeps_hidden_damage :
    (verify wrapLog).lost = 0 ∧
      ∃ a v₁ a' v', Appender.open ((({} : Volume).bind walDir .dir).create
          (join walDir (segmentName 1)) wrapLog) (join walDir (segmentName 1)) (.everyN 2) =
            .ok (a, v₁) ∧
        a.performAll v₁ [.append (.put [101] [55]) 0, .sync] = .ok ([some 6, none], a', v') ∧
        ∃ written, v'.read (join walDir (segmentName 1)) = .ok written ∧
          (recover written).2.1.corrupted = 2 := by
  have hidden : (verify wrapLog).lost = 0 := by
    decide +kernel
  have laid := (laid_empty.bind_dir walDir_isName List.not_mem_nil).create List.mem_cons_self
    (@segmentName_isName 1 (by norm_num)) (fun _ member => absurd member List.not_mem_nil) wrapLog
  obtain ⟨v₁, opened, laid₁, cut⟩ := open_of_mem laid List.mem_cons_self (.everyN 2)
  -- opening finds the whole file valid and continues at LSN 6
  have tail : tailOf wrapLog = (6, wrapLog.length) := by
    decide +kernel
  rw [contents_create, if_pos rfl, tail] at opened cut
  rw [List.take_length] at cut
  rw [Nat.min_self] at opened
  dsimp only at opened
  set i := (({} : Volume).bind walDir .dir).nextInode
  -- the append writes the record with LSN 6 behind the whole file, and the sync pushes it out
  have atEnd : wrapLog.length = (v₁.contents i).length := by
    rw [cut]
  obtain ⟨a₂, v₂, appended, ext, -⟩ := append_extends
    (a := { path := join walDir (segmentName 1), inode := i, position := wrapLog.length,
            nextLsn := 6, policy := .everyN 2 }) atEnd (.put [101] [55]) 0 (by decide)
  have synced := ext.trans (sync_extends ext.atEnd')
  have written := synced.written
  rw [buffered_sync, List.append_nil, List.append_nil, List.append_nil, cut] at written
  have laid₂ := laid₁.of_links synced.links (Nat.le_of_eq synced.nextInode.symm)
  refine ⟨hidden,
    { path := join walDir (segmentName 1), inode := i, position := wrapLog.length,
      nextLsn := 6, policy := .everyN 2 },
    v₁, (a₂.sync v₂).1, (a₂.sync v₂).2, opened, ?_, _, laid₂.read_of_mem List.mem_cons_self, ?_⟩
  · simp only [Appender.performAll, Appender.perform, appended, Bind.bind, Except.bind, pure,
      Except.pure]
  · rw [written]
    decide +kernel

end Appender

end Wal

end LsmStore
