import LsmStore.Error

/-!
# Engine configuration

How an engine syncs its log, reads its tables, sizes its in-memory table and reacts to a full
one, and when it compacts on its own. A configuration is checked before an engine opens.

## Main definitions

* `SyncPolicy`, `Backpressure`, `ReadBackend` — the policy choices
* `LsmStore.Config` — a configuration, with the defaults as field defaults
* `Config.validate` — the checks, in the order they are made
-/

namespace LsmStore

/-- When the log is forced to disk. -/
inductive SyncPolicy where
  /-- After every appended record. -/
  | everyWrite
  /-- After every `count` appended records. -/
  | everyN (count : Nat)
deriving DecidableEq, Repr

/-- What a write does when the in-memory table is full while another one is still flushing. -/
inductive Backpressure where
  | block
  | reject
deriving DecidableEq, Repr

/-- How table files are read: through a file handle or through a memory map. Both read the
same bytes. -/
inductive ReadBackend where
  | buffered
  | mapped
deriving DecidableEq, Repr

/-- An engine configuration. -/
structure Config where
  readBackend : ReadBackend := .buffered
  sync : SyncPolicy := .everyWrite
  /-- Open even when a log segment lost acknowledged records. -/
  tolerateWalDataLoss : Bool := false
  /-- The size at which the in-memory table counts as full. -/
  memtableSizeLimit : Nat := 4 * 1024 * 1024
  backpressure : Backpressure := .block
  /-- Compact automatically once this many tables exist. -/
  autoCompactThreshold : Option Nat := none
deriving DecidableEq, Repr

namespace Config

/-- Checks a configuration: a positive size limit, a positive sync count, and an automatic
compaction threshold of at least two; the first failing check is reported. -/
def validate (c : Config) : Except ConfigFault Unit :=
  if c.memtableSizeLimit = 0 then .error .zeroMemtableLimit
  else if c.sync = .everyN 0 then .error .zeroSyncCount
  else match c.autoCompactThreshold with
    | some n => if n < 2 then .error (.compactThresholdTooLow n) else .ok ()
    | none => .ok ()

end Config

end LsmStore
