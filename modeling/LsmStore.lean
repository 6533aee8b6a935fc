import LsmStore.Bytes
import LsmStore.Crc32
import LsmStore.Entry
import LsmStore.FileName
import LsmStore.Table.Id
import LsmStore.Error
import LsmStore.Wal.Record
import LsmStore.Config
import LsmStore.Wal.Reader
import LsmStore.Wal.Recovery
import LsmStore.Volume
import LsmStore.Wal.Appender
import LsmStore.KeyRange
import LsmStore.Memtable
import LsmStore.Table.Reader
import LsmStore.Table.Builder
import LsmStore.Table.Directory
import LsmStore.Merge
import LsmStore.Wal.Segments
import LsmStore.Engine.Basic
import LsmStore.Engine.Compaction
import LsmStore.Engine.Flush
import LsmStore.Engine.Open
import LsmStore.Engine.Read
import LsmStore.Engine.Write
import LsmStore.Session
import LsmStore.Utf8
import LsmStore.Cli.Syntax
import LsmStore.Cli.Commands
import LsmStore.Cli.Run
import LsmStore.Main
import LsmStore.Proofs.Wal.Framing
import LsmStore.Proofs.Wal.Damage
import LsmStore.Proofs.Wal.TornTail
import LsmStore.Proofs.Volume.Paths
import LsmStore.Proofs.Volume.Layout
import LsmStore.Proofs.Store.Names
import LsmStore.Proofs.Merge.Newest
import LsmStore.Proofs.Merge.Correct
import LsmStore.Proofs.Table.Read
import LsmStore.Proofs.Table.Write
import LsmStore.Proofs.Memtable.Run
import LsmStore.Proofs.Wal.Log
import LsmStore.Proofs.Engine.Compaction
import LsmStore.Proofs.Engine.Read
import LsmStore.Proofs.Engine.State
import LsmStore.Proofs.Engine.Release
import LsmStore.Proofs.Engine.Interleaving
import LsmStore.Proofs.Engine.Flush
import LsmStore.Proofs.Engine.Operations
import LsmStore.Proofs.Engine.Reopen
import LsmStore.Proofs.Session.Refinement
import LsmStore.Proofs.Engine.Tolerant
import LsmStore.Proofs.Engine.Outage
import LsmStore.Proofs.Session.Outage
import LsmStore.Proofs.Wal.Prefix
import LsmStore.Proofs.Wal.Continue
import LsmStore.Proofs.Merge.Answers
import LsmStore.Proofs.Session.Compaction
import LsmStore.Proofs.Codec
import LsmStore.Proofs.Table.RoundTrip
import LsmStore.Proofs.Wal.Idempotence
import LsmStore.Proofs.Memtable.Cursor
import LsmStore.Proofs.Table.Total
import LsmStore.Proofs.Table.Cleanup
import LsmStore.Proofs.Table.Build
import LsmStore.Proofs.Table.Search
import LsmStore.Proofs.Store.Spelling
import LsmStore.Proofs.Crc32
import LsmStore.Proofs.Wal.Corruption
import LsmStore.Wal.Writer
import LsmStore.Proofs.Wal.Rollback
import LsmStore.Proofs.Wal.Progress
import LsmStore.Proofs.Wal.Numbering
import LsmStore.Proofs.Utf8
