import FileTracker.Library.Runs
import FileTracker.Library.Simulation
import FileTracker.Library.Collect
import FileTracker.Library.Periodic
import FileTracker.Library.RecordStream
import FileTracker.Library.LittleEndian
import FileTracker.Library.Separator
import FileTracker.Library.Register
import FileTracker.Library.BitSerial
import FileTracker.Library.Utf8
import FileTracker.Library.PyJson
import FileTracker.Library.FlatObject
import FileTracker.Library.ByteJson
import FileTracker.Library.LastWriter
import FileTracker.Library.Tally
import FileTracker.Library.Interleaving
import FileTracker.Agent.Common
import FileTracker.Agent.Message
import FileTracker.Agent.MessageText
import FileTracker.Agent.MessageBytes
import FileTracker.Agent.Wal
import FileTracker.Agent.WalRecovery
import FileTracker.Agent.WalWrites
import FileTracker.Agent.Checksum
import FileTracker.Agent.Crc32
import FileTracker.Agent.HeaderDamage
import FileTracker.Agent.WalDirectory
import FileTracker.Agent.Main
import FileTracker.Agent.Conservation
import FileTracker.Agent.Durability
import FileTracker.Agent.EventHandler
import FileTracker.Agent.RenamePairing
import FileTracker.Agent.Probe
import FileTracker.Agent.Scratch
import FileTracker.Agent.Debouncer
import FileTracker.Agent.DebouncerHistory
import FileTracker.Agent.RateLimit
import FileTracker.Agent.Dedup
import FileTracker.Agent.Suppression
import FileTracker.Agent.Statistics
import FileTracker.Agent.Pipeline
import FileTracker.Agent.Process
import FileTracker.Agent.Delivery
import FileTracker.Agent.Retry
import FileTracker.Agent.Ledger
import FileTracker.Consumer.EventProcessor
import FileTracker.Consumer.MainLoop
import FileTracker.Consumer.AtLeastOnce
import FileTracker.Consumer.Group
import FileTracker.Consumer.Sent
import FileTracker.Consumer.Session
import FileTracker.Consumer.EventOrder
import FileTracker.Consumer.Batching
import FileTracker.Consumer.Timeout
import FileTracker.Consumer.Counters
import FileTracker.Consumer.Poison
import FileTracker.System.Messages
import FileTracker.System.FailedOps
import FileTracker.Backup.Lock
import FileTracker.Backup.Repo
import FileTracker.Backup.Ensure
import FileTracker.Backup.Run
import FileTracker.Backup.NoLoss
import FileTracker.Backup.Cluster
import FileTracker.Backup.ListFile
import FileTracker.Backup.Partition
import FileTracker.Backup.Accounting
import FileTracker.Backup.Inventory
import FileTracker.System.Identity
import FileTracker.System.Renames
import FileTracker.System.WatchedTree
import FileTracker.System.Store
import FileTracker.System.Status
import FileTracker.System.EndToEnd
