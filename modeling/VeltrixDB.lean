import VeltrixDB.Lib.Bytes
import VeltrixDB.Lib.ByteOrder
import VeltrixDB.Lib.FuzzyCopy
import VeltrixDB.Lib.SortedTable
import VeltrixDB.Lib.Framing
import VeltrixDB.Consensus.Entry
import VeltrixDB.Consensus.LogFile
import VeltrixDB.Consensus.LogStore
import VeltrixDB.Consensus.Configuration
import VeltrixDB.Consensus.Store
import VeltrixDB.Consensus.Messages
import VeltrixDB.Consensus.Node
import VeltrixDB.Consensus.Append
import VeltrixDB.Consensus.Snapshot
import VeltrixDB.Consensus.RaftNode
import VeltrixDB.Consensus.Replication
import VeltrixDB.Consensus.Membership
import VeltrixDB.Consensus.Cluster
import VeltrixDB.Consensus.Steps
import VeltrixDB.Consensus.ConfigFlow
import VeltrixDB.Consensus.Voting
import VeltrixDB.Consensus.Election
import VeltrixDB.Lib.Lineage
import VeltrixDB.Consensus.LogMatching
import VeltrixDB.Consensus.ConfigChange
import VeltrixDB.Consensus.Contiguous
import VeltrixDB.Consensus.SnapshotCrash
import VeltrixDB.Consensus.AppendSpec
import VeltrixDB.Consensus.Durability
import VeltrixDB.Consensus.StreamConn
import VeltrixDB.Lib.Register
import VeltrixDB.Storage.WalFormat
import VeltrixDB.Storage.WalLives
import VeltrixDB.Storage.VLog
import VeltrixDB.Storage.Index
import VeltrixDB.Storage.Replay
import VeltrixDB.Storage.Engine
import VeltrixDB.Storage.Agreement
import VeltrixDB.Storage.Fidelity
import VeltrixDB.Storage.Writers
import VeltrixDB.Storage.AppliedMarker
import VeltrixDB.Storage.Checkpoint
import VeltrixDB.Storage.Recover
import VeltrixDB.Storage.RaftCommand
import VeltrixDB.Storage.RaftApplied
import VeltrixDB.Storage.IndexCount
import VeltrixDB.Storage.Compaction
import VeltrixDB.Storage.Bloom
import VeltrixDB.Storage.CacheCoherence
import VeltrixDB.Storage.CachedWriters
import VeltrixDB.Storage.Transaction
import VeltrixDB.Storage.Defrag
import VeltrixDB.Storage.CleanRestart
import VeltrixDB.Storage.ChangeStream
import VeltrixDB.Storage.Scan
import VeltrixDB.Storage.Slots
import VeltrixDB.Storage.SnapshotCapture
import VeltrixDB.Storage.SnapshotRestore
import VeltrixDB.Storage.DerivedKeys
import VeltrixDB.Storage.ApplyStore
import VeltrixDB.Storage.TxnOrder
import VeltrixDB.Storage.WalCodec
import VeltrixDB.Server.RequestResults
import VeltrixDB.Replication.Run
import VeltrixDB.Replication.Acknowledged
import VeltrixDB.Replication.NotStranded
import VeltrixDB.Replication.Watermark
import VeltrixDB.Lib.Selection
import VeltrixDB.Cluster.Ring
import VeltrixDB.Cluster.PartitionMap
import VeltrixDB.Cluster.Placement
import VeltrixDB.Cluster.FailureDetector
import VeltrixDB.Storage.Lists
