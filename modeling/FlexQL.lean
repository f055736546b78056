import FlexQL.Lib.Heap
import FlexQL.Lib.Cells
import FlexQL.Lib.Bytes
import FlexQL.Lib.Reader
import FlexQL.Lib.WeakOrder
import FlexQL.Lib.Double
import FlexQL.Ref.Common
import FlexQL.Ref.BPTree
import FlexQL.Spec.KeyOrder
import FlexQL.Proofs.BPTreeNode
import FlexQL.Proofs.BPTreeShape
import FlexQL.Proofs.BPTreeClimb
import FlexQL.Proofs.BPTreeFind
import FlexQL.Proofs.BPTreeInsert
import FlexQL.Proofs.BPTreeScan
import FlexQL.Proofs.BPTreeMap
import FlexQL.Proofs.BPTreeLinks
import FlexQL.Ref.Arena
import FlexQL.Ref.Schema
import FlexQL.Ref.Table
import FlexQL.Proofs.Arena
import FlexQL.Proofs.Layout
import FlexQL.Proofs.Table
import FlexQL.Proofs.TableIndex
import FlexQL.Ref.Lexer
import FlexQL.Ref.Parser
import FlexQL.Ref.Executor
import FlexQL.Proofs.Executor
import FlexQL.Proofs.Catalog
import FlexQL.Ref.Wal
import FlexQL.Ref.Database
import FlexQL.Proofs.Statements
import FlexQL.Proofs.Snapshot
import FlexQL.Proofs.Wal
import FlexQL.Spec.Database
import FlexQL.Proofs.Database
import FlexQL.Proofs.Durability
import FlexQL.Lib.Recency
import FlexQL.Proofs.LRUCache
import FlexQL.Proofs.BPTreeTotal
import FlexQL.Proofs.Reach
import FlexQL.Proofs.Insert
import FlexQL.Proofs.Wrapped
import FlexQL.Proofs.Select
import FlexQL.Proofs.Sweep
import FlexQL.Proofs.RoundTrip
import FlexQL.Spec.Transparency
import FlexQL.Proofs.Transparency
import FlexQL.Spec.Concurrent
import FlexQL.Proofs.Concurrent
import FlexQL.Spec.Grammar
import FlexQL.Proofs.Grammar
import FlexQL.Spec.Printer
import FlexQL.Proofs.Lexing
import FlexQL.Proofs.Printer
import FlexQL.Lib.Keyed
import FlexQL.Spec.Interleaving
import FlexQL.Proofs.Journal
import FlexQL.Proofs.Interleaving
import FlexQL.Proofs.BPTreeFill
import FlexQL.Proofs.BPTreeBalance
import FlexQL.Proofs.TableRuns
import FlexQL.Proofs.Queries
import FlexQL.Spec.Births
import FlexQL.Proofs.Births
import FlexQL.Proofs.Harmless
import FlexQL.Proofs.Expiry
import FlexQL.Lib.Fields
import FlexQL.Ref.Client
import FlexQL.Ref.Server
import FlexQL.Spec.Client
import FlexQL.Proofs.Client
import FlexQL.Spec.Server
import FlexQL.Proofs.Server
import FlexQL.Spec.Link
import FlexQL.Proofs.Link
import FlexQL.Spec.Host
import FlexQL.Proofs.Host
import FlexQL.Lib.Buckets
import FlexQL.Proofs.Join
import FlexQL.Proofs.JoinQueries
import FlexQL.Proofs.JoinText
import FlexQL.Proofs.Declared
import FlexQL.Proofs.FirstColumn
import FlexQL.Proofs.VarcharLength
import FlexQL.Proofs.Storage
import FlexQL.Proofs.SweepRuns
import FlexQL.Spec.Ages
import FlexQL.Proofs.Ages
import FlexQL.Proofs.CaseFolding
import FlexQL.Lib.Crc
import FlexQL.Lib.Numerals
import FlexQL.Proofs.Corruption
import FlexQL.Proofs.Invalidation
import FlexQL.Proofs.Literals
import FlexQL.Proofs.Reprint
import FlexQL.Proofs.Truncation
import FlexQL.Proofs.Checkpoint
import FlexQL.Lib.Blanks
import FlexQL.Proofs.Blanks
import FlexQL.Proofs.CacheKeys
import FlexQL.Lib.Listing
import FlexQL.Proofs.Bookkeeping
import FlexQL.Lib.Traced
import FlexQL.Lib.Transfer
import FlexQL.Proofs.Accesses
import FlexQL.Proofs.Framing
import FlexQL.Lib.Steps
import FlexQL.Proofs.Shutdown
import FlexQL.Proofs.Sweeper
import FlexQL.Proofs.JoinAnswers
import FlexQL.Proofs.Process
import FlexQL.Proofs.ServerThreads
import FlexQL.Proofs.SweepThread
import FlexQL.Proofs.Workload
