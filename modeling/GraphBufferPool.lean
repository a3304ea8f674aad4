import GraphBufferPool.Concurrent.Machine
import GraphBufferPool.Lib.Ages
import GraphBufferPool.Lib.Contract
import GraphBufferPool.Lib.Links
import GraphBufferPool.Lib.Threaded
import GraphBufferPool.Lib.Ring
import GraphBufferPool.Lib.LowBits
import GraphBufferPool.Lib.Getline
import GraphBufferPool.Lib.FixedWidth
import GraphBufferPool.Lib.Gregorian
import GraphBufferPool.Replacer.Methods
import GraphBufferPool.Replacer.Nodes
import GraphBufferPool.Replacer.Linked
import GraphBufferPool.Replacer.QueueCalls
import GraphBufferPool.Replacer.QueueContracts
import GraphBufferPool.Replacer.LruBatch
import GraphBufferPool.Concurrent.Protocol
import GraphBufferPool.Concurrent.Ownership
import GraphBufferPool.Concurrent.OwnershipSteps
import GraphBufferPool.Concurrent.Contents
import GraphBufferPool.Concurrent.Simulation
import GraphBufferPool.Concurrent.Soundness
import GraphBufferPool.Concurrent.Safety
import GraphBufferPool.Concurrent.Schedule
import GraphBufferPool.Concurrent.LostUpdate
import GraphBufferPool.Pool.PageTable
import GraphBufferPool.Pool.PteWords
import GraphBufferPool.Replacer.Replacer
import GraphBufferPool.Replacer.Sieve
import GraphBufferPool.Pool.BufferPool
import GraphBufferPool.Lib.Update
import GraphBufferPool.Pool.Places
import GraphBufferPool.Pool.Transitions
import GraphBufferPool.Pool.Fetch
import GraphBufferPool.Lib.Fuel
import GraphBufferPool.Pool.FetchSync
import GraphBufferPool.Pool.Content
import GraphBufferPool.Manager.Manager
import GraphBufferPool.Manager.Invariant
import GraphBufferPool.Manager.Blocks
import GraphBufferPool.Manager.Files
import GraphBufferPool.Manager.Partitioning
import GraphBufferPool.Pool.Actions
import GraphBufferPool.Manager.Lengths
import GraphBufferPool.Manager.FlatFile
import GraphBufferPool.Block.BufferBlock
import GraphBufferPool.Block.Variables
import GraphBufferPool.Block.Copy
import GraphBufferPool.Manager.SetBlock
import GraphBufferPool.Pool.FetchSync2
import GraphBufferPool.Lib.CountedSlots
import GraphBufferPool.Lib.Runs
import GraphBufferPool.Replacer.SieveReplace
import GraphBufferPool.Replacer.SieveRuns
import GraphBufferPool.Replacer.Policy
import GraphBufferPool.Replacer.SieveVersions
import GraphBufferPool.Replacer.SieveAgreement
import GraphBufferPool.Replacer.Clocks
import GraphBufferPool.Replacer.LFU
import GraphBufferPool.Vertex.EdgeLock
import GraphBufferPool.Lib.Owners
import GraphBufferPool.MmapArray.MmapArray
import GraphBufferPool.MmapArray.Handles
import GraphBufferPool.Vertex.Layout
import GraphBufferPool.Vertex.Vertex
import GraphBufferPool.Vertex.EdgeLists
import GraphBufferPool.Lib.History
import GraphBufferPool.Vertex.Growth
import GraphBufferPool.Block.Compare
import GraphBufferPool.Block.Equality
import GraphBufferPool.Block.CopyRange
import GraphBufferPool.Block.DeepCopy
import GraphBufferPool.Block.Ledger
import GraphBufferPool.Lib.Scatter
import GraphBufferPool.ReadVector
import GraphBufferPool.MmapArray.Views
import GraphBufferPool.Manager.Sessions
import GraphBufferPool.Manager.Objects
import GraphBufferPool.Pool.Flush
import GraphBufferPool.Manager.FlushFile
import GraphBufferPool.Pool.Close
import GraphBufferPool.Manager.CloseFile
import GraphBufferPool.Manager.BlockSync
import GraphBufferPool.Manager.Slicing
import GraphBufferPool.MmapArray.Touch
import GraphBufferPool.Replacer.LfuContract
import GraphBufferPool.Replacer.TwoQueues
import GraphBufferPool.Replacer.EvictionServer
import GraphBufferPool.Replacer.SieveBatch
import GraphBufferPool.Replacer.ClockRuns
import GraphBufferPool.Replacer.IndexedList
import GraphBufferPool.Replacer.IndexedSize
import GraphBufferPool.MmapArray.Sizes
import GraphBufferPool.Lib.ByteStore
import GraphBufferPool.Vertex.Columns
import GraphBufferPool.LockFreeQueue
import GraphBufferPool.DirectCache.Impl2
import GraphBufferPool.ExtendibleHash
import GraphBufferPool.CsvReader
import GraphBufferPool.TimeConverter
import GraphBufferPool.Manager.FlushKept
import GraphBufferPool.Manager.CloseRuns
import GraphBufferPool.Manager.FrameOwners
import GraphBufferPool.Manager.FileIdentity
import GraphBufferPool.Manager.FetchAgreement
import GraphBufferPool.Lib.Polling
import GraphBufferPool.Pool.FetchAsync
import GraphBufferPool.Pool.FetchMachines
import GraphBufferPool.Lib.SharedLock
import GraphBufferPool.Concurrent.SpinningRWLock
import GraphBufferPool.Concurrent.RWLock
import GraphBufferPool.Lib.RobinHood
import GraphBufferPool.Lib.Outcome
import GraphBufferPool.Indexer.IdIndexer
import GraphBufferPool.Indexer.IdIndexerRuns
import GraphBufferPool.Lib.Probing
import GraphBufferPool.Indexer.LFIndexer
import GraphBufferPool.Indexer.LFBuild
import GraphBufferPool.Indexer.LFThreads
import GraphBufferPool.MmapArray.LiveBlocks
import GraphBufferPool.MmapArray.Items
import GraphBufferPool.IOServer
import GraphBufferPool.Lib.Agreement
import GraphBufferPool.Replacer.IndexedSieve
import GraphBufferPool.Replacer.IndexedAgreement
import GraphBufferPool.Replacer.IndexedRuns
import GraphBufferPool.Replacer.IndexedBatch
import GraphBufferPool.Replacer.IndexedVersions
import GraphBufferPool.Replacer.Promote
import GraphBufferPool.Lib.SecondChance
import GraphBufferPool.Replacer.SieveOrder
import GraphBufferPool.Lib.Refill
import GraphBufferPool.Pool.Serves
import GraphBufferPool.Pool.ReadCache
import GraphBufferPool.Manager.Programs
import GraphBufferPool.Manager.ReadRuns
