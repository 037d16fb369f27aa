import MpiToShmem.Kit.Runs
import MpiToShmem.Kit.Grouping
import MpiToShmem.Kit.CInt
import MpiToShmem.Kit.Bytes
import MpiToShmem.Kit.Layout
import MpiToShmem.Kit.ZeroTail
import MpiToShmem.Kit.Expansion
import MpiToShmem.Kit.OrdMap
import MpiToShmem.Kit.HashTable
import MpiToShmem.Kit.Mailbox
import MpiToShmem.Kit.Fifo
import MpiToShmem.Kit.History
import MpiToShmem.Kit.Gather
import MpiToShmem.Kit.Buckets
import MpiToShmem.Kit.OneSided
import MpiToShmem.Kit.Supersteps
import MpiToShmem.Kit.Undisturbed
import MpiToShmem.Kit.Arrival
import MpiToShmem.Kit.LeftAlone
import MpiToShmem.Kit.InOrder
import MpiToShmem.Kit.Collective
import MpiToShmem.Kit.Unseen
import MpiToShmem.Shmem.SendRecv
import MpiToShmem.Shmem.Delivery
import MpiToShmem.Mdhim.Partitioner
import MpiToShmem.Mdhim.SliceOrder
import MpiToShmem.Mdhim.StringCompare
import MpiToShmem.Mdhim.RangeServers
import MpiToShmem.Mdhim.Store
import MpiToShmem.Mdhim.Neighbours
import MpiToShmem.Mdhim.BulkLoop
import MpiToShmem.Mdhim.Bulk
import MpiToShmem.Mdhim.Stats
import MpiToShmem.Mdhim.RangeServer
import MpiToShmem.Mdhim.BulkPut
import MpiToShmem.Mdhim.IntKeys
import MpiToShmem.Mdhim.StatsCover
import MpiToShmem.Mdhim.StatsExact
import MpiToShmem.Mdhim.KeyCounts
import MpiToShmem.Mdhim.BputPuts
import MpiToShmem.Mdhim.BulkPartition
import MpiToShmem.Mdhim.Messages
import MpiToShmem.Mdhim.Codec
import MpiToShmem.Mdhim.RoundTrip
import MpiToShmem.Mdhim.PackSizes
import MpiToShmem.Mdhim.Requests
import MpiToShmem.Mdhim.Refinement
import MpiToShmem.Mdhim.Cursor
import MpiToShmem.Mdhim.StringStats
import MpiToShmem.Mdhim.BgetOp
import MpiToShmem.Mdhim.PutRuns
import MpiToShmem.Mdhim.Traversal
import MpiToShmem.Mdhim.ClientCalls
import MpiToShmem.Mdhim.Pairing
import MpiToShmem.Mdhim.Flush
import MpiToShmem.Mdhim.FlushAgree
import MpiToShmem.Mdhim.WorkNet
import MpiToShmem.Mdhim.WorkReceived
import MpiToShmem.Mdhim.ReceiveWork
import MpiToShmem.Mdhim.LocalClient
import MpiToShmem.Pftool.Cmp
import MpiToShmem.Pwt.Scheduler
import MpiToShmem.Pwt.Processes
import MpiToShmem.Pwt.Steps
import MpiToShmem.Pwt.PollLimit
import MpiToShmem.Pwt.Phases
import MpiToShmem.Pwt.Termination
import MpiToShmem.Pwt.Accounting
import MpiToShmem.Pftool.Treewalk
import MpiToShmem.Pftool.Visits
import MpiToShmem.Pftool.WalkedOnce
import MpiToShmem.Shmem.Comm
import MpiToShmem.Shmem.Collectives
import MpiToShmem.Shmem.Staging
import MpiToShmem.Shmem.Copies
import MpiToShmem.Shmem.Broadcast
import MpiToShmem.Shmem.Allgather
import MpiToShmem.Shmem.GatherRuns
import MpiToShmem.Shmem.Gatherv
import MpiToShmem.Shmem.Nonblocking
import MpiToShmem.Shmem.Polling
import MpiToShmem.Shmem.MemberGather
import MpiToShmem.Shmem.MemberGatherExact
import MpiToShmem.Shmem.Dup
import MpiToShmem.Shmem.Groups
import MpiToShmem.Shmem.SizeChecks
import MpiToShmem.Shmem.WaitLoop
import MpiToShmem.Kit.OwnPuts
import MpiToShmem.Shmem.Positions
import MpiToShmem.Shmem.Unpacking
import MpiToShmem.Shmem.Packing
import MpiToShmem.Kit.Tiling
import MpiToShmem.Kit.Linked
import MpiToShmem.Mdhim.SliceChoice
import MpiToShmem.Mdhim.WorkQueue
import MpiToShmem.Pwt.WorkQ
import MpiToShmem.Pwt.Scheduling
import MpiToShmem.Pftool.Str
import MpiToShmem.Pftool.ProcessFile
import MpiToShmem.Pftool.Compare
import MpiToShmem.Pftool.Readdir
import MpiToShmem.Pftool.Chains
import MpiToShmem.Pftool.ChunkTable
import MpiToShmem.Shmem.HashUtils
import MpiToShmem.Shmem.TagTable
import MpiToShmem.Kit.Inevitable
import MpiToShmem.Kit.Related
import MpiToShmem.Kit.Keys
import MpiToShmem.Pwt.Potential
import MpiToShmem.Pwt.Progress
import MpiToShmem.Pwt.Reports
import MpiToShmem.Pftool.WalkEnds
import MpiToShmem.Pftool.Jobs
import MpiToShmem.Pftool.JobVisits
import MpiToShmem.Pftool.JobTotals
import MpiToShmem.Pftool.JobEnds
import MpiToShmem.Pftool.Verdicts
import MpiToShmem.Pftool.Contents
import MpiToShmem.Kit.Follow
import MpiToShmem.Uthash.Table
import MpiToShmem.Uthash.Chains
import MpiToShmem.Uthash.Expand
import MpiToShmem.Uthash.Operations
import MpiToShmem.Uthash.Runs
import MpiToShmem.Mdhim.StatsMemory
import MpiToShmem.Kit.Linearizable
import MpiToShmem.Mdhim.Calls
import MpiToShmem.Mdhim.CallsLinear
import MpiToShmem.Mdhim.CallsReturn
import MpiToShmem.Mdhim.BulkServer
import MpiToShmem.Mdhim.BulkClients
import MpiToShmem.Mdhim.BulkInv
import MpiToShmem.Mdhim.BulkLinear
import MpiToShmem.Mdhim.BulkReturn
import MpiToShmem.Kit.StagedCalls
import MpiToShmem.Shmem.CollectiveRuns
