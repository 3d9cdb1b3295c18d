import UringServer.Lib.Replay
import UringServer.Lib.CircularWindow
import UringServer.Lib.Lifo
import UringServer.Lib.Slices
import UringServer.Lib.IndexChain
import UringServer.Lib.PositionalFile
import UringServer.Lib.Fallible
import UringServer.Lib.History
import UringServer.Lib.Simulation
import UringServer.Lib.LeadsTo
import UringServer.Lib.Insertion
import UringServer.Lib.Backlog
import UringServer.Lib.Separators
import UringServer.Model.Userdata
import UringServer.Model.Assert
import UringServer.Model.Memory
import UringServer.Model.BufRing
import UringServer.Model.Uring
import UringServer.Model.BufPool
import UringServer.Model.Logging
import UringServer.Model.Appctx
import UringServer.Model.EventLoop
import UringServer.Model.Server
import UringServer.Model.Startup
import UringServer.Model.Rexe
import UringServer.Spec.Greeter
import UringServer.Proofs.Carving
import UringServer.Proofs.FreeList
import UringServer.Proofs.FreeStack
import UringServer.Proofs.Handlers
import UringServer.Proofs.Requests
import UringServer.Proofs.Steps
import UringServer.Proofs.RingInit
import UringServer.Proofs.RingCoherence
import UringServer.Proofs.PacketRanges
import UringServer.Proofs.RingCirculation
import UringServer.Proofs.Unfinished
import UringServer.Proofs.PoolOwnership
import UringServer.Proofs.LogBuffers
import UringServer.Proofs.LogLength
import UringServer.Proofs.QueueRoom
import UringServer.Proofs.Routing
import UringServer.Proofs.Attribution
import UringServer.Proofs.Lifecycle
import UringServer.Proofs.SharedRing
import UringServer.Proofs.Survival
import UringServer.Proofs.MemoryFrame
import UringServer.Proofs.StoredLines
import UringServer.Proofs.LogFile
import UringServer.Proofs.CheckedCalls
import UringServer.Proofs.PacketContents
import UringServer.Proofs.StderrContents
import UringServer.Proofs.RingHistory
import UringServer.Proofs.RingCollapse
import UringServer.Proofs.Conversation
import UringServer.Proofs.Backpressure
import UringServer.Proofs.LogBalance
import UringServer.Proofs.QueueRates
import UringServer.Proofs.Progress
import UringServer.Proofs.Replies
import UringServer.Proofs.Exits
import UringServer.Proofs.StartupCalls
import UringServer.Proofs.LineFormat
import UringServer.Proofs.PollingThread
import UringServer.Proofs.Deliveries
import UringServer.Proofs.RexeOutput
