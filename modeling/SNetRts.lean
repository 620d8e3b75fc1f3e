import SNetRts.Lib.Run
import SNetRts.Lib.Channel
import SNetRts.Distrib.Reference
import SNetRts.Distrib.Ledger
import SNetRts.Distrib.NoEarlyFree
import SNetRts.Distrib.Conservation
import SNetRts.Common.Record
import SNetRts.Stream.Entity
import SNetRts.Sync.Cell
import SNetRts.Sync.LosesNothing
import SNetRts.Front.Det
import SNetRts.Front.DetInvariant
import SNetRts.Front.DetOrder
import SNetRts.Lib.Linked
import SNetRts.Front.Zipper
import SNetRts.Front.ZipperLinks
import SNetRts.Front.ZipperStar
import SNetRts.Front.ZipperFusion
import SNetRts.Stream.Collector
import SNetRts.Stream.Dispatch
import SNetRts.Stream.DetNet
import SNetRts.Stream.Phases
import SNetRts.Stream.CollectorPhases
import SNetRts.Stream.DetTree
import SNetRts.Stream.DetEffects
import SNetRts.Stream.DetRouting
import SNetRts.Stream.KeepsOrder
import SNetRts.Lib.Codec
import SNetRts.Distrib.Wire
import SNetRts.Stream.Parallel
import SNetRts.Stream.ParallelSound
import SNetRts.Stream.ParallelAligned
import SNetRts.Netif.Parser
import SNetRts.Netif.ParserSafe
import SNetRts.Front.StarChain
import SNetRts.Front.StarSplit
import SNetRts.Front.StarLeader
import SNetRts.Front.LoopRefs
import SNetRts.Front.Feedback
import SNetRts.Front.DripBack
import SNetRts.Lib.Pipe
import SNetRts.Stream.Feedback
import SNetRts.Stream.FeedbackRing
import SNetRts.Stream.FeedbackLoop
import SNetRts.Stream.FeedbackProtocol
import SNetRts.Lib.Flex
import SNetRts.Netif.Lexer
import SNetRts.Netif.Reader
import SNetRts.Netif.Entities
import SNetRts.Netif.RoundTrip
import SNetRts.Stream.Pair
import SNetRts.Stream.PairSchedule
import SNetRts.Stream.PairCollect
import SNetRts.Stream.PairInvariant
import SNetRts.Stream.PairSteps
import SNetRts.Stream.PairKeeps
import SNetRts.Front.Parallel
import SNetRts.Lib.Mutex
import SNetRts.Distrib.InputManager
import SNetRts.Distrib.InputManagerViews
import SNetRts.Distrib.InputManagerRuns
import SNetRts.Distrib.InputManagerSound
import SNetRts.Lib.Ring
import SNetRts.Distrib.OutputManager
import SNetRts.Distrib.OutputManagerTracks
import SNetRts.Lib.Circular
import SNetRts.Distrib.Mpb
import SNetRts.Distrib.MpbFifo
import SNetRts.Distrib.Route
import SNetRts.Distrib.Transmit
import SNetRts.Distrib.Network
import SNetRts.Distrib.RouteTables
import SNetRts.Distrib.Dynamic
import SNetRts.Lib.RefCount
import SNetRts.Front.Detrefs
import SNetRts.Front.ZipperStores
import SNetRts.Front.DetrefNodes
import SNetRts.Front.DetrefLedger
import SNetRts.Front.DetrefCounts
import SNetRts.Lib.Loop
import SNetRts.Netif.Consumes
import SNetRts.Netif.InputLoop
import SNetRts.Common.Expr
import SNetRts.Svpgw.Expression
import SNetRts.Lib.Probing
import SNetRts.Lib.IntLoop
import SNetRts.Stream.Hashtab
import SNetRts.Stream.SplitInstances
import SNetRts.Front.Split
import SNetRts.Distrib.SccLocks
import SNetRts.Distrib.LockCycle
import SNetRts.Lib.Behind
import SNetRts.Svpgw.Graph
import SNetRts.Svpgw.DynIndex
import SNetRts.Lib.Bounded
import SNetRts.Lib.RingIter
import SNetRts.Threading.Stream
import SNetRts.Threading.StreamIter
import SNetRts.Threading.StreamPoll
import SNetRts.Lib.Tickets
import SNetRts.Front.Fifo
import SNetRts.Front.FifoAccess
import SNetRts.Front.Worker
import SNetRts.Front.WorkerSteps
import SNetRts.Front.WorkerLinks
import SNetRts.Front.Hashptr
import SNetRts.Front.Licences
import SNetRts.Lib.Window
import SNetRts.Common.ListTemplate
import SNetRts.Common.ListSpec
import SNetRts.Common.ListRuns
import SNetRts.Common.ListRoundTrip
import SNetRts.Common.Filter
import SNetRts.Common.Nameshift
import SNetRts.Front.ZipperMask
import SNetRts.Common.Evaluate
import SNetRts.Common.Guards
import SNetRts.Lib.Regions
import SNetRts.Stream.Locvec
import SNetRts.Stream.LocvecRuns
import SNetRts.Lib.Lines
import SNetRts.Front.Dissolve
import SNetRts.Lib.Assoc
import SNetRts.Common.MapTemplate
import SNetRts.Common.MapRuns
import SNetRts.Stream.HashtabRuns
import SNetRts.Lib.Holes
import SNetRts.Stream.Queue
import SNetRts.Stream.QueueRuns
import SNetRts.Lib.Tiling
import SNetRts.Distrib.SccHeap
import SNetRts.Distrib.SccHeapRuns
import SNetRts.Distrib.SccLut
import SNetRts.Distrib.SccLutRuns
import SNetRts.Distrib.SccAddr
import SNetRts.Distrib.SccPages
import SNetRts.Lib.Memory
import SNetRts.Lib.Sextets
import SNetRts.C4snet.Base64
import SNetRts.C4snet.Data
import SNetRts.C4snet.Codec
import SNetRts.Lib.Scan
import SNetRts.C4snet.Text
import SNetRts.C4snet.Mpi
import SNetRts.Stream.Bitmap
import SNetRts.Front.Box
import SNetRts.Lib.Pattern
import SNetRts.Front.Confirmation
import SNetRts.Lib.Compact
import SNetRts.Svpgw.Typeencode
import SNetRts.Svpgw.Patterns
import SNetRts.Svpgw.Idxvec
import SNetRts.Svpgw.Infimum
import SNetRts.Lib.Shuffle
import SNetRts.Svpgw.FieldGroups
import SNetRts.Svpgw.ItemVec
import SNetRts.Svpgw.ItemCopy
import SNetRts.Svpgw.Record
import SNetRts.Svpgw.RecordRuns
import SNetRts.Svpgw.Synccell
import SNetRts.Common.Variant
import SNetRts.Netif.Label
import SNetRts.Common.Info
import SNetRts.Stream.Observer
import SNetRts.Svpgw.Buffer
import SNetRts.Svpgw.BufferFifo
import SNetRts.Lib.Forks
import SNetRts.Svpgw.Conslist
import SNetRts.Svpgw.ConslistOrder
import SNetRts.Svpgw.GraphNodes
import SNetRts.Svpgw.GraphParents
import SNetRts.Svpgw.GraphIndices
import SNetRts.Svpgw.GraphLaws
