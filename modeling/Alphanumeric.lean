import Alphanumeric.Lib.Guard
import Alphanumeric.Lib.Paths
import Alphanumeric.Lib.Proc
import Alphanumeric.Lib.Table
import Alphanumeric.Lib.Trace
import Alphanumeric.Types
import Alphanumeric.State
import Alphanumeric.Validation
import Alphanumeric.Ledger
import Alphanumeric.Solvency
import Alphanumeric.Registry
import Alphanumeric.Orphans
import Alphanumeric.ForkChoice
import Alphanumeric.Engine
import Alphanumeric.Reorg
import Alphanumeric.Runs
import Alphanumeric.Chain
import Alphanumeric.Finality
import Alphanumeric.Replay
import Alphanumeric.Settled
import Alphanumeric.ArrivalPath
import Alphanumeric.Attempts
import Alphanumeric.BestBranch
import Alphanumeric.Node
import Alphanumeric.Converge
import Alphanumeric.Ingest
import Alphanumeric.BalancesIndex
import Alphanumeric.IndexRuns
import Alphanumeric.WalletFiles
import Alphanumeric.KeyFile
import Alphanumeric.SendAnswers
import Alphanumeric.WalletApp
import Alphanumeric.AppFrames
import Alphanumeric.WalletRows
import Alphanumeric.WalletKeys
import Alphanumeric.Payments
import Alphanumeric.Figures
import Alphanumeric.PaymentLedger
import Alphanumeric.LedgerBindings
import Alphanumeric.LedgerReplay
import Alphanumeric.LedgerFaults
import Alphanumeric.LedgerTimestamps
import Alphanumeric.Mempool
import Alphanumeric.MempoolInvariant
import Alphanumeric.SignatureCache
import Alphanumeric.AncestorWalk
import Alphanumeric.ForkVerdict
import Alphanumeric.OutboundAccounting
import Alphanumeric.Deduper
import Alphanumeric.MeshBooks
import Alphanumeric.PooledExchanges
import Alphanumeric.CompactTickets
import Alphanumeric.Retarget
import Alphanumeric.MerkleBinding
import Alphanumeric.TemplateFees
import Alphanumeric.LedgerCapacity
import Alphanumeric.ForkState
import Alphanumeric.Affordability
import Alphanumeric.PendingReservations
import Alphanumeric.AddressIndex
import Alphanumeric.AddressHistory
import Alphanumeric.StorageForm
import Alphanumeric.WitnessStore
import Alphanumeric.VerdictCache
import Alphanumeric.OrphanConsistency
import Alphanumeric.LedgerLegacy
import Alphanumeric.PayoutSchedule
import Alphanumeric.MempoolSelection
import Alphanumeric.StoreScan
import Alphanumeric.PriorityDispatch
import Alphanumeric.SupplyMemo
import Alphanumeric.HistoryMerge
import Alphanumeric.HistoryExact
import Alphanumeric.HistoryUntrusted
import Alphanumeric.RestoreScan
import Alphanumeric.AmountTexts
import Alphanumeric.Whisper
import Alphanumeric.WhisperFees
import Alphanumeric.StartupLock
import Alphanumeric.NodeSupervisor
import Alphanumeric.HeaderQuorum
import Alphanumeric.Lib.FirstBest
import Alphanumeric.AnchorChoice
import Alphanumeric.BodyRequests
import Alphanumeric.Lib.SystematicCode
import Alphanumeric.ErasureFrames
import Alphanumeric.StunResponse
import Alphanumeric.Lib.GreedyRuns
import Alphanumeric.TransactionBatches
import Alphanumeric.Lib.ByteCache
import Alphanumeric.CompactCaches
import Alphanumeric.MeshTopology
import Alphanumeric.PeerTable
import Alphanumeric.DeadTargets
import Alphanumeric.MinePrep
import Alphanumeric.PowTarget
import Alphanumeric.GpuKernel
import Alphanumeric.GpuSearch
import Alphanumeric.SearchPredicates
import Alphanumeric.MineGrind
import Alphanumeric.GpuMiner
import Alphanumeric.BlockNotify
import Alphanumeric.CreditNotices
import Alphanumeric.Lib.Slots
import Alphanumeric.CompactBlocks
import Alphanumeric.CompactAssembly
import Alphanumeric.CompactBinding
import Alphanumeric.Lib.Durable
import Alphanumeric.ApplyWindows
