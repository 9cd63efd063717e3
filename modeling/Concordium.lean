import Concordium.Library.Serialize
import Concordium.Library.Word
import Concordium.Library.Bits
import Concordium.Library.Machine
import Concordium.Library.Rounding
import Concordium.Library.Rollback
import Concordium.KonsensusV1.Types
import Concordium.KonsensusV1.Consensus.Quorum
import Concordium.KonsensusV1.Consensus.RoundSigning
import Concordium.KonsensusV1.TreeState.Implementation
import Concordium.KonsensusV1.Consensus.Finality
import Concordium.GlobalState.Basic.BlockState.LFMBTree
import Concordium.GlobalState.Persistent.LFMBTree
import Concordium.GlobalState.TransactionTable
import Concordium.KonsensusV1.TreeState.FocusBlock
import Concordium.Scheduler.TreeStateEnvironment
import Concordium.GlobalState.Persistent.Trie
import Concordium.Library.ListPrefix
import Concordium.GlobalState.Persistent.Trie.WellFormed
import Concordium.GlobalState.Persistent.Trie.Alter
import Concordium.GlobalState.Persistent.Trie.FiniteMap
import Concordium.KonsensusV1.Types.TimeoutCertificate
import Concordium.KonsensusV1.Consensus.Timeout
import Concordium.Afgjort.CSS
import Concordium.KonsensusV1.Consensus.RoundStatus
import Concordium.KonsensusV1.Types.FinalizationEntry
import Concordium.KonsensusV1.Types.SignedBlock
import Concordium.Library.SortedKey
import Concordium.GlobalState.Basic.BlockState.AccountReleaseScheduleV1
import Concordium.GlobalState.Persistent.BlockState.AccountReleaseScheduleV1
import Concordium.GlobalState.Persistent.ReleaseSchedule
import Concordium.GlobalState.Persistent.ReleaseSchedule.Refinement
import Concordium.GlobalState.BakerInfo
import Concordium.KonsensusV1.Consensus.Finality.Pruning
import Concordium.KonsensusV1.LeaderElection
import Concordium.KonsensusV1.Consensus.Timeout.Certificate
import Concordium.KonsensusV1.Consensus.FinalizationCommittee
import Concordium.Kontrol.Bakers
import Concordium.GlobalState.PurgeTransactions
import Concordium.GlobalState.PurgeTransactions.Invariant
import Concordium.Afgjort.PartySet
import Concordium.Library.Emit
import Concordium.GlobalState.Basic.BlockState.AccountReleaseScheduleV1.Conservation
import Concordium.GlobalState.Basic.BlockState.LFMBTree.Hash
import Concordium.KonsensusV1.Types.TimeoutMessage
import Concordium.Kontrol.Bakers.PendingChanges
import Concordium.GlobalState.Persistent.Account.EncryptedAmount
import Concordium.Afgjort.CSS.NominationSet
import Concordium.Afgjort.WMVBA
import Concordium.Afgjort.Types
import Concordium.Afgjort.WMVBA.Summary
import Concordium.GlobalState.Persistent.BlockState.Updates
import Concordium.GlobalState.Persistent.BlockState.Updates.Processing
import Concordium.Afgjort.CSS.State
import Concordium.Afgjort.CSS.Invariants
import Concordium.Afgjort.ABBA
import Concordium.Afgjort.CSS.CoreSet
import Concordium.Afgjort.ABBA.Tickets
import Concordium.Scheduler.FilterTransactions
import Concordium.Scheduler.FilterTransactions.Accounting
import Concordium.Scheduler.FilterTransactions.Selection
import Concordium.Afgjort.Freeze
import Concordium.Afgjort.Freeze.Tally
import Concordium.Afgjort.Freeze.Invariant
import Concordium.Afgjort.Freeze.Safety
import Concordium.Afgjort.Freeze.CatchUp
import Concordium.Afgjort.Freeze.Recording
