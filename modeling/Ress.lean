import Ress.Evm.WitnessReads
import Ress.Tree.StateRootSound
import Ress.Tree.StateRootComplete
import Ress.Tree.Verdicts
import Ress.Tree.CanonicalAnswers
import Ress.Tree.CanonicalUpdate
import Ress.Tree.OwnVerdict
import Ress.Tree.ForkPruning
import Ress.Tree.Blame
import Ress.Tree.MissingAncestor
import Ress.Tree.ForkChains
import Ress.Tree.BufferSweeps
import Ress.Tree.WitnessRelease
import Ress.Tree.LatestValid
import Ress.Download.Futs
import Ress.Download.Conservation
import Ress.Download.BlockRange
import Ress.Download.HonestRanges
import Ress.Download.Panics
import Ress.Network.RessNetworkManager
import Ress.Network.WakeUps
import Ress.Engine.CodeAvailability
import Ress.Engine.Connectable
import Ress.Engine.WitnessLeaks
import Ress.Engine.PendingSupply
import Ress.Engine.SyncTargetRuns
import Ress.Engine.OrderFree
import Ress.Engine.FullyValidated
import Ress.Engine.Agreement
import Ress.Engine.PeerSync
import Ress.Engine.ValidatedTree
