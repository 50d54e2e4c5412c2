import HathorCore.Python
import HathorCore.DagBuilder.Types
import HathorCore.DagBuilder.Registry
import HathorCore.DagBuilder.Recorder
import HathorCore.DagBuilder.Outputs
import HathorCore.DagBuilder.Closure
import HathorCore.DagBuilder.Kinds
import HathorCore.DagBuilder.Blockchain
import HathorCore.DagBuilder.Idempotence
import HathorCore.DagBuilder.TopoSort
import HathorCore.DagBuilder.Kahn
import HathorCore.DagBuilder.Ordering
import HathorCore.DagBuilder.Safety
import HathorCore.DagBuilder.Growth
import HathorCore.DagBuilder.Stack
import HathorCore.Wallet
import HathorCore.WalletHandout
import HathorCore.PubSub
import HathorCore.Settings
