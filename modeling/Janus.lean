import Janus.RaftLeader
import Janus.RccProgress
import Janus.PaxosServer
import Janus.RccWorkspace
import Janus.CopilotPrepare
import Janus.TroadCoordinator
import Janus.SnapshotErase
import Janus.CopilotAgreement
import Janus.CopilotOrder
import Janus.RaftRedelivery
import Janus.MarshalQueue
import Janus.ClientReplies
import Janus.CommitReplicated
import Janus.WaitsFor
import Janus.WoundLoop
import Janus.TapirPrepared
import Janus.FindScc
import Janus.Traverse
import Janus.OccRuns
import Janus.TapirCoordinator
import Janus.ClassicDispatch
import Janus.LoneTransaction
import Janus.CopilotVotes
import Janus.CopilotStability
import Janus.MergedCursor
import Janus.Reactor
import Janus.ForeignIndex
