import Ruft.HardStates
import Ruft.ApplyOrder
import Ruft.Reports
import Ruft.PanicFree
import Ruft.Durability
import Ruft.Rejections
import Ruft.Tracking
import Ruft.LogBounds
import Ruft.Roles
import Ruft.Leadership
import Ruft.Replication
import Ruft.FailStop
import Ruft.Exhaustion
import Ruft.Safety
import Ruft.CommitRule
import Ruft.Probing
import Ruft.AppendRequests
import Ruft.Demotion
import Ruft.Heartbeats
import Ruft.LeaderNoops
import Ruft.PreVotes
import Ruft.Quorums
import Ruft.Batches
import Ruft.Reassembly
import Ruft.Recovery
import Ruft.UnstableWindow
import Ruft.ProgressOrder
import Ruft.InflightWindow
import Ruft.ChunkStores
import Ruft.ChunkStreams
import Ruft.ReadLedger
import Ruft.ReadAnswers
import Ruft.ReadConservation
import Ruft.ReadSafety
import Ruft.CommittedLogs
import Ruft.Disk
import Ruft.LeaderAppends
import Ruft.ProposalLedger
import Ruft.ProposalResults
import Ruft.Linearizable
import Ruft.CheckQuorum
import Ruft.SnapshotOrigins
import Ruft.StateMachines
import Ruft.CatchUp
import Ruft.ConfigChecks
