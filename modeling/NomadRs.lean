import NomadRs.Acl
import NomadRs.Capacity
import NomadRs.BrokerOrder
import NomadRs.Waiting
import NomadRs.BrokerAccounting
import NomadRs.Delivery
import NomadRs.CommitSafety
import NomadRs.Wakeup
import NomadRs.GroupCount
import NomadRs.Drain
import NomadRs.FileSystem
import NomadRs.RaftLog
import NomadRs.LineTable
import NomadRs.RaftLogIndex
import NomadRs.RaftLogRuns
import NomadRs.RaftLogDurable
import NomadRs.RaftLogFaults
import NomadRs.RaftLogTail
import NomadRs.Recovery
import NomadRs.Served
import NomadRs.SnapshotRace
import NomadRs.RpcSession
import NomadRs.Deregister
import NomadRs.Persistence
import NomadRs.Endpoint
import NomadRs.PlacedCount
import NomadRs.Redelivery
import NomadRs.OneAtATime
import NomadRs.Agreement
import NomadRs.CausalPast
import NomadRs.AllocIds
import NomadRs.Greedy
import NomadRs.Settled
import NomadRs.LiveView
import NomadRs.Shutdown
import NomadRs.Scoring
import NomadRs.Overflow
import NomadRs.PlacementRules
import NomadRs.AllocRunner
import NomadRs.Admission
import NomadRs.Restarts
import NomadRs.Periodic
import NomadRs.Api
import NomadRs.ClientDeletion
