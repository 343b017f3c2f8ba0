import DistributedCloud.Misc.Machine
import DistributedCloud.Misc.GoSlice
import DistributedCloud.RaftLab.Network
import DistributedCloud.RaftLab.Proofs.Peer
import DistributedCloud.RaftLab.Proofs.Replication
import DistributedCloud.RaftLab.Proofs.Steps
import DistributedCloud.RaftLab.Proofs.Persistence
import DistributedCloud.RaftLab.Proofs.Bounds
import DistributedCloud.RaftLab.Proofs.CommitBounds
import DistributedCloud.RaftLab.Proofs.HigherTerm
import DistributedCloud.Misc.Majority
import DistributedCloud.RaftLab.History
import DistributedCloud.RaftLab.Proofs.Elections
import DistributedCloud.RaftLab.Proofs.Senders
import DistributedCloud.ReplicatedLog.Agreement
import DistributedCloud.ReplicatedLog.Replicas
import DistributedCloud.ReplicatedLog.Coherence
import DistributedCloud.ReplicatedLog.Completeness
import DistributedCloud.ReplicatedLog.Coverage
import DistributedCloud.RaftLab.Proofs.Abstraction
import DistributedCloud.RaftLab.Proofs.Requests
import DistributedCloud.RaftLab.Proofs.Refinement
import DistributedCloud.RaftLab.Proofs.Replicating
import DistributedCloud.RaftLab.Proofs.LogMatching
import DistributedCloud.RaftLab.Proofs.Acknowledged
import DistributedCloud.RaftLab.Proofs.StateMachineSafety
import DistributedCloud.MapReduce.Coordinator
import DistributedCloud.MapReduce.Proofs.Coordinator
import DistributedCloud.MapReduce.System
import DistributedCloud.MapReduce.Proofs.FinishSafety
import DistributedCloud.MapReduce.Calls
import DistributedCloud.MapReduce.Proofs.Representation
import DistributedCloud.MapReduce.Proofs.IndexSafety
import DistributedCloud.MapReduce.Proofs.Reissue
import DistributedCloud.MapReduce.Proofs.Progress
import DistributedCloud.KvSrv.Server
import DistributedCloud.KvSrv.Service
import DistributedCloud.KvSrv.Proofs.Service
import DistributedCloud.KvSrv.Proofs.ExactlyOnce
import DistributedCloud.KvSrv.Proofs.StableReply
import DistributedCloud.KvSrv.Proofs.Linearizable
import DistributedCloud.Gintest.Proofs.TokenLifecycle
import DistributedCloud.MapReduce.AsciiJson
import DistributedCloud.MapReduce.Cluster
import DistributedCloud.MapReduce.Proofs.Barrier
import DistributedCloud.MapReduce.Proofs.Schedule
import DistributedCloud.RaftLab.Proofs.Installed
import DistributedCloud.RaftLab.Applier
import DistributedCloud.RaftLab.Proofs.BackUp
import DistributedCloud.RaftLab.Proofs.Delivery
import DistributedCloud.Gintest.Proofs.Primes
import DistributedCloud.Gintest.Proofs.Register
import DistributedCloud.KvSrv.Proofs.ReadYourWrites
import DistributedCloud.MapReduce.Proofs.ReadLoop
import DistributedCloud.MapReduce.Proofs.Reports
import DistributedCloud.Misc.Intervals
import DistributedCloud.Misc.LinkedList
import DistributedCloud.Misc.Locality
import DistributedCloud.Misc.Search
import DistributedCloud.Porcupine.Bitset
import DistributedCloud.Porcupine.Checker
import DistributedCloud.Porcupine.KvModel
import DistributedCloud.Porcupine.Proofs.Bitset
import DistributedCloud.Porcupine.Proofs.Check
import DistributedCloud.Porcupine.Proofs.Events
import DistributedCloud.KvSrv.Deployment
import DistributedCloud.KvSrv.Harness
import DistributedCloud.KvSrv.Proofs.Deployment
import DistributedCloud.KvSrv.Proofs.Harness
import DistributedCloud.MapReduce.Proofs.EndToEnd
import DistributedCloud.MapReduce.Apps
import DistributedCloud.MapReduce.Proofs.Apps
import DistributedCloud.RaftLab.Proofs.Votes
