import AxiomApps.Lib.Execution
import AxiomApps.Lib.FifoNet
import AxiomApps.Discovery.Protocol
import AxiomApps.Discovery.Knowledge
import AxiomApps.Lib.PortDfs
import AxiomApps.Discovery.Routes
import AxiomApps.Discovery.Stages
import AxiomApps.Discovery.Search
import AxiomApps.Discovery.Invariant
import AxiomApps.Lib.Forwarding
import AxiomApps.Discovery.Runs
import AxiomApps.Discovery.Correctness
import AxiomApps.Discovery.Overflow
import AxiomApps.Discovery.ReverseInterface
import AxiomApps.Routing.Compute
import AxiomApps.Lib.Levels
import AxiomApps.Routing.Shortest
import AxiomApps.Routing.ParallelLinks
import AxiomApps.Routing.SetRouting
import AxiomApps.Routing.Delivery
import AxiomApps.Routing.Commit
import AxiomApps.Discovery.UniqueIds
import AxiomApps.Discovery.Polls
import AxiomApps.Discovery.Failures
import AxiomApps.Discovery.FailureRuns
import AxiomApps.Discovery.PassedOn
import AxiomApps.Lib.Relay
import AxiomApps.Run.Barrier
import AxiomApps.Run.SyncCalls
import AxiomApps.Run.Release
import AxiomApps.Run.Rpc
import AxiomApps.Run.AllocReply
import AxiomApps.Lib.Threads
import AxiomApps.Lib.Tiling
import AxiomApps.Netperf.Client
import AxiomApps.Netperf.EndMessage
import AxiomApps.Netperf.FailedWrites
import AxiomApps.Lib.Workers
import AxiomApps.Netperf.Server
import AxiomApps.Lib.IntLoop
import AxiomApps.Lib.Memory
import AxiomApps.Netperf.Verify
import AxiomApps.Rdma.Payload
import AxiomApps.Rdma.Region
import AxiomApps.Run.ChildStart
import AxiomApps.Run.Exit
import AxiomApps.Run.ChildStatus
import AxiomApps.Run.ExitStatus
import AxiomApps.Run.ExitCode
import AxiomApps.Lib.Lines
import AxiomApps.Run.Output
import AxiomApps.Run.LineOutput
import AxiomApps.Run.Identification
import AxiomApps.Run.Redirect
import AxiomApps.Run.RedirectOutput
import AxiomApps.Run.RedirectEnd
import AxiomApps.Run.Stdin
import AxiomApps.Run.FullBarrier
import AxiomApps.Lib.Decimal
import AxiomApps.Run.Sched
import AxiomApps.Run.SchedReject
import AxiomApps.Lib.Numeral
import AxiomApps.Run.NodeSet
import AxiomApps.Run.NodeList
import AxiomApps.Run.NodeMask
import AxiomApps.Run.Start
import AxiomApps.Lib.Getopt
import AxiomApps.Run.CommandLine
import AxiomApps.Run.SlaveCommandLine
import AxiomApps.Lib.CString
import AxiomApps.Lib.Slots
import AxiomApps.StrList
import AxiomApps.Spawn.Server
import AxiomApps.Spawn.Held
import AxiomApps.Spawn.SessionIds
import AxiomApps.Spawn.Execvpe
import AxiomApps.Spawn.Targets
import AxiomApps.Spawn.MessageSize
import AxiomApps.Spawn.Streams
import AxiomApps.Lib.Mail
import AxiomApps.Lib.Iovec
import AxiomApps.SendRecv
import AxiomApps.Ping
import AxiomApps.Traceroute
import AxiomApps.TracerouteLoops
import AxiomApps.DiscoveryNode
import AxiomApps.Ethtap
import AxiomApps.Routing.TableFile
