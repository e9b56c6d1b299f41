import SDRoute.Lib.Py
import SDRoute.Lib.Dict
import SDRoute.Lib.Machine
import SDRoute.Lib.Rounding
import SDRoute.Lib.Explored
import SDRoute.Topology.Link
import SDRoute.Topology.LinkInvariant
import SDRoute.Topology.DirectLinks
import SDRoute.Topology.Switch
import SDRoute.Topology.TopologyManage
import SDRoute.Topology.Neighbors
import SDRoute.Topology.FloodControl
import SDRoute.Topology.SwitchLeave
import SDRoute.Host.HostTrack
import SDRoute.Host.HostAgreement
import SDRoute.Host.Cluster
import SDRoute.Route.GroupTasks
import SDRoute.LoadBalance.Fairness
import SDRoute.Route.TaskHandler
import SDRoute.Route.TopologySync
import SDRoute.Algorithm.AlgorithmBase
import SDRoute.Lib.Random
import SDRoute.Algorithm.PathSearch
import SDRoute.Algorithm.RedundancySpec
import SDRoute.Algorithm.GAEvolution
import SDRoute.Algorithm.EdgeAlignment
import SDRoute.Algorithm.FailureContract
import SDRoute.Algorithm.DijkstraExact
import SDRoute.Algorithm.DijkstraEnds
import SDRoute.Algorithm.TreeAgreement
import SDRoute.Fault.FaultRecovery
import SDRoute.Fault.ServerStatus
import SDRoute.Route.UnicastDelivery
import SDRoute.Route.MulticastDelivery
import SDRoute.Lib.Sorting
import SDRoute.Lib.NondominatedSort
import SDRoute.Route.AlgorithmParams
import SDRoute.Algorithm.PathEnumeration
import SDRoute.Algorithm.FrontLayers
import SDRoute.Algorithm.DijkstraReach
import SDRoute.Multicast.LeaveCancel
import SDRoute.Monitor.LinkMonitor
import SDRoute.Monitor.StatsFrame
import SDRoute.Monitor.StatsRates
import SDRoute.Lib.Blind
import SDRoute.Algorithm.EliteFrame
import SDRoute.Algorithm.OwnGenes
import SDRoute.Route.SourceMembers
import SDRoute.Algorithm.CrossAnswer
import SDRoute.Algorithm.CrowdingDistance
import SDRoute.Algorithm.CrowdingOrder
import SDRoute.Algorithm.RankFilter
import SDRoute.Host.EntryExpiry
import SDRoute.Lib.LeastPath
import SDRoute.Algorithm.PathTree
import SDRoute.Lib.Draws
import SDRoute.Algorithm.MutationSafety
import SDRoute.Algorithm.GASteps
import SDRoute.Algorithm.HopBound
import SDRoute.Algorithm.Bandwidth
import SDRoute.Algorithm.BandwidthDemand
import SDRoute.Topology.VirtualLinks
import SDRoute.Algorithm.TableRounds
import SDRoute.Algorithm.Reinitialized
import SDRoute.Algorithm.Unmeasured
import SDRoute.Topology.ArpTable
import SDRoute.Topology.PortState
import SDRoute.Algorithm.LossBranch
import SDRoute.Fault.ServerRecovery
import SDRoute.Fault.RecoveryFrame
import SDRoute.Topology.StoredLinks
import SDRoute.Topology.WholeLinks
import SDRoute.Topology.VirtualRequests
import SDRoute.Route.PacketIn
import SDRoute.Route.RequestCache
import SDRoute.Lib.Simulates
import SDRoute.Algorithm.Selection
import SDRoute.Multicast.QuerierIndex
import SDRoute.Lib.Travel
import SDRoute.Route.PacketRewrite
import SDRoute.Route.NatDelivery
import SDRoute.Algorithm.MGEvolution
import SDRoute.Algorithm.MGCrossover
import SDRoute.Algorithm.PopulationSize
import SDRoute.Algorithm.MGTables
import SDRoute.Algorithm.MGTopology
import SDRoute.Algorithm.MGEvaluated
import SDRoute.Algorithm.MGGenerations
import SDRoute.Algorithm.MGAnswer
import SDRoute.Route.MulticastRouting
import SDRoute.Route.Rerouting
import SDRoute.Route.UnicastRouting
import SDRoute.Lib.Parts
import SDRoute.Lib.Broadcast
import SDRoute.Topology.ArpBroadcast
import SDRoute.Multicast.PortMachine
import SDRoute.Host.HostEvents
import SDRoute.Route.HostMirror
import SDRoute.Lib.Arrivals
import SDRoute.Route.BranchRecords
import SDRoute.Route.BranchDelivery
import SDRoute.Algorithm.EvolutionFrame
import SDRoute.Algorithm.RequestTrees
import SDRoute.Route.GroupRequests
import SDRoute.Route.RequestsServed
import SDRoute.Monitor.PollingRound
