import Pddm.AccountRuns
import Pddm.AccountTotals
import Pddm.AggregateAccounts
import Pddm.AggregateNetwork
import Pddm.AggregateNumbers
import Pddm.AggregateOnce
import Pddm.AggregateRules
import Pddm.AggregateSums
import Pddm.AggregationRun
import Pddm.AgreementNumbers
import Pddm.Alarms
import Pddm.BftProtocol
import Pddm.BodyBytes
import Pddm.BodyRoundTrips
import Pddm.ClientNetwork
import Pddm.Codecs
import Pddm.ContributionMessages
import Pddm.ContributionNetwork
import Pddm.ContributionOrigins
import Pddm.ContributionRuns
import Pddm.Convergecast
import Pddm.CrusaderAgreement
import Pddm.CrusaderSignatures
import Pddm.CrusaderTransfer
import Pddm.CtProtocol
import Pddm.DataLengths
import Pddm.Device
import Pddm.DisjointPaths
import Pddm.EventManager
import Pddm.EventRuns
import Pddm.FloodMessages
import Pddm.Flooding
import Pddm.Forest
import Pddm.Gathering
import Pddm.GossipLaw
import Pddm.GossipRounds
import Pddm.Groups
import Pddm.HftDelivery
import Pddm.HftProtocol
import Pddm.HftQuery
import Pddm.HftRounds
import Pddm.Journeys
import Pddm.LinuxTimerManager
import Pddm.Lockstep
import Pddm.Messages
import Pddm.MeterClient
import Pddm.MeterCount
import Pddm.Multicast
import Pddm.NetworkRuns
import Pddm.OnionLaw
import Pddm.OrderedMap
import Pddm.Outcome
import Pddm.Overlay
import Pddm.OverlayBatch
import Pddm.OverlayEffects
import Pddm.OverlayNumbers
import Pddm.OverlayPhases
import Pddm.OverlaySchedule
import Pddm.Parties
import Pddm.PathDelivery
import Pddm.PathFinder
import Pddm.PathRounds
import Pddm.PathSearch
import Pddm.PhaseSchedule
import Pddm.PrimeModuli
import Pddm.ProtocolRules
import Pddm.ProtocolState
import Pddm.ProxyBuffers
import Pddm.QuerySchedule
import Pddm.QueryTimes
import Pddm.Relays
import Pddm.RoundClocks
import Pddm.RoundDepth
import Pddm.RoundFuel
import Pddm.RoundOrder
import Pddm.RoundRules
import Pddm.Sampling
import Pddm.SealedMessages
import Pddm.SealedNetwork
import Pddm.SealedRuns
import Pddm.SimMeter
import Pddm.SimNetwork
import Pddm.SimNetworkClient
import Pddm.SimTimerManager
import Pddm.SimulatorSetup
import Pddm.Stretches
import Pddm.TcpFraming
import Pddm.TimerLeftovers
import Pddm.Timers
import Pddm.TreeAggregation
import Pddm.TreeDepth
import Pddm.UtilityBatch
import Pddm.UtilityClient
import Pddm.UtilityMaximum
import Pddm.UtilityNetwork
import Pddm.UtilityResults
import Pddm.UtilityTimeouts
import Pddm.UtilityVotes
import Pddm.WaitingMessages
import Pddm.WireFormat
