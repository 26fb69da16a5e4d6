import Pddm.BftProtocol
import Pddm.CtProtocol
import Pddm.HftProtocol

/-!
# The meter client

One meter with the state of its protocol and, where it stands in for a virtual meter,
a second state under a second ID. Messages and expired timers reach it in any order.
-/
namespace Pddm

structure MeterInterface where
  measureConsumption : ℤ → FixedPoint
  measureDailyConsumption : FixedPoint
  measureShiftableConsumption : ℤ → FixedPoint
  /-- Under the price function of the query. -/
  simulateProjectedUsage : ℤ → List FixedPoint

def MeterInterface.contributedData (meter : MeterInterface) (request : QueryRequest) :
    List FixedPoint :=
  match request.requestType with
  | .currUsageSum | .currUsageHistogram => [meter.measureConsumption request.timeWindow]
  | .projectedSum | .projectedHistogram => meter.simulateProjectedUsage request.timeWindow
  | .cumulativeUsage => [meter.measureDailyConsumption]
  | .availableOffsetBreakdown =>
      [meter.measureConsumption request.timeWindow,
        meter.measureShiftableConsumption request.timeWindow]

structure ClientEnv extends ProtocolEnv where
  secondSendOk : ℕ → Bool
  secondDraws : ℕ → ℕ → ℤ
  secondShuffle : ℕ → IterationOrder

def ClientEnv.second (env : ClientEnv) (id : ℤ) : ProtocolEnv :=
  { env.toProtocolEnv with
    meterId := id
    sendOk := env.secondSendOk
    draws := env.secondDraws
    shuffle := env.secondShuffle }

structure MeterClient (ι : Type) where
  primary : ProtocolState ι
  /-- The second ID and the state kept under it. -/
  secondary : Option (ℤ × ProtocolState ι)
  deriving DecidableEq

namespace ProtocolState
variable {ι : Type} (env : ProtocolEnv)

/-- A message of the group: taken into the aggregate now, or kept for later. -/
def receiveAggregation (ph : AggregatePhase ι) (message : AggregationMessage)
    (s : ProtocolState ι) : Outcome Fault (ProtocolState ι) :=
  if s.isInAggregatePhase ph then
    handleAggregationMessage env ph message
      (s.act (.receiveAggregate s.getCurrentQueryNum message))
  else if message.queryNum = s.getCurrentQueryNum then .done (s.bufferAggregation message)
  else .done s

/-- An overlay message for this ID: kept for a later query or round, handled, or dropped. -/
def receiveOverlay (P : Protocol ι) (fuel : ℕ) (message : OverlayTransportMessage)
    (s : ProtocolState ι) : Outcome Fault (ProtocolState ι) :=
  if message.body.queryNum > s.getCurrentQueryNum then .done (s.bufferOverlay message)
  else if message.body.queryNum < s.getCurrentQueryNum then .done s
  else if message.senderRound = s.overlayRound then
    handleOverlayMessage env P (endOverlayRound env P fuel) message s
  else if message.senderRound > s.overlayRound then .done (s.bufferOverlay message)
  else .done s

/-- A timer that has been cancelled or has fired before does nothing. -/
def timerExpires (P : Protocol ι) (fuel : ℕ) (id : ℤ) (s : ProtocolState ι) :
    Outcome Fault (ProtocolState ι) :=
  match s.timers.find id with
  | some registeredIn =>
      handleRoundTimeout env P fuel registeredIn { s with timers := s.timers.cancel id }
  | none => .done s

end ProtocolState

namespace MeterClient
variable {ι : Type} (env : ClientEnv) (P : Protocol ι) (fuel : ℕ)

def init : MeterClient ι := ⟨.init P.init, none⟩

def onPrimary (f : ProtocolState ι → Outcome Fault (ProtocolState ι)) (c : MeterClient ι) :
    Outcome Fault (MeterClient ι) :=
  (f c.primary).map fun s => { c with primary := s }

def onSecondary (f : ProtocolEnv → ProtocolState ι → Outcome Fault (ProtocolState ι))
    (c : MeterClient ι) : Outcome Fault (MeterClient ι) :=
  match c.secondary with
  | none => .done c
  | some (id, s) => (f (env.second id) s).map fun s => { c with secondary := some (id, s) }

def setSecondId (id : ℤ) (c : MeterClient ι) : MeterClient ι :=
  { c with secondary := some (id, .init P.init) }

def sameGroup (senderId id : ℤ) : Bool :=
  aggregationGroupFor senderId env.numAggregationGroups env.numMeters =
    aggregationGroupFor id env.numAggregationGroups env.numMeters

def handleAggregation (message : AggregationMessage) (c : MeterClient ι) :
    Outcome Fault (MeterClient ι) :=
  -- the group of an ID is found by a division
  if standardGroupSize env.numAggregationGroups env.numMeters = 0 then
    .halted .undefinedBehaviour c
  else if sameGroup env message.senderId env.meterId then
    c.onPrimary (ProtocolState.receiveAggregation env.toProtocolEnv P.toAggregatePhase message)
  else
    match c.secondary with
    | none => .done c
    | some (id, _) =>
        if sameGroup env message.senderId id then
          c.onSecondary env fun env =>
            ProtocolState.receiveAggregation env P.toAggregatePhase message
        else .done c

def handleOverlay (message : OverlayTransportMessage) (c : MeterClient ι) :
    Outcome Fault (MeterClient ι) :=
  let target := gossipTarget message.senderId message.senderRound env.numMeters
  if target = env.meterId then
    c.onPrimary (ProtocolState.receiveOverlay env.toProtocolEnv P fuel message)
  else
    match c.secondary with
    | none => .done c
    | some (id, _) =>
        if target = id then
          c.onSecondary env fun env => ProtocolState.receiveOverlay env P fuel message
        else .done c

def handlePing (message : PingMessage) (c : MeterClient ι) : Outcome Fault (MeterClient ι) :=
  (c.onPrimary fun s => .done (s.handlePingMessage env.toProtocolEnv message)).andThen
    (onSecondary env fun env s => .done (s.handlePingMessage env message))

def handleQueryRequest (meter : MeterInterface) (request : QueryRequest) (c : MeterClient ι) :
    Outcome Fault (MeterClient ι) :=
  (c.onPrimary (ProtocolState.startQuery env.toProtocolEnv P fuel request
    (meter.contributedData request))).andThen
    (onSecondary env fun env => ProtocolState.startQuery env P fuel request [])

def handleSignatureResponse (message : SignatureResponse) (c : MeterClient ι) :
    Outcome Fault (MeterClient ι) :=
  c.onPrimary (P.handleSignatureResponse env.toProtocolEnv
    (ProtocolState.endOverlayRound env.toProtocolEnv P fuel) message)

inductive Event
  | setSecondId (id : ℤ)
  | queryRequest (meter : MeterInterface) (request : QueryRequest)
  | overlay (message : OverlayTransportMessage)
  | aggregation (message : AggregationMessage)
  | ping (message : PingMessage)
  | signatureResponse (message : SignatureResponse)
  | timerExpires (id : ℤ)
  | secondTimerExpires (id : ℤ)

def handle (c : MeterClient ι) : Event → Outcome Fault (MeterClient ι)
  | .setSecondId id => .done (c.setSecondId P id)
  | .queryRequest meter request => c.handleQueryRequest env P fuel meter request
  | .overlay message => c.handleOverlay env P fuel message
  | .aggregation message => c.handleAggregation env P message
  | .ping message => c.handlePing env message
  | .signatureResponse message => c.handleSignatureResponse env P fuel message
  | .timerExpires id => c.onPrimary (ProtocolState.timerExpires env.toProtocolEnv P fuel id)
  | .secondTimerExpires id =>
      c.onSecondary env fun env => ProtocolState.timerExpires env P fuel id

def step (o : Outcome Fault (MeterClient ι)) (e : Event) : Outcome Fault (MeterClient ι) :=
  o.andThen fun c => c.handle env P fuel e

def run (es : List Event) : Outcome Fault (MeterClient ι) :=
  es.foldl (step env P fuel) (.done (init P))

section Samples

theorem five_meters : (0 : ℤ) < 5 := by decide
theorem eleven_meters : (0 : ℤ) < 11 := by decide

/-- A client that always picks the first proxy of a group. -/
def sampleEnv (meterId numMeters : ℤ) (hpos : 0 < numMeters) (failuresTolerated : ℕ)
    (numAggregationGroups : ℤ) (sendOk : ℕ → Bool) : ClientEnv where
  meterId := meterId
  numMeters := numMeters
  numMeters_pos := hpos
  failuresTolerated := failuresTolerated
  numAggregationGroups := numAggregationGroups
  crypto := dummyCrypto
  π := .insertion
  sendOk := sendOk
  draws _ group := (proxyRange numAggregationGroups numMeters group).1
  shuffle _ := .insertion
  secondSendOk := sendOk
  secondDraws _ group := (proxyRange numAggregationGroups numMeters group).1
  secondShuffle _ := .insertion

def sampleMeter : MeterInterface := ⟨fun _ => 5, 5, fun _ => 5, fun _ => [5]⟩

def sampleQuery (queryNumber : ℤ) : Event :=
  .queryRequest sampleMeter ⟨.currUsageSum, 1, queryNumber⟩

def timeouts (first count : ℕ) : List Event :=
  (List.range count).map fun i : ℕ => .timerExpires (first + i : ℕ)

end Samples
end MeterClient
end Pddm
