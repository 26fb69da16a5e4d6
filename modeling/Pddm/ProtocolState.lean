import Pddm.Multicast
import Pddm.Timers
import Pddm.TreeAggregation

/-!
# The state shared by the protocols

Queries, overlay rounds and the Aggregate phase at one meter, as every protocol runs
them. A protocol adds data of its own and fills in a few operations. The trace
records what a meter does; it is not part of the source's state.
-/
namespace Pddm

/-- What is fixed, or decided elsewhere, for one meter: whether the send that
follows a trace of some length succeeds, and the random choices made there. -/
structure ProtocolEnv where
  meterId : ℤ
  numMeters : ℤ
  numMeters_pos : 0 < numMeters
  failuresTolerated : ℕ
  numAggregationGroups : ℤ
  crypto : CryptoLibrary
  π : IterationOrder
  sendOk : ℕ → Bool
  draws : ℕ → ℕ → ℤ
  shuffle : ℕ → IterationOrder

def ProtocolEnv.log2n (env : ProtocolEnv) : ℤ := ceilLog2 env.numMeters

/-- What makes a meter leave a round. -/
inductive RoundEnd
  | start
  | finalMessage (senderRound : ℤ)
  | timeout (registeredIn : ℤ)
  | deadPredecessor (predecessor : ℤ) (failed : List ℤ)
  deriving DecidableEq

inductive Action
  | startQuery (queryNum : ℤ)
  | handleOverlay (overlayRound : ℤ) (message : OverlayTransportMessage)
  /-- The messages buffered for a round are taken out, to be handled one by one. -/
  | replayOverlay (overlayRound : ℤ) (messages : List OverlayTransportMessage)
  | leaveRound (overlayRound : ℤ) (cause : RoundEnd)
  | sendOverlay (messages : List OverlayTransportMessage) (recipientId : ℤ)
  | sendPing (message : PingMessage) (recipientId : ℤ)
  | sendSignatureRequest (message : SignatureRequest)
  /-- Agreement lets the signatures on a value in, during the query. -/
  | agreeOn (queryNum : ℤ) (value : ValueContribution)
  /-- The Aggregate phase starts, with these meters failed and messages buffered. -/
  | startAggregate (queryNum : ℤ) (failed : List ℤ) (buffered : List AggregationMessage)
  /-- A message arrives during the Aggregate phase of the query. -/
  | receiveAggregate (queryNum : ℤ) (message : AggregationMessage)
  /-- A message is added into the aggregate of the query. -/
  | addMessage (queryNum : ℤ) (message : AggregationMessage)
  /-- The meter begins to add its own proxy values into the aggregate. -/
  | computeAggregate (queryNum : ℤ) (values : List ValueContribution)
  | sendAggregate (queryNum : ℤ) (aggregate : AggregationMessage) (parentId : ℤ)
  deriving DecidableEq

/-- `ι` is the data that a protocol adds. -/
structure ProtocolState (ι : Type) where
  overlayRound : ℤ
  isLastRound : Bool
  failedMeterIds : List ℤ
  roundTimeoutTimer : ℤ
  pingResponseFromPredecessor : Bool
  futureOverlayMessages : List OverlayTransportMessage
  futureAggregationMessages : List AggregationMessage
  waitingMessages : List OverlayMessage
  outgoingMessages : List OverlayMessage
  myContribution : Option ValueTuple
  proxyValues : List ValueContribution
  aggregationPhaseState : Option TreeAggregationState
  /-- Each timer with the round it was registered in. -/
  timers : Timers ℤ
  impl : ι
  trace : List Action
  deriving DecidableEq

/-- How a protocol runs the Aggregate phase: its values, and its phase before,
during and after. -/
structure AggregatePhase (ι : Type) where
  isInAggregatePhase : ι → Bool
  values : List ValueContribution → ι → List ValueContribution
  begin : ι → ι
  finish : ι → ι
  begin_active : ∀ i, isInAggregatePhase (begin i) = true
  finish_inactive : ∀ i, isInAggregatePhase (finish i) = false
  values_begin : ∀ proxyValues i, values proxyValues (begin i) = values proxyValues i

namespace ProtocolState
variable {ι : Type}

def init (impl : ι) : ProtocolState ι where
  overlayRound := 0
  isLastRound := false
  failedMeterIds := []
  roundTimeoutTimer := -1
  pingResponseFromPredecessor := false
  futureOverlayMessages := []
  futureAggregationMessages := []
  waitingMessages := []
  outgoingMessages := []
  myContribution := none
  proxyValues := []
  aggregationPhaseState := none
  timers := Timers.none
  impl := impl
  trace := []

def act (s : ProtocolState ι) (a : Action) : ProtocolState ι := { s with trace := s.trace ++ [a] }

def leaving (s : ProtocolState ι) (cause : RoundEnd) : ProtocolState ι :=
  s.act (.leaveRound s.overlayRound cause)

def onImpl (f : ι → ι) (s : ProtocolState ι) : ProtocolState ι := { s with impl := f s.impl }

def cancelTimer (s : ProtocolState ι) : ProtocolState ι :=
  { s with timers := s.timers.cancel s.roundTimeoutTimer }

def setRoundTimeout (s : ProtocolState ι) : ProtocolState ι :=
  { s with roundTimeoutTimer := s.timers.nextId, timers := s.timers.register s.overlayRound }

def fail (s : ProtocolState ι) (id : ℤ) : ProtocolState ι :=
  { s with failedMeterIds := if id ∈ s.failedMeterIds then s.failedMeterIds
      else s.failedMeterIds ++ [id] }

/-- A send to another meter, which marks that meter failed if it does not succeed. -/
def sendTo (env : ProtocolEnv) (a : Action) (recipientId : ℤ) (s : ProtocolState ι) :
    ProtocolState ι :=
  if env.sendOk s.trace.length then s.act a else (s.act a).fail recipientId

def getCurrentQueryNum (s : ProtocolState ι) : ℤ :=
  match s.myContribution with
  | some contribution => contribution.queryNum
  | none => -1

def wait (s : ProtocolState ι) (message : OverlayMessage) : ProtocolState ι :=
  { s with waitingMessages := s.waitingMessages ++ [message] }

def bufferOverlay (s : ProtocolState ι) (message : OverlayTransportMessage) : ProtocolState ι :=
  { s with futureOverlayMessages := s.futureOverlayMessages ++ [message] }

def bufferAggregation (s : ProtocolState ι) (message : AggregationMessage) : ProtocolState ι :=
  { s with futureAggregationMessages := s.futureAggregationMessages ++ [message] }

/-- `emplace` on the set of proxy values. -/
def emplaceProxyValue (s : ProtocolState ι) (contribution : ValueContribution) : ProtocolState ι :=
  if contribution ∈ s.proxyValues then s
  else { s with proxyValues := s.proxyValues ++ [contribution] }

section Aggregation
variable (env : ProtocolEnv) (ph : AggregatePhase ι)

def isInAggregatePhase (s : ProtocolState ι) : Bool := ph.isInAggregatePhase s.impl

def doneReceivingFromChildren (s : ProtocolState ι) : Bool :=
  s.aggregationPhaseState.any TreeAggregationState.doneReceivingFromChildren

def computeAndSendAggregate (values : List ValueContribution) (s : ProtocolState ι) :
    Outcome Fault (ProtocolState ι) :=
  match s.aggregationPhaseState with
  | none => .halted .undefinedBehaviour s
  | some aggregation =>
      let s := s.act (.computeAggregate aggregation.currentQuery.queryNumber values)
      match aggregation.addProxyValues (env.π.order values) with
      | .halted e aggregation => .halted e { s with aggregationPhaseState := some aggregation }
      | .done aggregation =>
          let s := { s with aggregationPhaseState := some aggregation }
          match aggregation.aggregationIntermediate with
          | none => .halted .undefinedBehaviour s
          | some aggregate =>
              .done (s.act (.sendAggregate aggregation.currentQuery.queryNumber aggregate
                (aggregationTreeParent aggregation.nodeId aggregation.numGroups
                  aggregation.numMeters)))

def sendAggregateIfDone (s : ProtocolState ι) : Outcome Fault (ProtocolState ι) :=
  match s.aggregationPhaseState with
  | none => .halted .undefinedBehaviour s
  | some aggregation =>
      if aggregation.doneReceivingFromChildren then
        (computeAndSendAggregate env (ph.values s.proxyValues s.impl) s).andThen fun s =>
          .done (s.onImpl ph.finish)
      else .done s

def handleAggregationMessage (message : AggregationMessage) (s : ProtocolState ι) :
    Outcome Fault (ProtocolState ι) :=
  match s.aggregationPhaseState with
  | none => .halted .undefinedBehaviour s
  | some aggregation =>
      match aggregation.handleMessage message with
      | .error e => .halted e s
      | .ok aggregation' =>
          sendAggregateIfDone env ph
            ({ s with aggregationPhaseState := some aggregation' }.act
              (.addMessage aggregation.currentQuery.queryNumber message))

def replay (message : AggregationMessage) (s : ProtocolState ι) : Outcome Fault (ProtocolState ι) :=
  (handleAggregationMessage env ph message s).andThen fun s =>
    .done { s with futureAggregationMessages := s.futureAggregationMessages.tail }

def startAggregatePhase (s : ProtocolState ι) : Outcome Fault (ProtocolState ι) :=
  let s := s.cancelTimer
  match s.aggregationPhaseState, s.myContribution with
  | some aggregation, some contribution =>
      let s := s.act (.startAggregate aggregation.currentQuery.queryNumber s.failedMeterIds
        s.futureAggregationMessages)
      let s := { s with
        aggregationPhaseState :=
          some (aggregation.initializeState contribution.value.length s.failedMeterIds) }
      -- a leaf may be done already
      ((sendAggregateIfDone env ph s).andThen fun s =>
        -- the phase is tested once, not before each message
        if s.isInAggregatePhase ph then
          Outcome.forEach s.futureAggregationMessages (replay env ph) s
        else .done s).andThen fun s => .done { s with isLastRound := true }
  | _, _ => .halted .undefinedBehaviour s

def enterAggregatePhase (s : ProtocolState ι) : Outcome Fault (ProtocolState ι) :=
  startAggregatePhase env ph (s.onImpl ph.begin)

end Aggregation
end ProtocolState

/-- What a protocol fills in. The operations that may end an overlay round are given
the function that ends one. -/
structure Protocol (ι : Type) extends AggregatePhase ι where
  init : ι
  isInOverlayPhase : ι → Bool
  startQueryImpl : ProtocolEnv → (ProtocolState ι → Outcome Fault (ProtocolState ι)) →
    QueryRequest → ProtocolState ι → Outcome Fault (ProtocolState ι)
  handleOverlayMessageImpl : ProtocolEnv → (ProtocolState ι → Outcome Fault (ProtocolState ι)) →
    OverlayTransportMessage → ProtocolState ι → Outcome Fault (ProtocolState ι)
  endOverlayRoundImpl : ProtocolEnv → ProtocolState ι → Outcome Fault (ProtocolState ι)
  handleSignatureResponse : ProtocolEnv → (ProtocolState ι → Outcome Fault (ProtocolState ι)) →
    SignatureResponse → ProtocolState ι → Outcome Fault (ProtocolState ι)

namespace ProtocolState
variable {ι : Type} (env : ProtocolEnv) (P : Protocol ι)

/-- The transports of one round, the last one marked final; a dummy if there are none. -/
def transports (s : ProtocolState ι) (commTarget : ℤ) (messages : List OverlayMessage) :
    List OverlayTransportMessage :=
  match messages.reverse with
  | [] => [⟨env.meterId, s.overlayRound, true, .make s.getCurrentQueryNum commTarget .null false⟩]
  | last :: others =>
      (others.reverse.map fun m => ⟨env.meterId, s.overlayRound, false, m⟩) ++
        [⟨env.meterId, s.overlayRound, true, last⟩]

def sendOverlayMessageBatch (s : ProtocolState ι) : ProtocolState ι :=
  let commTarget := gossipTarget env.meterId s.overlayRound env.numMeters
  let inRound (m : OverlayMessage) : Bool := m.destination = commTarget
  let messagesToSend := s.waitingMessages.filter inRound ++
    s.outgoingMessages.filter fun m : OverlayMessage => m.flood || inRound m
  let s := { s with
    waitingMessages := s.waitingMessages.filter (fun m : OverlayMessage => !inRound m) ++
      s.outgoingMessages.filter fun m : OverlayMessage => !(m.flood || inRound m)
    outgoingMessages := [] }
  s.sendTo env (.sendOverlay (transports env s commTarget messagesToSend) commTarget) commTarget

/-- Sends the messages of the next round, sets its timeout and pings the predecessor,
unless that one is known to have failed. -/
def beginRound (s : ProtocolState ι) : ProtocolState ι :=
  let s := sendOverlayMessageBatch env
    { s with overlayRound := s.overlayRound + 1, pingResponseFromPredecessor := false }
  let s := s.setRoundTimeout
  let predecessor := gossipPredecessor env.meterId s.overlayRound env.numMeters
  if predecessor ∈ s.failedMeterIds then s
  else s.sendTo env (.sendPing ⟨env.meterId, false⟩ predecessor) predecessor

def isForRound (s : ProtocolState ι) (message : OverlayTransportMessage) : Bool :=
  message.senderRound = s.overlayRound && message.body.queryNum = s.getCurrentQueryNum

def handleOverlayMessage (endOverlayRound : ProtocolState ι → Outcome Fault (ProtocolState ι))
    (message : OverlayTransportMessage) (s : ProtocolState ι) :
    Outcome Fault (ProtocolState ι) :=
  let s := s.act (.handleOverlay s.overlayRound message)
  let s := if P.isInOverlayPhase s.impl then s.cancelTimer.setRoundTimeout else s
  let body :=
    if message.body.isEncrypted then env.crypto.rsaDecrypt message.body else message.body
  match body.remainingPath with
  | some (hop :: rest) =>
      let body := { body with destination := hop, remainingPath := some rest }
      P.handleOverlayMessageImpl env endOverlayRound { message with body := body } (s.wait body)
  | _ => P.handleOverlayMessageImpl env endOverlayRound { message with body := body } s

def superEndOverlayRound (endOverlayRound : ProtocolState ι → Outcome Fault (ProtocolState ι))
    (s : ProtocolState ι) : Outcome Fault (ProtocolState ι) :=
  let s := s.cancelTimer
  if s.isLastRound then .done s
  else
    let s := beginRound env s
    let predecessor := gossipPredecessor env.meterId s.overlayRound env.numMeters
    let receivedMessages := s.futureOverlayMessages.filter s.isForRound
    let localOverlayRound := s.overlayRound
    let s := { s.act (.replayOverlay s.overlayRound receivedMessages) with
      futureOverlayMessages := s.futureOverlayMessages.filter fun m => !s.isForRound m }
    (Outcome.forEach receivedMessages (handleOverlayMessage env P endOverlayRound) s).andThen
      fun s =>
        -- a handler may have ended the round already
        if localOverlayRound = s.overlayRound ∧ predecessor ∈ s.failedMeterIds then
          endOverlayRound (s.leaving (.deadPredecessor predecessor s.failedMeterIds))
        else .done s

/-- A round may end inside the handling of a message, and so in turn; each time uses
fuel up. -/
def endOverlayRound : ℕ → ProtocolState ι → Outcome Fault (ProtocolState ι)
  | 0, s => .halted .outOfFuel s
  | fuel + 1, s =>
      (P.endOverlayRoundImpl env s).andThen
        (superEndOverlayRound env P (endOverlayRound fuel))

def handleRoundTimeout (fuel : ℕ) (registeredIn : ℤ) (s : ProtocolState ι) :
    Outcome Fault (ProtocolState ι) :=
  if s.pingResponseFromPredecessor then
    let predecessor := gossipPredecessor env.meterId s.overlayRound env.numMeters
    .done ({ s with pingResponseFromPredecessor := false }.setRoundTimeout.sendTo env
      (.sendPing ⟨env.meterId, false⟩ predecessor) predecessor)
  else endOverlayRound env P fuel (s.leaving (.timeout registeredIn))

def handlePingMessage (message : PingMessage) (s : ProtocolState ι) : ProtocolState ι :=
  if !message.isResponse then s.act (.sendPing ⟨env.meterId, true⟩ message.senderId)
  else if message.senderId = gossipPredecessor env.meterId s.overlayRound env.numMeters then
    { s with pingResponseFromPredecessor := true }
  else s

def startQuery (fuel : ℕ) (request : QueryRequest) (contributedData : List FixedPoint)
    (s : ProtocolState ι) : Outcome Fault (ProtocolState ι) :=
  let s := s.cancelTimer.act (.startQuery request.queryNumber)
  let s := { s with
    overlayRound := -1
    isLastRound := false
    pingResponseFromPredecessor := false
    proxyValues := []
    failedMeterIds := []
    aggregationPhaseState :=
      some (.make env.meterId env.numAggregationGroups env.numMeters request) }
  match pickProxies (env.draws s.trace.length) env.meterId env.numAggregationGroups
      env.numMeters with
  | .error e => .halted e s
  | .ok proxies =>
      P.startQueryImpl env (endOverlayRound env P fuel) request
        { s with myContribution := some ⟨request.queryNumber, contributedData, proxies⟩ }

/-- Onions for a contribution on their way to its proxies, from round 0 on. -/
def encryptedMulticastToProxies
    (endOverlayRound : ProtocolState ι → Outcome Fault (ProtocolState ι))
    (contribution : ValueContribution) (s : ProtocolState ι) : Outcome Fault (ProtocolState ι) :=
  let onions : Except Fault (List OverlayMessage) := do
    let proxyPaths ← findPaths env.π env.meterId contribution.value.proxies env.numMeters 0
    proxyPaths.mapM fun path =>
      buildEncryptedOnion env.crypto path (.valueContribution contribution)
        contribution.value.queryNum
  match onions with
  | .error e => .halted e s
  | .ok onions =>
      endOverlayRound
        ({ s with outgoingMessages := s.outgoingMessages ++ onions }.leaving .start)

end ProtocolState
end Pddm
