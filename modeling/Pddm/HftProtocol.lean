import Pddm.ProtocolState

/-!
# The protocol for heavy failures

Scatter, Gather and Aggregate. Contributions are flooded to relays and from there to
their proxies.
-/
namespace Pddm

inductive HftProtocolPhase
  | idle | scatter | gather | aggregate
  deriving DecidableEq, Repr

structure HftProtocolState where
  protocolPhase : HftProtocolPhase
  gatherStartRound : ℤ
  currentFloodMessages : List OverlayMessage
  relayMessages : List OverlayMessage
  deriving DecidableEq

/-- The elements of a sorted list that are matched in another one. -/
def setIntersection : List ℤ → List ℤ → List ℤ
  | [], _ => []
  | x :: xs, ys =>
      match ys.dropWhile (· < x) with
      | [] => []
      | y :: rest =>
          if x < y then setIntersection xs (y :: rest) else x :: setIntersection xs rest

/-- Draws from a range. The values named as excluded are in fact the ones kept, and
zeros fill up the sample. -/
def sampleRangeExcluding (shuffle : IterationOrder) (rangeBegin rangeEnd : ℤ)
    (excludeValues : List ℤ) (numberToSample : ℕ) : List ℤ :=
  let range := (List.range (rangeEnd - rangeBegin).toNat).map fun i : ℕ => rangeBegin + i
  let filtered := shuffle.order (setIntersection range excludeValues)
  filtered.take numberToSample ++ List.replicate (numberToSample - filtered.length) 0

/-- `relays[key] = value` on a map kept as the list of its entries in order. -/
def assignRelay (relays : OrderedMap ℤ ℤ) (entry : ℤ × ℤ) : OrderedMap ℤ ℤ :=
  (relays.filter fun e => e.1 ≠ entry.1).insertNew entry.1 entry.2

/-- `emplace` on a set of messages. The hash takes in the address of the body, so that
only messages without a body are found to be there already. -/
def emplaceMessage (messages : List OverlayMessage) (message : OverlayMessage) :
    List OverlayMessage :=
  if message.body = .null ∧ messages.any (·.equal message) then messages
  else messages ++ [message]

namespace HftProtocolState

def init : HftProtocolState := ⟨.idle, 0, [], []⟩

def isInOverlayPhase (i : HftProtocolState) : Bool :=
  i.protocolPhase = .scatter || i.protocolPhase = .gather

def aggregatePhase : AggregatePhase HftProtocolState where
  isInAggregatePhase i := i.protocolPhase = .aggregate
  values proxyValues _ := proxyValues
  begin i := { i with protocolPhase := .aggregate }
  finish i := { i with protocolPhase := .idle, currentFloodMessages := [] }
  begin_active _ := rfl
  finish_inactive _ := rfl
  values_begin _ _ := rfl

abbrev State := ProtocolState HftProtocolState

/-- An onion of two layers, for the relay and for the proxy. -/
def scatterMessage (env : ProtocolEnv) (queryNum : ℤ) (contribution : ValueContribution)
    (proxyRelay : ℤ × ℤ) : OverlayMessage :=
  let innerLayer := env.crypto.rsaEncrypt
    (.make queryNum proxyRelay.1 (.valueContribution contribution) true) proxyRelay.1
  env.crypto.rsaEncrypt (.make queryNum proxyRelay.2 innerLayer.toBody true) proxyRelay.2

def startQueryImpl (env : ProtocolEnv) (endOverlayRound : State → Outcome Fault State)
    (request : QueryRequest) (s : State) : Outcome Fault State :=
  match s.myContribution with
  | none => .halted .undefinedBehaviour s
  | some contribution =>
      let proxies := contribution.proxies.insertionSort (· ≤ ·)
      let nonProxies := sampleRangeExcluding (env.shuffle s.trace.length) 0 env.numMeters proxies
        proxies.length
      let relays := (proxies.zip nonProxies).foldl assignRelay OrderedMap.empty
      let messages := relays.entries.map
        (scatterMessage env request.queryNumber (.ofTuple contribution))
      endOverlayRound (ProtocolState.leaving { s with
        -- only this meter's own copy of the proxies is sorted
        myContribution := some { contribution with proxies := proxies }
        impl := ⟨.scatter, 0, messages.foldl emplaceMessage [], []⟩ } .start)

def handleScatterPhaseMessage (message : OverlayMessage) (s : State) : Outcome Fault State :=
  match message.body.asOverlayMessage with
  | some wrapped => .done (s.onImpl fun i =>
      { i with relayMessages := emplaceMessage i.relayMessages wrapped })
  | none => .done s

def handleGatherPhaseMessage (message : OverlayMessage) (s : State) : Outcome Fault State :=
  match message.body.asValueContribution with
  | none => .done s
  | some contribution =>
      match s.myContribution with
      | none => .halted .undefinedBehaviour s
      | some mine =>
          if contribution.value.queryNum = mine.queryNum then
            .done (s.emplaceProxyValue contribution)
          else .done s

def handleBody (env : ProtocolEnv) (message : OverlayMessage) (s : State) : Outcome Fault State :=
  if message.body = .null then .done s
  else if message.destination = env.meterId then
    match s.impl.protocolPhase with
    | .scatter => handleScatterPhaseMessage message s
    | .gather => handleGatherPhaseMessage message s
    | _ => .done s
  else
    -- sent on in every round from now on
    .done (s.onImpl fun i =>
      { i with currentFloodMessages := emplaceMessage i.currentFloodMessages message })

def handleOverlayMessageImpl (env : ProtocolEnv) (endOverlayRound : State → Outcome Fault State)
    (message : OverlayTransportMessage) (s : State) : Outcome Fault State :=
  (handleBody env message.body s).andThen fun s =>
    if message.isFinalMessage && isInOverlayPhase s.impl then
      endOverlayRound (s.leaving (.finalMessage message.senderRound))
    else .done s

/-- All flood messages are sent; those that reach their destination next are dropped. -/
def flood (env : ProtocolEnv) (s : State) : State :=
  if isInOverlayPhase s.impl then
    { s with
      outgoingMessages := s.outgoingMessages ++ env.π.order s.impl.currentFloodMessages
      impl := { s.impl with
        currentFloodMessages := s.impl.currentFloodMessages.filter fun m =>
          gossipTarget env.meterId (s.overlayRound + 1) env.numMeters ≠ m.destination } }
  else s

def endPhase (env : ProtocolEnv) (s : State) : Outcome Fault State :=
  if s.impl.protocolPhase = .scatter ∧
      s.overlayRound ≥ env.log2n + env.failuresTolerated then
    .done { s with impl := ⟨.gather, s.overlayRound, s.impl.relayMessages, []⟩ }
  else if s.impl.protocolPhase = .gather ∧
      s.overlayRound ≥ s.impl.gatherStartRound + env.log2n + env.failuresTolerated then
    (s.onImpl fun i => { i with currentFloodMessages := [] }).enterAggregatePhase env
      aggregatePhase
  else .done s

def endOverlayRoundImpl (env : ProtocolEnv) (s : State) : Outcome Fault State :=
  (endPhase env s).andThen fun s => .done (flood env s)

def protocol : Protocol HftProtocolState where
  toAggregatePhase := aggregatePhase
  init := init
  isInOverlayPhase := isInOverlayPhase
  startQueryImpl := startQueryImpl
  handleOverlayMessageImpl := handleOverlayMessageImpl
  endOverlayRoundImpl := endOverlayRoundImpl
  -- only the Byzantine-tolerant protocol gets this message
  handleSignatureResponse _ _ _ s := .done s

end HftProtocolState
end Pddm
