import Pddm.ProtocolState

/-!
# The crash-tolerant protocol

Shuffle, Echo and Aggregate. Contributions travel in onions to their proxies, which
echo them to each other before they are added up.
-/
namespace Pddm

inductive CtProtocolPhase
  | idle | shuffle | echo | aggregate
  deriving DecidableEq, Repr

structure CtProtocolState where
  echoStartRound : ℤ
  protocolPhase : CtProtocolPhase
  deriving DecidableEq, Repr

namespace CtProtocolState

def init : CtProtocolState := ⟨0, .idle⟩

def isInOverlayPhase (i : CtProtocolState) : Bool :=
  i.protocolPhase = .shuffle || i.protocolPhase = .echo

def aggregatePhase : AggregatePhase CtProtocolState where
  isInAggregatePhase i := i.protocolPhase = .aggregate
  values proxyValues _ := proxyValues
  begin i := { i with protocolPhase := .aggregate }
  finish i := { i with protocolPhase := .idle }
  begin_active _ := rfl
  finish_inactive _ := rfl
  values_begin _ _ := rfl

abbrev State := ProtocolState CtProtocolState

def startQueryImpl (env : ProtocolEnv) (endOverlayRound : State → Outcome Fault State)
    (_ : QueryRequest) (s : State) : Outcome Fault State :=
  let s : State := { s with impl := ⟨0, .shuffle⟩ }
  match s.myContribution with
  | none => .halted .undefinedBehaviour s
  | some contribution =>
      -- contributions are not signed here
      ProtocolState.encryptedMulticastToProxies env endOverlayRound (.ofTuple contribution) s

def acceptContribution (message : OverlayMessage) (s : State) : Outcome Fault State :=
  match message.body.asValueContribution with
  | none => .done s
  | some contribution =>
      match s.myContribution with
      | none => .halted .undefinedBehaviour s
      | some mine =>
          if contribution.value.queryNum = mine.queryNum then
            .done (s.emplaceProxyValue contribution)
          else .done s

def handleShufflePhaseMessage (message : OverlayMessage) (s : State) : Outcome Fault State :=
  acceptContribution message s

def handleEchoPhaseMessage (message : OverlayMessage) (s : State) : Outcome Fault State :=
  acceptContribution message s

/-- The next layer of an onion waits for its turn; a message for this meter is handled
by its phase; other messages have been put aside already. -/
def handleBody (env : ProtocolEnv) (message : OverlayMessage) (s : State) : Outcome Fault State :=
  match message.body with
  | .null => .done s
  | body =>
      match body.asOverlayMessage with
      | some enclosed => .done (s.wait enclosed)
      | none =>
          if message.destination = env.meterId then
            match s.impl.protocolPhase with
            | .shuffle => handleShufflePhaseMessage message s
            | .echo => handleEchoPhaseMessage message s
            | _ => .done s
          else .done s

def handleOverlayMessageImpl (env : ProtocolEnv) (endOverlayRound : State → Outcome Fault State)
    (message : OverlayTransportMessage) (s : State) : Outcome Fault State :=
  (handleBody env message.body s).andThen fun s =>
    if message.isFinalMessage && isInOverlayPhase s.impl then
      endOverlayRound (s.leaving (.finalMessage message.senderRound))
    else .done s

def echoValue (env : ProtocolEnv) (proxyValue : ValueContribution) (s : State) :
    Outcome Fault State :=
  match multicastToOtherProxies env.π env.crypto env.meterId env.numMeters (s.overlayRound + 1)
      s.getCurrentQueryNum proxyValue.value.proxies (.valueContribution proxyValue) with
  | .error e => .halted e s
  | .ok messages => .done { s with outgoingMessages := s.outgoingMessages ++ messages }

def endOverlayRoundImpl (env : ProtocolEnv) (s : State) : Outcome Fault State :=
  if s.impl.protocolPhase = .shuffle ∧
      s.overlayRound ≥ env.failuresTolerated + 2 * env.log2n + 1 then
    (Outcome.forEach (env.π.order s.proxyValues) (echoValue env) s).andThen fun s =>
      .done { s with impl := ⟨s.overlayRound, .echo⟩ }
  else if s.impl.protocolPhase = .echo ∧
      s.overlayRound ≥ s.impl.echoStartRound + env.failuresTolerated + 2 * env.log2n + 1 then
    s.enterAggregatePhase env aggregatePhase
  else .done s

def protocol : Protocol CtProtocolState where
  toAggregatePhase := aggregatePhase
  init := init
  isInOverlayPhase := isInOverlayPhase
  startQueryImpl := startQueryImpl
  handleOverlayMessageImpl := handleOverlayMessageImpl
  endOverlayRoundImpl := endOverlayRoundImpl
  -- only the Byzantine-tolerant protocol gets this message
  handleSignatureResponse _ _ _ s := .done s

end CtProtocolState
end Pddm
