import Pddm.CrusaderAgreement
import Pddm.ProtocolState

/-!
# The Byzantine-tolerant protocol

Setup, Shuffle, Agreement and Aggregate. The utility signs each contribution before it
is multicast, and the proxies agree on what they have received.
-/
namespace Pddm

inductive BftProtocolPhase
  | idle | setup | shuffle | agreement | aggregate
  deriving DecidableEq, Repr

structure BftProtocolState where
  protocolPhase : BftProtocolPhase
  agreementPhaseState : Option CrusaderAgreementState
  agreementStartRound : ℤ
  acceptedProxyValues : List ValueContribution
  deriving DecidableEq

/-- The contribution on which a message brings signatures in, if the handlers of
Agreement let any in. -/
def CrusaderAgreementState.admitted (crypto : CryptoLibrary) (message : OverlayMessage)
    (s : CrusaderAgreementState) : Option ValueContribution :=
  match message.body with
  | .signedValue signed =>
      match signed.signatures.first with
      | some pair =>
          if crypto.rsaVerify signed.value pair.2 pair.1 then some signed.value else none
      | none => none
  | .agreementValue agreed =>
      if crypto.rsaVerifySignedValue agreed.signedValue agreed.accepterSignature
          agreed.accepterId ∧ s.log2n ≤ countValid crypto agreed then
        some agreed.signedValue.value
      else none
  | _ => none

namespace BftProtocolState

def init : BftProtocolState := ⟨.idle, none, 0, []⟩

def isInOverlayPhase (i : BftProtocolState) : Bool :=
  i.protocolPhase = .shuffle || i.protocolPhase = .agreement

def aggregatePhase : AggregatePhase BftProtocolState where
  isInAggregatePhase i := i.protocolPhase = .aggregate
  values _ i := i.acceptedProxyValues
  begin i := { i with protocolPhase := .aggregate }
  finish i := { i with protocolPhase := .idle }
  begin_active _ := rfl
  finish_inactive _ := rfl
  values_begin _ _ := rfl

abbrev State := ProtocolState BftProtocolState

def startQueryImpl (env : ProtocolEnv) (_ : State → Outcome Fault State)
    (request : QueryRequest) (s : State) : Outcome Fault State :=
  let s := s.onImpl fun i => { i with
    protocolPhase := .setup
    acceptedProxyValues := []
    agreementPhaseState := some (.init env.meterId env.numMeters request.queryNumber) }
  match s.myContribution with
  | none => .halted .undefinedBehaviour s
  | some contribution =>
      .done (s.act (.sendSignatureRequest
        ⟨env.meterId, env.crypto.rsaEncryptTuple contribution env.meterId⟩))

/-- The utility's signature completes Setup, and this meter's contribution is multicast. -/
def handleSignatureResponse (env : ProtocolEnv) (endOverlayRound : State → Outcome Fault State)
    (message : SignatureResponse) (s : State) : Outcome Fault State :=
  match s.myContribution with
  | none => .halted .undefinedBehaviour s
  | some contribution =>
      ProtocolState.encryptedMulticastToProxies env endOverlayRound
        ⟨contribution, env.crypto.rsaDecryptSignature message.body⟩
        (s.onImpl fun i => { i with protocolPhase := .shuffle })

def handleShufflePhaseMessage (env : ProtocolEnv) (message : OverlayMessage) (s : State) :
    Outcome Fault State :=
  match message.body.asValueContribution with
  | none => .done s
  | some contribution =>
      match s.myContribution with
      | none => .halted .undefinedBehaviour s
      | some mine =>
          if contribution.value.queryNum = mine.queryNum ∧
              env.crypto.rsaVerify (.ofTuple contribution.value) contribution.signature (-1) then
            .done (s.emplaceProxyValue contribution)
          else .done s

def handleAgreementPhaseMessage (env : ProtocolEnv) (message : OverlayMessage) (s : State) :
    Outcome Fault State :=
  match s.impl.agreementPhaseState with
  | none => .halted .undefinedBehaviour s
  | some agreement =>
      let s := match agreement.admitted env.crypto message with
        | some value => s.act (.agreeOn s.getCurrentQueryNum value)
        | none => s
      .done (s.onImpl fun i =>
        { i with agreementPhaseState := some (agreement.handleMessage env.crypto message) })

def handleBody (env : ProtocolEnv) (message : OverlayMessage) (s : State) : Outcome Fault State :=
  match message.body with
  | .null => .done s
  | body =>
      match body.asOverlayMessage with
      | some enclosed => .done (s.wait enclosed)
      | none =>
          if message.destination = env.meterId then
            match s.impl.protocolPhase with
            | .shuffle => handleShufflePhaseMessage env message s
            | .agreement => handleAgreementPhaseMessage env message s
            | _ => .done s
          else .done s

def handleOverlayMessageImpl (env : ProtocolEnv) (endOverlayRound : State → Outcome Fault State)
    (message : OverlayTransportMessage) (s : State) : Outcome Fault State :=
  (handleBody env message.body s).andThen fun s =>
    if message.isFinalMessage && isInOverlayPhase s.impl then
      endOverlayRound (s.leaving (.finalMessage message.senderRound))
    else .done s

/-- A proxy value with this meter's signature on it, for its other proxies. -/
def signValue (env : ProtocolEnv) (proxyValue : ValueContribution) (s : State) :
    Outcome Fault State :=
  let signedValue : SignedValue :=
    ⟨proxyValue, OrderedMap.empty.insertNew env.meterId (env.crypto.rsaSign proxyValue)⟩
  match multicastToOtherProxies env.π env.crypto env.meterId env.numMeters (s.overlayRound + 1)
      s.getCurrentQueryNum proxyValue.value.proxies (.signedValue signedValue) with
  | .error e => .halted e s
  | .ok messages => .done { s with outgoingMessages := s.outgoingMessages ++ messages }

def endOverlayRoundImpl (env : ProtocolEnv) (s : State) : Outcome Fault State :=
  let rounds := 2 * env.failuresTolerated + env.log2n * env.log2n + 1
  if s.impl.protocolPhase = .shuffle ∧ s.overlayRound ≥ rounds then
    (Outcome.forEach (env.π.order s.proxyValues) (signValue env) s).andThen fun s =>
      .done (s.onImpl fun i =>
        { i with agreementStartRound := s.overlayRound, protocolPhase := .agreement })
  else if s.impl.protocolPhase = .agreement then
    match s.impl.agreementPhaseState with
    | none =>
        if s.overlayRound ≥ s.impl.agreementStartRound + rounds then
          .halted .undefinedBehaviour s
        else .done s
    | some agreement =>
        if s.overlayRound ≥ s.impl.agreementStartRound + 4 * env.failuresTolerated +
            2 * env.log2n * env.log2n + 2 ∧ agreement.phase1Finished then
          (s.onImpl fun i => { i with acceptedProxyValues := agreement.finishPhase2 env.π })
            |>.enterAggregatePhase env aggregatePhase
        else if s.overlayRound ≥ s.impl.agreementStartRound + rounds ∧
            !agreement.phase1Finished then
          match agreement.finishPhase1 env.π env.crypto s.overlayRound with
          | .error e => .halted e s
          | .ok (acceptMessages, agreement) =>
              .done { s with
                outgoingMessages := s.outgoingMessages ++ acceptMessages
                impl := { s.impl with agreementPhaseState := some agreement } }
        else .done s
  else .done s

def protocol : Protocol BftProtocolState where
  toAggregatePhase := aggregatePhase
  init := init
  isInOverlayPhase := isInOverlayPhase
  startQueryImpl := startQueryImpl
  handleOverlayMessageImpl := handleOverlayMessageImpl
  endOverlayRoundImpl := endOverlayRoundImpl
  handleSignatureResponse := handleSignatureResponse

end BftProtocolState
end Pddm
