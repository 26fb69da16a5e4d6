import Pddm.AggregateRules

/-!
# The query numbers of what is agreed on

The Shuffle phase looks at the query number of a contribution. Agreement does not, so
that values of an earlier query can be accepted in a later one.
-/
namespace Pddm

/-- Agreement lets in signatures on values of the current query only. -/
def Action.AgreesOwn : Action → Prop
  | .agreeOn queryNum value => value.value.queryNum = queryNum
  | _ => True

def Action.ComputesOwn : Action → Prop
  | .computeAggregate queryNum values => ∀ value ∈ values, value.value.queryNum = queryNum
  | _ => True

theorem Action.computesOwn_of_isQuiet {a : Action} (h : a.isQuiet = true) : a.ComputesOwn := by
  cases a <;> simp_all [Action.isQuiet, Action.ComputesOwn]

def AgreesOwn (trace : List Action) : Prop := ∀ a ∈ trace, a.AgreesOwn

def ComputesOwn (trace : List Action) : Prop := ∀ a ∈ trace, a.ComputesOwn

theorem AgreesOwn.prefix {trace ext : List Action} (h : AgreesOwn (trace ++ ext)) :
    AgreesOwn trace := (List.forall_mem_append.mp h).1

theorem ComputesOwn.append {trace ext : List Action} (h : ComputesOwn trace)
    (hext : ∀ a ∈ ext, a.ComputesOwn) : ComputesOwn (trace ++ ext) :=
  List.forall_mem_append.mpr ⟨h, hext⟩

namespace CrusaderAgreementState
variable {crypto : CryptoLibrary} {s : CrusaderAgreementState} {queryNum : ℤ}

def HoldsOnly (queryNum : ℤ) (s : CrusaderAgreementState) : Prop :=
  ∀ value signed, s.held value = some signed → signed.value.value.queryNum = queryNum

theorem HoldsOnly.store (hs : s.HoldsOnly queryNum) (value : ValueContribution)
    {signed : SignedValue} (h : signed.value.value.queryNum = queryNum) :
    (s.store value signed).HoldsOnly queryNum := by
  intro v signed' hheld
  rw [held_store] at hheld
  split_ifs at hheld with hv
  · cases hheld
    exact h
  · exact hs v signed' hheld

theorem HoldsOnly.handlePhase1Message (hs : s.HoldsOnly queryNum) (signed : SignedValue)
    (h : ∀ pair, signed.signatures.first = some pair →
      crypto.rsaVerify signed.value pair.2 pair.1 = true →
        signed.value.value.queryNum = queryNum) :
    (s.handlePhase1Message crypto signed).HoldsOnly queryNum := by
  unfold CrusaderAgreementState.handlePhase1Message
  cases hfirst : signed.signatures.first with
  | none => exact hs
  | some pair =>
    dsimp only
    split_ifs with hverify
    · cases hheld : s.held signed.value with
      | none => exact hs.store _ (h pair hfirst hverify)
      | some old => exact hs.store _ (hs signed.value old hheld)
    · exact hs

theorem HoldsOnly.handlePhase2Message (hs : s.HoldsOnly queryNum) (agreed : AgreementValue)
    (h : crypto.rsaVerifySignedValue agreed.signedValue agreed.accepterSignature
        agreed.accepterId = true → s.log2n ≤ countValid crypto agreed →
      agreed.signedValue.value.value.queryNum = queryNum) :
    (s.handlePhase2Message crypto agreed).HoldsOnly queryNum := by
  unfold CrusaderAgreementState.handlePhase2Message
  split_ifs with hverify hcount
  · dsimp only
    cases hheld : s.held agreed.signedValue.value with
    | none => exact hs.store _ (h hverify hcount)
    | some old => exact hs.store _ (hs agreed.signedValue.value old hheld)
  · exact hs
  · exact hs

/-- Only the value that a message is admitted for is new. -/
theorem HoldsOnly.handleMessage (hs : s.HoldsOnly queryNum) {message : OverlayMessage}
    (h : ∀ value, s.admitted crypto message = some value → value.value.queryNum = queryNum) :
    (s.handleMessage crypto message).HoldsOnly queryNum := by
  unfold CrusaderAgreementState.handleMessage
  unfold admitted at h
  cases hbody : message.body with
  | signedValue signed =>
    refine hs.handlePhase1Message signed fun pair hfirst hverify => h signed.value ?_
    simp only [hbody, hfirst, hverify, if_true]
  | agreementValue agreed =>
    refine hs.handlePhase2Message agreed fun hverify hcount => h agreed.signedValue.value ?_
    simp only [hbody, hverify, hcount, and_self, if_true]
  | _ => exact hs

theorem HoldsOnly.finishPhase1 (hs : s.HoldsOnly queryNum) {π : IterationOrder} {round : ℤ}
    {messages : List OverlayMessage} {t : CrusaderAgreementState}
    (h : s.finishPhase1 π crypto round = .ok (messages, t)) : t.HoldsOnly queryNum := by
  obtain rfl := finishPhase1_state h
  exact hs

theorem HoldsOnly.finishPhase2 (hs : s.HoldsOnly queryNum) (π : IterationOrder) :
    ∀ value ∈ s.finishPhase2 π, value.value.queryNum = queryNum := by
  intro value hvalue
  obtain ⟨key, signed, hheld, rfl, -⟩ := mem_finishPhase2.mp hvalue
  exact hs key signed hheld

end CrusaderAgreementState

namespace BftProtocolState
variable {env : ProtocolEnv} {s t : State}

structure OfQuery (queryNum : ℤ) (i : BftProtocolState) : Prop where
  accepted : ∀ value ∈ i.acceptedProxyValues, value.value.queryNum = queryNum
  held : ∀ agreement, i.agreementPhaseState = some agreement → agreement.HoldsOnly queryNum

/-- The invariant: the meter aggregates for the query it has contributed to, and agrees
on values of that query. -/
structure Agreed (s : State) : Prop where
  current : ∀ aggregation, s.aggregationPhaseState = some aggregation →
    s.getCurrentQueryNum = aggregation.currentQuery.queryNumber
  ofQuery : AgreesOwn s.trace → OfQuery s.getCurrentQueryNum s.impl
  computes : AgreesOwn s.trace → ComputesOwn s.trace

theorem Agreed.frame (hs : Agreed s) (h : ProtocolState.SameCore s t) : Agreed t := by
  obtain ⟨ext, htrace, hext⟩ := h.trace
  have hnum : t.getCurrentQueryNum = s.getCurrentQueryNum := by
    rw [ProtocolState.getCurrentQueryNum, h.myContribution]
    rfl
  refine ⟨?_, fun hown => ?_, fun hown => ?_⟩
  · rw [h.aggregationPhaseState, hnum]
    exact hs.current
  · rw [htrace] at hown
    rw [h.impl, hnum]
    exact hs.ofQuery hown.prefix
  · rw [htrace] at hown ⊢
    exact (hs.computes hown.prefix).append fun a ha => Action.computesOwn_of_isQuiet (hext a ha)

theorem Agreed.onImpl (hs : Agreed s) {f : BftProtocolState → BftProtocolState}
    (h : ∀ queryNum, OfQuery queryNum s.impl → OfQuery queryNum (f s.impl)) :
    Agreed (s.onImpl f) :=
  ⟨hs.current, fun hown => h _ (hs.ofQuery hown), hs.computes⟩

theorem agreed_sendAggregateIfDone (hs : Agreed s) :
    (ProtocolState.sendAggregateIfDone env aggregatePhase s).Ends
      (fun t => Agreed t) fun t => AgreesOwn t.trace → ComputesOwn t.trace := by
  have hcomputes : ∀ aggregation, s.aggregationPhaseState = some aggregation →
      AgreesOwn (s.computing aggregatePhase aggregation).trace →
        ComputesOwn (s.computing aggregatePhase aggregation).trace := by
    intro aggregation hagg hown
    refine (hs.computes hown.prefix).append (List.forall_mem_singleton.mpr ?_)
    intro value hvalue
    exact ((hs.ofQuery hown.prefix).accepted value hvalue).trans (hs.current aggregation hagg)
  refine ProtocolState.sendAggregateIfDone_ends
    (K := fun trace => AgreesOwn trace → ComputesOwn trace) hs.computes ?_ ?_ ?_
  · exact fun _ _ _ => hs
  · exact fun aggregation hagg _ => hcomputes aggregation hagg
  · intro aggregation aggregate hagg _
    refine ⟨fun aggregation' hagg' => ?_, fun hown => ?_, fun hown => ?_⟩
    · obtain rfl := Option.some.inj hagg'
      exact hs.current aggregation hagg
    · have hof := hs.ofQuery hown.prefix.prefix
      exact ⟨hof.accepted, hof.held⟩
    · exact (hcomputes aggregation hagg hown.prefix).append (by simp [Action.ComputesOwn])

theorem agreed_handleAggregation (hs : Agreed s) (message : AggregationMessage) :
    (ProtocolState.handleAggregationMessage env aggregatePhase message s).Ends
      (fun t => Agreed t) fun t => AgreesOwn t.trace → ComputesOwn t.trace := by
  refine ProtocolState.handleAggregationMessage_ends
    (K := fun trace => AgreesOwn trace → ComputesOwn trace) hs.computes
    fun aggregation intermediate hagg => agreed_sendAggregateIfDone ?_
  refine ⟨fun aggregation' hagg' => ?_, fun hown => hs.ofQuery hown.prefix, fun hown => ?_⟩
  · obtain rfl := Option.some.inj hagg'
    exact hs.current aggregation hagg
  · exact (hs.computes hown.prefix).append (by simp [Action.ComputesOwn])

theorem agreed_enterAggregatePhase (hs : Agreed s) :
    (ProtocolState.enterAggregatePhase env aggregatePhase s).Ends
      (fun t => Agreed t) fun t => AgreesOwn t.trace → ComputesOwn t.trace := by
  refine ProtocolState.startAggregatePhase_ends (A := fun t => Agreed t) (B := fun t => Agreed t)
    (K := fun trace => AgreesOwn trace → ComputesOwn trace) hs.computes ?_ ?_ ?_ ?_
  · intro aggregation contribution hagg _
    refine agreed_sendAggregateIfDone ⟨fun aggregation' hagg' => ?_, fun hown => ?_, fun hown => ?_⟩
    · obtain rfl := Option.some.inj hagg'
      exact hs.current aggregation hagg
    · have hof := hs.ofQuery hown.prefix
      exact ⟨hof.accepted, hof.held⟩
    · exact (hs.computes hown.prefix).append (by simp [Action.ComputesOwn])
  · intro t ht _
    refine Outcome.forEach_ends ht fun message _ u hu => ?_
    refine (agreed_handleAggregation hu message).andThen fun v hv => ?_
    exact ⟨hv.current, hv.ofQuery, hv.computes⟩
  · exact fun t ht _ => ht
  · exact fun t ht => ⟨ht.current, ht.ofQuery, ht.computes⟩

/-- A value that is let in is of the current query, by assumption. -/
theorem agreed_handleAgreement (hs : Agreed s) (message : OverlayMessage) :
    (handleAgreementPhaseMessage env message s).Ends
      (fun t => Agreed t) fun t => AgreesOwn t.trace → ComputesOwn t.trace := by
  unfold handleAgreementPhaseMessage
  cases hagreement : s.impl.agreementPhaseState with
  | none => exact hs.computes
  | some agreement =>
    dsimp only
    cases hadmitted : agreement.admitted env.crypto message with
    | none =>
      refine hs.onImpl fun queryNum h => ⟨h.accepted, fun agreement' heq => ?_⟩
      obtain rfl := Option.some.inj heq
      exact (h.held agreement hagreement).handleMessage (by simp [hadmitted])
    | some value =>
      refine ⟨hs.current, fun hown => ?_, fun hown => ?_⟩
      · have h := hs.ofQuery hown.prefix
        have hvalue : value.value.queryNum = s.getCurrentQueryNum :=
          (List.forall_mem_append.mp hown).2 _ (List.mem_singleton_self _)
        refine ⟨h.accepted, fun agreement' heq => ?_⟩
        obtain rfl := Option.some.inj heq
        refine (h.held agreement hagreement).handleMessage fun value' heq' => ?_
        obtain rfl := Option.some.inj (hadmitted.symm.trans heq')
        exact hvalue
      · exact (hs.computes hown.prefix).append (by simp [Action.ComputesOwn])

theorem agreed_handleBody (hs : Agreed s) (message : OverlayMessage) :
    (handleBody env message s).Ends
      (fun t => Agreed t) fun t => AgreesOwn t.trace → ComputesOwn t.trace := by
  unfold handleBody
  split
  · exact hs
  · split
    · exact hs.frame (.wait s _)
    · split_ifs
      · split
        · exact (handleShufflePhaseMessage_ends message s).mono (fun _ h => hs.frame h)
            fun _ h => (hs.frame h).computes
        · exact agreed_handleAgreement hs message
        · exact hs
      · exact hs

theorem agreed_endAgreement (hs : Agreed s) (hshuffle : s.impl.protocolPhase ≠ .shuffle)
    (hphase : s.impl.protocolPhase = .agreement) :
    (endOverlayRoundImpl env s).Ends
      (fun t => Agreed t) fun t => AgreesOwn t.trace → ComputesOwn t.trace := by
  unfold endOverlayRoundImpl
  dsimp only
  rw [if_neg (fun h => hshuffle h.1), if_pos hphase]
  cases hagreement : s.impl.agreementPhaseState with
  | none =>
    dsimp only
    split_ifs
    · exact hs.computes
    · exact hs
  | some agreement =>
    dsimp only
    split_ifs
    · refine agreed_enterAggregatePhase (hs.onImpl fun queryNum h => ⟨?_, h.held⟩)
      exact (h.held agreement hagreement).finishPhase2 env.π
    · cases hfinish : agreement.finishPhase1 env.π env.crypto s.overlayRound with
      | error e => exact hs.computes
      | ok finished =>
        have himpl : Agreed (s.onImpl fun i =>
            { i with agreementPhaseState := some finished.2 }) := by
          refine hs.onImpl fun queryNum h => ⟨h.accepted, fun agreement' heq => ?_⟩
          obtain rfl := Option.some.inj heq
          exact (h.held agreement hagreement).finishPhase1 hfinish
        exact himpl.frame (.of_fields rfl rfl rfl rfl rfl rfl)
    · exact hs

theorem agreed_endOverlayRoundImpl (hs : Agreed s) :
    (endOverlayRoundImpl env s).Ends
      (fun t => Agreed t) fun t => AgreesOwn t.trace → ComputesOwn t.trace := by
  by_cases hphase : s.impl.protocolPhase = .agreement
  · exact agreed_endAgreement hs (by simp [hphase]) hphase
  · unfold endOverlayRoundImpl
    dsimp only
    split_ifs
    · refine Outcome.Ends.andThen (P := fun t => Agreed t)
        (Outcome.forEach_ends hs fun value _ t ht => ?_) fun t ht => ?_
      · exact (signValue_ends value t).mono (fun _ h => ht.frame h) fun _ h => (ht.frame h).computes
      · exact ht.onImpl fun queryNum h => ⟨h.accepted, h.held⟩
    · exact hs

theorem agreed_keeps : ProtocolState.Keeps env protocol Agreed
    fun t => AgreesOwn t.trace → ComputesOwn t.trace where
  weaken _ hs := hs.computes
  frame _ _ hs h := hs.frame h
  nextRound _ hs _ := ⟨hs.current, hs.ofQuery, hs.computes⟩
  ends _ hs := agreed_endOverlayRoundImpl hs
  handles endRound message s hrec hs := by
    refine (agreed_handleBody hs message.body).andThen fun t ht => ?_
    split_ifs
    · exact hrec _ (ht.frame (.leaving t _))
    · exact ht

theorem agreed_start (fuel : ℕ) (request : QueryRequest) (data : List FixedPoint)
    (hs : Agreed s) :
    (ProtocolState.startQuery env protocol fuel request data s).Ends
      (fun t => Agreed t) fun t => AgreesOwn t.trace → ComputesOwn t.trace := by
  have hcomputes : AgreesOwn (s.trace ++ [.startQuery request.queryNumber]) →
      ComputesOwn (s.trace ++ [.startQuery request.queryNumber]) :=
    fun hown => (hs.computes hown.prefix).append (by simp [Action.ComputesOwn])
  unfold ProtocolState.startQuery
  dsimp only
  split
  · exact hcomputes
  · refine ⟨fun aggregation hagg => ?_, fun _ => ⟨by simp [ProtocolState.onImpl, ProtocolState.act],
      fun agreement hagreement => ?_⟩, fun hown => ?_⟩
    · obtain rfl := Option.some.inj hagg
      rfl
    · obtain rfl := Option.some.inj hagreement
      intro value signed hheld
      simp at hheld
    · exact (hcomputes hown.prefix).append (by simp [Action.ComputesOwn])

theorem agreed_keepsAll : ProtocolState.KeepsAll env protocol Agreed
    fun t => AgreesOwn t.trace → ComputesOwn t.trace where
  toKeeps := agreed_keeps
  init := ⟨by simp [ProtocolState.init], fun _ => ⟨by simp [ProtocolState.init, protocol, init],
    by simp [ProtocolState.init, protocol, init]⟩, fun _ => by simp [ProtocolState.init, ComputesOwn]⟩
  start fuel request data s hs := agreed_start fuel request data hs
  signature endRound message s hrec hs := by
    change (handleSignatureResponse env endRound message s).Ends _ _
    unfold handleSignatureResponse
    split
    · exact hs.computes
    · exact agreed_keeps.encryptedMulticastToProxies hrec _
        (hs.onImpl fun queryNum h => ⟨h.accepted, h.held⟩)
  aggregation message s hs := by
    unfold ProtocolState.receiveAggregation
    split_ifs
    · have hreceived : Agreed (s.act (.receiveAggregate s.getCurrentQueryNum message)) := by
        refine ⟨hs.current, fun hown => hs.ofQuery hown.prefix, fun hown => ?_⟩
        exact (hs.computes hown.prefix).append (by simp [Action.ComputesOwn])
      exact agreed_handleAggregation hreceived message
    · exact hs.frame (.bufferAggregation s message)
    · exact hs

end BftProtocolState

namespace MeterClient

/-- A client of the Byzantine-tolerant protocol adds values of the query only, as long
as Agreement lets signatures on no other values in. -/
theorem computes_own_of_agrees_own (env : ClientEnv) (fuel : ℕ) (es : List Event) :
    Throughout (step env BftProtocolState.protocol fuel)
      (fun o => Both env (fun _ s => AgreesOwn s.trace → ComputesOwn s.trace) o.state)
      (.done (init BftProtocolState.protocol)) es :=
  throughout_state (fun _ => BftProtocolState.agreed_keepsAll) fuel es

section Replay

/-- A value of query 0 with the signatures of six of its proxies. -/
def staleValue : ValueContribution :=
  .ofTuple ⟨0, [7], [1, 2, 4, 6, 8, 10, 12, 14, 16, 18, 28]⟩

def staleAgreement : AgreementValue where
  signedValue := ⟨staleValue, OrderedMap.empty.insertAll
    ([1, 2, 4, 6, 8, 10].map fun id => (id, SignatureArray.fill 0))⟩
  accepterId := 1
  accepterSignature := SignatureArray.fill 0

def replayEnv : ClientEnv := sampleEnv 28 29 (by decide) 5 11 fun _ => true

/-- Meter 28 receives it in phase 2 of the agreement of query 1. -/
def replayRun : List Event :=
  [sampleQuery 1, .signatureResponse ⟨-1, ""⟩] ++ timeouts 0 73 ++
    [.overlay ⟨gossipPredecessor 28 73 29, 73, false,
      .make 1 28 (.agreementValue staleAgreement) false⟩] ++ timeouts 74 36

theorem replayed_value_accepted :
    ¬ Both replayEnv (fun _ s => ComputesOwn s.trace)
      (run replayEnv BftProtocolState.protocol 200 replayRun).state := by
  intro h
  have hcomputed : .computeAggregate 1 [staleValue] ∈
      (run replayEnv BftProtocolState.protocol 200 replayRun).state.primary.trace := by
    decide +kernel
  have hnum := h.primary _ hcomputed staleValue (List.mem_singleton_self _)
  revert hnum
  decide

end Replay

end MeterClient
end Pddm
