import Pddm.ProtocolRules

/-!
# What handlers do to the overlay

The Aggregate phase leaves the overlay alone. Every other handler of a protocol does one
of a few things to it, which are listed here once for each protocol.
-/
namespace Pddm

def Action.isAggregation : Action → Bool
  | .startAggregate .. | .receiveAggregate .. | .addMessage .. | .computeAggregate ..
  | .sendAggregate .. => true
  | _ => false

namespace ProtocolState
variable {ι : Type}

/-- `t` comes from `s` by operations of the Aggregate phase. -/
structure SameOverlay (ph : AggregatePhase ι) (s t : ProtocolState ι) : Prop where
  overlayRound : t.overlayRound = s.overlayRound
  roundTimeoutTimer : t.roundTimeoutTimer = s.roundTimeoutTimer
  timers : ∀ e ∈ t.timers.pending, e ∈ s.timers.pending
  waitingMessages : t.waitingMessages = s.waitingMessages
  outgoingMessages : t.outgoingMessages = s.outgoingMessages
  futureOverlayMessages : t.futureOverlayMessages = s.futureOverlayMessages
  myContribution : t.myContribution = s.myContribution
  proxyValues : t.proxyValues = s.proxyValues
  impl : ∀ R : ι → Prop, (∀ i, R i → R (ph.begin i)) → (∀ i, R i → R (ph.finish i)) →
    R s.impl → R t.impl
  trace : ∃ ext, t.trace = s.trace ++ ext ∧ ∀ a ∈ ext, a.isAggregation = true

namespace SameOverlay
variable {env : ProtocolEnv} {ph : AggregatePhase ι} {s t u : ProtocolState ι}

theorem refl (s : ProtocolState ι) : SameOverlay ph s s :=
  ⟨rfl, rfl, fun _ he => he, rfl, rfl, rfl, rfl, rfl, fun _ _ _ hs => hs, [], by simp, by simp⟩

theorem trans (h : SameOverlay ph s t) (h' : SameOverlay ph t u) : SameOverlay ph s u := by
  obtain ⟨ext, htrace, hext⟩ := h.trace
  obtain ⟨ext', htrace', hext'⟩ := h'.trace
  refine ⟨h'.overlayRound.trans h.overlayRound, h'.roundTimeoutTimer.trans h.roundTimeoutTimer,
    fun e he => h.timers e (h'.timers e he), h'.waitingMessages.trans h.waitingMessages,
    h'.outgoingMessages.trans h.outgoingMessages,
    h'.futureOverlayMessages.trans h.futureOverlayMessages,
    h'.myContribution.trans h.myContribution, h'.proxyValues.trans h.proxyValues,
    fun R hbegin hfinish hs => h'.impl R hbegin hfinish (h.impl R hbegin hfinish hs),
    ext ++ ext', ?_, ?_⟩
  · rw [htrace', htrace, List.append_assoc]
  · intro a ha
    rcases List.mem_append.mp ha with ha | ha
    · exact hext a ha
    · exact hext' a ha

theorem act (s : ProtocolState ι) {a : Action} (ha : a.isAggregation = true) :
    SameOverlay ph s (s.act a) :=
  ⟨rfl, rfl, fun _ he => he, rfl, rfl, rfl, rfl, rfl, fun _ _ _ hs => hs, [a], rfl,
    by simpa using ha⟩

theorem cancelTimer (s : ProtocolState ι) : SameOverlay ph s s.cancelTimer :=
  ⟨rfl, rfl, fun _ he => (Timers.mem_cancel.mp he).1, rfl, rfl, rfl, rfl, rfl, fun _ _ _ hs => hs,
    [], by simp [ProtocolState.cancelTimer], by simp⟩

theorem onBegin (s : ProtocolState ι) : SameOverlay ph s (s.onImpl ph.begin) :=
  ⟨rfl, rfl, fun _ he => he, rfl, rfl, rfl, rfl, rfl, fun _ hbegin _ hs => hbegin _ hs, [],
    by simp [ProtocolState.onImpl], by simp⟩

theorem onFinish (s : ProtocolState ι) : SameOverlay ph s (s.onImpl ph.finish) :=
  ⟨rfl, rfl, fun _ he => he, rfl, rfl, rfl, rfl, rfl, fun _ _ hfinish hs => hfinish _ hs, [],
    by simp [ProtocolState.onImpl], by simp⟩

theorem setAggregation (s : ProtocolState ι) (aggregation : Option TreeAggregationState)
    (buffered : List AggregationMessage) (isLastRound : Bool) :
    SameOverlay ph s { s with
      aggregationPhaseState := aggregation
      futureAggregationMessages := buffered
      isLastRound := isLastRound } :=
  ⟨rfl, rfl, fun _ he => he, rfl, rfl, rfl, rfl, rfl, fun _ _ _ hs => hs, [], by simp, by simp⟩

theorem computeAndSendAggregate (values : List ValueContribution) (s : ProtocolState ι) :
    (computeAndSendAggregate env values s).Holds (SameOverlay ph s) := by
  unfold ProtocolState.computeAndSendAggregate
  split
  · exact refl s
  · next aggregation _ =>
    have hcompute : SameOverlay ph s
        (s.act (.computeAggregate aggregation.currentQuery.queryNumber values)) := act s rfl
    dsimp only
    split
    · exact hcompute.trans (setAggregation _ _ _ _)
    · next aggregation' _ =>
      have hadded : SameOverlay ph s
          { s.act (.computeAggregate aggregation.currentQuery.queryNumber values) with
            aggregationPhaseState := some aggregation' } := hcompute.trans (setAggregation _ _ _ _)
      split
      · exact hadded
      · exact hadded.trans (act _ rfl)

theorem sendAggregateIfDone (s : ProtocolState ι) :
    (sendAggregateIfDone env ph s).Holds (SameOverlay ph s) := by
  unfold ProtocolState.sendAggregateIfDone
  split
  · exact refl s
  · split_ifs
    · exact (computeAndSendAggregate _ s).andThen fun t ht => ht.trans (onFinish t)
    · exact refl s

theorem handleAggregationMessage (message : AggregationMessage) (s : ProtocolState ι) :
    (handleAggregationMessage env ph message s).Holds (SameOverlay ph s) := by
  unfold ProtocolState.handleAggregationMessage
  split
  · exact refl s
  · next aggregation _ =>
    split
    · exact refl s
    · next aggregation' _ =>
      have hadded : SameOverlay ph s ({ s with aggregationPhaseState := some aggregation' }.act
          (.addMessage aggregation.currentQuery.queryNumber message)) :=
        (setAggregation s (some aggregation') _ _).trans (act _ rfl)
      exact (sendAggregateIfDone _).mono (fun _ ht => hadded.trans ht) fun _ ht => hadded.trans ht

theorem startAggregatePhase (s : ProtocolState ι) :
    (startAggregatePhase env ph s).Holds (SameOverlay ph s) := by
  have hcancel : SameOverlay ph s s.cancelTimer := cancelTimer s
  unfold ProtocolState.startAggregatePhase
  dsimp only
  split
  · next aggregation contribution _ _ =>
    have hlogged : SameOverlay ph s (s.cancelTimer.act (.startAggregate
        aggregation.currentQuery.queryNumber s.failedMeterIds s.futureAggregationMessages)) :=
      hcancel.trans (act _ rfl)
    have hstarted : SameOverlay ph s { s.cancelTimer.act (.startAggregate
        aggregation.currentQuery.queryNumber s.failedMeterIds s.futureAggregationMessages) with
        aggregationPhaseState := some (aggregation.initializeState contribution.value.length
          s.failedMeterIds) } := hlogged.trans (setAggregation _ _ _ _)
    refine Outcome.Ends.andThen (P := SameOverlay ph s) (Outcome.Ends.andThen
      (P := SameOverlay ph s) ?_ ?_) fun t ht => ht.trans (setAggregation t _ _ _)
    · exact (sendAggregateIfDone _).mono (fun _ ht => hstarted.trans ht)
        fun _ ht => hstarted.trans ht
    · intro t ht
      split_ifs
      · refine Outcome.forEach_ends ht fun message _ u hu => ?_
        unfold replay
        refine Outcome.Ends.andThen (P := SameOverlay ph s) ?_ fun v hv =>
          hv.trans (setAggregation v _ _ _)
        exact (handleAggregationMessage message u).mono (fun _ h => hu.trans h) fun _ h => hu.trans h
      · exact ht
  · exact hcancel

theorem enterAggregatePhase (s : ProtocolState ι) :
    (enterAggregatePhase env ph s).Holds (SameOverlay ph s) :=
  (startAggregatePhase _).mono (fun _ ht => (onBegin s).trans ht) fun _ ht => (onBegin s).trans ht

theorem receiveAggregation (message : AggregationMessage) (s : ProtocolState ι) :
    (receiveAggregation env ph message s).Holds (SameOverlay ph s) := by
  have hlogged : SameOverlay ph s (s.act (.receiveAggregate s.getCurrentQueryNum message)) :=
    act s rfl
  unfold ProtocolState.receiveAggregation
  split_ifs
  · exact (handleAggregationMessage message _).mono (fun _ h => hlogged.trans h)
      fun _ h => hlogged.trans h
  · exact setAggregation s _ _ _
  · exact refl s

end SameOverlay

/-- Onions for the contribution join what is sent before the first round begins. -/
theorem encryptedMulticastToProxies_onions {env : ProtocolEnv} {I H : ProtocolState ι → Prop}
    {endRound : ProtocolState ι → Outcome Fault (ProtocolState ι)}
    {contribution : ValueContribution} {s : ProtocolState ι} (hstop : H s)
    (hstart : ∀ onions, (∀ m ∈ onions, ∃ path, buildEncryptedOnion env.crypto path
        (.valueContribution contribution) contribution.value.queryNum = .ok m) →
      (endRound ({ s with outgoingMessages := s.outgoingMessages ++ onions }.leaving .start)).Ends
        I H) :
    (encryptedMulticastToProxies env endRound contribution s).Ends I H := by
  unfold encryptedMulticastToProxies
  cases hpaths : findPaths env.π env.meterId contribution.value.proxies env.numMeters 0 with
  | error e => exact hstop
  | ok paths =>
    simp only [ok_bind]
    split
    · exact hstop
    · next onions honions =>
      refine hstart onions fun m hm => ?_
      obtain ⟨path, -, hpath⟩ := exists_of_mem_mapM honions hm
      exact ⟨path, hpath⟩

theorem encryptedMulticastToProxies_ends {env : ProtocolEnv} {I H : ProtocolState ι → Prop}
    {endRound : ProtocolState ι → Outcome Fault (ProtocolState ι)}
    {contribution : ValueContribution} {s : ProtocolState ι} (hstop : H s)
    (hstart : ∀ onions, (∀ m ∈ onions, IsOnion env.crypto contribution.value.queryNum m) →
      (endRound ({ s with outgoingMessages := s.outgoingMessages ++ onions }.leaving .start)).Ends
        I H) :
    (encryptedMulticastToProxies env endRound contribution s).Ends I H := by
  refine encryptedMulticastToProxies_onions hstop fun onions honions => hstart onions fun m hm => ?_
  obtain ⟨path, hpath⟩ := honions m hm
  exact ⟨path, _, hpath⟩

def Multicasts (env : ProtocolEnv) (queryNum : ℤ) (s t : ProtocolState ι) : Prop :=
  ∃ messages, (∀ m ∈ messages, IsPathMessage env.crypto queryNum m) ∧
    t = { s with outgoingMessages := s.outgoingMessages ++ messages }

theorem Multicasts.refl {env : ProtocolEnv} {queryNum : ℤ} (s : ProtocolState ι) :
    Multicasts env queryNum s s := ⟨[], by simp, by simp⟩

theorem Multicasts.append {env : ProtocolEnv} {queryNum : ℤ} {s t : ProtocolState ι}
    (h : Multicasts env queryNum s t) {messages : List OverlayMessage}
    (hmessages : ∀ m ∈ messages, IsPathMessage env.crypto queryNum m) :
    Multicasts env queryNum s { t with outgoingMessages := t.outgoingMessages ++ messages } := by
  obtain ⟨others, hothers, rfl⟩ := h
  refine ⟨others ++ messages, fun m hm => ?_, by simp⟩
  rcases List.mem_append.mp hm with hm | hm
  · exact hothers m hm
  · exact hmessages m hm

end ProtocolState

namespace CtProtocolState
open ProtocolState (SameOverlay Multicasts)
variable {env : ProtocolEnv}

inductive BodyEffect (env : ProtocolEnv) (message : OverlayMessage) (s : State) : State → Prop
  | ignored : BodyEffect env message s s
  | forwarded (enclosed : OverlayMessage) (hbody : message.body.asOverlayMessage = some enclosed) :
      BodyEffect env message s (s.wait enclosed)
  | accepted (contribution : ValueContribution)
      (hbody : message.body.asValueContribution = some contribution)
      (hdestination : message.destination = env.meterId) :
      BodyEffect env message s (s.emplaceProxyValue contribution)

theorem handleBody_effect (message : OverlayMessage) (s : State) :
    (handleBody env message s).Holds (BodyEffect env message s) := by
  have haccept (hdestination : message.destination = env.meterId) :
      (acceptContribution message s).Holds (BodyEffect env message s) := by
    unfold acceptContribution
    split
    · exact .ignored
    · next contribution hbody =>
      split
      · exact .ignored
      · split_ifs
        · exact .accepted contribution hbody hdestination
        · exact .ignored
  unfold handleBody
  split
  · exact .ignored
  · split
    · next enclosed hbody => exact .forwarded enclosed hbody
    · split_ifs with hdestination
      · split
        · exact haccept hdestination
        · exact haccept hdestination
        · exact .ignored
      · exact .ignored

inductive EndEffect (env : ProtocolEnv) (s : State) : State → Prop
  | kept (t : State) (h : Multicasts env s.getCurrentQueryNum s t) : EndEffect env s t
  | echoed (t : State) (h : Multicasts env s.getCurrentQueryNum s t) :
      EndEffect env s { t with impl := ⟨t.overlayRound, .echo⟩ }
  | entered (t : State) (h : SameOverlay aggregatePhase s t) : EndEffect env s t

theorem endOverlayRoundImpl_effect (s : State) :
    (endOverlayRoundImpl env s).Holds (EndEffect env s) := by
  unfold endOverlayRoundImpl
  split_ifs
  · have hechoes : (Outcome.forEach (env.π.order s.proxyValues) (echoValue env) s).Holds
        (Multicasts env s.getCurrentQueryNum s) := by
      refine Outcome.forEach_ends (.refl s) fun value _ t ht => ?_
      have hcurrent : t.getCurrentQueryNum = s.getCurrentQueryNum := by
        obtain ⟨_, _, rfl⟩ := ht
        rfl
      unfold echoValue
      split
      · exact ht
      · next messages hmessages =>
        exact ht.append fun m hm => hcurrent ▸ isPathMessage_of_multicast hmessages hm
    refine Outcome.Ends.andThen (P := Multicasts env s.getCurrentQueryNum s)
      (hechoes.mono (fun _ ht => ht) fun t ht => .kept t ht) fun t ht => .echoed t ht
  · exact (SameOverlay.enterAggregatePhase s).mono (fun t ht => .entered t ht)
      fun t ht => .entered t ht
  · exact .kept s (.refl s)

end CtProtocolState

namespace HftProtocolState
open ProtocolState (SameOverlay)
variable {env : ProtocolEnv}

inductive BodyEffect (env : ProtocolEnv) (message : OverlayMessage) (s : State) : State → Prop
  | ignored : BodyEffect env message s s
  | relayed (wrapped : OverlayMessage) (hbody : message.body.asOverlayMessage = some wrapped)
      (hdestination : message.destination = env.meterId) :
      BodyEffect env message s (s.onImpl fun i =>
        { i with relayMessages := emplaceMessage i.relayMessages wrapped })
  | accepted (contribution : ValueContribution)
      (hbody : message.body.asValueContribution = some contribution)
      (hdestination : message.destination = env.meterId) :
      BodyEffect env message s (s.emplaceProxyValue contribution)
  | flooded (hdestination : message.destination ≠ env.meterId) :
      BodyEffect env message s (s.onImpl fun i =>
        { i with currentFloodMessages := emplaceMessage i.currentFloodMessages message })

theorem handleBody_effect (message : OverlayMessage) (s : State) :
    (handleBody env message s).Holds (BodyEffect env message s) := by
  unfold handleBody
  split_ifs with hnull hdestination
  · exact .ignored
  · split
    · unfold handleScatterPhaseMessage
      split
      · next wrapped hbody => exact .relayed wrapped hbody hdestination
      · exact .ignored
    · unfold handleGatherPhaseMessage
      split
      · exact .ignored
      · next contribution hbody =>
        split
        · exact .ignored
        · split_ifs
          · exact .accepted contribution hbody hdestination
          · exact .ignored
    · exact .ignored
  · exact .flooded hdestination

inductive PhaseEffect (s : State) : State → Prop
  | kept : PhaseEffect s s
  | gathered : PhaseEffect s
      { s with impl := ⟨.gather, s.overlayRound, s.impl.relayMessages, []⟩ }
  | entered (t : State) (h : SameOverlay aggregatePhase
      (s.onImpl fun i => { i with currentFloodMessages := [] }) t) : PhaseEffect s t

theorem endPhase_effect (s : State) : (endPhase env s).Holds (PhaseEffect s) := by
  unfold endPhase
  split_ifs
  · exact .gathered
  · exact (SameOverlay.enterAggregatePhase _).mono (fun t ht => .entered t ht)
      fun t ht => .entered t ht
  · exact .kept

end HftProtocolState

namespace BftProtocolState
open ProtocolState (SameOverlay Multicasts)
variable {env : ProtocolEnv}

inductive BodyEffect (env : ProtocolEnv) (message : OverlayMessage) (s : State) : State → Prop
  | ignored : BodyEffect env message s s
  | forwarded (enclosed : OverlayMessage) (hbody : message.body.asOverlayMessage = some enclosed) :
      BodyEffect env message s (s.wait enclosed)
  | accepted (contribution : ValueContribution)
      (hbody : message.body.asValueContribution = some contribution)
      (hdestination : message.destination = env.meterId) :
      BodyEffect env message s (s.emplaceProxyValue contribution)
  | agreed (agreement : CrusaderAgreementState) (t : State)
      (hagreement : s.impl.agreementPhaseState = some agreement)
      (hlogged : t = s ∨ ∃ queryNum value, t = s.act (.agreeOn queryNum value)) :
      BodyEffect env message s (t.onImpl fun i =>
        { i with agreementPhaseState := some (agreement.handleMessage env.crypto message) })

theorem handleBody_effect (message : OverlayMessage) (s : State) :
    (handleBody env message s).Holds (BodyEffect env message s) := by
  unfold handleBody
  split
  · exact .ignored
  · split
    · next enclosed hbody => exact .forwarded enclosed hbody
    · split_ifs with hdestination
      · split
        · unfold handleShufflePhaseMessage
          split
          · exact .ignored
          · next contribution hbody =>
            split
            · exact .ignored
            · split_ifs
              · exact .accepted contribution hbody hdestination
              · exact .ignored
        · unfold handleAgreementPhaseMessage
          split
          · exact .ignored
          · next agreement hagreement =>
            dsimp only
            split
            · exact .agreed agreement _ hagreement (.inr ⟨_, _, rfl⟩)
            · exact .agreed agreement s hagreement (.inl rfl)
        · exact .ignored
      · exact .ignored

inductive EndEffect (env : ProtocolEnv) (s : State) : State → Prop
  | kept (t : State) (h : Multicasts env s.getCurrentQueryNum s t) : EndEffect env s t
  | agreeing (t : State) (h : Multicasts env s.getCurrentQueryNum s t) :
      EndEffect env s (t.onImpl fun i =>
        { i with agreementStartRound := t.overlayRound, protocolPhase := .agreement })
  | accepting (agreement : CrusaderAgreementState) (t : State)
      (hagreement : s.impl.agreementPhaseState = some agreement)
      (h : Multicasts env agreement.queryNum s t) :
      EndEffect env s { t with impl := { s.impl with
        agreementPhaseState := some { agreement with phase1Finished := true } } }
  | entered (values : List ValueContribution) (t : State) (h : SameOverlay aggregatePhase
      (s.onImpl fun i => { i with acceptedProxyValues := values }) t) : EndEffect env s t

theorem finishPhase1_multicasts {agreement agreement' : CrusaderAgreementState} {round : ℤ}
    {messages : List OverlayMessage} (s : State)
    (h : agreement.finishPhase1 env.π env.crypto round = .ok (messages, agreement')) :
    Multicasts env agreement.queryNum s
      { s with outgoingMessages := s.outgoingMessages ++ messages } := by
  refine (Multicasts.refl s).append fun m hm => ?_
  obtain ⟨batches, hbatches, rfl, -⟩ := CrusaderAgreementState.finishPhase1_eq_ok h
  obtain ⟨batch, hbatch, hm⟩ := List.mem_flatten.mp hm
  obtain ⟨accepted, -, haccepted⟩ := exists_of_mem_mapM hbatches hbatch
  exact isPathMessage_of_multicast haccepted hm

theorem signValues_multicasts (values : List ValueContribution) (s : State) :
    (Outcome.forEach values (signValue env) s).Holds (Multicasts env s.getCurrentQueryNum s) := by
  refine Outcome.forEach_ends (.refl s) fun value _ t ht => ?_
  have hcurrent : t.getCurrentQueryNum = s.getCurrentQueryNum := by
    obtain ⟨_, _, rfl⟩ := ht
    rfl
  unfold signValue
  dsimp only
  split
  · exact ht
  · next messages hmessages =>
    exact ht.append fun m hm => hcurrent ▸ isPathMessage_of_multicast hmessages hm

theorem endOverlayRoundImpl_effect (s : State) :
    (endOverlayRoundImpl env s).Holds (EndEffect env s) := by
  have hkept : EndEffect env s s := .kept s (.refl s)
  unfold endOverlayRoundImpl
  dsimp only
  split
  · refine Outcome.Ends.andThen (P := Multicasts env s.getCurrentQueryNum s)
      ((signValues_multicasts _ s).mono (fun _ ht => ht) fun t ht => .kept t ht)
      fun t ht => .agreeing t ht
  · split
    · split
      · split
        · exact hkept
        · exact hkept
      · next agreement hagreement =>
        split
        · exact (SameOverlay.enterAggregatePhase _).mono (fun t ht => .entered _ t ht)
            fun t ht => .entered _ t ht
        · split
          · split
            · exact hkept
            · next accepts agreement' haccepts =>
              obtain rfl := CrusaderAgreementState.finishPhase1_state haccepts
              exact .accepting agreement _ hagreement (finishPhase1_multicasts s haccepts)
          · exact hkept
    · exact hkept

end BftProtocolState
end Pddm
