import Pddm.MeterClient

/-!
# Invariants of protocol runs

Rounds end inside the handling of messages and messages are handled at the end of
rounds. An invariant that survives a few primitive operations survives all of that,
and every run of a client.
-/
namespace Pddm

/-- What happens in the overlay, which no invariant of the Aggregate phase looks at. -/
def Action.isQuiet : Action → Bool
  | .handleOverlay .. | .replayOverlay .. | .leaveRound .. | .sendOverlay .. | .sendPing ..
  | .sendSignatureRequest .. => true
  | _ => false

namespace ProtocolState
variable {ι : Type}

/-- `t` differs from `s` in timers, stored messages and values, and quiet actions only. -/
structure SameCore (s t : ProtocolState ι) : Prop where
  overlayRound : t.overlayRound = s.overlayRound
  isLastRound : t.isLastRound = s.isLastRound
  myContribution : t.myContribution = s.myContribution
  aggregationPhaseState : t.aggregationPhaseState = s.aggregationPhaseState
  impl : t.impl = s.impl
  trace : ∃ ext, t.trace = s.trace ++ ext ∧ ∀ a ∈ ext, a.isQuiet = true

namespace SameCore
variable {s t u : ProtocolState ι}

theorem of_fields (overlayRound : t.overlayRound = s.overlayRound)
    (isLastRound : t.isLastRound = s.isLastRound)
    (myContribution : t.myContribution = s.myContribution)
    (aggregationPhaseState : t.aggregationPhaseState = s.aggregationPhaseState)
    (impl : t.impl = s.impl) (trace : t.trace = s.trace) : SameCore s t :=
  ⟨overlayRound, isLastRound, myContribution, aggregationPhaseState, impl, [], by simp [trace],
    by simp⟩

theorem trans (h : SameCore s t) (h' : SameCore t u) : SameCore s u := by
  obtain ⟨ext, htrace, hext⟩ := h.trace
  obtain ⟨ext', htrace', hext'⟩ := h'.trace
  refine ⟨h'.overlayRound.trans h.overlayRound, h'.isLastRound.trans h.isLastRound,
    h'.myContribution.trans h.myContribution, h'.aggregationPhaseState.trans h.aggregationPhaseState, h'.impl.trans h.impl,
    ext ++ ext', ?_, ?_⟩
  · rw [htrace', htrace, List.append_assoc]
  · intro a ha
    rcases List.mem_append.mp ha with ha | ha
    · exact hext a ha
    · exact hext' a ha

theorem refl (s : ProtocolState ι) : SameCore s s :=
  of_fields rfl rfl rfl rfl rfl rfl

theorem cancelTimer (s : ProtocolState ι) : SameCore s s.cancelTimer :=
  of_fields rfl rfl rfl rfl rfl rfl

theorem setRoundTimeout (s : ProtocolState ι) : SameCore s s.setRoundTimeout :=
  of_fields rfl rfl rfl rfl rfl rfl

theorem wait (s : ProtocolState ι) (message : OverlayMessage) : SameCore s (s.wait message) :=
  of_fields rfl rfl rfl rfl rfl rfl

theorem bufferOverlay (s : ProtocolState ι) (message : OverlayTransportMessage) :
    SameCore s (s.bufferOverlay message) :=
  of_fields rfl rfl rfl rfl rfl rfl

theorem bufferAggregation (s : ProtocolState ι) (message : AggregationMessage) :
    SameCore s (s.bufferAggregation message) :=
  of_fields rfl rfl rfl rfl rfl rfl

theorem emplaceProxyValue (s : ProtocolState ι) (contribution : ValueContribution) :
    SameCore s (s.emplaceProxyValue contribution) := by
  unfold ProtocolState.emplaceProxyValue
  split_ifs
  · exact refl s
  · exact of_fields rfl rfl rfl rfl rfl rfl

theorem fail (s : ProtocolState ι) (id : ℤ) : SameCore s (s.fail id) :=
  of_fields rfl rfl rfl rfl rfl rfl

theorem act (s : ProtocolState ι) {a : Action} (ha : a.isQuiet = true) : SameCore s (s.act a) :=
  ⟨rfl, rfl, rfl, rfl, rfl, [a], rfl, by simpa using ha⟩

theorem leaving (s : ProtocolState ι) (cause : RoundEnd) : SameCore s (s.leaving cause) :=
  act s rfl

theorem sendTo (s : ProtocolState ι) (env : ProtocolEnv) {a : Action} (ha : a.isQuiet = true)
    (recipientId : ℤ) : SameCore s (s.sendTo env a recipientId) := by
  unfold ProtocolState.sendTo
  split_ifs
  · exact act s ha
  · exact (act s ha).trans (fail _ recipientId)

theorem sendOverlayMessageBatch (s : ProtocolState ι) (env : ProtocolEnv) :
    SameCore s (sendOverlayMessageBatch env s) := by
  unfold ProtocolState.sendOverlayMessageBatch
  refine SameCore.trans ?_ (sendTo _ env rfl _)
  exact of_fields rfl rfl rfl rfl rfl rfl

theorem beginRound (s : ProtocolState ι) (env : ProtocolEnv) :
    SameCore { s with overlayRound := s.overlayRound + 1 } (beginRound env s) := by
  have hping : SameCore { s with overlayRound := s.overlayRound + 1 }
      { s with overlayRound := s.overlayRound + 1, pingResponseFromPredecessor := false } :=
    of_fields rfl rfl rfl rfl rfl rfl
  have htimeout := (hping.trans (sendOverlayMessageBatch _ env)).trans (setRoundTimeout _)
  unfold ProtocolState.beginRound
  dsimp only
  split_ifs
  · exact htimeout
  · exact htimeout.trans (sendTo _ env rfl _)

end SameCore

/-- What makes `I` an invariant of the rounds of a protocol, and `H` hold where a
handler stops part-way. -/
structure Keeps (env : ProtocolEnv) (P : Protocol ι) (I H : ProtocolState ι → Prop) : Prop where
  weaken : ∀ s, I s → H s
  frame : ∀ s t, I s → SameCore s t → I t
  nextRound : ∀ s, I s → s.isLastRound = false → I { s with overlayRound := s.overlayRound + 1 }
  ends : ∀ s, I s → (P.endOverlayRoundImpl env s).Ends I H
  handles : ∀ endRound message s, (∀ t, I t → (endRound t).Ends I H) → I s →
    (P.handleOverlayMessageImpl env endRound message s).Ends I H

namespace Keeps
variable {env : ProtocolEnv} {P : Protocol ι} {I H : ProtocolState ι → Prop}
  {endRound : ProtocolState ι → Outcome Fault (ProtocolState ι)}

theorem handleOverlayMessage (h : Keeps env P I H) (hrec : ∀ t, I t → (endRound t).Ends I H)
    (message : OverlayTransportMessage) {s : ProtocolState ι} (hs : I s) :
    (handleOverlayMessage env P endRound message s).Ends I H := by
  have hlog : I (s.act (.handleOverlay s.overlayRound message)) :=
    h.frame _ _ hs (SameCore.act s rfl)
  have htimer : I (if P.isInOverlayPhase s.impl then
      (s.act (.handleOverlay s.overlayRound message)).cancelTimer.setRoundTimeout
        else s.act (.handleOverlay s.overlayRound message)) := by
    split_ifs
    · exact h.frame _ _ hlog ((SameCore.cancelTimer _).trans (SameCore.setRoundTimeout _))
    · exact hlog
  unfold ProtocolState.handleOverlayMessage
  dsimp only
  split
  · exact h.handles _ _ _ hrec (h.frame _ _ htimer (SameCore.wait _ _))
  · exact h.handles _ _ _ hrec htimer

theorem superEndOverlayRound (h : Keeps env P I H) (hrec : ∀ t, I t → (endRound t).Ends I H)
    {s : ProtocolState ι} (hs : I s) : (superEndOverlayRound env P endRound s).Ends I H := by
  have hcancel : I s.cancelTimer := h.frame _ _ hs (SameCore.cancelTimer s)
  unfold ProtocolState.superEndOverlayRound
  dsimp only
  split_ifs with hlast
  · exact hcancel
  · have hround : I (ProtocolState.beginRound env s.cancelTimer) :=
      h.frame _ _ (h.nextRound _ hcancel (by simpa using hlast)) (SameCore.beginRound _ env)
    refine Outcome.Ends.andThen (P := I) (Outcome.forEach_ends ?_ ?_) fun t ht => ?_
    · have hlog := h.frame _ _ hround (SameCore.act _ (a := .replayOverlay
        (ProtocolState.beginRound env s.cancelTimer).overlayRound
        ((ProtocolState.beginRound env s.cancelTimer).futureOverlayMessages.filter
          (ProtocolState.beginRound env s.cancelTimer).isForRound)) rfl)
      exact h.frame _ _ hlog (SameCore.of_fields rfl rfl rfl rfl rfl rfl)
    · exact fun message _ t ht => h.handleOverlayMessage hrec message ht
    · split_ifs
      · exact hrec _ (h.frame _ _ ht (SameCore.leaving t _))
      · exact ht

theorem endOverlayRound (h : Keeps env P I H) (fuel : ℕ) {s : ProtocolState ι} (hs : I s) :
    (endOverlayRound env P fuel s).Ends I H := by
  induction fuel generalizing s with
  | zero => exact h.weaken s hs
  | succ fuel ih => exact (h.ends s hs).andThen fun t ht => h.superEndOverlayRound (fun _ => ih) ht

theorem handleRoundTimeout (h : Keeps env P I H) (fuel : ℕ) (registeredIn : ℤ)
    {s : ProtocolState ι} (hs : I s) : (handleRoundTimeout env P fuel registeredIn s).Ends I H := by
  unfold ProtocolState.handleRoundTimeout
  split_ifs
  · refine h.frame _ _ hs (SameCore.trans ?_ (SameCore.sendTo _ env rfl _))
    exact SameCore.of_fields rfl rfl rfl rfl rfl rfl
  · exact h.endOverlayRound fuel (h.frame _ _ hs (SameCore.leaving s _))

theorem timerExpires (h : Keeps env P I H) (fuel : ℕ) (id : ℤ) {s : ProtocolState ι} (hs : I s) :
    (timerExpires env P fuel id s).Ends I H := by
  unfold ProtocolState.timerExpires
  split
  · refine h.handleRoundTimeout fuel _ (h.frame _ _ hs ?_)
    exact SameCore.of_fields rfl rfl rfl rfl rfl rfl
  · exact hs

theorem handlePingMessage (h : Keeps env P I H) (message : PingMessage) {s : ProtocolState ι}
    (hs : I s) : I (s.handlePingMessage env message) := by
  unfold ProtocolState.handlePingMessage
  split_ifs
  · exact h.frame _ _ hs (SameCore.act s rfl)
  · exact h.frame _ _ hs (SameCore.of_fields rfl rfl rfl rfl rfl rfl)
  · exact hs

theorem receiveOverlay (h : Keeps env P I H) (fuel : ℕ) (message : OverlayTransportMessage)
    {s : ProtocolState ι} (hs : I s) : (receiveOverlay env P fuel message s).Ends I H := by
  have hbuffer : I (s.bufferOverlay message) := h.frame _ _ hs (SameCore.bufferOverlay s message)
  unfold ProtocolState.receiveOverlay
  split_ifs
  · exact hbuffer
  · exact hs
  · exact h.handleOverlayMessage (fun _ => h.endOverlayRound fuel) message hs
  · exact hbuffer
  · exact hs

theorem encryptedMulticastToProxies (h : Keeps env P I H)
    (hrec : ∀ t, I t → (endRound t).Ends I H) (contribution : ValueContribution)
    {s : ProtocolState ι} (hs : I s) :
    (encryptedMulticastToProxies env endRound contribution s).Ends I H := by
  unfold ProtocolState.encryptedMulticastToProxies
  dsimp only
  split
  · exact h.weaken s hs
  · refine hrec _ (h.frame _ _ hs (SameCore.trans ?_ (SameCore.leaving _ _)))
    exact SameCore.of_fields rfl rfl rfl rfl rfl rfl

end Keeps

/-- What makes `I` an invariant of everything that can happen to a state. -/
structure KeepsAll (env : ProtocolEnv) (P : Protocol ι) (I H : ProtocolState ι → Prop) : Prop
    extends Keeps env P I H where
  init : I (.init P.init)
  start : ∀ fuel request data s, I s → (startQuery env P fuel request data s).Ends I H
  signature : ∀ endRound message s, (∀ t, I t → (endRound t).Ends I H) → I s →
    (P.handleSignatureResponse env endRound message s).Ends I H
  aggregation : ∀ message s, I s →
    (receiveAggregation env P.toAggregatePhase message s).Ends I H

/-- The same, one event at a time. A query may be started where `A` allows it, and an
overlay message received if `M` does. -/
structure Survives (env : ProtocolEnv) (P : Protocol ι) (fuel : ℕ)
    (A : ProtocolState ι → QueryRequest → Prop) (M : OverlayTransportMessage → Prop)
    (I H : ProtocolState ι → Prop) : Prop where
  weaken : ∀ s, I s → H s
  init : I (.init P.init)
  start : ∀ request data s, I s → A s request → (startQuery env P fuel request data s).Ends I H
  overlay : ∀ message s, I s → M message → (receiveOverlay env P fuel message s).Ends I H
  aggregation : ∀ message s, I s → (receiveAggregation env P.toAggregatePhase message s).Ends I H
  ping : ∀ message s, I s → I (s.handlePingMessage env message)
  signature : ∀ message s, I s →
    (P.handleSignatureResponse env (endOverlayRound env P fuel) message s).Ends I H
  timer : ∀ id s, I s → (timerExpires env P fuel id s).Ends I H

/-- What need only hold under an assumption about the meter. -/
theorem Survives.assuming {env : ProtocolEnv} {P : Protocol ι} {fuel : ℕ}
    {A : ProtocolState ι → QueryRequest → Prop} {M : OverlayTransportMessage → Prop}
    {I H : ProtocolState ι → Prop} {p : Prop} (h : p → Survives env P fuel A M I H) :
    Survives env P fuel A M (fun s => p → I s) fun s => p → H s := by
  by_cases hp : p
  · simpa [hp] using h hp
  · have hany (o : Outcome Fault (ProtocolState ι)) :
        o.Ends (fun s => p → I s) fun s => p → H s := by
      cases o <;> exact fun hp' => absurd hp' hp
    exact ⟨fun _ _ hp' => absurd hp' hp, fun hp' => absurd hp' hp, fun _ _ _ _ _ => hany _,
      fun _ _ _ _ => hany _, fun _ _ _ => hany _, fun _ _ _ hp' => absurd hp' hp,
      fun _ _ _ => hany _, fun _ _ _ => hany _⟩

theorem KeepsAll.survives {env : ProtocolEnv} {P : Protocol ι} {I H : ProtocolState ι → Prop}
    (h : KeepsAll env P I H) (fuel : ℕ) : Survives env P fuel (fun _ _ => True) (fun _ => True) I H where
  weaken := h.weaken
  init := h.init
  start request data s hs _ := h.start fuel request data s hs
  overlay message _ hs _ := h.receiveOverlay fuel message hs
  aggregation := h.aggregation
  ping message _ hs := h.handlePingMessage message hs
  signature message s hs := h.signature _ message s (fun _ => h.endOverlayRound fuel) hs
  timer id _ hs := h.timerExpires fuel id hs

end ProtocolState

/-! Most handlers of a protocol only store what they receive. -/

namespace CtProtocolState
variable {env : ProtocolEnv}

theorem acceptContribution_ends (message : OverlayMessage) (s : State) :
    (acceptContribution message s).Ends (ProtocolState.SameCore s) (ProtocolState.SameCore s) := by
  unfold acceptContribution
  split
  · exact .refl s
  · split
    · exact .refl s
    · split_ifs
      · exact .emplaceProxyValue s _
      · exact .refl s

theorem handleBody_ends (message : OverlayMessage) (s : State) :
    (handleBody env message s).Ends (ProtocolState.SameCore s) (ProtocolState.SameCore s) := by
  unfold handleBody
  split
  · exact .refl s
  · split
    · exact .wait s _
    · split_ifs
      · split
        · exact acceptContribution_ends message s
        · exact acceptContribution_ends message s
        · exact .refl s
      · exact .refl s

theorem echoValue_ends (proxyValue : ValueContribution) (s : State) :
    (echoValue env proxyValue s).Ends (ProtocolState.SameCore s) (ProtocolState.SameCore s) := by
  unfold echoValue
  split
  · exact .refl s
  · exact .of_fields rfl rfl rfl rfl rfl rfl

end CtProtocolState

namespace HftProtocolState
variable {env : ProtocolEnv}

/-- Beyond bookkeeping, only the stored messages may change. -/
abbrev SameButMessages (s t : State) : Prop :=
  ∃ relay flood, ProtocolState.SameCore (s.onImpl fun i =>
    { i with relayMessages := relay, currentFloodMessages := flood }) t

theorem SameButMessages.of_sameCore {s t : State} (h : ProtocolState.SameCore s t) :
    SameButMessages s t := ⟨s.impl.relayMessages, s.impl.currentFloodMessages, h⟩

theorem handleGatherPhaseMessage_ends (message : OverlayMessage) (s : State) :
    (handleGatherPhaseMessage message s).Ends (SameButMessages s) (SameButMessages s) := by
  unfold handleGatherPhaseMessage
  split
  · exact .of_sameCore (.refl s)
  · split
    · exact .of_sameCore (.refl s)
    · split_ifs
      · exact .of_sameCore (.emplaceProxyValue s _)
      · exact .of_sameCore (.refl s)

theorem handleBody_ends (message : OverlayMessage) (s : State) :
    (handleBody env message s).Ends (SameButMessages s) (SameButMessages s) := by
  unfold handleBody
  split_ifs
  · exact .of_sameCore (.refl s)
  · split
    · unfold handleScatterPhaseMessage
      split
      · exact ⟨_, s.impl.currentFloodMessages, .refl _⟩
      · exact .of_sameCore (.refl s)
    · exact handleGatherPhaseMessage_ends message s
    · exact .of_sameCore (.refl s)
  · exact ⟨s.impl.relayMessages, _, .refl _⟩

end HftProtocolState

namespace BftProtocolState
variable {env : ProtocolEnv}

theorem handleShufflePhaseMessage_ends (message : OverlayMessage) (s : State) :
    (handleShufflePhaseMessage env message s).Ends (ProtocolState.SameCore s)
      (ProtocolState.SameCore s) := by
  unfold handleShufflePhaseMessage
  split
  · exact .refl s
  · split
    · exact .refl s
    · split_ifs
      · exact .emplaceProxyValue s _
      · exact .refl s

theorem signValue_ends (proxyValue : ValueContribution) (s : State) :
    (signValue env proxyValue s).Ends (ProtocolState.SameCore s) (ProtocolState.SameCore s) := by
  unfold signValue
  dsimp only
  split
  · exact .refl s
  · exact .of_fields rfl rfl rfl rfl rfl rfl

end BftProtocolState

namespace MeterClient
variable {ι : Type} {env : ClientEnv} {P : Protocol ι} {fuel : ℕ}
  {I H : ProtocolEnv → ProtocolState ι → Prop}

structure Both (env : ClientEnv) (I : ProtocolEnv → ProtocolState ι → Prop) (c : MeterClient ι) :
    Prop where
  primary : I env.toProtocolEnv c.primary
  secondary : ∀ id s, c.secondary = some (id, s) → I (env.second id) s

theorem Both.mono {J : ProtocolEnv → ProtocolState ι → Prop} {c : MeterClient ι}
    (h : Both env I c) (hIJ : ∀ env s, I env s → J env s) : Both env J c :=
  ⟨hIJ _ _ h.primary, fun id s hs => hIJ _ _ (h.secondary id s hs)⟩

theorem Both.onPrimary (hIH : ∀ env s, I env s → H env s) {c : MeterClient ι} (hc : Both env I c)
    {f : ProtocolState ι → Outcome Fault (ProtocolState ι)}
    (hf : (f c.primary).Ends (I env.toProtocolEnv) (H env.toProtocolEnv)) :
    (c.onPrimary f).Ends (Both env I) (Both env H) :=
  hf.map (fun _ hs => ⟨hs, hc.secondary⟩) fun _ hs => ⟨hs, (hc.mono hIH).secondary⟩

theorem Both.onSecondary (hIH : ∀ env s, I env s → H env s) {c : MeterClient ι} (hc : Both env I c)
    {f : ProtocolEnv → ProtocolState ι → Outcome Fault (ProtocolState ι)}
    (hf : ∀ id s, c.secondary = some (id, s) → I (env.second id) s →
      (f (env.second id) s).Ends (I (env.second id)) (H (env.second id))) :
    (c.onSecondary env f).Ends (Both env I) (Both env H) := by
  unfold MeterClient.onSecondary
  cases hsec : c.secondary with
  | none => exact hc
  | some second =>
    obtain ⟨id, s⟩ := second
    refine (hf id s hsec (hc.secondary id s hsec)).map ?_ ?_
    · intro t ht
      refine ⟨hc.primary, fun id' t' heq => ?_⟩
      obtain ⟨rfl, rfl⟩ := Prod.mk.inj (Option.some.inj heq)
      exact ht
    · intro t ht
      refine ⟨hIH _ _ hc.primary, fun id' t' heq => ?_⟩
      obtain ⟨rfl, rfl⟩ := Prod.mk.inj (Option.some.inj heq)
      exact ht

/-- Where a query arrives, it may be started, and an overlay message may be received. -/
def Allowed (env : ClientEnv) (A : ProtocolState ι → QueryRequest → Prop)
    (M : OverlayTransportMessage → Prop) (o : Outcome Fault (MeterClient ι)) : Event → Prop
  | .queryRequest _ request => Both env (fun _ s => A s request) o.state
  | .overlay message => M message
  | _ => True

variable {A : ProtocolState ι → QueryRequest → Prop} {M : OverlayTransportMessage → Prop}

theorem handle_ends (h : ∀ env, ProtocolState.Survives env P fuel A M (I env) (H env))
    {c : MeterClient ι} (hc : Both env I c) (e : Event) (he : Allowed env A M (.done c) e) :
    (c.handle env P fuel e).Ends (Both env I) (Both env H) := by
  have hIH : ∀ env s, I env s → H env s := fun env => (h env).weaken
  cases e with
  | setSecondId id =>
    refine ⟨hc.primary, fun id' s heq => ?_⟩
    obtain ⟨rfl, rfl⟩ := Prod.mk.inj (Option.some.inj heq)
    exact (h _).init
  | queryRequest meter request =>
    have hprimary : (c.onPrimary (ProtocolState.startQuery env.toProtocolEnv P fuel request
        (meter.contributedData request))).Ends
        (fun d => Both env I d ∧ d.secondary = c.secondary) (Both env H) :=
      ((h _).start request _ _ hc.primary he.primary).map
        (fun _ hs => ⟨⟨hs, hc.secondary⟩, rfl⟩) fun _ hs => ⟨hs, (hc.mono hIH).secondary⟩
    refine hprimary.andThen fun d ⟨hd, hsecond⟩ => ?_
    exact hd.onSecondary hIH fun id s hs ht =>
      (h _).start request [] s ht (he.secondary id s (hsecond ▸ hs))
  | overlay message =>
    simp only [handle, handleOverlay]
    split_ifs
    · exact hc.onPrimary hIH ((h _).overlay message _ hc.primary he)
    · cases c.secondary with
      | none => exact hc
      | some second =>
        dsimp only
        split_ifs
        · exact hc.onSecondary hIH fun _ s _ hs => (h _).overlay message s hs he
        · exact hc
  | aggregation message =>
    simp only [handle, handleAggregation]
    split_ifs
    · exact hc.mono hIH
    · exact hc.onPrimary hIH ((h _).aggregation message _ hc.primary)
    · cases c.secondary with
      | none => exact hc
      | some second =>
        dsimp only
        split_ifs
        · exact hc.onSecondary hIH fun _ s _ hs => (h _).aggregation message s hs
        · exact hc
  | ping message =>
    have hprimary : (c.onPrimary fun s =>
        .done (s.handlePingMessage env.toProtocolEnv message)).Ends (Both env I) (Both env H) :=
      hc.onPrimary hIH ((h _).ping message _ hc.primary)
    change (handlePing env message c).Ends _ _
    refine hprimary.andThen fun d hd => hd.onSecondary hIH fun _ s _ hs => ?_
    exact (h _).ping message s hs
  | signatureResponse message => exact hc.onPrimary hIH ((h _).signature message _ hc.primary)
  | timerExpires id => exact hc.onPrimary hIH ((h _).timer id _ hc.primary)
  | secondTimerExpires id =>
    change (c.onSecondary env fun env => ProtocolState.timerExpires env P fuel id).Ends _ _
    exact hc.onSecondary hIH fun _ s _ hs => (h _).timer id s hs

theorem throughout_survives (h : ∀ env, ProtocolState.Survives env P fuel A M (I env) (H env))
    {es : List Event} (hes : Along (step env P fuel) (Allowed env A M) (.done (init P)) es) :
    Throughout (step env P fuel) (fun o => Both env H o.state) (.done (init P)) es := by
  have hIH : ∀ env s, I env s → H env s := fun env => (h env).weaken
  have hends : Throughout (step env P fuel) (fun o => o.Ends (Both env I) (Both env H))
      (.done (init P)) es := by
    refine hes.throughout ⟨(h _).init, by simp [init]⟩ fun o e ho he => ?_
    cases o with
    | done c => exact handle_ends h ho e he
    | halted error c => exact ho
  exact hends.mono fun o ho =>
    Outcome.holds_iff.mp (ho.mono (fun _ hc => hc.mono hIH) fun _ hc => hc)

theorem allowed_of_true (es : List Event) {o : Outcome Fault (MeterClient ι)} :
    Along (step env P fuel) (Allowed env (fun _ _ => True) fun _ => True) o es := by
  induction es generalizing o with
  | nil => trivial
  | cons e es ih =>
    refine ⟨?_, ih⟩
    cases e with
    | queryRequest meter request => exact ⟨trivial, fun _ _ _ => trivial⟩
    | _ => trivial

theorem throughout_state (h : ∀ env, ProtocolState.KeepsAll env P (I env) (H env)) (fuel : ℕ)
    (es : List Event) :
    Throughout (step env P fuel) (fun o => Both env H o.state) (.done (init P)) es :=
  throughout_survives (fun env => (h env).survives fuel) (allowed_of_true es)

end MeterClient
end Pddm
