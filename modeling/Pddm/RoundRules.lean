import Pddm.Lockstep

/-!
# Rules for the runs of one state

A state of a protocol goes from event to event. What every round and every handled message
preserve holds after the whole run.
-/
namespace Pddm

/-- What is noted down of the rounds besides the batches, the messages handled and the first
start. -/
def Action.isNote : Action → Bool
  | .leaveRound _ cause => cause ≠ .start
  | .replayOverlay .. | .sendPing .. => true
  | _ => false

namespace ProtocolState
variable {ι : Type}

/-- Only the timer that the state knows of may be pending. -/
def OneTimer (s : ProtocolState ι) : Prop := ∀ e ∈ s.timers.pending, e.1 = s.roundTimeoutTimer

namespace OneTimer
variable {s t : ProtocolState ι}

theorem of_fields (hs : s.OneTimer) (roundTimeoutTimer : t.roundTimeoutTimer = s.roundTimeoutTimer)
    (timers : ∀ e ∈ t.timers.pending, e ∈ s.timers.pending) : t.OneTimer := by
  intro e he
  rw [roundTimeoutTimer]
  exact hs e (timers e he)

theorem cancel (hs : s.OneTimer) : (s.timers.cancel s.roundTimeoutTimer).pending = [] := by
  refine List.eq_nil_iff_forall_not_mem.mpr fun e he => ?_
  obtain ⟨hpending, hne⟩ := Timers.mem_cancel.mp he
  exact hne (hs e hpending)

theorem setRoundTimeout (h : s.timers.pending = []) : s.setRoundTimeout.OneTimer := by
  intro e he
  change e ∈ s.timers.pending ++ [(s.timers.nextId, s.overlayRound)] at he
  rw [h] at he
  exact congrArg Prod.fst (List.mem_singleton.mp he)

end OneTimer

/-- `t` differs from `s` in timers, aggregates kept for later, failed meters and notes only,
and buffers no further overlay messages. -/
structure Bookkeeping (s t : ProtocolState ι) : Prop where
  overlayRound : t.overlayRound = s.overlayRound
  isLastRound : t.isLastRound = s.isLastRound
  myContribution : t.myContribution = s.myContribution
  proxyValues : t.proxyValues = s.proxyValues
  waitingMessages : t.waitingMessages = s.waitingMessages
  outgoingMessages : t.outgoingMessages = s.outgoingMessages
  aggregationPhaseState : t.aggregationPhaseState = s.aggregationPhaseState
  impl : t.impl = s.impl
  futureOverlayMessages : t.futureOverlayMessages ⊆ s.futureOverlayMessages
  futureAggregationMessages : t.futureAggregationMessages = s.futureAggregationMessages
  timers : s.OneTimer → t.OneTimer
  trace : ∃ ext, t.trace = s.trace ++ ext ∧ ∀ a ∈ ext, a.isNote = true

namespace Bookkeeping
variable {s t u : ProtocolState ι}

theorem of_fields (overlayRound : t.overlayRound = s.overlayRound)
    (isLastRound : t.isLastRound = s.isLastRound)
    (myContribution : t.myContribution = s.myContribution)
    (proxyValues : t.proxyValues = s.proxyValues)
    (waitingMessages : t.waitingMessages = s.waitingMessages)
    (outgoingMessages : t.outgoingMessages = s.outgoingMessages)
    (aggregationPhaseState : t.aggregationPhaseState = s.aggregationPhaseState)
    (impl : t.impl = s.impl)
    (futureOverlayMessages : t.futureOverlayMessages = s.futureOverlayMessages)
    (futureAggregationMessages : t.futureAggregationMessages = s.futureAggregationMessages)
    (timers : s.OneTimer → t.OneTimer) (trace : t.trace = s.trace) : Bookkeeping s t :=
  ⟨overlayRound, isLastRound, myContribution, proxyValues, waitingMessages, outgoingMessages,
    aggregationPhaseState, impl, by simp [futureOverlayMessages], futureAggregationMessages, timers,
    [], by simp [trace], by simp⟩

theorem refl (s : ProtocolState ι) : Bookkeeping s s :=
  of_fields rfl rfl rfl rfl rfl rfl rfl rfl rfl rfl id rfl

theorem trans (h : Bookkeeping s t) (h' : Bookkeeping t u) : Bookkeeping s u := by
  obtain ⟨ext, htrace, hext⟩ := h.trace
  obtain ⟨ext', htrace', hext'⟩ := h'.trace
  refine ⟨h'.overlayRound.trans h.overlayRound, h'.isLastRound.trans h.isLastRound,
    h'.myContribution.trans h.myContribution, h'.proxyValues.trans h.proxyValues,
    h'.waitingMessages.trans h.waitingMessages, h'.outgoingMessages.trans h.outgoingMessages,
    h'.aggregationPhaseState.trans h.aggregationPhaseState, h'.impl.trans h.impl,
    List.Subset.trans h'.futureOverlayMessages h.futureOverlayMessages,
    h'.futureAggregationMessages.trans h.futureAggregationMessages,
    fun hs => h'.timers (h.timers hs), ext ++ ext', ?_, ?_⟩
  · rw [htrace', htrace, List.append_assoc]
  · intro a ha
    rcases List.mem_append.mp ha with ha | ha
    · exact hext a ha
    · exact hext' a ha

theorem act (s : ProtocolState ι) {a : Action} (ha : a.isNote = true) : Bookkeeping s (s.act a) :=
  ⟨rfl, rfl, rfl, rfl, rfl, rfl, rfl, rfl, List.Subset.refl _, rfl, id, [a], rfl, by simpa using ha⟩

theorem cancelTimer (s : ProtocolState ι) : Bookkeeping s s.cancelTimer :=
  of_fields rfl rfl rfl rfl rfl rfl rfl rfl rfl rfl
    (fun hs => hs.of_fields rfl fun _ he => (Timers.mem_cancel.mp he).1) rfl

theorem timerFired (s : ProtocolState ι) (id : ℤ) :
    Bookkeeping s { s with timers := s.timers.cancel id } :=
  of_fields rfl rfl rfl rfl rfl rfl rfl rfl rfl rfl
    (fun hs => hs.of_fields rfl fun _ he => (Timers.mem_cancel.mp he).1) rfl

theorem timerAnswered {s : ProtocolState ι} {id registeredIn : ℤ}
    (h : s.timers.find id = some registeredIn) :
    Bookkeeping s { s with
      timers := s.timers.cancel id
      pingResponseFromPredecessor := false }.setRoundTimeout := by
  refine of_fields rfl rfl rfl rfl rfl rfl rfl rfl rfl rfl (fun hs => ?_) rfl
  have hid : id = s.roundTimeoutTimer := hs _ (Timers.mem_of_find h)
  exact OneTimer.setRoundTimeout (hid ▸ hs.cancel)

theorem sendPing (s : ProtocolState ι) (env : ProtocolEnv) (message : PingMessage)
    (recipientId : ℤ) : Bookkeeping s (s.sendTo env (.sendPing message recipientId) recipientId) := by
  unfold sendTo
  split_ifs
  · exact act s rfl
  · exact (act s rfl).trans (of_fields rfl rfl rfl rfl rfl rfl rfl rfl rfl rfl id rfl)

theorem handlePingMessage (s : ProtocolState ι) (env : ProtocolEnv) (message : PingMessage) :
    Bookkeeping s (s.handlePingMessage env message) := by
  unfold ProtocolState.handlePingMessage
  split_ifs
  · exact act s rfl
  · exact of_fields rfl rfl rfl rfl rfl rfl rfl rfl rfl rfl id rfl
  · exact refl s

theorem sendOverlayMessageBatch_timers (env : ProtocolEnv) (s : ProtocolState ι)
    (timers : Timers ℤ) : sendOverlayMessageBatch env { s with timers := timers } =
      { sendOverlayMessageBatch env s with timers := timers } := by
  unfold sendOverlayMessageBatch sendTo
  dsimp only
  split_ifs <;> rfl

theorem sendOverlayMessageBatch_oneTimer (env : ProtocolEnv) (s : ProtocolState ι) :
    (sendOverlayMessageBatch env s).roundTimeoutTimer = s.roundTimeoutTimer ∧
      (sendOverlayMessageBatch env s).timers = s.timers := by
  unfold sendOverlayMessageBatch sendTo
  dsimp only
  split_ifs <;> exact ⟨rfl, rfl⟩

theorem beginRound (s : ProtocolState ι) (env : ProtocolEnv) :
    Bookkeeping (sendOverlayMessageBatch env
      { s with overlayRound := s.overlayRound + 1, pingResponseFromPredecessor := false })
      (beginRound env s.cancelTimer) := by
  obtain ⟨htimer, htimers⟩ := sendOverlayMessageBatch_oneTimer env
    { s with overlayRound := s.overlayRound + 1, pingResponseFromPredecessor := false }
  have hbatch := sendOverlayMessageBatch_timers env
    { s with overlayRound := s.overlayRound + 1, pingResponseFromPredecessor := false }
    (s.timers.cancel s.roundTimeoutTimer)
  unfold ProtocolState.beginRound ProtocolState.cancelTimer
  dsimp only at hbatch ⊢
  rw [hbatch]
  generalize sendOverlayMessageBatch env
    { s with overlayRound := s.overlayRound + 1, pingResponseFromPredecessor := false } = u
    at htimer htimers ⊢
  have hset : Bookkeeping u
      { u with timers := s.timers.cancel s.roundTimeoutTimer }.setRoundTimeout := by
    refine of_fields rfl rfl rfl rfl rfl rfl rfl rfl rfl rfl (fun hu => ?_) rfl
    have hs : s.OneTimer := hu.of_fields htimer.symm fun _ he => htimers ▸ he
    exact OneTimer.setRoundTimeout hs.cancel
  split_ifs
  · exact hset
  · exact hset.trans (sendPing _ env _ _)

end Bookkeeping

theorem sendOverlayMessageBatch_next (env : ProtocolEnv) (s : ProtocolState ι) :
    ∃ failed, sendOverlayMessageBatch env
      { s with overlayRound := s.overlayRound + 1, pingResponseFromPredecessor := false } =
      { s with
        overlayRound := s.overlayRound + 1
        pingResponseFromPredecessor := false
        waitingMessages := keptMessages env s
        outgoingMessages := []
        failedMeterIds := failed
        trace := s.trace ++ [.sendOverlay (nextBatch env s) (nextTarget env s)] } := by
  unfold sendOverlayMessageBatch sendTo
  dsimp only
  split_ifs
  · exact ⟨s.failedMeterIds, rfl⟩
  · exact ⟨_, rfl⟩

/-- What makes `I` an invariant of the rounds of a protocol, `E` hold where one has just ended,
and `H` where a handler stops part-way, for invariants that look at the messages and values a
meter holds. The overlay messages that arrive are those that meet `M`. -/
structure Maintains {P : Protocol ι} (L : Layered P) (env : ProtocolEnv)
    (M : OverlayTransportMessage → Prop) (I E H : ProtocolState ι → Prop) : Prop where
  weaken : ∀ s, I s → H s
  frame : ∀ s t, I s → Bookkeeping s t → I t
  buffers : ∀ message s, I s → M message → I (s.bufferOverlay message)
  buffered : ∀ s, I s → ∀ message ∈ s.futureOverlayMessages, M message
  absorbs : ∀ message s, I s → M message → (L.absorb env message s).Ends I H
  ends : ∀ s, I s → (P.endOverlayRoundImpl env s).Ends E H
  rests : ∀ s, E s → s.isLastRound = true → I s.cancelTimer
  sends : ∀ s, E s → s.isLastRound = false → I (sendOverlayMessageBatch env
    { s with overlayRound := s.overlayRound + 1, pingResponseFromPredecessor := false })

namespace Maintains
variable {P : Protocol ι} {L : Layered P} {env : ProtocolEnv} {M : OverlayTransportMessage → Prop}
  {I E H : ProtocolState ι → Prop}
  {endRound : ProtocolState ι → Outcome Fault (ProtocolState ι)} {s : ProtocolState ι}

theorem handleOverlayMessage (h : Maintains L env M I E H)
    (hrec : ∀ t, I t → (endRound t).Ends I H) {message : OverlayTransportMessage}
    (hmessage : M message) (hs : I s) :
    (handleOverlayMessage env P endRound message s).Ends I H := by
  rw [L.handleOverlayMessage_eq]
  refine (h.absorbs message s hs hmessage).andThen fun t ht => ?_
  split_ifs
  · exact hrec _ (h.frame _ _ ht (.act t rfl))
  · exact ht

theorem superEndOverlayRound (h : Maintains L env M I E H)
    (hrec : ∀ t, I t → (endRound t).Ends I H) (hs : E s) :
    (superEndOverlayRound env P endRound s).Ends I H := by
  unfold ProtocolState.superEndOverlayRound
  dsimp only
  split_ifs with hlast
  · exact h.rests s hs hlast
  · have hbegun : I (beginRound env s.cancelTimer) :=
      h.frame _ _ (h.sends s hs (by simpa [cancelTimer] using hlast)) (.beginRound s env)
    generalize beginRound env s.cancelTimer = u at hbegun ⊢
    let batch := u.futureOverlayMessages.filter u.isForRound
    let v : ProtocolState ι := { u.act (.replayOverlay u.overlayRound batch) with
      futureOverlayMessages := u.futureOverlayMessages.filter fun m => !u.isForRound m }
    have hv : Bookkeeping u v :=
      ⟨rfl, rfl, rfl, rfl, rfl, rfl, rfl, rfl, List.filter_subset_self _, rfl,
        id, [.replayOverlay u.overlayRound batch], rfl, by simp [Action.isNote]⟩
    have hreplay : (Outcome.forEach batch (ProtocolState.handleOverlayMessage env P endRound)
        v).Ends I H := by
      refine Outcome.forEach_ends (h.frame _ _ hbegun hv) fun message hmessage t ht => ?_
      exact h.handleOverlayMessage hrec
        (h.buffered u hbegun message (List.mem_filter.mp hmessage).1) ht
    refine hreplay.andThen fun t ht => ?_
    split_ifs
    · exact hrec _ (h.frame _ _ ht (.act t rfl))
    · exact ht

theorem endOverlayRound (h : Maintains L env M I E H) (fuel : ℕ) (hs : I s) :
    (endOverlayRound env P fuel s).Ends I H := by
  induction fuel generalizing s with
  | zero => exact h.weaken s hs
  | succ fuel ih => exact (h.ends s hs).andThen fun t ht => h.superEndOverlayRound (fun _ => ih) ht

theorem receiveOverlay (h : Maintains L env M I E H) (fuel : ℕ) {message : OverlayTransportMessage}
    (hmessage : M message) (hs : I s) : (receiveOverlay env P fuel message s).Ends I H := by
  unfold ProtocolState.receiveOverlay
  split_ifs
  · exact h.buffers message s hs hmessage
  · exact hs
  · exact h.handleOverlayMessage (fun _ => h.endOverlayRound fuel) hmessage hs
  · exact h.buffers message s hs hmessage
  · exact hs

theorem timerExpires (h : Maintains L env M I E H) (fuel : ℕ) (id : ℤ) (hs : I s) :
    (timerExpires env P fuel id s).Ends I H := by
  unfold ProtocolState.timerExpires handleRoundTimeout
  split
  · next registeredIn hfind =>
    split_ifs
    · exact h.frame _ _ hs ((Bookkeeping.timerAnswered hfind).trans (.sendPing _ env _ _))
    · exact h.endOverlayRound fuel
        (h.frame _ _ hs ((Bookkeeping.timerFired s id).trans (.act _ rfl)))
  · exact hs

end Maintains

/-- What reaches the state kept under one ID. -/
inductive Event
  | startQuery (request : QueryRequest) (contributedData : List FixedPoint)
  | overlay (message : OverlayTransportMessage)
  | aggregation (message : AggregationMessage)
  | ping (message : PingMessage)
  | signatureResponse (message : SignatureResponse)
  | timerExpires (id : ℤ)

section Runs
variable (env : ProtocolEnv) (P : Protocol ι) (fuel : ℕ)

def handle (s : ProtocolState ι) : Event → Outcome Fault (ProtocolState ι)
  | .startQuery request contributedData => s.startQuery env P fuel request contributedData
  | .overlay message => s.receiveOverlay env P fuel message
  | .aggregation message => s.receiveAggregation env P.toAggregatePhase message
  | .ping message => .done (s.handlePingMessage env message)
  | .signatureResponse message =>
      P.handleSignatureResponse env (endOverlayRound env P fuel) message s
  | .timerExpires id => s.timerExpires env P fuel id

def step (o : Outcome Fault (ProtocolState ι)) (e : Event) : Outcome Fault (ProtocolState ι) :=
  o.andThen fun s => s.handle env P fuel e

def run (es : List Event) : Outcome Fault (ProtocolState ι) :=
  es.foldl (step env P fuel) (.done (.init P.init))

theorem run_append (es es' : List Event) :
    run env P fuel (es ++ es') = es'.foldl (step env P fuel) (run env P fuel es) :=
  List.foldl_append

end Runs

structure MaintainsAll {P : Protocol ι} (L : Layered P) (env : ProtocolEnv) (fuel : ℕ)
    (M : OverlayTransportMessage → Prop) (A : ProtocolState ι → Event → Prop)
    (I E H : ProtocolState ι → Prop) : Prop extends Maintains L env M I E H where
  overlay : ∀ message s, A s (.overlay message) → M message
  start : ∀ request data s, I s → A s (.startQuery request data) →
    (startQuery env P fuel request data s).Ends I H
  signature : ∀ message s, I s → A s (.signatureResponse message) →
    (P.handleSignatureResponse env (endOverlayRound env P fuel) message s).Ends I H
  aggregation : ∀ message s, I s → A s (.aggregation message) →
    (receiveAggregation env P.toAggregatePhase message s).Ends I H

namespace MaintainsAll
variable {P : Protocol ι} {L : Layered P} {env : ProtocolEnv} {fuel : ℕ}
  {M : OverlayTransportMessage → Prop} {A : ProtocolState ι → Event → Prop}
  {I E H : ProtocolState ι → Prop}

theorem handle (h : MaintainsAll L env fuel M A I E H) {s : ProtocolState ι} (hs : I s) {e : Event}
    (he : A s e) : (s.handle env P fuel e).Ends I H := by
  cases e with
  | startQuery request data => exact h.start request data s hs he
  | overlay message => exact h.receiveOverlay fuel (h.overlay message s he) hs
  | aggregation message => exact h.aggregation message s hs he
  | ping message => exact h.frame _ _ hs (.handlePingMessage s env message)
  | signatureResponse message => exact h.signature message s hs he
  | timerExpires id => exact h.timerExpires fuel id hs

theorem run (h : MaintainsAll L env fuel M A I E H) {es : List Event}
    {o : Outcome Fault (ProtocolState ι)}
    (hes : Along (step env P fuel) (fun o e => A o.state e) o es) (ho : o.Ends I H) :
    (es.foldl (step env P fuel) o).Ends I H := by
  induction es generalizing o with
  | nil => exact ho
  | cons e es ih =>
    refine ih hes.2 ?_
    cases o with
    | done s => exact h.handle ho hes.1
    | halted error s => exact ho

end MaintainsAll

/-- In every reachable state only the timer that it knows of may be pending. -/
theorem oneTimer_maintains {P : Protocol ι} (L : Layered P) (env : ProtocolEnv) :
    Maintains L env (fun _ => True) OneTimer OneTimer fun _ => True where
  weaken _ _ := trivial
  frame _ _ hs h := h.timers hs
  buffers _ _ hs _ := hs
  buffered _ _ _ _ := trivial
  absorbs message s hs _ := by
    have hnote : (noteOverlay env P message s).OneTimer := by
      unfold noteOverlay
      dsimp only
      split_ifs
      · exact OneTimer.setRoundTimeout hs.cancel
      · exact hs
    exact (L.body env _ _).mono (fun _ h => hnote.of_fields h.roundTimeoutTimer h.timers)
      fun _ _ => trivial
  ends s hs := (L.ends env s).mono (fun _ h => hs.of_fields h.roundTimeoutTimer h.timers)
    fun _ _ => trivial
  rests s hs _ := (Bookkeeping.cancelTimer s).timers hs
  sends s hs _ := by
    obtain ⟨htimer, htimers⟩ := Bookkeeping.sendOverlayMessageBatch_oneTimer env
      { s with overlayRound := s.overlayRound + 1, pingResponseFromPredecessor := false }
    exact hs.of_fields htimer fun e he => htimers ▸ he

theorem oneTimer_maintainsAll {P : Protocol ι} (L : Layered P) (env : ProtocolEnv) (fuel : ℕ) :
    MaintainsAll L env fuel (fun _ => True) (fun _ _ => True) OneTimer OneTimer fun _ => True where
  toMaintains := oneTimer_maintains L env
  overlay _ _ _ := trivial
  start request data s hs _ := by
    have hopened {t u : ProtocolState ι} (hu : SameRound t u)
        (htimer : t.roundTimeoutTimer = s.roundTimeoutTimer)
        (htimers : t.timers = s.timers.cancel s.roundTimeoutTimer) : u.OneTimer := by
      refine hs.of_fields (hu.roundTimeoutTimer.trans htimer) fun e he => ?_
      exact (Timers.mem_cancel.mp (htimers ▸ hu.timers e he)).1
    unfold startQuery
    dsimp only
    split
    · trivial
    · refine L.start env request _ _ _ _ (fun t ht => ?_) (fun _ _ => trivial) fun t ht => ?_
      · exact hopened ht rfl rfl
      · have hleaving : t.OneTimer := hopened ht rfl rfl
        exact (oneTimer_maintains L env).endOverlayRound fuel hleaving
  signature message s hs _ := by
    refine L.signature env message s _ _ _ (fun t ht => ?_) (fun _ _ => trivial) fun t ht => ?_
    · exact hs.of_fields ht.roundTimeoutTimer ht.timers
    · exact (oneTimer_maintains L env).endOverlayRound fuel
        (hs.of_fields ht.roundTimeoutTimer ht.timers)
  aggregation message s hs _ := (SameOverlay.receiveAggregation message s).mono
    (fun _ h => hs.of_fields h.roundTimeoutTimer h.timers) fun _ _ => trivial

theorem oneTimer_of_run {P : Protocol ι} (L : Layered P) (env : ProtocolEnv) (fuel : ℕ)
    (es : List Event) : (run env P fuel es).Ends OneTimer fun _ => True :=
  (oneTimer_maintainsAll L env fuel).run (along_of_forall es fun _ _ => trivial)
    (show OneTimer (.init P.init) from fun _ he => absurd he List.not_mem_nil)

end ProtocolState

/-- The protocol that stops where it is about to handle a message which `stops` rejects. Its
runs are those of the protocol in which that does not happen. -/
def Protocol.guarded {ι : Type} (P : Protocol ι)
    (stops : ProtocolEnv → OverlayMessage → ProtocolState ι → Bool) : Protocol ι :=
  { P with
    handleOverlayMessageImpl := fun env endRound message s =>
      if stops env message.body s then .halted .assertion s
      else P.handleOverlayMessageImpl env endRound message s }

namespace ProtocolState

def Layered.guarded {ι : Type} {P : Protocol ι} (L : Layered P)
    (stops : ProtocolEnv → OverlayMessage → ProtocolState ι → Bool) :
    Layered (P.guarded stops) where
  handleBody env message s :=
    if stops env message s then .halted .assertion s else L.handleBody env message s
  handles env endRound message s := by
    change (if stops env message.body s then Outcome.halted Fault.assertion s
      else P.handleOverlayMessageImpl env endRound message s) = _
    split_ifs
    · rfl
    · exact L.handles env endRound message s
  body env message s := by
    split_ifs
    · exact .refl s
    · exact L.body env message s
  ends := L.ends
  start := L.start
  signature := L.signature

end ProtocolState

/-- The protocol with a check before the end of each round, which raises `error`. -/
def Protocol.checked {ι : Type} (P : Protocol ι) (check : ProtocolEnv → ProtocolState ι → Bool)
    (error : Fault) : Protocol ι :=
  { P with
    endOverlayRoundImpl := fun env s =>
      if check env s then P.endOverlayRoundImpl env s else .halted error s }

namespace ProtocolState
variable {ι : Type}

section Checks
variable {P : Protocol ι} {L : Layered P} {env : ProtocolEnv}
  {M : OverlayTransportMessage → Prop} {I E H : ProtocolState ι → Prop}
  {endRound endRound' : ProtocolState ι → Outcome Fault (ProtocolState ι)} {s : ProtocolState ι}

theorem encryptedMulticastToProxies_congr (hsame : ∀ t, I t → endRound t = endRound' t)
    {contribution : ValueContribution}
    (hs : ∀ onions, I ({ s with outgoingMessages := s.outgoingMessages ++ onions }.leaving .start)) :
    encryptedMulticastToProxies env endRound contribution s =
      encryptedMulticastToProxies env endRound' contribution s := by
  unfold encryptedMulticastToProxies
  dsimp only
  split
  · rfl
  · exact hsame _ (hs _)

namespace Maintains

theorem handleOverlayMessage_congr (h : Maintains L env M I E H)
    (hsame : ∀ t, I t → endRound t = endRound' t) {message : OverlayTransportMessage}
    (hmessage : M message) (hs : I s) :
    ProtocolState.handleOverlayMessage env P endRound message s =
      ProtocolState.handleOverlayMessage env P endRound' message s := by
  rw [L.handleOverlayMessage_eq, L.handleOverlayMessage_eq]
  refine Outcome.andThen_congr (h.absorbs message s hs hmessage) fun t ht => ?_
  split_ifs
  · exact hsame _ (h.frame _ _ ht (.act t rfl))
  · rfl

theorem superEndOverlayRound_congr (h : Maintains L env M I E H)
    (hrec : ∀ t, I t → (endRound t).Ends I H) (hsame : ∀ t, I t → endRound t = endRound' t)
    (hs : E s) : ProtocolState.superEndOverlayRound env P endRound s =
      ProtocolState.superEndOverlayRound env P endRound' s := by
  unfold ProtocolState.superEndOverlayRound
  dsimp only
  split_ifs with hlast
  · rfl
  · have hbegun : I (beginRound env s.cancelTimer) :=
      h.frame _ _ (h.sends s hs (by simpa [cancelTimer] using hlast)) (.beginRound s env)
    generalize beginRound env s.cancelTimer = u at hbegun ⊢
    let batch := u.futureOverlayMessages.filter u.isForRound
    let v : ProtocolState ι := { u.act (.replayOverlay u.overlayRound batch) with
      futureOverlayMessages := u.futureOverlayMessages.filter fun m => !u.isForRound m }
    have hv : I v := h.frame _ _ hbegun
      ⟨rfl, rfl, rfl, rfl, rfl, rfl, rfl, rfl, List.filter_subset_self _, rfl,
        id, [.replayOverlay u.overlayRound batch], rfl, by simp [Action.isNote]⟩
    have hbatch : ∀ message ∈ batch, M message := fun message hmessage =>
      h.buffered u hbegun message (List.mem_filter.mp hmessage).1
    have hreplay (message : OverlayTransportMessage) (hmessage : message ∈ batch)
        (t : ProtocolState ι) (ht : I t) :
        (ProtocolState.handleOverlayMessage env P endRound message t).Ends I H :=
      h.handleOverlayMessage hrec (hbatch message hmessage) ht
    change (Outcome.forEach batch (ProtocolState.handleOverlayMessage env P endRound) v).andThen _ =
      (Outcome.forEach batch (ProtocolState.handleOverlayMessage env P endRound') v).andThen _
    rw [← Outcome.forEach_congr hv hreplay fun message hmessage t ht =>
      h.handleOverlayMessage_congr hsame (hbatch message hmessage) ht]
    refine Outcome.andThen_congr (Outcome.forEach_ends hv hreplay) fun t ht => ?_
    split_ifs
    · exact hsame _ (h.frame _ _ ht (.act t rfl))
    · rfl

variable {check : ProtocolEnv → ProtocolState ι → Bool}

theorem endOverlayRound_checked (h : Maintains L env M I E H)
    (hcheck : ∀ s, I s → check env s = true) (error : Fault) (fuel : ℕ) (hs : I s) :
    ProtocolState.endOverlayRound env (P.checked check error) fuel s =
      ProtocolState.endOverlayRound env P fuel s := by
  induction fuel generalizing s with
  | zero => rfl
  | succ fuel ih =>
    have hpasses : (P.checked check error).endOverlayRoundImpl env s =
        P.endOverlayRoundImpl env s := if_pos (hcheck s hs)
    unfold ProtocolState.endOverlayRound
    rw [hpasses]
    refine Outcome.andThen_congr (h.ends s hs) fun t ht => ?_
    exact (h.superEndOverlayRound_congr (fun _ => h.endOverlayRound fuel)
      (fun u hu => (ih hu).symm) ht).symm

end Maintains

namespace MaintainsAll
variable {fuel : ℕ} {A : ProtocolState ι → Event → Prop}
  {check : ProtocolEnv → ProtocolState ι → Bool} {error : Fault}

theorem handle_checked (h : MaintainsAll L env fuel M A I E H)
    (hcheck : ∀ s, I s → check env s = true)
    (hstart : ∀ request data s, I s → A s (.startQuery request data) →
      startQuery env (P.checked check error) fuel request data s =
        startQuery env P fuel request data s)
    (hsignature : ∀ message s, I s → A s (.signatureResponse message) →
      P.handleSignatureResponse env (ProtocolState.endOverlayRound env (P.checked check error) fuel)
          message s =
        P.handleSignatureResponse env (ProtocolState.endOverlayRound env P fuel) message s)
    (hs : I s) {e : Event} (he : A s e) :
    s.handle env (P.checked check error) fuel e = s.handle env P fuel e := by
  have hround (t : ProtocolState ι) (ht : I t) :=
    h.toMaintains.endOverlayRound_checked hcheck error fuel ht
  cases e with
  | startQuery request data => exact hstart request data s hs he
  | overlay message =>
    change s.receiveOverlay env (P.checked check error) fuel message = s.receiveOverlay env P fuel message
    unfold receiveOverlay
    rw [show ProtocolState.handleOverlayMessage env (P.checked check error) _ message s =
      ProtocolState.handleOverlayMessage env P _ message s from
        (h.handleOverlayMessage_congr (fun t ht => (hround t ht).symm) (h.overlay message s he) hs).symm]
  | aggregation message => rfl
  | ping message => rfl
  | signatureResponse message => exact hsignature message s hs he
  | timerExpires id =>
    change s.timerExpires env (P.checked check error) fuel id = s.timerExpires env P fuel id
    unfold ProtocolState.timerExpires handleRoundTimeout
    split
    · split_ifs
      · rfl
      · exact hround _ (h.frame _ _ hs ((Bookkeeping.timerFired s id).trans (.act _ rfl)))
    · rfl

theorem run_checked (h : MaintainsAll L env fuel M A I E H)
    (hhandle : ∀ s, I s → ∀ e, A s e →
      s.handle env (P.checked check error) fuel e = s.handle env P fuel e)
    {es : List Event} {o : Outcome Fault (ProtocolState ι)}
    (hes : Along (step env P fuel) (fun o e => A o.state e) o es) (ho : o.Ends I H) :
    es.foldl (step env (P.checked check error) fuel) o = es.foldl (step env P fuel) o := by
  apply Along.foldl_eq
  refine hes.along (I := fun o => o.Ends I H) ho fun o e ho he => ?_
  cases o with
  | done s => exact ⟨h.handle ho he, hhandle s ho e he⟩
  | halted error s => exact ⟨ho, rfl⟩

end MaintainsAll
end Checks

end ProtocolState
end Pddm
