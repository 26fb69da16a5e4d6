import Pddm.RoundOrder

/-!
# The query of the messages sent

A meter sends what waits in several lists. What still waits when a query is started is
sent in the rounds of that query, unless it is one of its own messages.
-/
namespace Pddm

/-- A message as its receiver reads it. -/
def OverlayMessage.opened (crypto : CryptoLibrary) (m : OverlayMessage) : OverlayMessage :=
  if m.isEncrypted then crypto.rsaDecrypt m else m

/-- If the message, once read, encloses another, that one belongs to the same query. -/
def OverlayMessage.EnclosesOwn (crypto : CryptoLibrary) (m : OverlayMessage) : Prop :=
  ∀ enclosed, (m.opened crypto).body.asOverlayMessage = some enclosed →
    enclosed.queryNum = m.queryNum

def lastQuery (trace : List Action) : Option ℤ :=
  trace.foldl (fun query a =>
    match a with
    | .startQuery queryNum => some queryNum
    | _ => query) none

/-- Every overlay message sent in a query has the number of that query. -/
def SendsOwnQuery (trace : List Action) : Prop :=
  EveryEntry (fun pre a =>
    match a with
    | .sendOverlay messages _ =>
        ∀ query, lastQuery pre = some query → ∀ m ∈ messages, m.body.queryNum = query
    | _ => True) trace

def Action.isTraffic : Action → Bool
  | .startQuery .. | .sendOverlay .. => true
  | _ => false

theorem lastQuery_concat (trace : List Action) (a : Action) :
    lastQuery (trace ++ [a]) =
      match a with
      | .startQuery queryNum => some queryNum
      | _ => lastQuery trace := by
  simp only [lastQuery, List.foldl_append, List.foldl_cons, List.foldl_nil]

theorem lastQuery_append {trace ext : List Action} (hext : ∀ a ∈ ext, a.isTraffic = false) :
    lastQuery (trace ++ ext) = lastQuery trace := by
  induction ext using List.reverseRecOn with
  | nil => simp
  | append_singleton ext a ih =>
    have ha : a.isTraffic = false := hext a (by simp)
    rw [← List.append_assoc, lastQuery_concat, ih fun b hb => hext b (by simp [hb])]
    cases a <;> simp_all [Action.isTraffic]

theorem SendsOwnQuery.append {trace ext : List Action} (h : SendsOwnQuery trace)
    (hext : ∀ a ∈ ext, a.isTraffic = false) : SendsOwnQuery (trace ++ ext) := by
  apply h.append_of_forall
  intro a ha pre
  have htraffic := hext a ha
  cases a <;> simp_all [Action.isTraffic]

namespace ProtocolState
variable {ι : Type}

/-- Everything to be sent, now or later, belongs to the query. -/
structure ForQuery (crypto : CryptoLibrary) (held : ℤ → ι → Prop) (query : ℤ)
    (s : ProtocolState ι) : Prop where
  current : s.getCurrentQueryNum = query
  waiting : ∀ m ∈ s.waitingMessages, m.queryNum = query
  outgoing : ∀ m ∈ s.outgoingMessages, m.queryNum = query
  held : held query s.impl
  future : ∀ m ∈ s.futureOverlayMessages, m.body.EnclosesOwn crypto
  started : ∀ q, lastQuery s.trace = some q → q = query
  sent : SendsOwnQuery s.trace

structure SameTraffic (s t : ProtocolState ι) : Prop where
  current : t.getCurrentQueryNum = s.getCurrentQueryNum
  waiting : t.waitingMessages = s.waitingMessages
  outgoing : t.outgoingMessages = s.outgoingMessages
  future : t.futureOverlayMessages = s.futureOverlayMessages
  trace : ∃ ext, t.trace = s.trace ++ ext ∧ ∀ a ∈ ext, a.isTraffic = false

namespace SameTraffic
variable {s t u : ProtocolState ι}

theorem of_fields (current : t.getCurrentQueryNum = s.getCurrentQueryNum)
    (waiting : t.waitingMessages = s.waitingMessages)
    (outgoing : t.outgoingMessages = s.outgoingMessages)
    (future : t.futureOverlayMessages = s.futureOverlayMessages) (trace : t.trace = s.trace) :
    SameTraffic s t :=
  ⟨current, waiting, outgoing, future, [], by simp [trace], by simp⟩

theorem refl (s : ProtocolState ι) : SameTraffic s s := of_fields rfl rfl rfl rfl rfl

theorem act (s : ProtocolState ι) {a : Action} (ha : a.isTraffic = false) :
    SameTraffic s (s.act a) :=
  ⟨rfl, rfl, rfl, rfl, [a], rfl, by simpa using ha⟩

theorem trans (h : SameTraffic s t) (h' : SameTraffic t u) : SameTraffic s u := by
  obtain ⟨ext, htrace, hext⟩ := h.trace
  obtain ⟨ext', htrace', hext'⟩ := h'.trace
  refine ⟨h'.current.trans h.current, h'.waiting.trans h.waiting, h'.outgoing.trans h.outgoing,
    h'.future.trans h.future, ext ++ ext', ?_, ?_⟩
  · rw [htrace', htrace, List.append_assoc]
  · intro a ha
    rcases List.mem_append.mp ha with ha | ha
    · exact hext a ha
    · exact hext' a ha

theorem sendPing (s : ProtocolState ι) (env : ProtocolEnv) (message : PingMessage)
    (recipientId : ℤ) : SameTraffic s (s.sendTo env (.sendPing message recipientId) recipientId) := by
  unfold sendTo
  split_ifs
  · exact act s rfl
  · exact (act s rfl).trans (of_fields rfl rfl rfl rfl rfl)

theorem of_sameOverlay {ph : AggregatePhase ι} (h : SameOverlay ph s t) : SameTraffic s t := by
  obtain ⟨ext, htrace, hext⟩ := h.trace
  refine ⟨?_, h.waitingMessages, h.outgoingMessages, h.futureOverlayMessages, ext, htrace, ?_⟩
  · simp only [getCurrentQueryNum, h.myContribution]
  · intro a ha
    have haggregation := hext a ha
    cases a <;> simp_all [Action.isAggregation, Action.isTraffic]

theorem emplaceProxyValue (s : ProtocolState ι) (contribution : ValueContribution) :
    SameTraffic s (s.emplaceProxyValue contribution) := by
  unfold ProtocolState.emplaceProxyValue
  split_ifs
  · exact refl s
  · exact of_fields rfl rfl rfl rfl rfl

end SameTraffic

variable {crypto : CryptoLibrary} {held held' : ℤ → ι → Prop} {query : ℤ} {s t : ProtocolState ι}
  {P : Protocol ι}

theorem ForQuery.same (hs : ForQuery crypto held query s) (h : SameTraffic s t)
    (hheld : held' query t.impl) : ForQuery crypto held' query t := by
  obtain ⟨ext, htrace, hext⟩ := h.trace
  refine ⟨h.current.trans hs.current, h.waiting ▸ hs.waiting, h.outgoing ▸ hs.outgoing, hheld,
    h.future ▸ hs.future, ?_, ?_⟩
  · rw [htrace, lastQuery_append hext]
    exact hs.started
  · rw [htrace]
    exact hs.sent.append hext

theorem ForQuery.sameOverlay {ph : AggregatePhase ι} (hs : ForQuery crypto held query s)
    (hbegin : ∀ i, held query i → held query (ph.begin i))
    (hfinish : ∀ i, held query i → held query (ph.finish i)) (h : SameOverlay ph s t) :
    ForQuery crypto held query t :=
  hs.same (.of_sameOverlay h) (h.impl _ hbegin hfinish hs.held)

theorem ForQuery.emplaceProxyValue (hs : ForQuery crypto held query s)
    (contribution : ValueContribution) :
    ForQuery crypto held query (s.emplaceProxyValue contribution) := by
  refine hs.same (.emplaceProxyValue s contribution) ?_
  unfold ProtocolState.emplaceProxyValue
  split_ifs
  · exact hs.held
  · exact hs.held

theorem ForQuery.wait (hs : ForQuery crypto held query s) {message : OverlayMessage}
    (hmessage : message.queryNum = query) : ForQuery crypto held query (s.wait message) := by
  refine { hs with waiting := fun m hm => ?_ }
  rcases List.mem_append.mp hm with hm | hm
  · exact hs.waiting m hm
  · rw [List.mem_singleton.mp hm]
    exact hmessage

theorem ForQuery.send (hs : ForQuery crypto held query s) (messages : List OverlayMessage)
    (hmessages : ∀ m ∈ messages, m.queryNum = query) :
    ForQuery crypto held query
      { s with outgoingMessages := s.outgoingMessages ++ messages } := by
  refine { hs with outgoing := fun m hm => ?_ }
  rcases List.mem_append.mp hm with hm | hm
  · exact hs.outgoing m hm
  · exact hmessages m hm

theorem ForQuery.multicasts {env : ProtocolEnv} (hcrypto : env.crypto.KeepsQueryNum)
    (hs : ForQuery crypto held query s) (h : Multicasts env query s t) :
    ForQuery crypto held query t := by
  obtain ⟨messages, hmessages, rfl⟩ := h
  exact hs.send messages fun m hm => (hmessages m hm).queryNum_eq hcrypto

theorem body_of_mem_transports {env : ProtocolEnv} {commTarget : ℤ} {messages : List OverlayMessage}
    {m : OverlayTransportMessage} (hm : m ∈ transports env s commTarget messages) :
    m.body ∈ messages ∨ m.body = .make s.getCurrentQueryNum commTarget .null false := by
  unfold transports at hm
  split at hm
  · rw [List.mem_singleton.mp hm]
    exact .inr rfl
  · next last others hreverse =>
    have hmem (x : OverlayMessage) (hx : x ∈ last :: others) : x ∈ messages := by
      rw [← hreverse] at hx
      exact List.mem_reverse.mp hx
    rcases List.mem_append.mp hm with hm | hm
    · obtain ⟨x, hx, rfl⟩ := List.mem_map.mp hm
      exact .inl (hmem x (by simpa using .inr (List.mem_reverse.mp hx)))
    · rw [List.mem_singleton.mp hm]
      exact .inl (hmem last (by simp))

theorem ForQuery.sendOverlayMessageBatch (env : ProtocolEnv) (hs : ForQuery crypto held query s) :
    ForQuery crypto held query (sendOverlayMessageBatch env s) := by
  have hsent (queued : ProtocolState ι) (hqueued : ForQuery crypto held query queued)
      (messages : List OverlayMessage) (hmessages : ∀ m ∈ messages, m.queryNum = query)
      (target : ℤ) :
      ForQuery crypto held query
        (queued.act (.sendOverlay (transports env queued target messages) target)) := by
    refine { hqueued with
      started := fun q hq => hqueued.started q ?_
      sent := everyEntry_concat.mpr ⟨hqueued.sent, fun q hq m hm => ?_⟩ }
    · simpa only [act, lastQuery_concat] using hq
    · rw [hqueued.started q hq]
      rcases body_of_mem_transports hm with hbody | hbody
      · exact hmessages _ hbody
      · rw [hbody]
        exact hqueued.current
  let target := gossipTarget env.meterId s.overlayRound env.numMeters
  let inRound (m : OverlayMessage) : Bool := m.destination = target
  let sent := s.waitingMessages.filter inRound ++
    s.outgoingMessages.filter fun m : OverlayMessage => m.flood || inRound m
  let queued : ProtocolState ι := { s with
    waitingMessages := s.waitingMessages.filter (fun m : OverlayMessage => !inRound m) ++
      s.outgoingMessages.filter fun m : OverlayMessage => !(m.flood || inRound m)
    outgoingMessages := [] }
  have hheld (m : OverlayMessage) (hm : m ∈ s.waitingMessages ∨ m ∈ s.outgoingMessages) :
      m.queryNum = query := hm.elim (hs.waiting m) (hs.outgoing m)
  have hqueued : ForQuery crypto held query queued := by
    refine { hs with waiting := fun m hm => hheld m ?_, outgoing := fun m hm => ?_ }
    · rcases List.mem_append.mp hm with hm | hm
      · exact .inl (List.mem_filter.mp hm).1
      · exact .inr (List.mem_filter.mp hm).1
    · cases hm
  have hbatch : ForQuery crypto held query
      (queued.act (.sendOverlay (transports env queued target sent) target)) := by
    refine hsent queued hqueued sent (fun m hm => hheld m ?_) target
    rcases List.mem_append.mp hm with hm | hm
    · exact .inl (List.mem_filter.mp hm).1
    · exact .inr (List.mem_filter.mp hm).1
  change ForQuery crypto held query
    (queued.sendTo env (.sendOverlay (transports env queued target sent) target) target)
  unfold sendTo
  split_ifs
  · exact hbatch
  · exact hbatch.same (.of_fields rfl rfl rfl rfl rfl) hbatch.held

theorem ForQuery.sendPing (env : ProtocolEnv) (hs : ForQuery crypto held query s)
    (message : PingMessage) (recipientId : ℤ) :
    ForQuery crypto held query (s.sendTo env (.sendPing message recipientId) recipientId) := by
  refine hs.same (.sendPing s env message recipientId) ?_
  unfold sendTo
  split_ifs
  · exact hs.held
  · exact hs.held

theorem ForQuery.beginRound (env : ProtocolEnv) (hs : ForQuery crypto held query s) :
    ForQuery crypto held query (beginRound env s) := by
  have hnext : ForQuery crypto held query
      { s with overlayRound := s.overlayRound + 1, pingResponseFromPredecessor := false } :=
    hs.same (.of_fields rfl rfl rfl rfl rfl) hs.held
  have hsent := hnext.sendOverlayMessageBatch env
  have htimeout : ForQuery crypto held query (ProtocolState.sendOverlayMessageBatch env
      { s with overlayRound := s.overlayRound + 1, pingResponseFromPredecessor := false }).setRoundTimeout :=
    hsent.same (.of_fields rfl rfl rfl rfl rfl) hsent.held
  unfold ProtocolState.beginRound
  dsimp only
  split_ifs
  · exact htimeout
  · exact htimeout.sendPing env _ _

/-- A protocol that handles, and adds, messages of the query only. `held` says of its own
data what `ForQuery` does of the rest. -/
structure KeepsQuery (L : Layered P) (held : ℤ → ι → Prop) : Prop where
  begins : ∀ query i, held query i → held query (P.begin i)
  finishes : ∀ query i, held query i → held query (P.finish i)
  init : held (-1) P.init
  body : ∀ env query message s, env.crypto.KeepsQueryNum → ForQuery env.crypto held query s →
    message.queryNum = query →
    (∀ enclosed, message.body.asOverlayMessage = some enclosed → enclosed.queryNum = query) →
    (L.handleBody env message s).Holds (ForQuery env.crypto held query)
  ends : ∀ env query s, env.crypto.KeepsQueryNum → ForQuery env.crypto held query s →
    (P.endOverlayRoundImpl env s).Holds (ForQuery env.crypto held query)
  start : ∀ env endRound request s, env.crypto.KeepsQueryNum →
    ForQuery env.crypto (fun _ _ => True) request.queryNumber s →
    (∀ t, ForQuery env.crypto held request.queryNumber t →
      (endRound t).Holds (ForQuery env.crypto held request.queryNumber)) →
    (P.startQueryImpl env endRound request s).Ends
      (ForQuery env.crypto held request.queryNumber) fun t => SendsOwnQuery t.trace
  signature : ∀ env endRound query message s, env.crypto.KeepsQueryNum →
    ForQuery env.crypto held query s →
    (∀ t, ForQuery env.crypto held query t → (endRound t).Holds (ForQuery env.crypto held query)) →
    (P.handleSignatureResponse env endRound message s).Holds (ForQuery env.crypto held query)

theorem current_of_contribution {contribution : ValueTuple}
    (h : s.myContribution = some contribution) : s.getCurrentQueryNum = contribution.queryNum := by
  simp only [getCurrentQueryNum, h]

theorem ForQuery.multicastToProxies {env : ProtocolEnv}
    {endRound : ProtocolState ι → Outcome Fault (ProtocolState ι)}
    (hcrypto : env.crypto.KeepsQueryNum) (hs : ForQuery env.crypto held query s)
    {contribution : ValueContribution} (hquery : contribution.value.queryNum = query)
    (hend : ∀ t, ForQuery env.crypto held query t →
      (endRound t).Holds (ForQuery env.crypto held query)) :
    (encryptedMulticastToProxies env endRound contribution s).Holds
      (ForQuery env.crypto held query) := by
  refine encryptedMulticastToProxies_ends hs fun onions honions => hend _ ?_
  have hsent := hs.send onions fun m hm =>
    ((honions m hm).queryNum_eq hcrypto).trans hquery
  exact hsent.same (.act _ rfl) hsent.held

section Rounds
variable {env : ProtocolEnv} {L : Layered P}
  {endRound : ProtocolState ι → Outcome Fault (ProtocolState ι)}

theorem opened_queryNum (hcrypto : crypto.KeepsQueryNum) (m : OverlayMessage) :
    (m.opened crypto).queryNum = m.queryNum := by
  unfold OverlayMessage.opened
  split_ifs
  · exact hcrypto.decrypt m
  · rfl

variable (K : KeepsQuery L held) (hcrypto : env.crypto.KeepsQueryNum)
  (hend : ∀ t, ForQuery env.crypto held query t →
    (endRound t).Holds (ForQuery env.crypto held query))
include K hcrypto hend

theorem handleOverlayMessage_forQuery (hs : ForQuery env.crypto held query s)
    {message : OverlayTransportMessage} (hquery : message.body.queryNum = query)
    (hencloses : message.body.EnclosesOwn env.crypto) :
    (handleOverlayMessage env P endRound message s).Holds (ForQuery env.crypto held query) := by
  let logged := s.act (.handleOverlay s.overlayRound message)
  let timed := if P.isInOverlayPhase s.impl then logged.cancelTimer.setRoundTimeout else logged
  have hlogged : ForQuery env.crypto held query logged := hs.same (.act s rfl) hs.held
  have htimed : ForQuery env.crypto held query timed := by
    by_cases hphase : P.isInOverlayPhase s.impl = true
    · simp only [timed, if_pos hphase]
      exact hlogged.same (.of_fields rfl rfl rfl rfl rfl) hlogged.held
    · simp only [timed, if_neg hphase]
      exact hlogged
  have hopened : (message.body.opened env.crypto).queryNum = query :=
    (opened_queryNum hcrypto _).trans hquery
  have hbody (body : OverlayMessage) (t : ProtocolState ι)
      (ht : ForQuery env.crypto held query t) (hnum : body.queryNum = query)
      (hsame : body.body = (message.body.opened env.crypto).body) :
      (P.handleOverlayMessageImpl env endRound { message with body := body } t).Holds
        (ForQuery env.crypto held query) := by
    rw [L.handles]
    refine (K.body env query body t hcrypto ht hnum ?_).andThen fun u hu => ?_
    · intro enclosed henclosed
      rw [hsame] at henclosed
      exact (hencloses enclosed henclosed).trans hquery
    · split_ifs
      · exact hend _ (hu.same (.act u rfl) hu.held)
      · exact hu
  unfold handleOverlayMessage
  dsimp only
  split
  · exact hbody _ _ (htimed.wait hopened) hopened rfl
  · exact hbody _ _ htimed hopened rfl

theorem superEndOverlayRound_forQuery (hs : ForQuery env.crypto held query s) :
    (superEndOverlayRound env P endRound s).Holds (ForQuery env.crypto held query) := by
  have hcancelled : ForQuery env.crypto held query s.cancelTimer :=
    hs.same (.of_fields rfl rfl rfl rfl rfl) hs.held
  unfold superEndOverlayRound
  dsimp only
  split_ifs
  · exact hcancelled
  · have hbegun := hcancelled.beginRound env
    generalize beginRound env s.cancelTimer = u at hbegun ⊢
    have hextracted : ForQuery env.crypto held query
        { u.act (.replayOverlay u.overlayRound (u.futureOverlayMessages.filter u.isForRound)) with
          futureOverlayMessages := u.futureOverlayMessages.filter fun m => !u.isForRound m } := by
      have hlogged : ForQuery env.crypto held query
          (u.act (.replayOverlay u.overlayRound (u.futureOverlayMessages.filter u.isForRound))) :=
        hbegun.same (.act u rfl) hbegun.held
      exact { hlogged with future := fun m hm => hbegun.future m (List.mem_filter.mp hm).1 }
    refine Outcome.Ends.andThen (P := ForQuery env.crypto held query)
      (Outcome.forEach_ends hextracted fun message hmessage t ht => ?_) fun t ht => ?_
    · obtain ⟨hfuture, hround⟩ := List.mem_filter.mp hmessage
      have hquery : message.body.queryNum = u.getCurrentQueryNum := by
        unfold isForRound at hround
        exact of_decide_eq_true (Bool.and_eq_true_iff.mp hround).2
      exact handleOverlayMessage_forQuery K hcrypto hend ht (hquery.trans hbegun.current)
        (hbegun.future message hfuture)
    · split_ifs
      · exact hend _ (ht.same (.act t rfl) ht.held)
      · exact ht

omit hend in
theorem endOverlayRound_forQuery (fuel : ℕ) (hs : ForQuery env.crypto held query s) :
    (endOverlayRound env P fuel s).Holds (ForQuery env.crypto held query) := by
  induction fuel generalizing s with
  | zero => exact hs
  | succ fuel ih =>
    exact (K.ends env query s hcrypto hs).andThen fun t ht =>
      superEndOverlayRound_forQuery K hcrypto (fun _ => ih) ht

omit hend in
theorem startQuery_forQuery (fuel : ℕ) {request : QueryRequest} (data : List FixedPoint)
    (hs : ForQuery env.crypto held query s)
    (hkept : ∀ m ∈ s.waitingMessages ++ s.outgoingMessages, m.queryNum = request.queryNumber) :
    (startQuery env P fuel request data s).Ends (ForQuery env.crypto held request.queryNumber)
      fun t => SendsOwnQuery t.trace := by
  have hstarted : SendsOwnQuery (s.trace ++ [.startQuery request.queryNumber]) :=
    everyEntry_concat.mpr ⟨hs.sent, trivial⟩
  have hopened (t : ProtocolState ι) (hcurrent : t.getCurrentQueryNum = request.queryNumber)
      (hwaiting : t.waitingMessages = s.waitingMessages)
      (houtgoing : t.outgoingMessages = s.outgoingMessages)
      (hfuture : t.futureOverlayMessages = s.futureOverlayMessages)
      (htrace : t.trace = s.trace ++ [.startQuery request.queryNumber]) :
      ForQuery env.crypto (fun _ _ => True) request.queryNumber t := by
    refine ⟨hcurrent, fun m hm => ?_, fun m hm => ?_, trivial, hfuture ▸ hs.future, ?_, ?_⟩
    · exact hkept m (List.mem_append_left _ (hwaiting ▸ hm))
    · exact hkept m (List.mem_append_right _ (houtgoing ▸ hm))
    · rw [htrace, lastQuery_concat]
      exact fun q hq => (Option.some.inj hq).symm
    · rw [htrace]
      exact hstarted
  unfold startQuery
  dsimp only
  split
  · exact hstarted
  · exact K.start env _ request _ hcrypto (hopened _ rfl rfl rfl rfl rfl) fun t ht =>
      endOverlayRound_forQuery K hcrypto fuel ht

omit hend in
theorem receiveOverlay_forQuery (fuel : ℕ) (hs : ForQuery env.crypto held query s)
    {message : OverlayTransportMessage} (hencloses : message.body.EnclosesOwn env.crypto) :
    (receiveOverlay env P fuel message s).Holds (ForQuery env.crypto held query) := by
  have hbuffered : ForQuery env.crypto held query (s.bufferOverlay message) := by
    refine { hs with future := fun m hm => ?_ }
    rcases List.mem_append.mp hm with hm | hm
    · exact hs.future m hm
    · rw [List.mem_singleton.mp hm]
      exact hencloses
  unfold receiveOverlay
  split_ifs with hlater hearlier hround hfuture
  · exact hbuffered
  · exact hs
  · have hquery : message.body.queryNum = query := by
      have hcurrent := hs.current
      omega
    exact handleOverlayMessage_forQuery K hcrypto
      (fun _ => endOverlayRound_forQuery K hcrypto fuel) hs hquery hencloses
  · exact hbuffered
  · exact hs

omit hend in
theorem timerExpires_forQuery (fuel : ℕ) (id : ℤ) (hs : ForQuery env.crypto held query s) :
    (timerExpires env P fuel id s).Holds (ForQuery env.crypto held query) := by
  unfold timerExpires
  split
  · unfold handleRoundTimeout
    dsimp only
    split_ifs
    · refine Outcome.ends_done.mpr (ForQuery.sendPing env ?_ _ _)
      refine hs.same ?_ hs.held
      exact .of_fields rfl rfl rfl rfl rfl
    · refine endOverlayRound_forQuery K hcrypto fuel (hs.same (SameTraffic.trans ?_ (.act _ rfl))
        hs.held)
      exact .of_fields rfl rfl rfl rfl rfl
  · exact hs

end Rounds

/-- Every message that waits, or is to be sent next, belongs to the query requested. -/
def Requeued (s : ProtocolState ι) (request : QueryRequest) : Prop :=
  ∀ m ∈ s.waitingMessages ++ s.outgoingMessages, m.queryNum = request.queryNumber

theorem forQuery_survives {L : Layered P} (K : KeepsQuery L held) (env : ProtocolEnv)
    (hcrypto : env.crypto.KeepsQueryNum) (fuel : ℕ) :
    Survives env P fuel Requeued (fun message => message.body.EnclosesOwn env.crypto)
      (fun s => ∃ query, ForQuery env.crypto held query s) fun s => SendsOwnQuery s.trace := by
  have hstops (query : ℤ) (t : ProtocolState ι) (ht : ForQuery env.crypto held query t) :
      SendsOwnQuery t.trace := ht.sent
  have hgoes (query : ℤ) {o : Outcome Fault (ProtocolState ι)}
      (ho : o.Holds (ForQuery env.crypto held query)) :
      o.Ends (fun s => ∃ query, ForQuery env.crypto held query s) fun s => SendsOwnQuery s.trace :=
    ho.mono (fun _ ht => ⟨query, ht⟩) (hstops query)
  constructor
  case weaken => exact fun s ⟨query, hs⟩ => hs.sent
  case init => exact ⟨-1, rfl, by simp [init], by simp [init], K.init, by simp [init],
    by simp [init, lastQuery], everyEntry_nil⟩
  case start =>
    rintro request data s ⟨query, hs⟩ hkept
    exact (startQuery_forQuery K hcrypto fuel data hs hkept).mono (fun _ ht => ⟨_, ht⟩)
      fun _ ht => ht
  case overlay =>
    rintro message s ⟨query, hs⟩ hencloses
    exact hgoes query (receiveOverlay_forQuery K hcrypto fuel hs hencloses)
  case aggregation =>
    rintro message s ⟨query, hs⟩
    refine hgoes query ?_
    have hframe (t : ProtocolState ι) (ht : SameOverlay P.toAggregatePhase s t) :
        ForQuery env.crypto held query t :=
      hs.sameOverlay (K.begins query) (K.finishes query) ht
    exact (SameOverlay.receiveAggregation message s).mono hframe hframe
  case ping =>
    rintro message s ⟨query, hs⟩
    refine ⟨query, ?_⟩
    unfold handlePingMessage
    split_ifs
    · exact hs.same (.act s rfl) hs.held
    · exact hs.same (.of_fields rfl rfl rfl rfl rfl) hs.held
    · exact hs
  case signature =>
    rintro message s ⟨query, hs⟩
    exact hgoes query (K.signature env _ query message s hcrypto hs fun t ht =>
      endOverlayRound_forQuery K hcrypto fuel ht)
  case timer =>
    rintro id s ⟨query, hs⟩
    exact hgoes query (timerExpires_forQuery K hcrypto fuel id hs)

end ProtocolState

namespace CtProtocolState
open ProtocolState (ForQuery SameTraffic)

theorem keepsQuery : ProtocolState.KeepsQuery layered fun _ _ => True := by
  constructor
  case begins => exact fun _ _ h => h
  case finishes => exact fun _ _ h => h
  case init => trivial
  case body =>
    intro env query message s _ hs _ hencloses
    have heffect (t : State) (ht : BodyEffect env message s t) :
        ForQuery env.crypto (fun _ _ => True) query t := by
      cases ht with
      | ignored => exact hs
      | forwarded enclosed hbody => exact hs.wait (hencloses enclosed hbody)
      | accepted contribution => exact hs.emplaceProxyValue contribution
    exact (handleBody_effect message s).mono heffect heffect
  case ends =>
    intro env query s hcrypto hs
    have heffect (t : State) (ht : EndEffect env s t) :
        ForQuery env.crypto (fun _ _ => True) query t := by
      cases ht with
      | kept _ h => exact hs.multicasts hcrypto (hs.current ▸ h)
      | echoed u h =>
        refine (hs.multicasts hcrypto (hs.current ▸ h)).same ?_ trivial
        exact .of_fields rfl rfl rfl rfl rfl
      | entered _ h => exact hs.same (.of_sameOverlay h) trivial
    exact (endOverlayRoundImpl_effect s).mono heffect heffect
  case start =>
    intro env endRound request s hcrypto hs hstart
    have hshuffle : ForQuery env.crypto (fun _ _ => True) request.queryNumber
        (s.onImpl fun _ => ⟨0, .shuffle⟩) := hs.same (.of_fields rfl rfl rfl rfl rfl) trivial
    change (startQueryImpl env endRound request s).Ends _ _
    unfold startQueryImpl
    dsimp only
    split
    · exact hs.sent
    · next contribution hcontribution =>
      have hquery := (ProtocolState.current_of_contribution hcontribution).symm.trans hshuffle.current
      exact (hshuffle.multicastToProxies hcrypto hquery hstart).mono (fun _ ht => ht)
        fun _ ht => ht.sent
  case signature => exact fun _ _ _ _ _ _ hs _ => hs

end CtProtocolState

namespace HftProtocolState
open ProtocolState (ForQuery SameTraffic)

def HoldsQuery (query : ℤ) (i : HftProtocolState) : Prop :=
  ∀ m ∈ i.currentFloodMessages ++ i.relayMessages, m.queryNum = query

theorem mem_emplaceMessage {messages : List OverlayMessage} {message m : OverlayMessage}
    (hm : m ∈ emplaceMessage messages message) : m ∈ messages ∨ m = message := by
  unfold emplaceMessage at hm
  split_ifs at hm
  · exact .inl hm
  · exact (List.mem_append.mp hm).imp_right List.mem_singleton.mp

theorem mem_foldl_emplaceMessage {messages stored : List OverlayMessage} {m : OverlayMessage}
    (hm : m ∈ messages.foldl emplaceMessage stored) : m ∈ stored ∨ m ∈ messages := by
  induction messages generalizing stored with
  | nil => exact .inl hm
  | cons message messages ih =>
    rcases ih hm with hm | hm
    · rcases mem_emplaceMessage hm with hm | rfl
      · exact .inl hm
      · exact .inr (by simp)
    · exact .inr (List.mem_cons_of_mem _ hm)

/-- Whatever is flooded next, if it was kept before. -/
theorem HoldsQuery.of_subset {query : ℤ} {i i' : HftProtocolState} (h : HoldsQuery query i)
    (hsub : ∀ m ∈ i'.currentFloodMessages ++ i'.relayMessages,
      m ∈ i.currentFloodMessages ++ i.relayMessages) : HoldsQuery query i' :=
  fun m hm => h m (hsub m hm)

theorem HoldsQuery.cleared {query : ℤ} {i i' : HftProtocolState} (h : HoldsQuery query i)
    (hflood : i'.currentFloodMessages = []) (hrelay : i'.relayMessages = i.relayMessages) :
    HoldsQuery query i' := by
  apply h.of_subset
  intro m hm
  rw [hflood, hrelay] at hm
  exact List.mem_append_right _ hm

theorem keepsQuery : ProtocolState.KeepsQuery layered HoldsQuery := by
  have hbegins (query : ℤ) (i : HftProtocolState) (h : HoldsQuery query i) :
      HoldsQuery query (aggregatePhase.begin i) := h
  have hfinishes (query : ℤ) (i : HftProtocolState) (h : HoldsQuery query i) :
      HoldsQuery query (aggregatePhase.finish i) := h.cleared rfl rfl
  constructor
  case begins => exact hbegins
  case finishes => exact hfinishes
  case init => simp [HoldsQuery, protocol, init]
  case body =>
    intro env query message s _ hs hquery hencloses
    have heffect (t : State) (ht : BodyEffect env message s t) :
        ForQuery env.crypto HoldsQuery query t := by
      cases ht with
      | ignored => exact hs
      | relayed wrapped hbody =>
        refine hs.same ?_ fun m hm => ?_
        · exact .of_fields rfl rfl rfl rfl rfl
        · rcases List.mem_append.mp hm with hm | hm
          · exact hs.held m (List.mem_append_left _ hm)
          · rcases mem_emplaceMessage hm with hm | rfl
            · exact hs.held m (List.mem_append_right _ hm)
            · exact hencloses m hbody
      | accepted contribution => exact hs.emplaceProxyValue contribution
      | flooded =>
        refine hs.same ?_ fun m hm => ?_
        · exact .of_fields rfl rfl rfl rfl rfl
        · rcases List.mem_append.mp hm with hm | hm
          · rcases mem_emplaceMessage hm with hm | rfl
            · exact hs.held m (List.mem_append_left _ hm)
            · exact hquery
          · exact hs.held m (List.mem_append_right _ hm)
    exact (handleBody_effect message s).mono heffect heffect
  case ends =>
    intro env query s _ hs
    have heffect (t : State) (ht : PhaseEffect s t) : ForQuery env.crypto HoldsQuery query t := by
      cases ht with
      | kept => exact hs
      | gathered =>
        refine hs.same ?_ (hs.held.of_subset fun m hm => ?_)
        · exact .of_fields rfl rfl rfl rfl rfl
        · exact List.mem_append_right _ (by simpa using hm)
      | entered _ h =>
        have hcleared : ForQuery env.crypto HoldsQuery query
            (s.onImpl fun i => { i with currentFloodMessages := [] }) := by
          refine hs.same ?_ (hs.held.cleared rfl rfl)
          exact .of_fields rfl rfl rfl rfl rfl
        exact hcleared.sameOverlay (hbegins query) (hfinishes query) h
    change (endOverlayRoundImpl env s).Holds _
    unfold endOverlayRoundImpl
    refine ((endPhase_effect s).mono heffect heffect).andThen fun t ht => ?_
    unfold flood
    split_ifs
    · have hflooded := ht.send (env.π.order t.impl.currentFloodMessages) fun m hm =>
        ht.held m (List.mem_append_left _ (env.π.mem_order.mp hm))
      refine hflooded.same ?_ (ht.held.of_subset fun m hm => ?_)
      · exact .of_fields rfl rfl rfl rfl rfl
      · rcases List.mem_append.mp hm with hm | hm
        · exact List.mem_append_left _ (List.mem_filter.mp hm).1
        · exact List.mem_append_right _ hm
    · exact ht
  case start =>
    intro env endRound request s hcrypto hs hstart
    change (startQueryImpl env endRound request s).Ends _ _
    unfold startQueryImpl
    split
    · exact hs.sent
    · next contribution hcontribution =>
      have hquery := (ProtocolState.current_of_contribution hcontribution).symm.trans hs.current
      refine (hstart _ ?_).mono (fun _ ht => ht) fun _ ht => ht.sent
      refine hs.same (SameTraffic.trans ?_ (.act _ rfl)) fun m hm => ?_
      · exact .of_fields (hquery.trans hs.current.symm) rfl rfl rfl rfl
      · rcases List.mem_append.mp hm with hm | hm
        · rcases mem_foldl_emplaceMessage hm with hm | hm
          · cases hm
          · obtain ⟨proxyRelay, -, rfl⟩ := List.mem_map.mp hm
            exact hcrypto.encrypt _ _
        · cases hm
  case signature => exact fun _ _ _ _ _ _ hs _ => hs

end HftProtocolState

namespace BftProtocolState
open ProtocolState (ForQuery SameTraffic)

def AgreesOn (query : ℤ) (i : BftProtocolState) : Prop :=
  ∀ agreement, i.agreementPhaseState = some agreement → agreement.queryNum = query

theorem handleMessage_queryNum (crypto : CryptoLibrary) (message : OverlayMessage)
    (s : CrusaderAgreementState) : (s.handleMessage crypto message).queryNum = s.queryNum := by
  unfold CrusaderAgreementState.handleMessage
  split
  · unfold CrusaderAgreementState.handlePhase1Message
    split
    · rfl
    · split_ifs
      · split <;> rfl
      · rfl
  · unfold CrusaderAgreementState.handlePhase2Message
    split_ifs
    · dsimp only
      split <;> rfl
    · rfl
    · rfl
  · rfl

theorem keepsQuery : ProtocolState.KeepsQuery layered AgreesOn := by
  have hbegins (query : ℤ) (i : BftProtocolState) (h : AgreesOn query i) :
      AgreesOn query (aggregatePhase.begin i) := h
  have hfinishes (query : ℤ) (i : BftProtocolState) (h : AgreesOn query i) :
      AgreesOn query (aggregatePhase.finish i) := h
  constructor
  case begins => exact hbegins
  case finishes => exact hfinishes
  case init => exact fun agreement h => nomatch h
  case body =>
    intro env query message s _ hs _ hencloses
    have heffect (t : State) (ht : BodyEffect env message s t) :
        ForQuery env.crypto AgreesOn query t := by
      cases ht with
      | ignored => exact hs
      | forwarded enclosed hbody => exact hs.wait (hencloses enclosed hbody)
      | accepted contribution => exact hs.emplaceProxyValue contribution
      | agreed agreement u hagreement hlogged =>
        have hu : SameTraffic s u := by
          rcases hlogged with rfl | ⟨_, _, rfl⟩
          · exact .refl u
          · exact .act s rfl
        refine hs.same (hu.trans ?_) fun agreement' h => ?_
        · exact .of_fields rfl rfl rfl rfl rfl
        · obtain rfl := Option.some.inj h
          exact (handleMessage_queryNum env.crypto message agreement).trans
            (hs.held agreement hagreement)
    exact (handleBody_effect message s).mono heffect heffect
  case ends =>
    intro env query s hcrypto hs
    have heffect (t : State) (ht : EndEffect env s t) : ForQuery env.crypto AgreesOn query t := by
      cases ht with
      | kept _ h => exact hs.multicasts hcrypto (hs.current ▸ h)
      | agreeing u h =>
        have hu := hs.multicasts hcrypto (hs.current ▸ h)
        refine hu.same ?_ hu.held
        exact .of_fields rfl rfl rfl rfl rfl
      | accepting agreement u hagreement h =>
        have hagrees := hs.held agreement hagreement
        refine (hs.multicasts hcrypto (hagrees ▸ h)).same ?_ fun agreement' h' => ?_
        · exact .of_fields rfl rfl rfl rfl rfl
        · obtain rfl := Option.some.inj h'
          exact hagrees
      | entered values _ h =>
        have haccepted : ForQuery env.crypto AgreesOn query
            (s.onImpl fun i => { i with acceptedProxyValues := values }) := by
          refine hs.same ?_ hs.held
          exact .of_fields rfl rfl rfl rfl rfl
        exact haccepted.sameOverlay (hbegins query) (hfinishes query) h
    exact (endOverlayRoundImpl_effect s).mono heffect heffect
  case start =>
    intro env endRound request s hcrypto hs hstart
    change (startQueryImpl env endRound request s).Ends _ _
    unfold startQueryImpl
    dsimp only
    split
    · exact hs.sent
    · refine Outcome.ends_done.mpr (hs.same (SameTraffic.trans ?_ (.act _ rfl)) ?_)
      · exact .of_fields rfl rfl rfl rfl rfl
      · intro agreement h
        obtain rfl := Option.some.inj h
        rfl
  case signature =>
    intro env endRound query message s hcrypto hs hend
    change (handleSignatureResponse env endRound message s).Holds _
    unfold handleSignatureResponse
    split
    · exact hs
    · next contribution hcontribution =>
      have hquery := (ProtocolState.current_of_contribution hcontribution).symm.trans hs.current
      have hshuffle : ForQuery env.crypto AgreesOn query
          (s.onImpl fun i => { i with protocolPhase := .shuffle }) := by
        refine hs.same ?_ hs.held
        exact .of_fields rfl rfl rfl rfl rfl
      exact hshuffle.multicastToProxies hcrypto hquery hend

end BftProtocolState

namespace MeterClient
open ProtocolState (Requeued)

/-- Where a query arrives, nothing of another query is left to be sent, and every overlay
message encloses only what belongs to its own query. -/
def KeepsApart {ι : Type} (env : ClientEnv) (P : Protocol ι) (fuel : ℕ) (es : List Event) : Prop :=
  Along (step env P fuel) (Allowed env Requeued fun message => message.body.EnclosesOwn env.crypto)
    (.done (init P)) es

theorem sends_own_of_keepsApart {ι : Type} {env : ClientEnv} {P : Protocol ι} {fuel : ℕ}
    {L : ProtocolState.Layered P} {held : ℤ → ι → Prop} (K : ProtocolState.KeepsQuery L held)
    (hcrypto : env.crypto.KeepsQueryNum) {es : List Event} (hes : KeepsApart env P fuel es) :
    Throughout (step env P fuel) (fun o => Both env (fun _ s => SendsOwnQuery s.trace) o.state)
      (.done (init P)) es := by
  have hsurvives (env' : ProtocolEnv) : ProtocolState.Survives env' P fuel Requeued
      (fun message => message.body.EnclosesOwn env.crypto)
      (fun s => env'.crypto = env.crypto → ∃ query, ProtocolState.ForQuery env.crypto held query s)
      fun s => env'.crypto = env.crypto → SendsOwnQuery s.trace := by
    apply ProtocolState.Survives.assuming
    intro hsame
    have h := ProtocolState.forQuery_survives K env' (hsame ▸ hcrypto) fuel
    rwa [hsame] at h
  refine (throughout_survives hsurvives hes).mono fun o ho => ?_
  exact ⟨ho.primary rfl, fun id s hs => ho.secondary id s hs rfl⟩

/-- In every run that keeps queries apart, a client of any protocol sends overlay messages
of the query in progress only, under each of its IDs. -/
theorem sends_own_query_of_keepsApart (env : ClientEnv) (fuel : ℕ) (es : List Event)
    (hcrypto : env.crypto.KeepsQueryNum) :
    (KeepsApart env CtProtocolState.protocol fuel es →
      Throughout (step env CtProtocolState.protocol fuel)
        (fun o => Both env (fun _ s => SendsOwnQuery s.trace) o.state)
        (.done (init CtProtocolState.protocol)) es) ∧
    (KeepsApart env HftProtocolState.protocol fuel es →
      Throughout (step env HftProtocolState.protocol fuel)
        (fun o => Both env (fun _ s => SendsOwnQuery s.trace) o.state)
        (.done (init HftProtocolState.protocol)) es) ∧
    (KeepsApart env BftProtocolState.protocol fuel es →
      Throughout (step env BftProtocolState.protocol fuel)
        (fun o => Both env (fun _ s => SendsOwnQuery s.trace) o.state)
        (.done (init BftProtocolState.protocol)) es) :=
  ⟨sends_own_of_keepsApart CtProtocolState.keepsQuery hcrypto,
    sends_own_of_keepsApart HftProtocolState.keepsQuery hcrypto,
    sends_own_of_keepsApart BftProtocolState.keepsQuery hcrypto⟩

def sampleClient : ClientEnv := sampleEnv 0 11 eleven_meters 4 5 fun _ => true

/-- A message of query 0, which waits to be forwarded to meter 1. -/
def toBeForwarded : OverlayTransportMessage :=
  ⟨10, 0, false, .make 0 0 (OverlayMessage.make 0 1 .null false).toBody false⟩

theorem sample_keepsApart {ι : Type} (P : Protocol ι) :
    KeepsApart sampleClient P 100 [sampleQuery 0, .overlay toBeForwarded] := by
  refine ⟨⟨?_, fun id s h => nomatch h⟩, ?_, trivial⟩
  · exact fun m hm => nomatch hm
  · intro enclosed henclosed
    obtain rfl := Option.some.inj henclosed
    rfl

theorem sample_sends_own_query :
    Throughout (step sampleClient CtProtocolState.protocol 100)
        (fun o => Both sampleClient (fun _ s => SendsOwnQuery s.trace) o.state)
        (.done (init CtProtocolState.protocol)) [sampleQuery 0, .overlay toBeForwarded] ∧
      Throughout (step sampleClient HftProtocolState.protocol 100)
        (fun o => Both sampleClient (fun _ s => SendsOwnQuery s.trace) o.state)
        (.done (init HftProtocolState.protocol)) [sampleQuery 0, .overlay toBeForwarded] ∧
      Throughout (step sampleClient BftProtocolState.protocol 100)
        (fun o => Both sampleClient (fun _ s => SendsOwnQuery s.trace) o.state)
        (.done (init BftProtocolState.protocol)) [sampleQuery 0, .overlay toBeForwarded] := by
  obtain ⟨hct, hhft, hbft⟩ := sends_own_query_of_keepsApart sampleClient 100
    [sampleQuery 0, .overlay toBeForwarded] dummyCrypto_keepsQueryNum
  exact ⟨hct (sample_keepsApart _), hhft (sample_keepsApart _), hbft (sample_keepsApart _)⟩

/-- Query 1 arrives while a message of query 0 still waits. -/
def leftover : List Event := [sampleQuery 0, .overlay toBeForwarded, sampleQuery 1]

/-- The message that waited is the final one of round 0 of query 1. -/
theorem leftover_is_final_in_next_query :
    ¬ Both sampleClient (fun _ s => SendsOwnQuery s.trace)
      (run sampleClient CtProtocolState.protocol 100 leftover).state := by
  intro h
  let trace := (run sampleClient CtProtocolState.protocol 100 leftover).state.primary.trace
  have hsplit : trace = trace.take 8 ++
      .sendOverlay [⟨0, 0, true, .make 0 1 .null false⟩] 1 :: trace.drop 9 := by
    decide +kernel
  have hquery : lastQuery (trace.take 8) = some 1 := by decide +kernel
  have hsame : (0 : ℤ) = 1 := h.primary _ _ _ hsplit 1 hquery _ (List.mem_singleton_self _)
  exact absurd hsame (by decide)

end MeterClient
end Pddm
