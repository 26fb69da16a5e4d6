import Pddm.Parties
import Pddm.SealedMessages
import Pddm.WaitingMessages

/-!
# Sealed messages in runs

What the meters of a network decrypt. A meter opens whatever is encrypted, also on the way to
the addressee.
-/
namespace Pddm

structure Fits (crypto : ℤ → CryptoLibrary) (recipientId : ℤ) (m : OverlayMessage) : Prop where
  wellSealed : WellSealed crypto m
  destination : m.isEncrypted = true → m.flood = false → m.destination = recipientId

namespace ProtocolState
variable {ι : Type}

def decrypted (s : ProtocolState ι) : List OverlayMessage := s.handled.filter (·.isEncrypted)

/-- What a meter has to send, now or later. -/
def stock (stored : ι → List OverlayMessage) (s : ProtocolState ι) : List OverlayMessage :=
  s.waitingMessages ++ s.outgoingMessages ++ stored s.impl

/-- From `s` to `t` nothing is handled or sent, and only what meets `Q` is taken in. -/
structure Carries (Q : OverlayMessage → Prop) (stored : ι → List OverlayMessage)
    (s t : ProtocolState ι) : Prop where
  stock : ∀ m ∈ t.stock stored, m ∈ s.stock stored ∨ Q m
  future : t.futureOverlayMessages ⊆ s.futureOverlayMessages
  trace : ∃ ext, t.trace = s.trace ++ ext ∧
    ∀ a ∈ ext, a.handledMessage = none ∧ a.sentBatch = none

namespace Carries
variable {Q : OverlayMessage → Prop} {stored : ι → List OverlayMessage} {s t u : ProtocolState ι}

theorem of_fields (stock : ∀ m ∈ t.stock stored, m ∈ s.stock stored ∨ Q m)
    (futureOverlayMessages : t.futureOverlayMessages = s.futureOverlayMessages)
    (trace : t.trace = s.trace) : Carries Q stored s t :=
  ⟨stock, by simp [futureOverlayMessages], [], by simp [trace], by simp⟩

theorem refl (s : ProtocolState ι) : Carries Q stored s s := of_fields (fun _ => .inl) rfl rfl

theorem trans (h : Carries Q stored s t) (h' : Carries Q stored t u) : Carries Q stored s u := by
  obtain ⟨ext, htrace, hext⟩ := h.trace
  obtain ⟨ext', htrace', hext'⟩ := h'.trace
  refine ⟨fun m hm => ?_, List.Subset.trans h'.future h.future, ext ++ ext', ?_, fun a ha => ?_⟩
  · rcases h'.stock m hm with hm | hm
    · exact h.stock m hm
    · exact .inr hm
  · rw [htrace', htrace, List.append_assoc]
  · rcases List.mem_append.mp ha with ha | ha
    · exact hext a ha
    · exact hext' a ha

theorem act (s : ProtocolState ι) {a : Action} (hhandled : a.handledMessage = none)
    (hsent : a.sentBatch = none) : Carries Q stored s (s.act a) :=
  ⟨fun _ => .inl, List.Subset.refl _, [a], rfl, by simp [hhandled, hsent]⟩

theorem onImpl (s : ProtocolState ι) {f : ι → ι}
    (hstored : ∀ m ∈ stored (f s.impl), m ∈ stored s.impl ∨ Q m) :
    Carries Q stored s (s.onImpl f) := by
  refine of_fields (fun m hm => ?_) rfl rfl
  rcases List.mem_append.mp hm with hm | hm
  · exact .inl (List.mem_append_left _ hm)
  · exact (hstored m hm).imp_left (List.mem_append_right _)

theorem wait (s : ProtocolState ι) {m : OverlayMessage} (hm : Q m) :
    Carries Q stored s (s.wait m) := by
  refine of_fields (fun w hw => ?_) rfl rfl
  simp only [ProtocolState.stock, ProtocolState.wait, List.mem_append, List.mem_singleton] at hw ⊢
  rcases hw with ((hw | rfl) | hw) | hw
  · exact .inl (.inl (.inl hw))
  · exact .inr hm
  · exact .inl (.inl (.inr hw))
  · exact .inl (.inr hw)

theorem send (s : ProtocolState ι) {messages : List OverlayMessage}
    (hmessages : ∀ m ∈ messages, m ∈ s.stock stored ∨ Q m) :
    Carries Q stored s { s with outgoingMessages := s.outgoingMessages ++ messages } := by
  refine of_fields (fun w hw => ?_) rfl rfl
  simp only [ProtocolState.stock, List.mem_append] at hw
  rcases hw with (hw | hw | hw) | hw
  · exact .inl (List.mem_append_left _ (List.mem_append_left _ hw))
  · exact .inl (List.mem_append_left _ (List.mem_append_right _ hw))
  · exact hmessages w hw
  · exact .inl (List.mem_append_right _ hw)

theorem emplaceProxyValue (s : ProtocolState ι) (contribution : ValueContribution) :
    Carries Q stored s (s.emplaceProxyValue contribution) := by
  unfold ProtocolState.emplaceProxyValue
  split_ifs
  · exact refl s
  · exact of_fields (fun _ => .inl) rfl rfl

theorem of_bookkeeping (h : Bookkeeping s t) : Carries Q stored s t := by
  obtain ⟨ext, htrace, hext⟩ := h.trace
  refine ⟨fun m hm => .inl ?_, h.futureOverlayMessages, ext, htrace, fun a ha => ?_⟩
  · unfold ProtocolState.stock at hm ⊢
    rwa [h.waitingMessages, h.outgoingMessages, h.impl] at hm
  · have hnote := hext a ha
    cases a <;> simp_all [Action.isNote, Action.handledMessage, Action.sentBatch]

theorem of_sameOverlay {ph : AggregatePhase ι} (h : SameOverlay ph s t)
    (hbegin : ∀ i, stored (ph.begin i) ⊆ stored i)
    (hfinish : ∀ i, stored (ph.finish i) ⊆ stored i) : Carries Q stored s t := by
  obtain ⟨ext, htrace, hext⟩ := h.trace
  refine ⟨fun m hm => .inl ?_, by simp [h.futureOverlayMessages], ext, htrace, fun a ha => ?_⟩
  · have himpl : stored t.impl ⊆ stored s.impl :=
      h.impl (fun i => stored i ⊆ stored s.impl) (fun i => List.Subset.trans (hbegin i))
        (fun i => List.Subset.trans (hfinish i)) (List.Subset.refl _)
    unfold ProtocolState.stock at hm ⊢
    rw [h.waitingMessages, h.outgoingMessages] at hm
    rcases List.mem_append.mp hm with hm | hm
    · exact List.mem_append_left _ hm
    · exact List.mem_append_right _ (himpl hm)
  · have haggregation := hext a ha
    cases a <;> simp_all [Action.isAggregation, Action.handledMessage, Action.sentBatch]

theorem handled_eq (h : Carries Q stored s t) : t.handled = s.handled := by
  obtain ⟨ext, htrace, hext⟩ := h.trace
  have hnone : ext.filterMap Action.handledMessage = [] :=
    List.filterMap_eq_nil_iff.mpr fun a ha => (hext a ha).1
  rw [ProtocolState.handled, htrace, List.filterMap_append, hnone, List.append_nil]
  rfl

theorem mem_trace_iff (h : Carries Q stored s t) (batch : List OverlayTransportMessage)
    (recipientId : ℤ) :
    .sendOverlay batch recipientId ∈ t.trace ↔ .sendOverlay batch recipientId ∈ s.trace := by
  obtain ⟨ext, htrace, hext⟩ := h.trace
  rw [htrace, List.mem_append, or_iff_left]
  intro hmem
  simpa [Action.sentBatch] using (hext _ hmem).2

end Carries

section Keeping
variable {crypto : ℤ → CryptoLibrary} {stored : ι → List OverlayMessage} {i : ℤ}
  {good : OverlayMessage → Prop} {s t : ProtocolState ι}

/-- All that a meter has, has got and has sent is sealed as it should be. -/
structure WellKept (crypto : ℤ → CryptoLibrary) (stored : ι → List OverlayMessage) (i : ℤ)
    (s : ProtocolState ι) : Prop where
  stock : ∀ m ∈ s.stock stored, WellSealed crypto m
  sent : ∀ batch recipientId, .sendOverlay batch recipientId ∈ s.trace →
    ∀ x ∈ batch, Fits crypto recipientId x.body
  handled : ∀ m ∈ s.handled, Fits crypto i m

/-- It is so as long as the meter decrypts only what is good for it. -/
structure KeptWhile (crypto : ℤ → CryptoLibrary) (stored : ι → List OverlayMessage) (i : ℤ)
    (good : OverlayMessage → Prop) (s : ProtocolState ι) : Prop where
  future : ∀ x ∈ s.futureOverlayMessages, Fits crypto i x.body
  kept : (∀ m ∈ s.decrypted, good m) → WellKept crypto stored i s

theorem KeptWhile.carries (hs : KeptWhile crypto stored i good s)
    (h : Carries (WellSealed crypto) stored s t) : KeptWhile crypto stored i good t := by
  refine ⟨fun x hx => hs.future x (h.future hx), fun hgood => ?_⟩
  unfold decrypted at hgood
  rw [h.handled_eq] at hgood
  have hkept := hs.kept hgood
  refine ⟨fun m hm => (h.stock m hm).elim (hkept.stock m) id, fun batch recipientId hmem => ?_, ?_⟩
  · exact hkept.sent batch recipientId ((h.mem_trace_iff batch recipientId).mp hmem)
  · rw [h.handled_eq]
    exact hkept.handled

theorem fits_of_mem_nextBatch {env : ProtocolEnv}
    (hstock : ∀ m ∈ s.stock stored, WellSealed crypto m) {x : OverlayTransportMessage}
    (hx : x ∈ nextBatch env s) : Fits crypto (nextTarget env s) x.body := by
  have hmem : x.body ∈ (nextBatch env s).map (·.body) := List.mem_map_of_mem hx
  rw [bodies_nextBatch] at hmem
  split_ifs at hmem
  · rw [List.mem_singleton.mp hmem]
    exact ⟨.of_payload rfl rfl, fun _ _ => rfl⟩
  · rcases List.mem_append.mp hmem with hmem | hmem
    · obtain ⟨hwaiting, htarget⟩ := List.mem_filter.mp hmem
      refine ⟨hstock _ (List.mem_append_left _ (List.mem_append_left _ hwaiting)), fun _ _ => ?_⟩
      exact of_decide_eq_true htarget
    · obtain ⟨houtgoing, htarget⟩ := List.mem_filter.mp hmem
      refine ⟨hstock _ (List.mem_append_left _ (List.mem_append_right _ houtgoing)),
        fun _ hflood => ?_⟩
      simpa [hflood] using htarget

theorem KeptWhile.sends (hs : KeptWhile crypto stored i good s) (env : ProtocolEnv) :
    KeptWhile crypto stored i good (sendOverlayMessageBatch env
      { s with overlayRound := s.overlayRound + 1, pingResponseFromPredecessor := false }) := by
  obtain ⟨failed, hbatch⟩ := sendOverlayMessageBatch_next env s
  rw [hbatch]
  refine ⟨hs.future, fun hgood => ?_⟩
  have hhandled {t : ProtocolState ι} (ht : t.trace = s.trace ++
      [.sendOverlay (nextBatch env s) (nextTarget env s)]) : t.handled = s.handled := by
    rw [handled, ht, List.filterMap_append]
    exact List.append_nil _
  unfold decrypted at hgood
  rw [hhandled rfl] at hgood
  have hkept := hs.kept hgood
  refine ⟨fun m hm => hkept.stock m ?_, fun batch recipientId hmem x hx => ?_, ?_⟩
  · simp only [stock, keptMessages, List.append_nil, List.mem_append, List.mem_filter] at hm ⊢
    rcases hm with (hm | hm) | hm
    · exact .inl (.inl hm.1)
    · exact .inl (.inr hm.1)
    · exact .inr hm
  · rcases List.mem_append.mp hmem with hmem | hmem
    · exact hkept.sent batch recipientId hmem x hx
    · obtain ⟨rfl, rfl⟩ := Action.sendOverlay.inj (List.mem_singleton.mp hmem)
      exact fits_of_mem_nextBatch hkept.stock hx
  · rw [hhandled rfl]
    exact hkept.handled

/-- A message that fits is handled, by a handler that keeps what it is given. -/
theorem KeptWhile.handles (hcrypto : SealsBody crypto) (hs : KeptWhile crypto stored i good s)
    (hgood : ∀ m, WellSealed crypto m → m.isEncrypted = true → good m → SealedFor crypto i m)
    {env : ProtocolEnv} (henv : env.crypto = crypto i) {P : Protocol ι}
    {message : OverlayTransportMessage} (hmessage : Fits crypto i message.body)
    (h : Carries (fun w => (message.body.isEncrypted = true → good message.body) →
      WellSealed crypto w) stored (noteOverlay env P message s) t) :
    KeptWhile crypto stored i good t := by
  obtain ⟨timer, timers, hnote⟩ := noteOverlay_fields env P message s
  rw [hnote] at h
  have hhandled : t.handled = s.handled ++ [message.body] := by
    rw [h.handled_eq, handled, List.filterMap_append]
    rfl
  refine ⟨fun x hx => hs.future x (h.future hx), fun hclean => ?_⟩
  have hopens : message.body.isEncrypted = true → good message.body := by
    intro hencrypted
    refine hclean _ (List.mem_filter.mpr ⟨?_, hencrypted⟩)
    rw [hhandled]
    simp
  have hkept : WellKept crypto stored i s := by
    refine hs.kept fun m hm => hclean m ?_
    unfold decrypted
    rw [hhandled, List.filter_append]
    exact List.mem_append_left _ hm
  have hkey (hencrypted : message.body.isEncrypted = true) : SealedFor crypto i message.body :=
    hgood _ hmessage.wellSealed hencrypted (hopens hencrypted)
  obtain ⟨-, -, hreaddressed⟩ := hmessage.wellSealed.received hcrypto hkey
  refine ⟨fun m hm => ?_, fun batch recipientId hmem x hx => ?_, fun m hm => ?_⟩
  · rcases h.stock m hm with hm | hm
    · rw [henv] at hm
      simp only [stock, List.mem_append] at hm
      rcases hm with ((hm | hm) | hm) | hm
      · exact hkept.stock m (List.mem_append_left _ (List.mem_append_left _ hm))
      · exact hreaddressed m hm
      · exact hkept.stock m (List.mem_append_left _ (List.mem_append_right _ hm))
      · exact hkept.stock m (List.mem_append_right _ hm)
    · exact hm hopens
  · have hbefore := (h.mem_trace_iff batch recipientId).mp hmem
    rcases List.mem_append.mp hbefore with hbefore | hbefore
    · exact hkept.sent batch recipientId hbefore x hx
    · exact absurd (List.mem_singleton.mp hbefore) (by simp)
  · rw [hhandled] at hm
    rcases List.mem_append.mp hm with hm | hm
    · exact hkept.handled m hm
    · rw [List.mem_singleton.mp hm]
      exact hmessage

/-- A protocol that keeps messages as they are, and seals its own for their addressees. -/
structure KeepsSeals {P : Protocol ι} (L : Layered P) (crypto : ℤ → CryptoLibrary)
    (stored : ι → List OverlayMessage) : Prop where
  waiting : KeepsWaiting L
  init : stored P.init = []
  begin : ∀ i, stored (P.begin i) ⊆ stored i
  finish : ∀ i, stored (P.finish i) ⊆ stored i
  body : ∀ (Q : OverlayMessage → Prop) env message s, Q message →
    (∀ enclosed, message.body.asOverlayMessage = some enclosed → Q enclosed) →
    (L.handleBody env message s).Holds (Carries Q stored s)
  ends : ∀ env s sender, env.crypto = crypto sender →
    (P.endOverlayRoundImpl env s).Holds (Carries (WellSealed crypto) stored s)
  start : ∀ env endRound request s sender (I : ProtocolState ι → Prop), env.crypto = crypto sender →
    (∀ t, Carries (WellSealed crypto) stored s t → I t) →
    (∀ t, Carries (WellSealed crypto) stored s t → (endRound t).Holds I) →
    (P.startQueryImpl env endRound request s).Holds I
  signature : ∀ env endRound message s sender (I : ProtocolState ι → Prop),
    env.crypto = crypto sender → (∀ t, Carries (WellSealed crypto) stored s t → I t) →
    (∀ t, Carries (WellSealed crypto) stored s t → (endRound t).Holds I) →
    (P.handleSignatureResponse env endRound message s).Holds I

section Protocols
variable {P : Protocol ι} {L : Layered P} {env : ProtocolEnv}

theorem absorb_keptWhile (K : KeepsSeals L crypto stored) (hcrypto : SealsBody crypto)
    (henv : env.crypto = crypto i)
    (hgood : ∀ m, WellSealed crypto m → m.isEncrypted = true → good m → SealedFor crypto i m)
    {message : OverlayTransportMessage} (hmessage : Fits crypto i message.body)
    (hs : KeptWhile crypto stored i good s) :
    (L.absorb env message s).Holds (KeptWhile crypto stored i good) := by
  have hreceived (hopens : message.body.isEncrypted = true → good message.body) :
      WellSealed crypto (message.body.received (crypto i)) ∧
        (message.body.received (crypto i)).isEncrypted = false := by
    have hall := hmessage.wellSealed.received hcrypto fun hencrypted =>
      hgood _ hmessage.wellSealed hencrypted (hopens hencrypted)
    exact ⟨hall.1, hall.2.1⟩
  have hbody := K.body
    (fun w => (message.body.isEncrypted = true → good message.body) → WellSealed crypto w)
    env (message.body.received env.crypto) (noteOverlay env P message s)
    (fun hopens => henv ▸ (hreceived hopens).1) fun enclosed henclosed hopens => by
      rw [henv] at henclosed
      exact (hreceived hopens).1.enclosed hcrypto (hreceived hopens).2 henclosed
  exact hbody.mono (fun _ ht => hs.handles hcrypto hgood henv hmessage ht)
    fun _ ht => hs.handles hcrypto hgood henv hmessage ht

theorem keptWhile_maintains (K : KeepsSeals L crypto stored) (hcrypto : SealsBody crypto)
    (henv : env.crypto = crypto i)
    (hgood : ∀ m, WellSealed crypto m → m.isEncrypted = true → good m → SealedFor crypto i m) :
    Maintains L env (fun message => Fits crypto i message.body) (KeptWhile crypto stored i good)
      (KeptWhile crypto stored i good) (KeptWhile crypto stored i good) where
  weaken _ hs := hs
  frame _ _ hs h := hs.carries (.of_bookkeeping h)
  buffers message s hs hmessage := by
    refine ⟨fun x hx => ?_, fun hclean => ⟨(hs.kept hclean).stock, (hs.kept hclean).sent,
      (hs.kept hclean).handled⟩⟩
    rcases List.mem_append.mp hx with hx | hx
    · exact hs.future x hx
    · rw [List.mem_singleton.mp hx]
      exact hmessage
  buffered _ hs message hmem := hs.future message hmem
  absorbs _ _ hs hmessage := absorb_keptWhile K hcrypto henv hgood hmessage hs
  ends s hs := (K.ends env s i henv).mono (fun _ ht => hs.carries ht) fun _ ht => hs.carries ht
  rests s hs _ := hs.carries (.of_bookkeeping (.cancelTimer s))
  sends _ hs _ := hs.sends env

theorem keptWhile_startQuery (K : KeepsSeals L crypto stored) (hcrypto : SealsBody crypto)
    (henv : env.crypto = crypto i)
    (hgood : ∀ m, WellSealed crypto m → m.isEncrypted = true → good m → SealedFor crypto i m)
    (fuel : ℕ) (request : QueryRequest) (data : List FixedPoint)
    (hs : KeptWhile crypto stored i good s) :
    (startQuery env P fuel request data s).Holds (KeptWhile crypto stored i good) := by
  have hopened : ∀ t : ProtocolState ι, t.stock stored = s.stock stored →
      t.futureOverlayMessages = s.futureOverlayMessages →
      t.trace = s.trace ++ [.startQuery request.queryNumber] →
      KeptWhile crypto stored i good t := fun t hstock hfuture htrace =>
    hs.carries ⟨fun m hm => .inl (hstock ▸ hm), by simp [hfuture], _, htrace,
      by simp [Action.handledMessage, Action.sentBatch]⟩
  unfold startQuery
  dsimp only
  split
  · exact hopened _ rfl rfl rfl
  · refine K.start env _ request _ i _ henv (fun u hu => (hopened _ ?_ ?_ ?_).carries hu)
      fun u hu => (keptWhile_maintains K hcrypto henv hgood).endOverlayRound fuel
        ((hopened _ ?_ ?_ ?_).carries hu)
    all_goals rfl

theorem keptWhile_maintainsAll (K : KeepsSeals L crypto stored) (hcrypto : SealsBody crypto)
    (henv : env.crypto = crypto i)
    (hgood : ∀ m, WellSealed crypto m → m.isEncrypted = true → good m → SealedFor crypto i m)
    (fuel : ℕ) : MaintainsAll L env fuel (fun message => Fits crypto i message.body)
      (fun _ e => ∀ message, e = .overlay message → Fits crypto i message.body)
      (KeptWhile crypto stored i good) (KeptWhile crypto stored i good)
      (KeptWhile crypto stored i good) where
  toMaintains := keptWhile_maintains K hcrypto henv hgood
  overlay message _ h := h message rfl
  start request data _ hs _ := keptWhile_startQuery K hcrypto henv hgood fuel request data hs
  signature message s hs _ := K.signature env _ message s i _ henv (fun _ ht => hs.carries ht)
    fun _ ht => (keptWhile_maintains K hcrypto henv hgood).endOverlayRound fuel (hs.carries ht)
  aggregation message s hs _ := (SameOverlay.receiveAggregation message s).mono
    (fun _ ht => hs.carries (.of_sameOverlay ht K.begin K.finish))
    fun _ ht => hs.carries (.of_sameOverlay ht K.begin K.finish)

end Protocols

theorem encryptedMulticastToProxies_carries (hcrypto : SealsBody crypto) {env : ProtocolEnv}
    {sender : ℤ} (henv : env.crypto = crypto sender) {contribution : ValueContribution}
    {endRound : ProtocolState ι → Outcome Fault (ProtocolState ι)} {I : ProtocolState ι → Prop}
    (h : Carries (WellSealed crypto) stored s t)
    (hI : ∀ u, Carries (WellSealed crypto) stored s u → I u)
    (hend : ∀ u, Carries (WellSealed crypto) stored s u → (endRound u).Holds I) :
    (encryptedMulticastToProxies env endRound contribution t).Holds I := by
  refine encryptedMulticastToProxies_onions (hI t h) fun onions honions => hend _ (h.trans ?_)
  refine Carries.trans (.send t fun m hm => .inr ?_) (.act _ rfl rfl)
  obtain ⟨path, hpath⟩ := honions m hm
  rw [henv] at hpath
  exact wellSealed_onion hcrypto rfl hpath

theorem Carries.multicast (hcrypto : SealsBody crypto) {π : IterationOrder} {sender : ℤ}
    {nodeId n start queryNum : ℤ} {proxies : List ℤ} {body : MessageBody}
    {messages : List OverlayMessage} (hbody : body.asOverlayMessage = none)
    (h : multicastToOtherProxies π (crypto sender) nodeId n start queryNum proxies body =
      .ok messages) : Carries (WellSealed crypto) stored s
        { s with outgoingMessages := s.outgoingMessages ++ messages } :=
  .send s fun _ hm => .inr (wellSealed_multicast hcrypto hbody h hm)

end Keeping
end ProtocolState

namespace CtProtocolState
open ProtocolState (Carries KeepsSeals)
variable {crypto : ℤ → CryptoLibrary} {env : ProtocolEnv}

theorem endOverlayRoundImpl_carries (hcrypto : SealsBody crypto) {sender : ℤ}
    (henv : env.crypto = crypto sender) (s : State) :
    (endOverlayRoundImpl env s).Holds (Carries (WellSealed crypto) (fun _ => []) s) := by
  unfold endOverlayRoundImpl
  split_ifs
  · refine Outcome.Ends.andThen (P := Carries (WellSealed crypto) (fun _ => []) s)
      (Outcome.forEach_ends (.refl s) fun value _ t ht => ?_) fun t ht => ht.trans ?_
    · unfold echoValue
      rw [henv]
      split
      · exact ht
      · next messages hmessages => exact ht.trans (.multicast hcrypto rfl hmessages)
    · exact .of_fields (fun _ => .inl) rfl rfl
  · exact (ProtocolState.SameOverlay.enterAggregatePhase s).mono
      (fun _ ht => .of_sameOverlay ht (by simp) (by simp))
      fun _ ht => .of_sameOverlay ht (by simp) (by simp)
  · exact .refl s

theorem keepsSeals (hcrypto : SealsBody crypto) : KeepsSeals layered crypto fun _ => [] where
  waiting := keepsWaiting
  init := rfl
  begin := by simp
  finish := by simp
  body Q env message s _ henclosed := by
    have heffect (t : State) (ht : BodyEffect env message s t) : Carries Q (fun _ => []) s t := by
      cases ht with
      | ignored => exact .refl s
      | forwarded enclosed hbody => exact .wait s (henclosed enclosed hbody)
      | accepted contribution => exact .emplaceProxyValue s contribution
    exact (handleBody_effect message s).mono heffect heffect
  ends env s sender henv := endOverlayRoundImpl_carries hcrypto henv s
  start env endRound request s sender I henv hI hend := by
    have hshuffle : Carries (WellSealed crypto) (fun _ => []) s (s.onImpl fun _ => ⟨0, .shuffle⟩) :=
      .onImpl s (by simp)
    change (startQueryImpl env endRound request s).Holds I
    unfold startQueryImpl
    dsimp only
    split
    · exact hI _ hshuffle
    · exact ProtocolState.encryptedMulticastToProxies_carries hcrypto henv hshuffle hI hend
  signature _ _ _ s _ _ _ hI _ := hI s (.refl s)

end CtProtocolState

namespace HftProtocolState
open ProtocolState (Carries KeepsSeals)
variable {crypto : ℤ → CryptoLibrary} {env : ProtocolEnv}

def stored (i : HftProtocolState) : List OverlayMessage := i.currentFloodMessages ++ i.relayMessages

theorem wellSealed_scatterMessage (hcrypto : SealsBody crypto) {sender : ℤ}
    (henv : env.crypto = crypto sender) (queryNum : ℤ) (contribution : ValueContribution)
    (proxyRelay : ℤ × ℤ) :
    WellSealed crypto (scatterMessage env queryNum contribution proxyRelay) := by
  have hstraight (destId : ℤ) (body : MessageBody) :
      (OverlayMessage.make queryNum destId body true).GoesStraight :=
    ⟨by simp [OverlayMessage.make], by simp [OverlayMessage.make]⟩
  unfold scatterMessage
  rw [henv]
  refine WellSealed.seal hcrypto sender rfl (hstraight proxyRelay.2 _) fun inner hinner => ?_
  rw [OverlayMessage.make, OverlayMessage.asOverlayMessage_toBody] at hinner
  obtain rfl := Option.some.inj hinner
  refine WellSealed.seal hcrypto sender rfl (hstraight proxyRelay.1 _) fun inner hinner => ?_
  cases hinner

theorem endPhase_carries (s : State) :
    (endPhase env s).Holds (Carries (WellSealed crypto) stored s) := by
  have heffect (t : State) (ht : PhaseEffect s t) : Carries (WellSealed crypto) stored s t := by
    cases ht with
    | kept => exact .refl s
    | gathered =>
      refine Carries.onImpl s (f := fun i => ⟨.gather, s.overlayRound, i.relayMessages, []⟩)
        fun m hm => .inl ?_
      simp only [stored, List.append_nil] at hm
      exact List.mem_append_right _ hm
    | entered _ h =>
      refine Carries.trans (.onImpl s fun m hm => .inl ?_)
        (.of_sameOverlay h (fun _ => List.Subset.refl _) fun i m hm => ?_)
      · exact List.mem_append_right _ hm
      · exact List.mem_append_right _ hm
  exact (endPhase_effect s).mono heffect heffect

theorem flood_carries (s : State) : Carries (WellSealed crypto) stored s (flood env s) := by
  unfold flood
  split_ifs
  · have hsent : Carries (WellSealed crypto) stored s { s with
        outgoingMessages := s.outgoingMessages ++ env.π.order s.impl.currentFloodMessages } := by
      refine .send s fun m hm => .inl (List.mem_append_right _ ?_)
      exact List.mem_append_left _ (env.π.mem_order.mp hm)
    refine hsent.trans (.of_fields (fun m hm => .inl ?_) rfl rfl)
    rcases List.mem_append.mp hm with hm | hm
    · exact List.mem_append_left _ hm
    · refine List.mem_append_right _ ?_
      rcases List.mem_append.mp hm with hm | hm
      · exact List.mem_append_left _ (List.mem_filter.mp hm).1
      · exact List.mem_append_right _ hm
  · exact .refl s

theorem keepsSeals (hcrypto : SealsBody crypto) : KeepsSeals layered crypto stored where
  waiting := keepsWaiting
  init := rfl
  begin _ := List.Subset.refl _
  finish i m hm := List.mem_append_right _ hm
  body Q env message s hmessage henclosed := by
    have heffect (t : State) (ht : BodyEffect env message s t) : Carries Q stored s t := by
      cases ht with
      | ignored => exact .refl s
      | relayed wrapped hbody =>
        refine .onImpl s fun m hm => ?_
        rcases List.mem_append.mp hm with hm | hm
        · exact .inl (List.mem_append_left _ hm)
        · rcases mem_emplaceMessage hm with hm | rfl
          · exact .inl (List.mem_append_right _ hm)
          · exact .inr (henclosed _ hbody)
      | accepted contribution => exact .emplaceProxyValue s contribution
      | flooded =>
        refine .onImpl s fun m hm => ?_
        rcases List.mem_append.mp hm with hm | hm
        · rcases mem_emplaceMessage hm with hm | rfl
          · exact .inl (List.mem_append_left _ hm)
          · exact .inr hmessage
        · exact .inl (List.mem_append_right _ hm)
    exact (handleBody_effect message s).mono heffect heffect
  ends env s _ _ := by
    change (endOverlayRoundImpl env s).Holds (Carries (WellSealed crypto) stored s)
    unfold endOverlayRoundImpl
    exact (endPhase_carries s).andThen fun t ht => ht.trans (flood_carries t)
  start env endRound request s sender I henv hI hend := by
    change (startQueryImpl env endRound request s).Holds I
    unfold startQueryImpl
    split
    · exact hI _ (.refl s)
    · refine hend _ (Carries.trans ?_ (.act _ rfl rfl))
      refine .of_fields (fun m hm => ?_) rfl rfl
      rcases List.mem_append.mp hm with hm | hm
      · exact .inl (List.mem_append_left _ hm)
      · simp only [stored, List.append_nil] at hm
        rcases mem_foldl_emplaceMessage hm with hm | hm
        · cases hm
        · obtain ⟨_, -, rfl⟩ := List.mem_map.mp hm
          exact .inr (wellSealed_scatterMessage hcrypto henv _ _ _)
  signature _ _ _ s _ _ _ hI _ := hI s (.refl s)

end HftProtocolState

namespace BftProtocolState
open ProtocolState (Carries KeepsSeals)
variable {crypto : ℤ → CryptoLibrary} {env : ProtocolEnv}

theorem endOverlayRoundImpl_carries (hcrypto : SealsBody crypto) {sender : ℤ}
    (henv : env.crypto = crypto sender) (s : State) :
    (endOverlayRoundImpl env s).Holds (Carries (WellSealed crypto) (fun _ => []) s) := by
  unfold endOverlayRoundImpl
  dsimp only
  split
  · refine Outcome.Ends.andThen (P := Carries (WellSealed crypto) (fun _ => []) s)
      (Outcome.forEach_ends (.refl s) fun value _ t ht => ?_) fun t ht => ht.trans ?_
    · unfold signValue
      rw [henv]
      dsimp only
      split
      · exact ht
      · next messages hmessages => exact ht.trans (.multicast hcrypto rfl hmessages)
    · exact .of_fields (fun _ => .inl) rfl rfl
  · split
    · split
      · split
        · exact .refl s
        · exact .refl s
      · next agreement _ =>
        split
        · have hvalues : Carries (WellSealed crypto) (fun _ => []) s (s.onImpl fun i =>
              { i with acceptedProxyValues := agreement.finishPhase2 env.π }) :=
            .onImpl s (by simp)
          exact (ProtocolState.SameOverlay.enterAggregatePhase _).mono
            (fun _ ht => hvalues.trans (.of_sameOverlay ht (by simp) (by simp)))
            fun _ ht => hvalues.trans (.of_sameOverlay ht (by simp) (by simp))
        · split
          · split
            · exact .refl s
            · next accepts agreement' haccepts =>
              obtain ⟨batches, hbatches, rfl, -⟩ := CrusaderAgreementState.finishPhase1_eq_ok haccepts
              refine Carries.trans (.send s fun m hm => .inr ?_)
                (.of_fields (fun _ => .inl) rfl rfl)
              obtain ⟨batch, hbatch, hm⟩ := List.mem_flatten.mp hm
              obtain ⟨accepted, -, haccepted⟩ := exists_of_mem_mapM hbatches hbatch
              rw [henv] at haccepted
              exact wellSealed_multicast hcrypto rfl haccepted hm
          · exact .refl s
    · exact .refl s

theorem keepsSeals (hcrypto : SealsBody crypto) : KeepsSeals layered crypto fun _ => [] where
  waiting := keepsWaiting
  init := rfl
  begin := by simp
  finish := by simp
  body Q env message s _ henclosed := by
    have heffect (t : State) (ht : BodyEffect env message s t) : Carries Q (fun _ => []) s t := by
      cases ht with
      | ignored => exact .refl s
      | forwarded enclosed hbody => exact .wait s (henclosed enclosed hbody)
      | accepted contribution => exact .emplaceProxyValue s contribution
      | agreed agreement u _ hlogged =>
        have hu : Carries Q (fun _ => []) s u := by
          rcases hlogged with rfl | ⟨_, _, rfl⟩
          · exact .refl u
          · exact .act s rfl rfl
        exact hu.trans (.onImpl u (by simp))
    exact (handleBody_effect message s).mono heffect heffect
  ends env s sender henv := endOverlayRoundImpl_carries hcrypto henv s
  start env endRound request s _ I _ hI _ := by
    change (startQueryImpl env endRound request s).Holds I
    unfold startQueryImpl
    dsimp only
    split
    · exact hI _ (.onImpl s (by simp))
    · exact hI _ (Carries.trans (.onImpl s (by simp)) (.act _ rfl rfl))
  signature env endRound message s sender I henv hI hend := by
    have hshuffle : Carries (WellSealed crypto) (fun _ => []) s
        (s.onImpl fun i => { i with protocolPhase := .shuffle }) := .onImpl s (by simp)
    change (handleSignatureResponse env endRound message s).Holds I
    unfold handleSignatureResponse
    split
    · exact hI _ (.refl s)
    · exact ProtocolState.encryptedMulticastToProxies_carries hcrypto henv hshuffle hI hend

end BftProtocolState
end Pddm
