import Pddm.ContributionMessages
import Pddm.SealedRuns

/-!
# Contributions at one meter

What a meter has in store, passes on and adds up has been contributed, and names the meter as a
proxy where it is added up.
-/
namespace Pddm

/-- The contributions of a network as they concern one meter: those of its own, those that may be
sent, and those that may be added up for a query. A protocol stores messages, and has data of its
own that has to be sound. -/
structure Origins {ι : Type} (ph : AggregatePhase ι) (meterId : ℤ) where
  mine : ValueTuple → Prop
  good : ValueContribution → Prop
  mayAdd : ℤ → ValueContribution → Prop
  stored : ι → List OverlayMessage
  sound : ι → Prop
  nodup : ∀ v, good v → v.value.proxies.Nodup
  own : ∀ queryNum v, mayAdd queryNum v → good v ∧ meterId ∈ v.value.proxies
  stored_begin : ∀ i, stored (ph.begin i) ⊆ stored i
  stored_finish : ∀ i, stored (ph.finish i) ⊆ stored i
  sound_begin : ∀ i, sound i → sound (ph.begin i)
  sound_finish : ∀ i, sound i → sound (ph.finish i)
  values : ∀ queryNum proxyValues i, (∀ v ∈ proxyValues, mayAdd queryNum v) → sound i →
    ∀ v ∈ ph.values proxyValues i, mayAdd queryNum v

namespace ProtocolState
variable {ι : Type} {env : ProtocolEnv} {ph : AggregatePhase ι} {O : Origins ph env.meterId}
  {s t : ProtocolState ι}

/-- What is sent is on its way to a proxy, and what is added may be. -/
def Traced (O : Origins ph env.meterId) : Action → Prop
  | .sendOverlay batch recipientId => ∀ x ∈ batch, GoesTo O.good recipientId x.body
  | .computeAggregate queryNum values => ∀ v ∈ values, O.mayAdd queryNum v
  | _ => True

/-- The invariant. -/
structure Traceable (O : Origins ph env.meterId) (s : ProtocolState ι) : Prop where
  stock : ∀ m ∈ s.stock O.stored, Destined O.good m
  future : ∀ x ∈ s.futureOverlayMessages, GoesTo O.good env.meterId x.body
  mine : ∀ c, s.myContribution = some c → O.mine c
  aggregate : ∀ aggregation, s.aggregationPhaseState = some aggregation →
    aggregation.currentQuery.queryNumber = s.getCurrentQueryNum
  values : ∀ v ∈ s.proxyValues, O.mayAdd s.getCurrentQueryNum v
  sound : O.sound s.impl
  trace : ∀ a ∈ s.trace, Traced O a

/-- Where a handler stops part-way, only what has been sent and added matters. -/
def TracedSoFar (O : Origins ph env.meterId) (s : ProtocolState ι) : Prop := ∀ a ∈ s.trace, Traced O a

theorem traceable_init {i : ι} (hstored : O.stored i = []) (hsound : O.sound i) :
    Traceable O (.init i) where
  stock _ h := by simp [stock, init, hstored] at h
  future _ h := by simp [init] at h
  mine _ h := by simp [init] at h
  aggregate _ h := by simp [init] at h
  values _ h := by simp [init] at h
  sound := hsound
  trace _ h := by simp [init] at h

namespace Traceable

theorem update (hs : Traceable O s) {waiting outgoing : List OverlayMessage} {i : ι}
    (hstock : ∀ m ∈ waiting ++ outgoing ++ O.stored i, m ∈ s.stock O.stored ∨ Destined O.good m)
    (hsound : O.sound s.impl → O.sound i) :
    Traceable O { s with waitingMessages := waiting, outgoingMessages := outgoing, impl := i } where
  stock m hm := (hstock m hm).elim (hs.stock m) id
  future := hs.future
  mine := hs.mine
  aggregate := hs.aggregate
  values := hs.values
  sound := hsound hs.sound
  trace := hs.trace

theorem act (hs : Traceable O s) {a : Action} (ha : Traced O a) : Traceable O (s.act a) where
  stock := hs.stock
  future := hs.future
  mine := hs.mine
  aggregate := hs.aggregate
  values := hs.values
  sound := hs.sound
  trace b hb := by
    rcases List.mem_append.mp hb with hb | hb
    · exact hs.trace b hb
    · rw [List.mem_singleton.mp hb]
      exact ha

theorem frame (hs : Traceable O s) (h : Bookkeeping s t) : Traceable O t := by
  obtain ⟨ext, htrace, hext⟩ := h.trace
  have hcurrent : t.getCurrentQueryNum = s.getCurrentQueryNum := by
    rw [getCurrentQueryNum, h.myContribution, getCurrentQueryNum]
  refine ⟨?_, fun x hx => hs.future x (h.futureOverlayMessages hx), h.myContribution ▸ hs.mine,
    ?_, ?_, h.impl ▸ hs.sound, fun a ha => ?_⟩
  · rw [ProtocolState.stock, h.waitingMessages, h.outgoingMessages, h.impl]
    exact hs.stock
  · rw [h.aggregationPhaseState, hcurrent]
    exact hs.aggregate
  · rw [h.proxyValues, hcurrent]
    exact hs.values
  · rw [htrace] at ha
    rcases List.mem_append.mp ha with ha | ha
    · exact hs.trace a ha
    · have hnote := hext a ha
      cases a <;> simp_all [Action.isNote, Traced]

theorem wait (hs : Traceable O s) {m : OverlayMessage} (hm : Destined O.good m) :
    Traceable O (s.wait m) := by
  refine hs.update (i := s.impl) (fun w hw => ?_) id
  simp only [ProtocolState.stock, List.mem_append, List.mem_singleton] at hw ⊢
  rcases hw with ((hw | rfl) | hw) | hw
  · exact .inl (.inl (.inl hw))
  · exact .inr hm
  · exact .inl (.inl (.inr hw))
  · exact .inl (.inr hw)

theorem send (hs : Traceable O s) {messages : List OverlayMessage}
    (hmessages : ∀ m ∈ messages, Destined O.good m) :
    Traceable O { s with outgoingMessages := s.outgoingMessages ++ messages } := by
  refine hs.update (i := s.impl) (fun w hw => ?_) id
  simp only [ProtocolState.stock, List.mem_append] at hw ⊢
  rcases hw with (hw | hw | hw) | hw
  · exact .inl (.inl (.inl hw))
  · exact .inl (.inl (.inr hw))
  · exact .inr (hmessages w hw)
  · exact .inl (.inr hw)

theorem onImpl (hs : Traceable O s) {f : ι → ι}
    (hstored : ∀ m ∈ O.stored (f s.impl), m ∈ O.stored s.impl ∨ Destined O.good m)
    (hsound : O.sound s.impl → O.sound (f s.impl)) : Traceable O (s.onImpl f) := by
  refine hs.update (fun m hm => ?_) hsound
  rcases List.mem_append.mp hm with hm | hm
  · exact .inl (List.mem_append_left _ hm)
  · exact (hstored m hm).imp_left (List.mem_append_right _)

theorem emplaceProxyValue (hs : Traceable O s) {v : ValueContribution}
    (hv : O.mayAdd s.getCurrentQueryNum v) : Traceable O (s.emplaceProxyValue v) := by
  unfold ProtocolState.emplaceProxyValue
  split_ifs
  · exact hs
  · refine ⟨hs.stock, hs.future, hs.mine, hs.aggregate, fun w hw => ?_, hs.sound, hs.trace⟩
    rcases List.mem_append.mp hw with hw | hw
    · exact hs.values w hw
    · rw [List.mem_singleton.mp hw]
      exact hv

theorem sends (hs : Traceable O s) : Traceable O (sendOverlayMessageBatch env
    { s with overlayRound := s.overlayRound + 1, pingResponseFromPredecessor := false }) := by
  obtain ⟨failed, hbatch⟩ := sendOverlayMessageBatch_next env s
  have hbatched : ∀ x ∈ nextBatch env s, GoesTo O.good (nextTarget env s) x.body := by
    intro x hx
    have hmem : x.body ∈ (nextBatch env s).map (·.body) := List.mem_map_of_mem hx
    rw [bodies_nextBatch] at hmem
    split_ifs at hmem
    · rw [List.mem_singleton.mp hmem]
      exact ⟨destined_of_empty rfl rfl rfl, fun _ => rfl⟩
    · rcases List.mem_append.mp hmem with hmem | hmem
      · obtain ⟨hwaiting, htarget⟩ := List.mem_filter.mp hmem
        refine ⟨hs.stock _ (List.mem_append_left _ (List.mem_append_left _ hwaiting)), fun _ => ?_⟩
        exact of_decide_eq_true htarget
      · obtain ⟨houtgoing, htarget⟩ := List.mem_filter.mp hmem
        refine ⟨hs.stock _ (List.mem_append_left _ (List.mem_append_right _ houtgoing)),
          fun hflood => ?_⟩
        simpa [hflood] using htarget
  have hsent : Traceable O (s.act (.sendOverlay (nextBatch env s) (nextTarget env s))) :=
    hs.act hbatched
  rw [hbatch]
  refine ⟨fun m hm => hs.stock m ?_, hsent.future, hsent.mine, hsent.aggregate, hsent.values,
    hsent.sound, hsent.trace⟩
  simp only [ProtocolState.stock, keptMessages, List.append_nil, List.mem_append,
    List.mem_filter] at hm ⊢
  rcases hm with (hm | hm) | hm
  · exact .inl (.inl hm.1)
  · exact .inl (.inr hm.1)
  · exact .inr hm

theorem noteOverlay (hs : Traceable O s) (hcrypto : env.crypto.OnlyMarks) {P : Protocol ι}
    {message : OverlayTransportMessage} (hmessage : GoesTo O.good env.meterId message.body) :
    Traceable O (noteOverlay env P message s) := by
  obtain ⟨timer, timers, hnote⟩ := noteOverlay_fields env P message s
  have hlogged : Traceable O (s.act (.handleOverlay s.overlayRound message)) := hs.act trivial
  rw [hnote]
  refine ⟨fun m hm => ?_, hs.future, hs.mine, hs.aggregate, hs.values, hs.sound, hlogged.trace⟩
  simp only [ProtocolState.stock, List.mem_append] at hm
  rcases hm with ((hm | hm) | hm) | hm
  · exact hs.stock m (List.mem_append_left _ (List.mem_append_left _ hm))
  · exact (hmessage.destined.received hcrypto).2 m hm
  · exact hs.stock m (List.mem_append_left _ (List.mem_append_right _ hm))
  · exact hs.stock m (List.mem_append_right _ hm)

section Aggregation

theorem computing (hs : Traceable O s) {aggregation : TreeAggregationState}
    (hagg : s.aggregationPhaseState = some aggregation) :
    Traceable O (s.computing ph aggregation) := by
  refine hs.act fun v hv => ?_
  rw [hs.aggregate aggregation hagg]
  exact O.values _ _ _ hs.values hs.sound v hv

theorem sent (hs : Traceable O s) {aggregation : TreeAggregationState}
    (hagg : s.aggregationPhaseState = some aggregation) (aggregate : AggregationMessage) :
    Traceable O (s.sent ph aggregation aggregate) := by
  have hcomputing : Traceable O ((s.computing ph aggregation).act
      (.sendAggregate aggregation.currentQuery.queryNumber aggregate (aggregationTreeParent
        aggregation.nodeId aggregation.numGroups aggregation.numMeters))) :=
    (hs.computing hagg).act trivial
  refine ⟨fun m hm => ?_, hs.future, hs.mine, fun aggregation' hagg' => ?_, hs.values,
    O.sound_finish _ hs.sound, hcomputing.trace⟩
  · rcases List.mem_append.mp hm with hm | hm
    · exact hs.stock m (List.mem_append_left _ hm)
    · exact hs.stock m (List.mem_append_right _ (O.stored_finish _ hm))
  · obtain rfl := Option.some.inj hagg'
    exact hs.aggregate aggregation hagg

theorem setAggregation (hs : Traceable O s) {aggregation aggregation' : TreeAggregationState}
    (hagg : s.aggregationPhaseState = some aggregation)
    (hquery : aggregation'.currentQuery = aggregation.currentQuery) {a : Action}
    (ha : Traced O a) (timers : Timers ℤ) : Traceable O { s with
      timers := timers
      aggregationPhaseState := some aggregation'
      trace := s.trace ++ [a] } := by
  refine ⟨hs.stock, hs.future, hs.mine, fun aggregation'' hagg'' => ?_, hs.values, hs.sound,
    (hs.act ha).trace⟩
  obtain rfl := Option.some.inj hagg''
  rw [hquery]
  exact hs.aggregate aggregation hagg

theorem sendAggregateIfDone (hs : Traceable O s) :
    (sendAggregateIfDone env ph s).Ends (Traceable O) (TracedSoFar O) :=
  sendAggregateIfDone_ends (K := fun trace => ∀ a ∈ trace, Traced O a) hs.trace
    (fun _ _ _ => hs) (fun _ hagg _ => (hs.computing hagg).trace)
    fun _ aggregate hagg _ => hs.sent hagg aggregate

theorem handleAggregationMessage (hs : Traceable O s) (message : AggregationMessage) :
    (handleAggregationMessage env ph message s).Ends (Traceable O) (TracedSoFar O) := by
  refine handleAggregationMessage_ends (K := fun trace => ∀ a ∈ trace, Traced O a) hs.trace
    fun aggregation intermediate hagg => ?_
  have hadded : Traceable O (s.added aggregation intermediate message) := by
    refine hs.setAggregation hagg ?_ (a := .addMessage _ message) trivial s.timers
    rfl
  exact hadded.sendAggregateIfDone

theorem startAggregatePhase (hs : Traceable O s) :
    (startAggregatePhase env ph s).Ends (Traceable O) (TracedSoFar O) := by
  refine startAggregatePhase_ends (K := fun trace => ∀ a ∈ trace, Traced O a) (A := Traceable O)
    (B := Traceable O) hs.trace ?_ ?_ ?_ ?_
  · intro aggregation contribution hagg hcontribution
    have hstarted : Traceable O (s.started aggregation contribution.value.length) := by
      refine hs.setAggregation hagg ?_ (a := .startAggregate _ _ _) trivial _
      rfl
    exact hstarted.sendAggregateIfDone
  · intro t ht _
    refine Outcome.forEach_ends ht fun message _ u hu => ?_
    refine (hu.handleAggregationMessage message).andThen fun v hv => ?_
    exact ⟨hv.stock, hv.future, hv.mine, hv.aggregate, hv.values, hv.sound, hv.trace⟩
  · exact fun t ht _ => ht
  · exact fun t ht => ⟨ht.stock, ht.future, ht.mine, ht.aggregate, ht.values, ht.sound, ht.trace⟩

theorem enterAggregatePhase (hs : Traceable O s) :
    (enterAggregatePhase env ph s).Ends (Traceable O) (TracedSoFar O) :=
  (hs.onImpl (fun _ hm => .inl (O.stored_begin _ hm)) (O.sound_begin _)).startAggregatePhase

theorem receiveAggregation (hs : Traceable O s) (message : AggregationMessage) :
    (receiveAggregation env ph message s).Ends (Traceable O) (TracedSoFar O) := by
  have hreceived : Traceable O (s.act (.receiveAggregate s.getCurrentQueryNum message)) :=
    hs.act trivial
  unfold ProtocolState.receiveAggregation
  split_ifs
  · exact hreceived.handleAggregationMessage message
  · exact ⟨hs.stock, hs.future, hs.mine, hs.aggregate, hs.values, hs.sound, hs.trace⟩
  · exact hs

end Aggregation

theorem encryptedMulticastToProxies (hs : Traceable O s) (hcrypto : env.crypto.OnlyMarks)
    {endRound : ProtocolState ι → Outcome Fault (ProtocolState ι)}
    (hend : ∀ t, Traceable O t → (endRound t).Ends (Traceable O) (TracedSoFar O))
    {contribution : ValueContribution} (hgood : O.good contribution) :
    (encryptedMulticastToProxies env endRound contribution s).Ends (Traceable O) (TracedSoFar O) := by
  unfold ProtocolState.encryptedMulticastToProxies
  cases hpaths : findPaths env.π env.meterId contribution.value.proxies env.numMeters 0 with
  | error e => exact hs.trace
  | ok paths =>
    simp only [ok_bind]
    split
    · exact hs.trace
    · next onions honions =>
      have honionsGo : ∀ m ∈ onions, Destined O.good m := by
        intro m hm
        obtain ⟨path, hpath, honion⟩ := exists_of_mem_mapM honions hm
        exact destined_onion hcrypto rfl hgood (mem_targets_of_findPaths hpaths hpath) honion
      have hleaving : Traceable O ({ s with
          outgoingMessages := s.outgoingMessages ++ onions }.leaving .start) :=
        (hs.send honionsGo).act trivial
      exact hend _ hleaving

end Traceable

/-- A protocol that keeps track of where contributions come from. -/
structure KeepsOrigins {P : Protocol ι} (L : Layered P) (env : ProtocolEnv)
    (O : Origins P.toAggregatePhase env.meterId) : Prop where
  body : ∀ message s, Traceable O s → Destined O.good message →
    (message.destination = env.meterId → ∀ v, message.body.contributed = some v →
      O.good v ∧ env.meterId ∈ v.value.proxies) →
    (L.handleBody env message s).Ends (Traceable O) (TracedSoFar O)
  ends : ∀ s, Traceable O s → (P.endOverlayRoundImpl env s).Ends (Traceable O) (TracedSoFar O)
  start : ∀ endRound request s, Traceable O s →
    (∀ t, Traceable O t → (endRound t).Ends (Traceable O) (TracedSoFar O)) →
    (P.startQueryImpl env endRound request s).Ends (Traceable O) (TracedSoFar O)
  signature : ∀ endRound message s, Traceable O s →
    (∀ t, Traceable O t → (endRound t).Ends (Traceable O) (TracedSoFar O)) →
    (P.handleSignatureResponse env endRound message s).Ends (Traceable O) (TracedSoFar O)

/-- A query is started with data that count as contributed, and messages arrive at the meter to
which they have been sent. -/
def Originates (O : Origins ph env.meterId) : Event → Prop
  | .startQuery request data => ∀ k proxies, pickProxies (env.draws k) env.meterId
      env.numAggregationGroups env.numMeters = .ok proxies →
      O.mine ⟨request.queryNumber, data, proxies⟩
  | .overlay message => GoesTo O.good env.meterId message.body
  | _ => True

namespace KeepsOrigins
variable {P : Protocol ι} {L : Layered P} {O : Origins P.toAggregatePhase env.meterId}
  (K : KeepsOrigins L env O) (hcrypto : env.crypto.OnlyMarks)
include K hcrypto

theorem maintains : Maintains L env (fun message => GoesTo O.good env.meterId message.body)
    (Traceable O) (Traceable O) (TracedSoFar O) where
  weaken _ hs := hs.trace
  frame _ _ hs h := hs.frame h
  buffers message s hs hmessage := by
    refine ⟨hs.stock, fun x hx => ?_, hs.mine, hs.aggregate, hs.values, hs.sound, hs.trace⟩
    rcases List.mem_append.mp hx with hx | hx
    · exact hs.future x hx
    · rw [List.mem_singleton.mp hx]
      exact hmessage
  buffered _ hs message hmem := hs.future message hmem
  absorbs message s hs hmessage := K.body _ _ (hs.noteOverlay hcrypto hmessage)
    (hmessage.destined.received hcrypto).1 fun hdestination _ hv =>
      hmessage.names hcrypto hdestination hv
  ends s hs := K.ends s hs
  rests _ hs _ := hs.frame (.cancelTimer _)
  sends _ hs _ := hs.sends

theorem startQuery (fuel : ℕ) {request : QueryRequest} {data : List FixedPoint}
    (hstart : Originates O (.startQuery request data)) (hs : Traceable O s) :
    (startQuery env P fuel request data s).Ends (Traceable O) (TracedSoFar O) := by
  have hlogged : Traceable O (s.cancelTimer.act (.startQuery request.queryNumber)) :=
    (hs.frame (.cancelTimer s)).act trivial
  unfold ProtocolState.startQuery
  dsimp only
  split
  · exact hlogged.trace
  · next proxies hproxies =>
    refine K.start _ request _ ⟨hs.stock, hs.future, fun c hc => ?_, fun aggregation hagg => ?_,
      nofun, hs.sound, hlogged.trace⟩ fun t ht => (K.maintains hcrypto).endOverlayRound fuel ht
    · obtain rfl := Option.some.inj hc
      exact hstart _ _ hproxies
    · obtain rfl := Option.some.inj hagg
      rfl

theorem maintainsAll (fuel : ℕ) :
    MaintainsAll L env fuel (fun message => GoesTo O.good env.meterId message.body)
      (fun _ e => Originates O e) (Traceable O) (Traceable O) (TracedSoFar O) where
  toMaintains := K.maintains hcrypto
  overlay _ _ h := h
  start _ _ _ hs h := K.startQuery hcrypto fuel h hs
  signature message s hs _ := K.signature _ message s hs fun _ ht =>
    (K.maintains hcrypto).endOverlayRound fuel ht
  aggregation message _ hs _ := hs.receiveAggregation message

end KeepsOrigins
end ProtocolState
end Pddm
