import Pddm.ContributionRuns
import Pddm.Sampling

/-!
# Contributions in the three protocols

Each of the protocols passes on, stores and adds up only what has been contributed.
-/
namespace Pddm

/-- In the protocols without signatures a contribution is the bare tuple. -/
def Unsigned (mine : ValueTuple → Prop) (v : ValueContribution) : Prop :=
  mine v.value ∧ v = .ofTuple v.value

/-- It is added up by its proxies, for its own query. -/
structure AddedFor (mine : ValueTuple → Prop) (meterId queryNum : ℤ) (v : ValueContribution) :
    Prop where
  contributed : Unsigned mine v
  proxy : meterId ∈ v.value.proxies
  queryNum : v.value.queryNum = queryNum

namespace Origins
variable {ι : Type} {ph : AggregatePhase ι} {meterId : ℤ} {mine : ValueTuple → Prop}

theorem unsigned_nodup (hmine : ∀ c, mine c → c.proxies.Pairwise (· < ·)) (v : ValueContribution)
    (h : Unsigned mine v) : v.value.proxies.Nodup :=
  (hmine _ h.1).imp fun hlt => hlt.ne

theorem unsigned_own (queryNum : ℤ) (v : ValueContribution)
    (h : AddedFor mine meterId queryNum v) : Unsigned mine v ∧ meterId ∈ v.value.proxies :=
  ⟨h.contributed, h.proxy⟩

theorem unsigned_sound (_ : ι) (h : True) : True := h

theorem unsigned_values (hvalues : ∀ proxyValues i, ph.values proxyValues i = proxyValues)
    (queryNum : ℤ) (proxyValues : List ValueContribution) (i : ι)
    (h : ∀ v ∈ proxyValues, AddedFor mine meterId queryNum v) (_ : True) :
    ∀ v ∈ ph.values proxyValues i, AddedFor mine meterId queryNum v := by
  rw [hvalues]
  exact h

/-- The origins where proxy values are added up as they are. -/
abbrev unsigned (ph : AggregatePhase ι) (meterId : ℤ) (mine : ValueTuple → Prop)
    (stored : ι → List OverlayMessage)
    (hmine : ∀ c, mine c → c.proxies.Pairwise (· < ·))
    (hbegin : ∀ i, stored (ph.begin i) ⊆ stored i) (hfinish : ∀ i, stored (ph.finish i) ⊆ stored i)
    (hvalues : ∀ proxyValues i, ph.values proxyValues i = proxyValues) : Origins ph meterId where
  mine := mine
  good := Unsigned mine
  mayAdd := AddedFor mine meterId
  stored := stored
  sound _ := True
  nodup := unsigned_nodup hmine
  own := unsigned_own
  stored_begin := hbegin
  stored_finish := hfinish
  sound_begin := unsigned_sound
  sound_finish := unsigned_sound
  values := unsigned_values hvalues

end Origins

namespace CtProtocolState
open ProtocolState (Traceable TracedSoFar KeepsOrigins)
variable {env : ProtocolEnv} {mine : ValueTuple → Prop}

theorem nothing_stored (_ : CtProtocolState) : ([] : List OverlayMessage) ⊆ [] :=
  List.Subset.refl []

theorem values_eq (proxyValues : List ValueContribution) (i : CtProtocolState) :
    aggregatePhase.values proxyValues i = proxyValues := rfl

abbrev origins (mine : ValueTuple → Prop) (meterId : ℤ)
    (hmine : ∀ c, mine c → c.proxies.Pairwise (· < ·)) : Origins aggregatePhase meterId :=
  .unsigned aggregatePhase meterId mine (fun _ => []) hmine nothing_stored nothing_stored values_eq

variable {hmine : ∀ c, mine c → c.proxies.Pairwise (· < ·)} {s : State}

theorem handleBody_traceable (hs : Traceable (origins mine env.meterId hmine) s)
    {message : OverlayMessage} (hmessage : Destined (Unsigned mine) message)
    (hnames : message.destination = env.meterId → ∀ v, message.body.contributed = some v →
      Unsigned mine v ∧ env.meterId ∈ v.value.proxies) :
    (handleBody env message s).Ends (Traceable (origins mine env.meterId hmine))
      (TracedSoFar (origins mine env.meterId hmine)) := by
  have haccept (hdestination : message.destination = env.meterId) :
      (acceptContribution message s).Ends (Traceable (origins mine env.meterId hmine))
        (TracedSoFar (origins mine env.meterId hmine)) := by
    unfold acceptContribution
    split
    · exact hs
    · next contribution hbody =>
      obtain ⟨hgood, hproxy⟩ := hnames hdestination contribution
        (MessageBody.contributed_of_asValueContribution hbody)
      split
      · exact hs.trace
      · next c hc =>
        split_ifs with hown
        · refine hs.emplaceProxyValue ⟨hgood, hproxy, ?_⟩
          rw [ProtocolState.getCurrentQueryNum, hc]
          exact hown
        · exact hs
  unfold handleBody
  split
  · exact hs
  · split
    · next enclosed hbody => exact hs.wait (hmessage.enclosed hbody)
    · split_ifs with hdestination
      · split
        · exact haccept hdestination
        · exact haccept hdestination
        · exact hs
      · exact hs

theorem endOverlayRoundImpl_traceable (hcrypto : env.crypto.OnlyMarks)
    (hs : Traceable (origins mine env.meterId hmine) s) :
    (endOverlayRoundImpl env s).Ends (Traceable (origins mine env.meterId hmine))
      (TracedSoFar (origins mine env.meterId hmine)) := by
  unfold endOverlayRoundImpl
  split_ifs
  · refine Outcome.Ends.andThen (P := Traceable (origins mine env.meterId hmine))
      (Outcome.forEach_ends hs fun value hvalue t ht => ?_) fun t ht => ?_
    · have hadded := hs.values value (env.π.mem_order.mp hvalue)
      unfold echoValue
      split
      · exact ht.trace
      · next messages hmessages =>
        exact ht.send fun m hm => destined_multicast hcrypto rfl hadded.contributed
          (Origins.unsigned_nodup hmine value hadded.contributed) hadded.proxy hmessages hm
    · exact ht.onImpl (f := fun _ => ⟨t.overlayRound, .echo⟩) (fun _ hm => .inl hm) id
  · exact hs.enterAggregatePhase
  · exact hs

theorem keepsOrigins (hcrypto : env.crypto.OnlyMarks) :
    KeepsOrigins layered env (origins mine env.meterId hmine) where
  body _ _ hs hmessage hnames := handleBody_traceable hs hmessage hnames
  ends _ hs := endOverlayRoundImpl_traceable hcrypto hs
  start endRound request s hs hend := by
    have hshuffle : Traceable (origins mine env.meterId hmine)
        (s.onImpl fun _ => ⟨0, .shuffle⟩) := hs.onImpl (fun _ hm => .inl hm) id
    change (startQueryImpl env endRound request s).Ends _ _
    unfold startQueryImpl
    dsimp only
    split
    · exact hshuffle.trace
    · next contribution hcontribution =>
      exact hshuffle.encryptedMulticastToProxies hcrypto hend
        ⟨hs.mine contribution hcontribution, rfl⟩
  signature _ _ _ hs _ := hs

end CtProtocolState

namespace HftProtocolState
open ProtocolState (Traceable TracedSoFar KeepsOrigins)
variable {env : ProtocolEnv} {mine : ValueTuple → Prop}

theorem stored_begin (i : HftProtocolState) : stored (aggregatePhase.begin i) ⊆ stored i :=
  List.Subset.refl _

theorem stored_finish (i : HftProtocolState) : stored (aggregatePhase.finish i) ⊆ stored i :=
  fun _ hm => List.mem_append_right _ hm

theorem values_eq (proxyValues : List ValueContribution) (i : HftProtocolState) :
    aggregatePhase.values proxyValues i = proxyValues := rfl

abbrev origins (mine : ValueTuple → Prop) (meterId : ℤ)
    (hmine : ∀ c, mine c → c.proxies.Pairwise (· < ·)) : Origins aggregatePhase meterId :=
  .unsigned aggregatePhase meterId mine stored hmine stored_begin stored_finish values_eq

theorem destined_scatterMessage (hcrypto : env.crypto.OnlyMarks) {v : ValueContribution}
    (hgood : Unsigned mine v) (queryNum : ℤ) {proxyRelay : ℤ × ℤ}
    (hproxy : proxyRelay.1 ∈ v.value.proxies) :
    Destined (Unsigned mine) (scatterMessage env queryNum v proxyRelay) :=
  Destined.layer hcrypto (destined_direct hcrypto rfl hgood hproxy) queryNum proxyRelay.2 true

theorem proxy_of_mem_relays {shuffle : IterationOrder} {numMeters : ℤ} {proxies : List ℤ}
    {e : ℤ × ℤ} (he : e ∈ (relaysFor shuffle numMeters proxies).entries) : e.1 ∈ proxies := by
  obtain ⟨i, hi, hentry, -⟩ := (mem_foldl_assignRelay _).mp (OrderedMap.mem_def.mpr he)
  have hmem := List.getElem_mem hi
  rw [hentry] at hmem
  exact (List.mem_insertionSort (· ≤ ·)).mp (List.of_mem_zip hmem).1

variable {hmine : ∀ c, mine c → c.proxies.Pairwise (· < ·)} {s : State}

theorem handleBody_traceable (hs : Traceable (origins mine env.meterId hmine) s)
    {message : OverlayMessage} (hmessage : Destined (Unsigned mine) message)
    (hnames : message.destination = env.meterId → ∀ v, message.body.contributed = some v →
      Unsigned mine v ∧ env.meterId ∈ v.value.proxies) :
    (handleBody env message s).Ends (Traceable (origins mine env.meterId hmine))
      (TracedSoFar (origins mine env.meterId hmine)) := by
  unfold handleBody
  split_ifs with hnull hdestination
  · exact hs
  · split
    · unfold handleScatterPhaseMessage
      split
      · next wrapped hbody =>
        refine hs.onImpl (fun m hm => ?_) id
        rcases List.mem_append.mp hm with hm | hm
        · exact .inl (List.mem_append_left _ hm)
        · rcases mem_emplaceMessage hm with hm | rfl
          · exact .inl (List.mem_append_right _ hm)
          · exact .inr (hmessage.enclosed hbody)
      · exact hs
    · unfold handleGatherPhaseMessage
      split
      · exact hs
      · next contribution hbody =>
        obtain ⟨hgood, hproxy⟩ := hnames hdestination contribution
          (MessageBody.contributed_of_asValueContribution hbody)
        split
        · exact hs.trace
        · next c hc =>
          split_ifs with hown
          · refine hs.emplaceProxyValue ⟨hgood, hproxy, ?_⟩
            rw [ProtocolState.getCurrentQueryNum, hc]
            exact hown
          · exact hs
    · exact hs
  · refine hs.onImpl (fun m hm => ?_) id
    rcases List.mem_append.mp hm with hm | hm
    · rcases mem_emplaceMessage hm with hm | rfl
      · exact .inl (List.mem_append_left _ hm)
      · exact .inr hmessage
    · exact .inl (List.mem_append_right _ hm)

theorem flood_traceable (hs : Traceable (origins mine env.meterId hmine) s) :
    Traceable (origins mine env.meterId hmine) (flood env s) := by
  unfold flood
  split_ifs
  · refine hs.update (fun m hm => .inl ?_) id
    rcases List.mem_append.mp hm with hm | hm
    · rcases List.mem_append.mp hm with hm | hm
      · exact List.mem_append_left _ (List.mem_append_left _ hm)
      · rcases List.mem_append.mp hm with hm | hm
        · exact List.mem_append_left _ (List.mem_append_right _ hm)
        · exact List.mem_append_right _ (List.mem_append_left _ (env.π.mem_order.mp hm))
    · refine List.mem_append_right _ ?_
      rcases List.mem_append.mp hm with hm | hm
      · exact List.mem_append_left _ (List.mem_filter.mp hm).1
      · exact List.mem_append_right _ hm
  · exact hs

theorem endPhase_traceable (hs : Traceable (origins mine env.meterId hmine) s) :
    (endPhase env s).Ends (Traceable (origins mine env.meterId hmine))
      (TracedSoFar (origins mine env.meterId hmine)) := by
  unfold endPhase
  split_ifs
  · refine hs.onImpl (f := fun i => ⟨.gather, s.overlayRound, i.relayMessages, []⟩)
      (fun m hm => .inl ?_) id
    change m ∈ s.impl.relayMessages ++ [] at hm
    rw [List.append_nil] at hm
    exact List.mem_append_right _ hm
  · refine ProtocolState.Traceable.enterAggregatePhase (hs.onImpl (fun m hm => .inl ?_) id)
    exact List.mem_append_right _ hm
  · exact hs

theorem keepsOrigins (hcrypto : env.crypto.OnlyMarks) :
    KeepsOrigins layered env (origins mine env.meterId hmine) where
  body _ _ hs hmessage hnames := handleBody_traceable hs hmessage hnames
  ends _ hs := (endPhase_traceable hs).andThen fun _ ht => flood_traceable ht
  start endRound request s hs hend := by
    change (startQueryImpl env endRound request s).Ends _ _
    cases hcontribution : s.myContribution with
    | none =>
      unfold startQueryImpl
      rw [hcontribution]
      exact hs.trace
    | some contribution =>
      have hown := hs.mine contribution hcontribution
      -- proxies are picked in order, so that the sorting changes nothing
      have hsorted : contribution.proxies.insertionSort (· ≤ ·) = contribution.proxies :=
        List.Pairwise.insertionSort_eq ((hmine _ hown).imp le_of_lt)
      rw [startQueryImpl_eq env endRound request s hcontribution, hsorted]
      refine hend _ (ProtocolState.Traceable.act ?_ trivial)
      refine ⟨fun m hm => ?_, hs.future, fun c hc => ?_, fun aggregation hagg => ?_, ?_, trivial, hs.trace⟩
      · simp only [ProtocolState.stock, List.mem_append] at hm
        rcases hm with hm | hm
        · exact hs.stock m (List.mem_append_left _ (List.mem_append.mpr hm))
        · simp only [stored, List.append_nil] at hm
          rcases mem_foldl_emplaceMessage hm with hm | hm
          · cases hm
          · obtain ⟨e, he, rfl⟩ := List.mem_map.mp hm
            exact destined_scatterMessage hcrypto ⟨hown, rfl⟩ _ (proxy_of_mem_relays he)
      · obtain rfl := Option.some.inj hc
        exact hown
      · rw [hs.aggregate aggregation hagg, ProtocolState.getCurrentQueryNum, hcontribution]
        rfl
      · have hvalues := hs.values
        rw [ProtocolState.getCurrentQueryNum, hcontribution] at hvalues
        exact hvalues
  signature _ _ _ hs _ := hs

end HftProtocolState

theorem CrusaderAgreementState.contributed_of_admitted {crypto : CryptoLibrary}
    {message : OverlayMessage} {s : CrusaderAgreementState} {v : ValueContribution}
    (h : s.admitted crypto message = some v) : message.body.contributed = some v := by
  unfold admitted at h
  cases hbody : message.body with
  | signedValue signed =>
    simp only [hbody] at h
    split at h
    · split_ifs at h
      exact h
    · cases h
  | agreementValue agreed =>
    simp only [hbody] at h
    split_ifs at h
    exact h
  | _ => simp [hbody] at h

namespace BftProtocolState
open ProtocolState (Traceable TracedSoFar KeepsOrigins)
variable {env : ProtocolEnv} {mine : ValueTuple → Prop} {meterId : ℤ}

def AddedBy (mine : ValueTuple → Prop) (meterId _queryNum : ℤ) (v : ValueContribution) : Prop :=
  mine v.value ∧ meterId ∈ v.value.proxies

structure AgreesOnOwn (mine : ValueTuple → Prop) (meterId : ℤ) (i : BftProtocolState) : Prop where
  accepted : ∀ v ∈ i.acceptedProxyValues, AddedBy mine meterId 0 v
  agreement : ∀ agreement, i.agreementPhaseState = some agreement →
    agreement.nodeId = meterId ∧ agreement.Keyed ∧
      ∀ value signed, agreement.held value = some signed → AddedBy mine meterId 0 value

theorem signed_nodup (hmine : ∀ c, mine c → c.proxies.Pairwise (· < ·)) (v : ValueContribution)
    (h : mine v.value) : v.value.proxies.Nodup :=
  (hmine _ h).imp fun hlt => hlt.ne

theorem signed_own (queryNum : ℤ) (v : ValueContribution) (h : AddedBy mine meterId queryNum v) :
    mine v.value ∧ meterId ∈ v.value.proxies := h

theorem nothing_stored (_ : BftProtocolState) : ([] : List OverlayMessage) ⊆ [] :=
  List.Subset.refl []

theorem agreesOnOwn_begin (i : BftProtocolState) (h : AgreesOnOwn mine meterId i) :
    AgreesOnOwn mine meterId (aggregatePhase.begin i) := ⟨h.accepted, h.agreement⟩

theorem agreesOnOwn_finish (i : BftProtocolState) (h : AgreesOnOwn mine meterId i) :
    AgreesOnOwn mine meterId (aggregatePhase.finish i) := ⟨h.accepted, h.agreement⟩

theorem signed_values (queryNum : ℤ) (proxyValues : List ValueContribution) (i : BftProtocolState)
    (_ : ∀ v ∈ proxyValues, AddedBy mine meterId queryNum v) (h : AgreesOnOwn mine meterId i) :
    ∀ v ∈ aggregatePhase.values proxyValues i, AddedBy mine meterId queryNum v := h.accepted

abbrev origins (mine : ValueTuple → Prop) (meterId : ℤ)
    (hmine : ∀ c, mine c → c.proxies.Pairwise (· < ·)) : Origins aggregatePhase meterId where
  mine := mine
  good v := mine v.value
  mayAdd := AddedBy mine meterId
  stored _ := []
  sound := AgreesOnOwn mine meterId
  nodup := signed_nodup hmine
  own := signed_own
  stored_begin := nothing_stored
  stored_finish := nothing_stored
  sound_begin := agreesOnOwn_begin
  sound_finish := agreesOnOwn_finish
  values := signed_values

variable {hmine : ∀ c, mine c → c.proxies.Pairwise (· < ·)} {s : State}

theorem AgreesOnOwn.handleMessage {i : BftProtocolState} (h : AgreesOnOwn mine meterId i)
    {agreement : CrusaderAgreementState} (hagreement : i.agreementPhaseState = some agreement)
    {crypto : CryptoLibrary} {message : OverlayMessage}
    (hnames : ∀ v, message.body.contributed = some v → AddedBy mine meterId 0 v) :
    AgreesOnOwn mine meterId
      { i with agreementPhaseState := some (agreement.handleMessage crypto message) } := by
  obtain ⟨hnode, hkeyed, hheld⟩ := h.agreement agreement hagreement
  refine ⟨h.accepted, fun agreement' hagreement' => ?_⟩
  obtain rfl := Option.some.inj hagreement'
  refine ⟨(CrusaderAgreementState.handleMessage_fields crypto message agreement).1.trans hnode,
    CrusaderAgreementState.keyed_handleMessage hkeyed message, fun value signed hvalue => ?_⟩
  by_cases hadmitted : agreement.admitted crypto message = some value
  · exact hnames value (CrusaderAgreementState.contributed_of_admitted hadmitted)
  · rw [CrusaderAgreementState.held_handleMessage hadmitted] at hvalue
    exact hheld value signed hvalue

theorem handleBody_traceable (hs : Traceable (origins mine env.meterId hmine) s)
    {message : OverlayMessage} (hmessage : Destined (fun v => mine v.value) message)
    (hnames : message.destination = env.meterId → ∀ v, message.body.contributed = some v →
      mine v.value ∧ env.meterId ∈ v.value.proxies) :
    (handleBody env message s).Ends (Traceable (origins mine env.meterId hmine))
      (TracedSoFar (origins mine env.meterId hmine)) := by
  unfold handleBody
  split
  · exact hs
  · split
    · next enclosed hbody => exact hs.wait (hmessage.enclosed hbody)
    · split_ifs with hdestination
      · split
        · unfold handleShufflePhaseMessage
          split
          · exact hs
          · next contribution hbody =>
            split
            · exact hs.trace
            · split_ifs
              · exact hs.emplaceProxyValue (hnames hdestination contribution
                  (MessageBody.contributed_of_asValueContribution hbody))
              · exact hs
        · unfold handleAgreementPhaseMessage
          split
          · exact hs.trace
          · next agreement hagreement =>
            dsimp only
            split
            · next value _ =>
              have hlogged : Traceable (origins mine env.meterId hmine)
                  (s.act (.agreeOn s.getCurrentQueryNum value)) := hs.act trivial
              exact hlogged.onImpl (fun _ hm => .inl hm) fun hsound =>
                hsound.handleMessage hagreement (hnames hdestination)
            · exact hs.onImpl (fun _ hm => .inl hm) fun hsound =>
                hsound.handleMessage hagreement (hnames hdestination)
        · exact hs
      · exact hs

/-- What phase 1 accepts goes to the other proxies. -/
theorem finishPhase1_traceable (hcrypto : env.crypto.OnlyMarks)
    (hs : Traceable (origins mine env.meterId hmine) s) {agreement : CrusaderAgreementState}
    (hagreement : s.impl.agreementPhaseState = some agreement) {round : ℤ}
    {messages : List OverlayMessage} {agreement' : CrusaderAgreementState}
    (h : agreement.finishPhase1 env.π env.crypto round = .ok (messages, agreement')) :
    Traceable (origins mine env.meterId hmine) { s with
      outgoingMessages := s.outgoingMessages ++ messages
      impl := { s.impl with agreementPhaseState := some agreement' } } := by
  obtain ⟨hnode, hkeyed, hheld⟩ := hs.sound.agreement agreement hagreement
  obtain ⟨batches, hbatches, rfl, rfl⟩ := CrusaderAgreementState.finishPhase1_eq_ok h
  have hsent : Traceable (origins mine env.meterId hmine)
      { s with outgoingMessages := s.outgoingMessages ++ batches.flatten } := by
    refine hs.send fun m hm => ?_
    obtain ⟨batch, hbatch, hm⟩ := List.mem_flatten.mp hm
    obtain ⟨agreed, hagreed, hmulticast⟩ := exists_of_mem_mapM hbatches hbatch
    obtain ⟨⟨value, hvalue⟩, -, -, -⟩ := CrusaderAgreementState.mem_acceptedValues.mp hagreed
    have hown := hheld value _ hvalue
    rw [← hkeyed value _ hvalue] at hown
    rw [hnode] at hmulticast
    exact destined_multicast hcrypto rfl hown.1 (signed_nodup hmine _ hown.1) hown.2 hmulticast hm
  refine hsent.update (fun m hm => .inl hm) fun hsound => ⟨hsound.accepted, fun a ha => ?_⟩
  obtain rfl := Option.some.inj ha
  exact ⟨hnode, hkeyed, hheld⟩

theorem endOverlayRoundImpl_traceable (hcrypto : env.crypto.OnlyMarks)
    (hs : Traceable (origins mine env.meterId hmine) s) :
    (endOverlayRoundImpl env s).Ends (Traceable (origins mine env.meterId hmine))
      (TracedSoFar (origins mine env.meterId hmine)) := by
  unfold endOverlayRoundImpl
  dsimp only
  split
  · refine Outcome.Ends.andThen (P := Traceable (origins mine env.meterId hmine))
      (Outcome.forEach_ends hs fun value hvalue t ht => ?_) fun t ht => ?_
    · have hown := hs.values value (env.π.mem_order.mp hvalue)
      unfold signValue
      dsimp only
      split
      · exact ht.trace
      · next messages hmessages =>
        exact ht.send fun m hm => destined_multicast hcrypto rfl hown.1
          (signed_nodup hmine value hown.1) hown.2 hmessages hm
    · exact ht.onImpl (fun _ hm => .inl hm) fun hsound => ⟨hsound.accepted, hsound.agreement⟩
  · split
    · split
      · split
        · exact hs.trace
        · exact hs
      · next agreement hagreement =>
        split
        · have haccepted : Traceable (origins mine env.meterId hmine) (s.onImpl fun i =>
              { i with acceptedProxyValues := agreement.finishPhase2 env.π }) := by
            refine hs.onImpl (fun _ hm => .inl hm) fun hsound => ⟨fun v hv => ?_, hsound.agreement⟩
            obtain ⟨-, hkeyed, hheld⟩ := hsound.agreement agreement hagreement
            obtain ⟨value, signed, hvalue, rfl, -⟩ := CrusaderAgreementState.mem_finishPhase2.mp hv
            rw [hkeyed value signed hvalue]
            exact hheld value signed hvalue
          exact haccepted.enterAggregatePhase
        · split
          · split
            · exact hs.trace
            · next hfinished => exact finishPhase1_traceable hcrypto hs hagreement hfinished
          · exact hs
    · exact hs

theorem keepsOrigins (hcrypto : env.crypto.OnlyMarks) :
    KeepsOrigins layered env (origins mine env.meterId hmine) where
  body _ _ hs hmessage hnames := handleBody_traceable hs hmessage hnames
  ends _ hs := endOverlayRoundImpl_traceable hcrypto hs
  start endRound request s hs _ := by
    have hsetup : Traceable (origins mine env.meterId hmine) (s.onImpl fun i => { i with
        protocolPhase := .setup
        acceptedProxyValues := []
        agreementPhaseState := some (.init env.meterId env.numMeters request.queryNumber) }) := by
      refine hs.onImpl (fun _ hm => .inl hm) fun _ => ⟨nofun, fun agreement hagreement => ?_⟩
      obtain rfl := Option.some.inj hagreement
      exact ⟨rfl, CrusaderAgreementState.keyed_init _ _ _, by simp⟩
    change (startQueryImpl env endRound request s).Ends _ _
    unfold startQueryImpl
    dsimp only
    split
    · exact hsetup.trace
    · exact hsetup.act trivial
  signature endRound message s hs hend := by
    have hshuffle : Traceable (origins mine env.meterId hmine)
        (s.onImpl fun i => { i with protocolPhase := .shuffle }) :=
      hs.onImpl (fun _ hm => .inl hm) fun hsound => ⟨hsound.accepted, hsound.agreement⟩
    change (handleSignatureResponse env endRound message s).Ends _ _
    unfold handleSignatureResponse
    split
    · exact hs.trace
    · next contribution hcontribution =>
      exact hshuffle.encryptedMulticastToProxies hcrypto hend (hs.mine contribution hcontribution)

end BftProtocolState
end Pddm
