import Pddm.AggregateNumbers
import Pddm.WaitingMessages

/-!
# Lengths of data

A meter adds vectors up that other meters have contributed, into one that is as long as its own
contribution. In a query for which every contribution has one length, they fit.
-/
namespace Pddm

/-- Encryption and decryption leave the body to be read, as in a simulation. -/
structure CryptoLibrary.KeepsBody (crypto : CryptoLibrary) : Prop where
  encrypt : ∀ m id, (crypto.rsaEncrypt m id).body = m.body
  decrypt : ∀ m, (crypto.rsaDecrypt m).body = m.body

theorem dummyCrypto_keepsBody : dummyCrypto.KeepsBody := ⟨fun _ _ => rfl, fun _ => rfl⟩

/-- The contributions in a body, at any depth, have the length of their query. -/
def MessageBody.Sized (len : ℤ → ℕ) : MessageBody → Prop
  | .overlay _ _ _ _ body | .pathOverlay _ _ _ _ _ body => body.Sized len
  | .valueContribution v => v.value.value.length = len v.value.queryNum
  | _ => True

section Bodies
variable {len : ℤ → ℕ} {crypto : CryptoLibrary}

theorem MessageBody.Sized.enclosed {body : MessageBody} (h : body.Sized len)
    {enclosed : OverlayMessage} (hbody : body.asOverlayMessage = some enclosed) :
    enclosed.body.Sized len := by
  cases body with
  | overlay | pathOverlay =>
    obtain rfl := Option.some.inj hbody
    exact h
  | _ => cases hbody

theorem MessageBody.Sized.contribution {body : MessageBody} (h : body.Sized len)
    {v : ValueContribution} (hbody : body.asValueContribution = some v) :
    v.value.value.length = len v.value.queryNum := by
  cases body with
  | valueContribution =>
    obtain rfl := Option.some.inj hbody
    exact h
  | _ => cases hbody

theorem OverlayMessage.sized_toBody {m : OverlayMessage} (h : m.body.Sized len) :
    m.toBody.Sized len := by
  unfold OverlayMessage.toBody
  cases m.remainingPath <;> exact h

theorem OverlayMessage.body_received (hcrypto : crypto.KeepsBody) (m : OverlayMessage) :
    (m.received crypto).body = m.body := by
  have hopened : (m.opened crypto).body = m.body := by
    unfold OverlayMessage.opened
    split_ifs
    · exact hcrypto.decrypt m
    · rfl
  unfold OverlayMessage.received
  split
  · exact hopened
  · exact hopened

theorem OverlayMessage.body_of_mem_readdressed (hcrypto : crypto.KeepsBody) {m w : OverlayMessage}
    (hw : w ∈ m.readdressed crypto) : w.body = m.body := by
  unfold OverlayMessage.readdressed at hw
  split at hw
  · rw [List.mem_singleton.mp hw]
    exact OverlayMessage.body_received hcrypto m
  · cases hw

theorem sized_onion (hcrypto : crypto.KeepsBody) {path : List ℤ} {payload : MessageBody}
    {queryNum : ℤ} {m : OverlayMessage} (hpayload : payload.Sized len)
    (h : buildEncryptedOnion crypto path payload queryNum = .ok m) : m.body.Sized len := by
  unfold buildEncryptedOnion at h
  split at h
  · cases h
  · obtain rfl := Except.ok.inj h
    refine List.foldlRecOn (motive := fun layer : OverlayMessage => layer.body.Sized len) _ _ ?_
      fun layer hlayer hop _ => ?_
    · rw [hcrypto.encrypt]
      exact hpayload
    · rw [hcrypto.encrypt]
      exact OverlayMessage.sized_toBody hlayer

theorem body_of_multicast (hcrypto : crypto.KeepsBody) {π : IterationOrder}
    {nodeId numNodes startRound queryNum : ℤ} {proxies : List ℤ} {body : MessageBody}
    {messages : List OverlayMessage} {m : OverlayMessage}
    (h : multicastToOtherProxies π crypto nodeId numNodes startRound queryNum proxies body =
      .ok messages) (hm : m ∈ messages) : m.body = body := by
  obtain ⟨_, _, _, _, -, -, rfl⟩ := exists_path_of_multicast h hm
  exact hcrypto.encrypt _ _

end Bodies

namespace TreeAggregationState
variable {len : ℤ → ℕ} {s t : TreeAggregationState}

/-- What the adding of data asks for: element 0 on both sides, or vectors of one length. -/
def Takes (s : TreeAggregationState) (data : List FixedPoint) : Prop :=
  ∀ intermediate, s.aggregationIntermediate = some intermediate →
    if s.isSingleValued then intermediate.body ≠ [] ∧ data ≠ []
    else data.length = intermediate.body.length

/-- Where it asks for more than there is, the adding stops, and only there. -/
theorem addData_isOk_iff (onEmpty : Fault) (data : List FixedPoint) (numContributors : ℤ)
    {intermediate : AggregationMessage} (h : s.aggregationIntermediate = some intermediate) :
    (∃ added, s.addData onEmpty data numContributors intermediate = .ok added) ↔ s.Takes data := by
  have htakes : s.Takes data ↔ if s.isSingleValued then intermediate.body ≠ [] ∧ data ≠ []
      else data.length = intermediate.body.length := by
    unfold Takes
    simp [h]
  rw [htakes]
  unfold addData
  split_ifs
  · cases data with
    | nil => simp
    | cons value data =>
      unfold AggregationMessage.addValue
      cases hbody : intermediate.body <;> simp
  · unfold AggregationMessage.addValues
    split_ifs with hlength <;> simp [hlength]

structure Sized (len : ℤ → ℕ) (s : TreeAggregationState) : Prop where
  pos : 0 < len s.currentQuery.queryNumber
  intermediate : ∀ m, s.aggregationIntermediate = some m →
    m.queryNum = s.currentQuery.queryNumber ∧ m.body.length = len s.currentQuery.queryNumber

theorem Sized.takes (hs : s.Sized len) {data : List FixedPoint}
    (hdata : data.length = len s.currentQuery.queryNumber) : s.Takes data := by
  intro m hm
  have hlength := (hs.intermediate m hm).2
  have hpos := hs.pos
  split_ifs
  · exact ⟨List.ne_nil_of_length_pos (hlength ▸ hpos), List.ne_nil_of_length_pos (hdata ▸ hpos)⟩
  · exact hdata.trans hlength.symm

theorem addData_length {onEmpty : Fault} {data : List FixedPoint} {numContributors : ℤ}
    {intermediate added : AggregationMessage}
    (h : s.addData onEmpty data numContributors intermediate = .ok added) :
    added.queryNum = intermediate.queryNum ∧ added.body.length = intermediate.body.length := by
  unfold addData at h
  split_ifs at h
  · cases data with
    | nil => cases h
    | cons value data =>
      unfold AggregationMessage.addValue at h
      cases hbody : intermediate.body with
      | nil => simp [hbody] at h
      | cons x xs =>
        simp only [hbody, Except.ok.injEq] at h
        obtain rfl := h
        exact ⟨rfl, rfl⟩
  · unfold AggregationMessage.addValues at h
    split_ifs at h with hlength
    obtain rfl := Except.ok.inj h
    exact ⟨rfl, by simp [hlength]⟩

theorem Sized.added (hs : s.Sized len) {m added : AggregationMessage}
    (hm : s.aggregationIntermediate = some m)
    (h : added.queryNum = m.queryNum ∧ added.body.length = m.body.length) (received : ℤ) :
    Sized len { s with aggregationIntermediate := some added, childrenReceivedFrom := received } := by
  refine ⟨hs.pos, fun m' hm' => ?_⟩
  obtain rfl := Option.some.inj hm'
  exact ⟨h.1.trans (hs.intermediate m hm).1, h.2.trans (hs.intermediate m hm).2⟩

theorem Sized.handleMessage (hs : s.Sized len) {message : AggregationMessage}
    (h : s.handleMessage message = .ok t) : t.Sized len := by
  unfold TreeAggregationState.handleMessage at h
  cases hi : s.aggregationIntermediate with
  | none => simp [hi] at h
  | some intermediate =>
    simp only [hi] at h
    cases hadd : s.addData .exception message.body message.numContributors intermediate with
    | error e => simp [hadd, Except.map] at h
    | ok added =>
      simp only [hadd, Except.map, Except.ok.injEq] at h
      obtain rfl := h
      exact hs.added hi (addData_length hadd) _

theorem Sized.addProxyValue (hs : s.Sized len) {value : ValueContribution}
    (h : s.addProxyValue value = .ok t) : t.Sized len := by
  unfold TreeAggregationState.addProxyValue at h
  cases hi : s.aggregationIntermediate with
  | none => simp [hi] at h
  | some intermediate =>
    simp only [hi] at h
    cases hadd : s.addData .undefinedBehaviour value.value.value 1 intermediate with
    | error e => simp [hadd, Except.map] at h
    | ok added =>
      simp only [hadd, Except.map, Except.ok.injEq] at h
      obtain rfl := h
      exact hs.added hi (addData_length hadd) _

theorem Sized.addProxyValues (hs : s.Sized len) (values : List ValueContribution) :
    (addProxyValues values s).Holds (Sized len) := by
  induction values generalizing s with
  | nil => exact hs
  | cons value values ih =>
    unfold TreeAggregationState.addProxyValues
    cases hv : s.addProxyValue value with
    | error e => exact hs
    | ok t => exact ih (hs.addProxyValue hv)

theorem Sized.initializeState (hpos : 0 < len s.currentQuery.queryNumber) {dataArrayLength : ℕ}
    (hlength : dataArrayLength = len s.currentQuery.queryNumber) (failedMeterIds : List ℤ) :
    (s.initializeState dataArrayLength failedMeterIds).Sized len := by
  refine ⟨hpos, fun m hm => ?_⟩
  obtain rfl := Option.some.inj hm
  exact ⟨rfl, List.length_replicate.trans hlength⟩

end TreeAggregationState

/-- What is sent, and what is noted down before it is added, has the length of its query. -/
def Action.Sized (len : ℤ → ℕ) : Action → Prop
  | .sendOverlay batch _ => ∀ x ∈ batch, x.body.body.Sized len
  | .sendAggregate _ message _ | .receiveAggregate _ message =>
      message.body.length = len message.queryNum
  | .startAggregate _ _ buffered => ∀ message ∈ buffered, message.body.length = len message.queryNum
  | .computeAggregate queryNum values => ∀ v ∈ values, v.value.value.length = len queryNum
  | _ => True

/-- The data that is noted down to be added, in the query of the aggregate, fits it. -/
def Action.FitsIn (aggregation : TreeAggregationState) : Action → Prop
  | .computeAggregate queryNum values =>
      queryNum = aggregation.currentQuery.queryNumber → ∀ v ∈ values, aggregation.Takes v.value.value
  | .receiveAggregate queryNum message =>
      queryNum = aggregation.currentQuery.queryNumber → aggregation.Takes message.body
  | .startAggregate queryNum failed buffered =>
      queryNum = aggregation.currentQuery.queryNumber →
        TreeAggregationState.awaited aggregation.nodeId aggregation.numGroups
            aggregation.numMeters failed ≤ 0 ∨
          ∀ message ∈ buffered, aggregation.Takes message.body
  | _ => True

namespace ProtocolState
variable {ι : Type} {env : ProtocolEnv} {len : ℤ → ℕ} {s t : ProtocolState ι}

/-- All that a meter adds into its aggregate, its own values and the messages of its children,
fits it. -/
def AddsFit (s : ProtocolState ι) : Prop :=
  ∀ aggregation, s.aggregationPhaseState = some aggregation → ∀ a ∈ s.trace, a.FitsIn aggregation

/-- The invariant: whatever a meter has, and has sent, has the length of its query. -/
structure Sized (env : ProtocolEnv) (len : ℤ → ℕ) (s : ProtocolState ι) : Prop where
  rooted : s.Rooted env
  contribution : ∀ c, s.myContribution = some c → c.value.length = len c.queryNum
  aggregate : ∀ aggregation, s.aggregationPhaseState = some aggregation →
    aggregation.Sized len ∧ s.getCurrentQueryNum = aggregation.currentQuery.queryNumber
  values : ∀ v ∈ s.proxyValues,
    v.value.queryNum = s.getCurrentQueryNum ∧ v.value.value.length = len v.value.queryNum
  buffered : ∀ m ∈ s.futureAggregationMessages, m.body.length = len m.queryNum
  stock : ∀ m ∈ s.waitingMessages ++ s.outgoingMessages, m.body.Sized len
  future : ∀ x ∈ s.futureOverlayMessages, x.body.body.Sized len
  trace : ∀ a ∈ s.trace, a.Sized len

theorem Sized.addsFit (hs : Sized env len s) (hcurrent : AllCurrent env s.trace) : s.AddsFit := by
  intro aggregation hagg a ha
  obtain ⟨hsized, -⟩ := hs.aggregate aggregation hagg
  obtain ⟨hnode, hgroups, hmeters⟩ := hs.rooted aggregation hagg
  have hlengths := hs.trace a ha
  have hown := hcurrent a ha
  cases a with
  | computeAggregate queryNum values =>
    rintro rfl v hv
    exact hsized.takes (hlengths v hv)
  | receiveAggregate queryNum message =>
    rintro rfl
    change message.queryNum = _ at hown
    exact hsized.takes (hown ▸ hlengths)
  | startAggregate queryNum failed buffered =>
    rintro rfl
    rw [hnode, hgroups, hmeters]
    refine hown.imp_right fun hbuffered message hmem => ?_
    exact hsized.takes (hbuffered message hmem ▸ hlengths message hmem)
  | _ => trivial

theorem sized_init (impl : ι) : Sized env len (.init impl) where
  rooted _ h := by simp [init] at h
  contribution _ h := by simp [init] at h
  aggregate _ h := by simp [init] at h
  values _ h := by simp [init] at h
  buffered _ h := by simp [init] at h
  stock _ h := by simp [init] at h
  future _ h := by simp [init] at h
  trace _ h := by simp [init] at h

/-- Where a handler stops part-way, what was sent is still of the right length, and so is what
is added. -/
structure Fitting (env : ProtocolEnv) (len : ℤ → ℕ) (s : ProtocolState ι) : Prop where
  trace : ∀ a ∈ s.trace, a.Sized len
  adds : AllCurrent env s.trace → s.AddsFit

theorem Sized.fitting (hs : Sized env len s) : Fitting env len s := ⟨hs.trace, hs.addsFit⟩

/-- Values have been added, for a query of one value, where there is none to add them to. -/
def addsToNone (s : ProtocolState ι) : Bool :=
  s.aggregationPhaseState.any fun aggregation =>
    aggregation.isSingleValued && aggregation.aggregationIntermediate.any (·.body.isEmpty) &&
      s.trace.any fun
        | .computeAggregate queryNum values =>
            queryNum = aggregation.currentQuery.queryNumber && !values.isEmpty
        | _ => false

theorem not_addsFit_of_addsToNone (h : s.addsToNone = true) : ¬ s.AddsFit := by
  obtain ⟨aggregation, hagg, h⟩ := (Option.any_eq_true _ _).mp h
  simp only [Bool.and_eq_true, List.any_eq_true, Option.any_eq_true, List.isEmpty_iff] at h
  obtain ⟨⟨hsingle, m, hm, hempty⟩, a, ha, hadds⟩ := h
  intro hfit
  have hfits := hfit aggregation hagg a ha
  cases a with
  | computeAggregate queryNum values =>
    simp only [Bool.and_eq_true, decide_eq_true_eq, Bool.not_eq_true', List.isEmpty_eq_false_iff] at hadds
    obtain ⟨v, hv⟩ := List.exists_mem_of_ne_nil _ hadds.2
    have htakes := hfits hadds.1 v hv m hm
    rw [if_pos hsingle] at htakes
    exact htakes.1 hempty
  | _ => cases hadds

theorem Sized.setAggregate (hs : Sized env len s) {aggregation : TreeAggregationState}
    (hsized : aggregation.Sized len)
    (hroot : aggregation.nodeId = env.meterId ∧ aggregation.numGroups = env.numAggregationGroups ∧
      aggregation.numMeters = env.numMeters)
    (hcurrent : s.getCurrentQueryNum = aggregation.currentQuery.queryNumber) :
    Sized env len { s with aggregationPhaseState := some aggregation } where
  rooted aggregation' h := by
    obtain rfl := Option.some.inj h
    exact hroot
  contribution := hs.contribution
  aggregate aggregation' h := by
    obtain rfl := Option.some.inj h
    exact ⟨hsized, hcurrent⟩
  values := hs.values
  buffered := hs.buffered
  stock := hs.stock
  future := hs.future
  trace := hs.trace

theorem Sized.act (hs : Sized env len s) {a : Action} (ha : a.Sized len) :
    Sized env len (s.act a) := by
  refine ⟨hs.rooted, hs.contribution, hs.aggregate, hs.values, hs.buffered, hs.stock, hs.future,
    fun b hb => ?_⟩
  rcases List.mem_append.mp hb with hb | hb
  · exact hs.trace b hb
  · rw [List.mem_singleton.mp hb]
    exact ha

theorem Sized.onImpl (hs : Sized env len s) (f : ι → ι) : Sized env len (s.onImpl f) :=
  ⟨hs.rooted, hs.contribution, hs.aggregate, hs.values, hs.buffered, hs.stock, hs.future, hs.trace⟩

theorem Sized.frame (hs : Sized env len s) (h : Bookkeeping s t) : Sized env len t := by
  obtain ⟨ext, htrace, hext⟩ := h.trace
  have hcurrent : t.getCurrentQueryNum = s.getCurrentQueryNum := by
    rw [getCurrentQueryNum, h.myContribution, getCurrentQueryNum]
  refine ⟨?_, h.myContribution ▸ hs.contribution, ?_, ?_, h.futureAggregationMessages ▸ hs.buffered,
    ?_, fun x hx => hs.future x (h.futureOverlayMessages hx), fun a ha => ?_⟩
  · rw [Rooted, h.aggregationPhaseState]
    exact hs.rooted
  · rw [h.aggregationPhaseState, hcurrent]
    exact hs.aggregate
  · rw [h.proxyValues, hcurrent]
    exact hs.values
  · rw [h.waitingMessages, h.outgoingMessages]
    exact hs.stock
  · rw [htrace] at ha
    rcases List.mem_append.mp ha with ha | ha
    · exact hs.trace a ha
    · have hnote := hext a ha
      cases a <;> simp_all [Action.isNote, Action.Sized]

section Aggregation
variable {ph : AggregatePhase ι}

theorem sized_computeAndSendAggregate (hs : Sized env len s) {values : List ValueContribution}
    (hvalues : ∀ v ∈ values, v.value.value.length = len s.getCurrentQueryNum) :
    (computeAndSendAggregate env values s).Holds (Sized env len) := by
  unfold computeAndSendAggregate
  cases hagg : s.aggregationPhaseState with
  | none => exact hs
  | some aggregation =>
    obtain ⟨hsized, hcurrent⟩ := hs.aggregate aggregation hagg
    have hcomputing : Sized env len
        (s.act (.computeAggregate aggregation.currentQuery.queryNumber values)) :=
      hs.act fun v hv => hcurrent ▸ hvalues v hv
    have hadd := (hsized.addProxyValues (env.π.order values)).and
      (TreeAggregationState.addProxyValues_ends (env.π.order values) aggregation)
    have hset {t : TreeAggregationState}
        (ht : t.Sized len ∧ t = { aggregation with
          aggregationIntermediate := t.aggregationIntermediate }) :
        Sized env len { s.act (.computeAggregate aggregation.currentQuery.queryNumber values) with
          aggregationPhaseState := some t } := by
      refine hcomputing.setAggregate ht.1 ?_ ?_
      · rw [ht.2]
        exact hs.rooted aggregation hagg
      · rw [ht.2]
        exact hcurrent
    dsimp only
    cases haddition : TreeAggregationState.addProxyValues (env.π.order values) aggregation with
    | halted e t =>
      rw [haddition] at hadd
      exact hset hadd
    | done t =>
      rw [haddition] at hadd
      dsimp only
      cases hi : t.aggregationIntermediate with
      | none => exact hset hadd
      | some aggregate =>
        obtain ⟨hnum, hlength⟩ := hadd.1.intermediate aggregate hi
        exact (hset hadd).act (hlength.trans (congrArg len hnum.symm))

variable (hph : ∀ proxyValues i, ph.values proxyValues i ⊆ proxyValues)
include hph

theorem sized_sendAggregateIfDone (hs : Sized env len s) :
    (sendAggregateIfDone env ph s).Holds (Sized env len) := by
  have hvalues : ∀ v ∈ ph.values s.proxyValues s.impl,
      v.value.value.length = len s.getCurrentQueryNum := by
    intro v hv
    obtain ⟨hcurrent, hlength⟩ := hs.values v (hph _ _ hv)
    exact hcurrent ▸ hlength
  unfold sendAggregateIfDone
  split
  · exact hs
  · split_ifs
    · exact (sized_computeAndSendAggregate hs hvalues).andThen fun t ht => ht.onImpl ph.finish
    · exact hs

theorem sized_handleAggregationMessage (hs : Sized env len s) (message : AggregationMessage) :
    (handleAggregationMessage env ph message s).Holds (Sized env len) := by
  unfold handleAggregationMessage
  cases hagg : s.aggregationPhaseState with
  | none => exact hs
  | some aggregation =>
    obtain ⟨hsized, hcurrent⟩ := hs.aggregate aggregation hagg
    dsimp only
    cases hadd : aggregation.handleMessage message with
    | error e => exact hs
    | ok added =>
      have hsame : added.nodeId = aggregation.nodeId ∧
          added.numGroups = aggregation.numGroups ∧ added.numMeters = aggregation.numMeters ∧
          added.currentQuery = aggregation.currentQuery := by
        obtain ⟨_, rfl⟩ := TreeAggregationState.handleMessage_eq hadd
        exact ⟨rfl, rfl, rfl, rfl⟩
      obtain ⟨hnode, hgroups, hmeters, hquery⟩ := hsame
      refine sized_sendAggregateIfDone hph (Sized.act ?_ trivial)
      refine hs.setAggregate (hsized.handleMessage hadd) ?_ (hquery ▸ hcurrent)
      rw [hnode, hgroups, hmeters]
      exact hs.rooted aggregation hagg

theorem sized_startAggregatePhase (hs : Sized env len s) :
    (startAggregatePhase env ph s).Holds (Sized env len) := by
  have hcancel : Sized env len s.cancelTimer := hs.frame (.cancelTimer s)
  cases hagg : s.aggregationPhaseState with
  | none => simpa [startAggregatePhase, cancelTimer, hagg] using hcancel
  | some aggregation =>
    cases hcontribution : s.myContribution with
    | none => simpa [startAggregatePhase, cancelTimer, hagg, hcontribution] using hcancel
    | some contribution =>
      obtain ⟨hsized, hcurrent⟩ := hs.aggregate aggregation hagg
      have hnum : s.getCurrentQueryNum = contribution.queryNum := by
        rw [getCurrentQueryNum, hcontribution]
      have hlength : contribution.value.length = len aggregation.currentQuery.queryNumber := by
        rw [hs.contribution contribution hcontribution, ← hnum, hcurrent]
      have hlogged : Sized env len (s.act (.startAggregate aggregation.currentQuery.queryNumber
          s.failedMeterIds s.futureAggregationMessages)) := hs.act hs.buffered
      have hstarted : Sized env len (s.started aggregation contribution.value.length) := by
        have hset := hlogged.setAggregate
          (TreeAggregationState.Sized.initializeState hsized.pos hlength s.failedMeterIds)
          (hs.rooted aggregation hagg) hcurrent
        exact ⟨hset.rooted, hset.contribution, hset.aggregate, hset.values, hset.buffered,
          hset.stock, hset.future, hset.trace⟩
      rw [startAggregatePhase_eq env ph hagg hcontribution]
      refine Outcome.Ends.andThen (P := Sized env len) (Outcome.Ends.andThen (P := Sized env len)
        (sized_sendAggregateIfDone hph hstarted) fun t ht => ?_) fun t ht => ?_
      · split_ifs
        · refine Outcome.forEach_ends ht fun message _ u hu => ?_
          unfold replay
          refine (sized_handleAggregationMessage hph hu message).andThen fun v hv => ?_
          exact ⟨hv.rooted, hv.contribution, hv.aggregate, hv.values,
            fun m hm => hv.buffered m (List.mem_of_mem_tail hm), hv.stock, hv.future, hv.trace⟩
        · exact ht
      · exact ⟨ht.rooted, ht.contribution, ht.aggregate, ht.values, ht.buffered, ht.stock,
          ht.future, ht.trace⟩

theorem sized_receiveAggregation (hs : Sized env len s) {message : AggregationMessage}
    (hmessage : message.body.length = len message.queryNum) :
    (receiveAggregation env ph message s).Holds (Sized env len) := by
  have hreceived : Sized env len (s.act (.receiveAggregate s.getCurrentQueryNum message)) :=
    hs.act hmessage
  unfold receiveAggregation
  split_ifs
  · exact sized_handleAggregationMessage hph hreceived message
  · refine ⟨hs.rooted, hs.contribution, hs.aggregate, hs.values, fun m hm => ?_, hs.stock,
      hs.future, hs.trace⟩
    rcases List.mem_append.mp hm with hm | hm
    · exact hs.buffered m hm
    · rw [List.mem_singleton.mp hm]
      exact hmessage
  · exact hs

end Aggregation

section Overlay

theorem Sized.stocks (hs : Sized env len s) {waiting outgoing : List OverlayMessage}
    (hstock : ∀ m ∈ waiting ++ outgoing,
      m ∈ s.waitingMessages ++ s.outgoingMessages ∨ m.body.Sized len) :
    Sized env len { s with waitingMessages := waiting, outgoingMessages := outgoing } :=
  ⟨hs.rooted, hs.contribution, hs.aggregate, hs.values, hs.buffered,
    fun m hm => (hstock m hm).elim (hs.stock m) id, hs.future, hs.trace⟩

theorem Sized.wait (hs : Sized env len s) {m : OverlayMessage} (hm : m.body.Sized len) :
    Sized env len (s.wait m) := by
  refine hs.stocks fun w hw => ?_
  simp only [List.mem_append, List.mem_singleton] at hw ⊢
  rcases hw with (hw | rfl) | hw
  · exact .inl (.inl hw)
  · exact .inr hm
  · exact .inl (.inr hw)

theorem Sized.send (hs : Sized env len s) {messages : List OverlayMessage}
    (hmessages : ∀ m ∈ messages, m.body.Sized len) :
    Sized env len { s with outgoingMessages := s.outgoingMessages ++ messages } := by
  refine hs.stocks fun w hw => ?_
  simp only [List.mem_append] at hw ⊢
  rcases hw with hw | hw | hw
  · exact .inl (.inl hw)
  · exact .inl (.inr hw)
  · exact .inr (hmessages w hw)

theorem Sized.emplaceProxyValue (hs : Sized env len s) {v : ValueContribution}
    (hcurrent : v.value.queryNum = s.getCurrentQueryNum)
    (hlength : v.value.value.length = len v.value.queryNum) :
    Sized env len (s.emplaceProxyValue v) := by
  unfold ProtocolState.emplaceProxyValue
  split_ifs
  · exact hs
  · refine ⟨hs.rooted, hs.contribution, hs.aggregate, fun w hw => ?_, hs.buffered, hs.stock,
      hs.future, hs.trace⟩
    rcases List.mem_append.mp hw with hw | hw
    · exact hs.values w hw
    · rw [List.mem_singleton.mp hw]
      exact ⟨hcurrent, hlength⟩

theorem Sized.sends (hs : Sized env len s) : Sized env len (sendOverlayMessageBatch env
    { s with overlayRound := s.overlayRound + 1, pingResponseFromPredecessor := false }) := by
  obtain ⟨failed, hbatch⟩ := sendOverlayMessageBatch_next env s
  have hbatched : ∀ x ∈ nextBatch env s, x.body.body.Sized len := by
    intro x hx
    have hmem : x.body ∈ (nextBatch env s).map (·.body) := List.mem_map_of_mem hx
    rw [bodies_nextBatch] at hmem
    split_ifs at hmem
    · rw [List.mem_singleton.mp hmem]
      trivial
    · rcases List.mem_append.mp hmem with hmem | hmem
      · exact hs.stock _ (List.mem_append_left _ (List.mem_filter.mp hmem).1)
      · exact hs.stock _ (List.mem_append_right _ (List.mem_filter.mp hmem).1)
  have hsent : Sized env len (s.act (.sendOverlay (nextBatch env s) (nextTarget env s))) :=
    hs.act hbatched
  have hkept : ∀ m ∈ keptMessages env s ++ [], m ∈ s.waitingMessages ++ s.outgoingMessages := by
    intro m hm
    rw [List.append_nil] at hm
    rcases List.mem_append.mp hm with hm | hm
    · exact List.mem_append_left _ (List.mem_filter.mp hm).1
    · exact List.mem_append_right _ (List.mem_filter.mp hm).1
  rw [hbatch]
  exact ⟨hsent.rooted, hsent.contribution, hsent.aggregate, hsent.values, hsent.buffered,
    fun m hm => hs.stock m (hkept m hm), hsent.future, hsent.trace⟩

theorem sized_noteOverlay (hcrypto : env.crypto.KeepsBody) {P : Protocol ι}
    {message : OverlayTransportMessage} (hmessage : message.body.body.Sized len)
    (hs : Sized env len s) : Sized env len (noteOverlay env P message s) := by
  obtain ⟨timer, timers, hnote⟩ := noteOverlay_fields env P message s
  have hlogged : Sized env len (s.act (.handleOverlay s.overlayRound message)) := hs.act trivial
  rw [hnote]
  refine ⟨hs.rooted, hs.contribution, hs.aggregate, hs.values, hs.buffered, fun m hm => ?_,
    hs.future, hlogged.trace⟩
  simp only [List.mem_append] at hm
  rcases hm with (hm | hm) | hm
  · exact hs.stock m (List.mem_append_left _ hm)
  · rw [OverlayMessage.body_of_mem_readdressed hcrypto hm]
    exact hmessage
  · exact hs.stock m (List.mem_append_right _ hm)

end Overlay

def Event.Sized (len : ℤ → ℕ) : Event → Prop
  | .startQuery request data =>
      0 < len request.queryNumber ∧ data.length = len request.queryNumber
  | .overlay message => message.body.body.Sized len
  | .aggregation message => message.body.length = len message.queryNum
  | _ => True

end ProtocolState

namespace CtProtocolState
open ProtocolState (Sized Fitting)
variable {env : ProtocolEnv} {len : ℤ → ℕ} {s : State}

theorem sized_handleBody (hs : Sized env len s) {message : OverlayMessage}
    (hmessage : message.body.Sized len) : (handleBody env message s).Holds (Sized env len) := by
  have haccept : (acceptContribution message s).Holds (Sized env len) := by
    unfold acceptContribution
    split
    · exact hs
    · next contribution hbody =>
      split
      · exact hs
      · next mine hmine =>
        split_ifs with hown
        · refine hs.emplaceProxyValue ?_ (hmessage.contribution hbody)
          rw [ProtocolState.getCurrentQueryNum, hmine]
          exact hown
        · exact hs
  unfold handleBody
  split
  · exact hs
  · split
    · next enclosed hbody => exact hs.wait (hmessage.enclosed hbody)
    · split_ifs
      · split
        · exact haccept
        · exact haccept
        · exact hs
      · exact hs

theorem sized_endOverlayRoundImpl (hcrypto : env.crypto.KeepsBody) (hs : Sized env len s) :
    (endOverlayRoundImpl env s).Holds (Sized env len) := by
  unfold endOverlayRoundImpl
  split_ifs
  · refine Outcome.Ends.andThen (P := Sized env len) (Outcome.forEach_ends hs fun value hvalue t ht => ?_)
      fun t ht => ht.onImpl fun _ => ⟨t.overlayRound, .echo⟩
    have hlength : (MessageBody.valueContribution value).Sized len :=
      (hs.values value (env.π.mem_order.mp hvalue)).2
    unfold echoValue
    split
    · exact ht
    · next messages hmessages =>
      exact ht.send fun m hm => (body_of_multicast hcrypto hmessages hm).symm ▸ hlength
  · exact ProtocolState.sized_startAggregatePhase (fun _ _ => List.Subset.refl _) (hs.onImpl _)
  · exact hs

theorem sized_maintains (hcrypto : env.crypto.KeepsBody) (len : ℤ → ℕ) :
    ProtocolState.Maintains layered env (fun message => message.body.body.Sized len)
      (Sized env len) (Sized env len) (Fitting env len) where
  weaken _ hs := hs.fitting
  frame _ _ hs h := hs.frame h
  buffers message s hs hmessage := by
    refine ⟨hs.rooted, hs.contribution, hs.aggregate, hs.values, hs.buffered, hs.stock,
      fun x hx => ?_, hs.trace⟩
    rcases List.mem_append.mp hx with hx | hx
    · exact hs.future x hx
    · rw [List.mem_singleton.mp hx]
      exact hmessage
  buffered _ hs message hmem := hs.future message hmem
  absorbs message s hs hmessage := by
    have hbody : (message.body.received env.crypto).body.Sized len := by
      rw [OverlayMessage.body_received hcrypto]
      exact hmessage
    exact (sized_handleBody (ProtocolState.sized_noteOverlay hcrypto hmessage hs) hbody).mono
      (fun _ ht => ht) fun _ ht => ht.fitting
  ends _ hs := (sized_endOverlayRoundImpl hcrypto hs).mono (fun _ ht => ht) fun _ ht => ht.fitting
  rests _ hs _ := hs.frame (.cancelTimer _)
  sends _ hs _ := hs.sends

theorem sized_startQuery (hcrypto : env.crypto.KeepsBody) (fuel : ℕ) {request : QueryRequest}
    {data : List FixedPoint} (hpos : 0 < len request.queryNumber)
    (hdata : data.length = len request.queryNumber) (hs : Sized env len s) :
    (ProtocolState.startQuery env protocol fuel request data s).Ends (Sized env len)
      (Fitting env len) := by
  have hlogged : Sized env len (s.cancelTimer.act (.startQuery request.queryNumber)) :=
    (hs.frame (.cancelTimer s)).act trivial
  unfold ProtocolState.startQuery
  dsimp only
  split
  · refine ⟨hlogged.trace, fun _ aggregation hagg a _ => ?_⟩
    obtain rfl := Option.some.inj hagg
    have htakes (data : List FixedPoint) : TreeAggregationState.Takes
        (.make env.meterId env.numAggregationGroups env.numMeters request) data := nofun
    cases a with
    | computeAggregate => exact fun _ v _ => htakes _
    | receiveAggregate => exact fun _ => htakes _
    | startAggregate => exact fun _ => .inr fun _ _ => htakes _
    | _ => trivial
  · next proxies _ =>
    have hopened : Sized env len { s.cancelTimer.act (.startQuery request.queryNumber) with
        overlayRound := -1
        isLastRound := false
        pingResponseFromPredecessor := false
        proxyValues := []
        failedMeterIds := []
        aggregationPhaseState :=
          some (.make env.meterId env.numAggregationGroups env.numMeters request)
        myContribution := some ⟨request.queryNumber, data, proxies⟩
        impl := CtProtocolState.mk 0 .shuffle } := by
      refine ⟨fun aggregation hagg => ?_, fun c hc => ?_, fun aggregation hagg => ?_, nofun,
        hlogged.buffered, hlogged.stock, hlogged.future, hlogged.trace⟩
      · obtain rfl := Option.some.inj hagg
        exact ⟨rfl, rfl, rfl⟩
      · obtain rfl := Option.some.inj hc
        exact hdata
      · obtain rfl := Option.some.inj hagg
        exact ⟨⟨hpos, nofun⟩, rfl⟩
    refine ProtocolState.encryptedMulticastToProxies_onions hopened.fitting fun onions honions => ?_
    refine (sized_maintains hcrypto len).endOverlayRound fuel ((hopened.send fun m hm => ?_).act trivial)
    obtain ⟨path, hpath⟩ := honions m hm
    have hpayload : (MessageBody.valueContribution
        (.ofTuple ⟨request.queryNumber, data, proxies⟩)).Sized len := hdata
    exact sized_onion hcrypto hpayload hpath

theorem sized_maintainsAll (hcrypto : env.crypto.KeepsBody) (len : ℤ → ℕ) (fuel : ℕ) :
    ProtocolState.MaintainsAll layered env fuel (fun message => message.body.body.Sized len)
      (fun _ e => e.Sized len) (Sized env len) (Sized env len) (Fitting env len) where
  toMaintains := sized_maintains hcrypto len
  overlay _ _ h := h
  start _ _ _ hs h := sized_startQuery hcrypto fuel h.1 h.2 hs
  signature _ _ hs _ := hs
  aggregation _ _ hs h :=
    (ProtocolState.sized_receiveAggregation (fun _ _ => List.Subset.refl _) hs h).mono
      (fun _ ht => ht) fun _ ht => ht.fitting

end CtProtocolState
end Pddm
