import Pddm.AggregateNetwork
import Pddm.UtilityMaximum
import Pddm.UtilityResults

/-!
# What the utility stores

The roots of the groups send their aggregates to the utility. In connected runs without signatures
an answer that is stored is the sum of distinct contributions to its query.
-/
namespace Pddm

namespace UtilityClient
variable {cfg : UtilityConfig} {s t : UtilityClient}

def receivedResults (log : List UtilityAction) : List AggregationMessage :=
  log.filterMap fun
    | .receiveResult message => some message
    | _ => none

theorem receivedResults_append (log ext : List UtilityAction) :
    receivedResults (log ++ ext) = receivedResults log ++ receivedResults ext :=
  List.filterMap_append

theorem receivedResults_startEntries (cfg : UtilityConfig) (query : QueryRequest) :
    receivedResults (startEntries cfg query) = [] := by
  refine List.filterMap_eq_nil_iff.mpr fun a ha => ?_
  rcases mem_startEntries ha with rfl | ⟨meterId, rfl⟩
  · rfl
  · rfl

/-- The results of a query are among those received, each one once, and the answer is chosen
from them. -/
structure Collects (cfg : UtilityConfig) (s : UtilityClient) : Prop where
  results : s.currQueryResults.Sublist (receivedResults s.log)
  ended : ∀ queryNum results result, .endQuery queryNum results result ∈ s.log →
    results.Sublist (receivedResults s.log) ∧ ∃ π, result = selectResult cfg π results

theorem Collects.log_append (hs : Collects cfg s) (ext : List UtilityAction)
    (hext : ∀ a ∈ ext, ∀ queryNum results result, a ≠ .endQuery queryNum results result)
    (hlog : t.log = s.log ++ ext)
    (hresults : t.currQueryResults.Sublist (receivedResults t.log)) : Collects cfg t := by
  refine ⟨hresults, fun queryNum results result hmem => ?_⟩
  rw [hlog] at hmem ⊢
  rcases List.mem_append.mp hmem with hmem | hmem
  · obtain ⟨hsublist, hchosen⟩ := hs.ended queryNum results result hmem
    rw [receivedResults_append]
    exact ⟨hsublist.trans (List.sublist_append_left _ _), hchosen⟩
  · exact absurd rfl (hext _ hmem queryNum results result)

theorem collects_keeps : Keeps cfg (Collects cfg) (Collects cfg) where
  pending _ _ hs := ⟨hs.results, hs.ended⟩
  start s query hs := by
    rw [startQuery_eq]
    refine hs.log_append (startEntries cfg query) (fun a ha queryNum results result => ?_) rfl
      (List.nil_sublist _)
    rcases mem_startEntries ha with rfl | ⟨meterId, rfl⟩ <;> simp
  wait _ _ hs _ := ⟨hs.results, hs.ended⟩
  sign s response recipientId _ hs := by
    refine hs.log_append [.sendSignature response recipientId] (by simp) rfl ?_
    change s.currQueryResults.Sublist (receivedResults (s.log ++ _))
    rw [receivedResults_append]
    exact hs.results.trans (List.sublist_append_left _ _)
  ready _ hs _ := hs
  expire _ _ hs _ := ⟨hs.results, hs.ended⟩
  ended s π hs _ := by
    refine ⟨List.nil_sublist _, fun queryNum results result hmem => ?_⟩
    change _ ∈ s.log ++ [_] at hmem
    change results.Sublist (receivedResults (s.log ++ [_])) ∧ _
    rw [receivedResults_append]
    rcases List.mem_append.mp hmem with hmem | hmem
    · obtain ⟨hsublist, hchosen⟩ := hs.ended queryNum results result hmem
      exact ⟨hsublist.trans (List.sublist_append_left _ _), hchosen⟩
    · obtain ⟨rfl, rfl, rfl⟩ := UtilityAction.endQuery.inj (List.mem_singleton.mp hmem)
      exact ⟨hs.results.trans (List.sublist_append_left _ _), π, rfl⟩
  halted _ hs := ⟨List.nil_sublist _, hs.ended⟩

theorem Collects.receive (hs : Collects cfg s) (message : AggregationMessage) :
    Collects cfg (s.receive message) := by
  refine hs.log_append [.receiveResult message] (by simp) rfl ?_
  change (s.currQueryResults ++ [message]).Sublist (receivedResults (s.log ++ _))
  rw [receivedResults_append]
  exact hs.results.append (List.Sublist.refl _)

theorem collects_of_run (cfg : UtilityConfig) (es : List Event) :
    Collects cfg (es.foldl (step cfg) (.done init)).state := by
  have hinit : Collects cfg init := ⟨List.Sublist.refl _, by simp [init]⟩
  have hall := (collects_keeps.throughout (P := fun _ _ => True)
    (fun s message hs _ => hs.receive message) hinit
    (along_of_forall es fun o e => by cases e <;> trivial)).last
  exact Outcome.holds_iff.mp hall

theorem receivedResults_keeps (received : List AggregationMessage) :
    Keeps cfg (fun s => receivedResults s.log = received)
      fun s => receivedResults s.log = received where
  pending _ _ hs := hs
  start s query hs := by
    rw [startQuery_eq]
    rw [receivedResults_append, hs, receivedResults_startEntries, List.append_nil]
  wait _ _ hs _ := hs
  sign s response recipientId _ hs := by
    change receivedResults (s.log ++ _) = received
    rw [receivedResults_append, hs]
    exact List.append_nil _
  ready _ hs _ := hs
  expire _ _ hs _ := hs
  ended s π hs _ := by
    change receivedResults (s.log ++ _) = received
    rw [receivedResults_append, hs]
    exact List.append_nil _
  halted _ hs := hs

theorem log_keeps (log : List UtilityAction) :
    Keeps cfg (fun s => log <+: s.log) fun s => log <+: s.log where
  pending _ _ hs := hs
  start s query hs := by
    rw [startQuery_eq]
    exact hs.trans (List.prefix_append _ _)
  wait _ _ hs _ := hs
  sign s response recipientId _ hs := hs.trans (List.prefix_append _ _)
  ready _ hs _ := hs
  expire _ _ hs _ := hs
  ended s π hs _ := hs.trans (List.prefix_append _ _)
  halted _ hs := hs

theorem log_prefix_of_run (cfg : UtilityConfig) (o : Outcome Fault UtilityClient)
    (es : List Event) : o.state.log <+: (es.foldl (step cfg) o).state.log := by
  cases o with
  | done s =>
    have hkeeps : Keeps cfg (fun t => s.log <+: t.log) fun t => s.log <+: t.log := log_keeps s.log
    have hall := (hkeeps.throughout (P := fun _ _ => True)
      (fun t message ht _ => ht.trans (List.prefix_append _ _)) List.prefix_rfl
      (along_of_forall es fun o e => by cases e <;> trivial)).last
    exact Outcome.holds_iff.mp hall
  | halted error s =>
    have hstays : es.foldl (step cfg) (.halted error s) = .halted error s := by
      induction es with
      | nil => rfl
      | cons e es ih => exact ih
    rw [hstays]

def Event.results : Event → List AggregationMessage
  | .result _ message => [message]
  | _ => []

theorem receivedResults_step (o : Outcome Fault UtilityClient) (e : Event) :
    (receivedResults (step cfg o e).state.log).Sublist
      (receivedResults o.state.log ++ e.results) := by
  cases o with
  | halted error s => exact List.sublist_append_left _ _
  | done s =>
    change (receivedResults (handle cfg s e).state.log).Sublist _
    have hother (h : ∀ π message, e ≠ .result π message) :
        receivedResults (handle cfg s e).state.log = receivedResults s.log :=
      Outcome.holds_iff.mp ((receivedResults_keeps _).handle rfl e
        fun π message he => absurd he (h π message))
    cases e with
    | result π message =>
      have hreceive : receivedResults (s.receive message).log =
          receivedResults s.log ++ [message] := receivedResults_append _ _
      have hkept : receivedResults (handleAggregationMessage cfg π message s).state.log =
          receivedResults s.log ++ [message] :=
        Outcome.holds_iff.mp ((receivedResults_keeps _).handleAggregationMessage hreceive π)
      change (receivedResults (handleAggregationMessage cfg π message s).state.log).Sublist _
      rw [hkept]
      exact List.Sublist.refl _
    | _ =>
      rw [hother (by simp)]
      exact List.sublist_append_left _ _

theorem receivedResults_of_run (cfg : UtilityConfig) (es : List Event) :
    (receivedResults (es.foldl (step cfg) (.done init)).state.log).Sublist
      (es.flatMap Event.results) := by
  induction es using List.reverseRecOn with
  | nil => exact List.Sublist.refl _
  | append_singleton es e ih =>
    rw [List.foldl_append, List.flatMap_append, List.flatMap_singleton]
    exact (receivedResults_step _ e).trans (ih.append (List.Sublist.refl _))

/-- Among results that have contributors one is chosen, if there is any. -/
theorem selectResult_eq_none {π : IterationOrder} {results : List AggregationMessage}
    (hcrash : cfg.queryProtocol ≠ .bft) (hpos : ∀ m ∈ results, 0 < m.numContributors)
    (h : selectResult cfg π results = none) : results = [] := by
  rw [selectResult_last hcrash hpos, Option.map_eq_none_iff, List.getLast?_eq_none_iff] at h
  refine List.eq_nil_iff_forall_not_mem.mpr fun m hm => ?_
  have horder : m ∈ π.order results := π.mem_order.mpr hm
  rw [h] at horder
  cases horder

end UtilityClient
/-- Whether a run meets a condition in each of its steps can be decided by going through it. -/
instance alongDecidable {σ ε : Type*} (step : σ → ε → σ) (P : σ → ε → Prop)
    [∀ s e, Decidable (P s e)] : ∀ s es, Decidable (Along step P s es)
  | _, [] => .isTrue trivial
  | s, e :: es =>
      have := alongDecidable step P (step s e) es
      inferInstanceAs (Decidable (P s e ∧ Along step P (step s e) es))

instance timelyDecidable (o : Outcome Fault UtilityClient) :
    ∀ e, Decidable (UtilityClient.Arrivals UtilityClient.Timely o e)
  | .result _ message => inferInstanceAs (Decidable (message.queryNum = o.state.queryNum ∨
      o.state.queryFinished = true ∧ o.state.timers.pending = []))
  | .startQuery _ | .startQueries _ | .signatureRequest _ | .timerExpires .. => .isTrue trivial

namespace OpenNetwork
open ProtocolState (Event Layered KeepsAccounts)
open UtilityClient (Arrivals Timely)
variable {ι : Type} (net : OpenNetwork) (P : Protocol ι) (fuel : ℕ) (cfg : UtilityConfig)

abbrev SystemEvent := (ℤ × Event) ⊕ UtilityClient.Event

def meterEvents (es : List SystemEvent) : List (ℤ × Event) := es.filterMap Sum.getLeft?

def utilityEvents (es : List SystemEvent) : List UtilityClient.Event := es.filterMap Sum.getRight?

def utilityRun (es : List SystemEvent) : Outcome Fault UtilityClient :=
  (utilityEvents es).foldl (UtilityClient.step cfg) (.done .init)

def FromUtility (before : List SystemEvent) (e : SystemEvent) : Prop :=
  ∀ i request data, e = .inl (i, .startQuery request data) →
    .sendQuery request i ∈ (utilityRun cfg before).state.log

def FromMeter (before : List SystemEvent) (e : SystemEvent) : Prop :=
  ∀ π message, e = .inr (.result π message) → ∃ i queryNum,
    .sendAggregate queryNum message utilityNodeId ∈
      (net.run P fuel (meterEvents before) i).state.trace

/-- A run of the meters and the utility in which messages may be lost or late. Queries have
numbers of their own, and a result arrives once at most, while the utility waits for it or for
none. -/
structure Connected (requests : ℤ → QueryRequest) (es : List SystemEvent) : Prop where
  meters : ∀ e ∈ meterEvents es, 0 ≤ e.1 ∧ e.1 < net.numMeters
  genuine : EveryEntry (net.Genuine P fuel) (meterEvents es)
  genuineAggregates : EveryEntry (net.GenuineAggregate P fuel) (meterEvents es)
  arriveOnce : (aggregateArrivals (meterEvents es)).Nodup
  startOnce : (queryStarts (meterEvents es)).Nodup
  fits : ∀ i, BuffersFit (net.env i) (net.run P fuel (meterEvents es) i).state.trace
  current : ∀ i, AllCurrent (net.env i) (net.run P fuel (meterEvents es) i).state.trace
  queries : EveryEntry (FromUtility cfg) es
  numbered : ∀ query i, .sendQuery query i ∈ (utilityRun cfg es).state.log →
    query = requests query.queryNumber
  results : EveryEntry (net.FromMeter P fuel) es
  resultsOnce : ((utilityEvents es).flatMap UtilityClient.Event.results).Nodup
  timely : Along (UtilityClient.step cfg) (Arrivals Timely) (.done .init) (utilityEvents es)

/-- A query ends with aggregates for it that come from the roots of different groups. Each is the
sum of distinct contributions, and one of them is the answer, if there are any. -/
structure Answered (requests : ℤ → QueryRequest) (es : List (ℤ × Event)) (queryNum : ℤ)
    (results : List AggregationMessage) (result : Option (List FixedPoint)) : Prop where
  root : ∀ m ∈ results, aggregationTreeParent m.senderId net.numGroups net.numMeters = -1
  groups : (results.map fun m => aggregationGroupFor m.senderId net.numGroups net.numMeters).Nodup
  sums : ∀ m ∈ results, ∃ counted meters, net.SumsUp es
    (requests queryNum).requestType.isSingleValuedQuery m.senderId queryNum m counted meters
  chosen : ∀ body, result = some body → ∃ m ∈ results, m.body = body
  failed : result = none → results = []

/-- So do all queries of the utility, and nothing else is stored. -/
structure EveryAnswered (requests : ℤ → QueryRequest) (es : List (ℤ × Event)) (s : UtilityClient) :
    Prop where
  ended : ∀ queryNum results result, .endQuery queryNum results result ∈ s.log →
    net.Answered requests es queryNum results result
  stored : ∀ (queryNum : ℕ) body, s.allQueryResults[queryNum]? = some (some body) →
    ∃ m counted meters, m.body = body ∧
      net.SumsUp es (requests queryNum).requestType.isSingleValuedQuery m.senderId queryNum m
        counted meters

section Connected
variable {net P fuel cfg} {L : Layered P} {requests : ℤ → QueryRequest} {es : List SystemEvent}

theorem meterEvents_append (es es' : List SystemEvent) :
    meterEvents (es ++ es') = meterEvents es ++ meterEvents es' :=
  List.filterMap_append

theorem utilityEvents_append (es es' : List SystemEvent) :
    utilityEvents (es ++ es') = utilityEvents es ++ utilityEvents es' :=
  List.filterMap_append

theorem utilityRun_keeps_log (before after : List SystemEvent) :
    (utilityRun cfg before).state.log <+: (utilityRun cfg (before ++ after)).state.log := by
  unfold utilityRun
  rw [utilityEvents_append, List.foldl_append]
  exact UtilityClient.log_prefix_of_run cfg _ _

variable (h : net.Connected P fuel cfg requests es)
include h

theorem Connected.oneRequest {i : ℤ} {request : QueryRequest} {data : List FixedPoint}
    (hmem : (i, .startQuery request data) ∈ meterEvents es) :
    request = requests request.queryNumber := by
  obtain ⟨e, he, hleft⟩ := List.mem_filterMap.mp hmem
  obtain rfl : e = .inl (i, .startQuery request data) := Sum.getLeft?_eq_some_iff.mp hleft
  obtain ⟨before, after, hes⟩ := List.append_of_mem he
  have hsent := h.queries before _ after hes i request data rfl
  refine h.numbered request i ?_
  rw [hes]
  exact (utilityRun_keeps_log before _).subset hsent

theorem Connected.orderly : net.Orderly P fuel requests (meterEvents es) :=
  ⟨h.meters, h.genuine, h.genuineAggregates, h.arriveOnce, h.startOnce,
    fun _ _ _ hmem => h.oneRequest hmem, h.fits, h.current⟩

theorem Connected.exists_meter (K : KeepsAccounts L) {m : AggregationMessage}
    (hm : m ∈ UtilityClient.receivedResults (utilityRun cfg es).state.log) : ∃ i queryNum,
      .sendAggregate queryNum m utilityNodeId ∈
        (net.run P fuel (meterEvents es) i).state.trace := by
  have harrived := (UtilityClient.receivedResults_of_run cfg (utilityEvents es)).subset hm
  obtain ⟨e, he, hresult⟩ := List.mem_flatMap.mp harrived
  cases e with
  | result π message =>
    obtain rfl := List.mem_singleton.mp hresult
    obtain ⟨e, he, hright⟩ := List.mem_filterMap.mp he
    obtain rfl : e = .inr (.result π m) := Sum.getRight?_eq_some_iff.mp hright
    obtain ⟨before, after, hes⟩ := List.append_of_mem he
    obtain ⟨i, queryNum, hsent⟩ := h.results before _ after hes π m rfl
    refine ⟨i, queryNum, ?_⟩
    have hprefix : meterEvents before <+: meterEvents es := by
      rw [hes, meterEvents_append]
      exact List.prefix_append _ _
    exact (trace_prefix_of_run K.waiting hprefix i).subset hsent
  | _ => cases hresult

theorem Connected.root_unique {i j : ℤ} {a b : Action}
    (hi : a ∈ (net.run P fuel (meterEvents es) i).state.trace)
    (hj : b ∈ (net.run P fuel (meterEvents es) j).state.trace)
    (hroot : aggregationTreeParent i net.numGroups net.numMeters = -1)
    (hroot' : aggregationTreeParent j net.numGroups net.numMeters = -1)
    (hgroup : aggregationGroupFor i net.numGroups net.numMeters =
      aggregationGroupFor j net.numGroups net.numMeters) : i = j := by
  have hfirst {k : ℤ} {c : Action} (hk : c ∈ (net.run P fuel (meterEvents es) k).state.trace)
      (hroot : aggregationTreeParent k net.numGroups net.numMeters = -1) :
      k = groupFirst (aggregationGroupFor k net.numGroups net.numMeters) net.numGroups
        net.numMeters := by
    obtain ⟨hnonneg, hlt⟩ := h.orderly.mem_of_mem_trace hk
    obtain ⟨hgroup, hlast⟩ := net.sizes.nonempty.group_mem (N := net.numMeters) hnonneg
    have hmem : k ∈ groupMembers (aggregationGroupFor k net.numGroups net.numMeters) net.numGroups
        net.numMeters := mem_groupMembers.mpr ⟨hnonneg, hlt, rfl⟩
    exact (aggregationTreeParent_eq_neg_one_iff net.sizes.nonempty hgroup hlast hmem).mp hroot
  rw [hfirst hi hroot, hfirst hj hroot', hgroup]

variable (K : KeepsAccounts L)
  (hbooks : ∀ i, SoundBooks (net.env i) requests (arrivedAt (meterEvents es) i)
    (net.run P fuel (meterEvents es) i).state.trace)
  (hsums : net.EverySumsUp requests (meterEvents es) (net.run P fuel (meterEvents es)))
include K hbooks

theorem Connected.sent {m : AggregationMessage}
    (hm : m ∈ UtilityClient.receivedResults (utilityRun cfg es).state.log) :
    aggregationTreeParent m.senderId net.numGroups net.numMeters = -1 ∧
      .sendAggregate m.queryNum m utilityNodeId ∈
        (net.run P fuel (meterEvents es) m.senderId).state.trace := by
  obtain ⟨i, queryNum, hsent⟩ := h.exists_meter K hm
  obtain ⟨before, -, hsum⟩ := (hbooks i).sendsSum hsent
  obtain rfl : m.senderId = i := hsum.senderId.trans (net.meterId i)
  obtain rfl : m.queryNum = queryNum := hsum.queryNumber
  have hparent := hsum.parent
  rw [net.meterId, net.env_numGroups, net.env_numMeters] at hparent
  exact ⟨hparent.symm, hsent⟩

include hsums

theorem Connected.everyAnswered (hcrash : cfg.queryProtocol ≠ .bft) :
    net.EveryAnswered requests (meterEvents es) (utilityRun cfg es).state := by
  have hcollects := UtilityClient.collects_of_run cfg (utilityEvents es)
  have hsound : (utilityRun cfg es).state.ResultsSound :=
    (Outcome.holds_iff.mp (UtilityClient.separated_keeps.throughout
      (fun _ _ hs htimely => hs.receive htimely) UtilityClient.separated_init h.timely).last).sound
  have hended (queryNum : ℤ) (results : List AggregationMessage) (result : Option (List FixedPoint))
      (hmem : .endQuery queryNum results result ∈ (utilityRun cfg es).state.log) :
      net.Answered requests (meterEvents es) queryNum results result := by
    obtain ⟨hsublist, π, hresult⟩ := hcollects.ended queryNum results result hmem
    have hanswers := hsound.ended queryNum results result hmem
    have hsent (m : AggregationMessage) (hm : m ∈ results) :=
      h.sent K hbooks (hsublist.subset hm)
    have hsum (m : AggregationMessage) (hm : m ∈ results) : ∃ counted meters,
        net.SumsUp (meterEvents es) (requests queryNum).requestType.isSingleValuedQuery m.senderId
          queryNum m counted meters := by
      have hsums' := hsums _ _ _ _ (hsent m hm).2
      rwa [hanswers.numbered m hm] at hsums'
    have hnodup : results.Nodup := hsublist.nodup
      ((UtilityClient.receivedResults_of_run cfg (utilityEvents es)).nodup h.resultsOnce)
    refine ⟨fun m hm => (hsent m hm).1, hnodup.map_on fun m hm m' hm' hgroup => ?_, hsum,
      hanswers.chosen, fun hnone => ?_⟩
    · -- the root of the group has sent one aggregate for the query
      obtain ⟨hroot, hmem⟩ := hsent m hm
      obtain ⟨hroot', hmem'⟩ := hsent m' hm'
      have hsender := h.root_unique hmem hmem' hroot hroot' hgroup
      rw [hanswers.numbered m hm] at hmem
      rw [hanswers.numbered m' hm', ← hsender] at hmem'
      exact (hbooks m.senderId).aggregate_unique hmem hmem'
    · refine UtilityClient.selectResult_eq_none hcrash (fun m hm => ?_) (hresult.symm.trans hnone)
      obtain ⟨counted, meters, hsumsUp⟩ := hsum m hm
      have hself : 0 < meters.card := Finset.card_pos.mpr ⟨_, hsumsUp.tree.root⟩
      rw [hsumsUp.numContributors]
      omega
  refine ⟨hended, fun queryNum body hstored => ?_⟩
  obtain ⟨results, hmem⟩ := hsound.stored queryNum body hstored
  have hanswered := hended queryNum results (some body) hmem
  obtain ⟨m, hm, hbody⟩ := hanswered.chosen body rfl
  obtain ⟨counted, meters, hsum⟩ := hanswered.sums m hm
  exact ⟨m, counted, meters, hbody, hsum⟩

end Connected

section Protocols
variable {net fuel cfg} {requests : ℤ → QueryRequest} {es : List SystemEvent}

theorem everyAnswered_ct (hcrash : cfg.queryProtocol ≠ .bft)
    (h : net.Connected CtProtocolState.protocol fuel cfg requests es) :
    net.EveryAnswered requests (meterEvents es) (utilityRun cfg es).state :=
  h.everyAnswered CtProtocolState.keepsAccounts h.orderly.soundBooks_ct (sumsUp_ct h.orderly) hcrash

theorem everyAnswered_hft (hcrash : cfg.queryProtocol ≠ .bft)
    (h : net.Connected HftProtocolState.protocol fuel cfg requests es) :
    net.EveryAnswered requests (meterEvents es) (utilityRun cfg es).state :=
  h.everyAnswered HftProtocolState.keepsAccounts h.orderly.soundBooks_hft (sumsUp_hft h.orderly)
    hcrash

end Protocols

/-- In connected runs without signatures the answer that the utility stores for a query is the sum
of distinct contributions to it, and a query has no answer only where no result came in. -/
theorem answers_sum_contributions (net : OpenNetwork) (fuel : ℕ) (cfg : UtilityConfig)
    (hcrash : cfg.queryProtocol ≠ .bft) (requests : ℤ → QueryRequest) :
    (∀ es, net.Connected CtProtocolState.protocol fuel cfg requests es →
      net.EveryAnswered requests (meterEvents es) (utilityRun cfg es).state) ∧
      ∀ es, net.Connected HftProtocolState.protocol fuel cfg requests es →
        net.EveryAnswered requests (meterEvents es) (utilityRun cfg es).state :=
  ⟨fun _ => everyAnswered_ct hcrash, fun _ => everyAnswered_hft hcrash⟩

section Samples

def resultsOf (o : Outcome Fault (ProtocolState ι)) : List SystemEvent :=
  o.state.trace.filterMap fun
    | .sendAggregate _ message parentId =>
        if parentId = utilityNodeId then some (.inr (.result .insertion message)) else none
    | _ => none

def fiveConfig : UtilityConfig := ⟨.ct, 5, 1, dummyCrypto⟩

/-- The utility starts a query, the meters go through it, and their results arrive. -/
def fiveSystem (P : Protocol ι) (r : ℕ) : List SystemEvent :=
  .inr (.startQuery (fiveRequest 7)) :: (fiveQuery P r).map .inl ++
    fiveMeters.flatMap fun i => resultsOf (fiveNetwork.run P 100 (fiveQuery P r) i)

def resultsInTurn (P : Protocol ι) (r : ℕ) : Bool :=
  let es := utilityEvents (fiveSystem P r)
  decide (es.flatMap UtilityClient.Event.results).Nodup &&
    decide (Along (UtilityClient.step fiveConfig) (Arrivals Timely) (.done .init) es) &&
    (es.foldl (UtilityClient.step fiveConfig) (.done .init)).state.log.all (fun
      | .sendQuery query _ => decide (query = fiveRequest query.queryNumber)
      | _ => true) &&
    (meterEvents (fiveSystem P r)).all fun e => match e.2 with
      | .startQuery request _ => decide (request = fiveRequest 7)
      | _ => true

theorem mem_resultsOf {o : Outcome Fault (ProtocolState ι)} {e : SystemEvent}
    (he : e ∈ resultsOf o) : ∃ queryNum message,
      .sendAggregate queryNum message utilityNodeId ∈ o.state.trace ∧
        e = .inr (.result .insertion message) := by
  obtain ⟨a, ha, hresult⟩ := List.mem_filterMap.mp he
  cases a with
  | sendAggregate queryNum message parentId =>
    dsimp only at hresult
    split_ifs at hresult with hparent
    subst hparent
    exact ⟨queryNum, message, ha, (Option.some.inj hresult).symm⟩
  | _ => cases hresult

theorem meterEvents_fiveSystem (P : Protocol ι) (r : ℕ) :
    meterEvents (fiveSystem P r) = fiveQuery P r := by
  have hnone : meterEvents (fiveMeters.flatMap fun i =>
      resultsOf (fiveNetwork.run P 100 (fiveQuery P r) i)) = [] := by
    refine List.filterMap_eq_nil_iff.mpr fun e he => ?_
    obtain ⟨i, -, he⟩ := List.mem_flatMap.mp he
    obtain ⟨_, _, -, rfl⟩ := mem_resultsOf he
    rfl
  rw [fiveSystem, meterEvents_append, hnone, List.append_nil]
  change List.filterMap _ (_ :: _) = _
  rw [List.filterMap_cons_none rfl, List.filterMap_map]
  exact List.filterMap_some

/-- The first thing the utility does is to send the query to all meters. -/
theorem sendsQuery_fiveSystem {before : List SystemEvent}
    (hbefore : [.inr (.startQuery (fiveRequest 7))] <+: before) {i : ℤ} (hi : 0 ≤ i ∧ i < 5) :
    .sendQuery (fiveRequest 7) i ∈ (utilityRun fiveConfig before).state.log := by
  obtain ⟨after, rfl⟩ := hbefore
  refine (utilityRun_keeps_log _ after).subset ?_
  have hmem : i = 0 ∨ i = 1 ∨ i = 2 ∨ i = 3 ∨ i = 4 := by omega
  rcases hmem with rfl | rfl | rfl | rfl | rfl <;> decide

theorem connected_of_inTurn {P : Protocol ι} {L : Layered P} (K : ProtocolState.KeepsWaiting L)
    (r : ℕ) (h : inTurn P r = true) (h' : resultsInTurn P r = true) :
    fiveNetwork.Connected P 100 fiveConfig fiveRequest (fiveSystem P r) := by
  have horderly := orderly_of_inTurn P r h
  rw [← meterEvents_fiveSystem] at horderly
  unfold resultsInTurn at h'
  simp only [Bool.and_eq_true, List.all_eq_true, decide_eq_true_eq] at h'
  obtain ⟨⟨⟨honce, htimely⟩, hlog⟩, hstarts⟩ := h'
  refine ⟨horderly.meters, horderly.genuine, horderly.genuineAggregates, horderly.arriveOnce,
    horderly.startOnce, horderly.fits, horderly.current, ?_, fun query i hsent => ?_, ?_, honce,
    htimely⟩
  · intro before e after hes i request data he
    subst he
    have hmem : (i, .startQuery request data) ∈ meterEvents (fiveSystem P r) := by
      rw [hes, meterEvents_append]
      exact List.mem_append_right _ List.mem_cons_self
    have hbefore : [.inr (.startQuery (fiveRequest 7))] <+: before := by
      cases before with
      | nil => cases (List.cons.inj hes).1
      | cons e before =>
        obtain rfl := (List.cons.inj hes).1
        exact ⟨before, rfl⟩
    obtain rfl : request = fiveRequest 7 := of_decide_eq_true (hstarts _ hmem)
    exact sendsQuery_fiveSystem hbefore (horderly.meters _ hmem)
  · exact of_decide_eq_true (hlog _ hsent)
  · have hfirst : EveryEntry (fiveNetwork.FromMeter P 100)
        ([] ++ .inr (.startQuery (fiveRequest 7)) :: (fiveQuery P r).map .inl) := by
      refine everyEntry_nil.append_of_forall fun e he before π message hresult => ?_
      subst hresult
      simp at he
    refine hfirst.append fun e he before hbefore π message hresult => ?_
    obtain ⟨i, -, he⟩ := List.mem_flatMap.mp he
    obtain ⟨queryNum, m, hsent, hm⟩ := mem_resultsOf he
    obtain ⟨-, rfl⟩ := UtilityClient.Event.result.inj (Sum.inr.inj (hresult.symm.trans hm))
    have hprefix : fiveQuery P r <+: meterEvents before := by
      obtain ⟨rest, rfl⟩ := hbefore
      rw [meterEvents_append]
      refine ⟨meterEvents rest, congrArg (· ++ meterEvents rest) ?_⟩
      change _ = List.filterMap _ (_ :: _)
      rw [List.filterMap_cons_none rfl, List.filterMap_map]
      exact List.filterMap_some.symm
    exact ⟨i, queryNum, (trace_prefix_of_run K hprefix i).subset hsent⟩

theorem resultsInTurn_ct : resultsInTurn CtProtocolState.protocol 17 = true := by decide +kernel

theorem resultsInTurn_hft : resultsInTurn HftProtocolState.protocol 9 = true := by decide +kernel

theorem five_answers_sum_contributions :
    fiveNetwork.EveryAnswered fiveRequest (meterEvents (fiveSystem CtProtocolState.protocol 17))
        (utilityRun fiveConfig (fiveSystem CtProtocolState.protocol 17)).state ∧
      fiveNetwork.EveryAnswered fiveRequest (meterEvents (fiveSystem HftProtocolState.protocol 9))
        (utilityRun fiveConfig (fiveSystem HftProtocolState.protocol 9)).state := by
  obtain ⟨hct, hhft⟩ := answers_sum_contributions fiveNetwork 100 fiveConfig (by decide) fiveRequest
  exact ⟨hct _ (connected_of_inTurn CtProtocolState.keepsAccounts.waiting 17 inTurn_ct
      resultsInTurn_ct), hhft _ (connected_of_inTurn HftProtocolState.keepsAccounts.waiting 9
        inTurn_hft resultsInTurn_hft)⟩

end Samples

end OpenNetwork
end Pddm
