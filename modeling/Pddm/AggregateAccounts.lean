import Pddm.AggregateSums
import Pddm.RoundRules

/-!
# The books of a meter

Whatever arrives and whenever it does, what a meter sends as its aggregate sums up what it has
added since its Aggregate phase was started.
-/
namespace Pddm

/-- What some values add, each with one contributor. -/
def ownTally (single : Bool) (values : List ValueContribution) : Tally :=
  (values.map fun v => (entry single v.value.value, 1)).sum

theorem ownTally_perm {single : Bool} {values values' : List ValueContribution}
    (h : values.Perm values') : ownTally single values = ownTally single values' :=
  (h.map _).sum_eq

namespace TreeAggregationState
variable {s t : TreeAggregationState}

/-- Where data is added at all, it is added entry by entry. -/
theorem addData_tally {onEmpty : Fault} {data : List FixedPoint} {n : ℤ} {m added : AggregationMessage}
    (h : s.addData onEmpty data n m = .ok added) :
    added.tally s.isSingleValued = m.tally s.isSingleValued + (entry s.isSingleValued data, n) ∧
      added.senderId = m.senderId ∧ added.queryNum = m.queryNum := by
  unfold addData at h
  cases hsingle : s.isSingleValued with
  | true =>
    rw [if_pos hsingle] at h
    cases data with
    | nil => cases h
    | cons value values =>
      dsimp only at h
      unfold AggregationMessage.addValue at h
      cases hbody : m.body with
      | nil => simp [hbody] at h
      | cons x xs =>
        simp only [hbody, Except.ok.injEq] at h
        obtain rfl := h
        refine ⟨Prod.ext (funext fun k => ?_) rfl, rfl, rfl⟩
        cases k with
        | zero => simp [AggregationMessage.tally, entry, hbody]
        | succ k => simp [AggregationMessage.tally, entry]
  | false =>
    rw [if_neg (by simp [hsingle])] at h
    unfold AggregationMessage.addValues at h
    split_ifs at h with hlength
    obtain rfl := Except.ok.inj h
    refine ⟨Prod.ext (funext fun k => ?_) rfl, rfl, rfl⟩
    have hsum := getD_zipWith_add hlength k
    simpa [AggregationMessage.tally, entry, add_comm] using hsum

theorem handleMessage_tally {message m : AggregationMessage} (hm : s.aggregationIntermediate = some m)
    (h : s.handleMessage message = .ok t) : ∃ added, t = { s with
        aggregationIntermediate := some added
        childrenReceivedFrom := s.childrenReceivedFrom + 1 } ∧
      added.tally s.isSingleValued = m.tally s.isSingleValued + message.tally s.isSingleValued ∧
        added.senderId = m.senderId ∧ added.queryNum = m.queryNum := by
  unfold handleMessage at h
  simp only [hm] at h
  cases hadd : s.addData .exception message.body message.numContributors m with
  | error e => simp [hadd, Except.map] at h
  | ok added =>
    simp only [hadd, Except.map, Except.ok.injEq] at h
    exact ⟨added, h.symm, addData_tally hadd⟩

theorem addProxyValues_none {values : List ValueContribution}
    (hnone : s.aggregationIntermediate = none) (h : s.addProxyValues values = .done t) : t = s := by
  cases values with
  | nil => exact (Outcome.done.inj h).symm
  | cons value values => simp [addProxyValues, addProxyValue, hnone] at h

/-- The loop over the values adds them all up, if it gets to its end. -/
theorem addProxyValues_tally {values : List ValueContribution} {m : AggregationMessage}
    (hm : s.aggregationIntermediate = some m) (h : s.addProxyValues values = .done t) :
    ∃ total, t = { s with aggregationIntermediate := some total } ∧
      total.tally s.isSingleValued = m.tally s.isSingleValued + ownTally s.isSingleValued values ∧
        total.senderId = m.senderId ∧ total.queryNum = m.queryNum := by
  induction values generalizing s m with
  | nil =>
    obtain rfl := Outcome.done.inj h
    exact ⟨m, by rw [← hm], by simp [ownTally], rfl, rfl⟩
  | cons value values ih =>
    unfold addProxyValues at h
    cases hadd : s.addData .undefinedBehaviour value.value.value 1 m with
    | error e => simp [addProxyValue, hm, hadd, Except.map] at h
    | ok added =>
      obtain ⟨htally, hsender, hnum⟩ := addData_tally hadd
      simp only [addProxyValue, hm, hadd, Except.map] at h
      obtain ⟨total, rfl, hsum, hsender', hnum'⟩ := ih (m := added) rfl h
      refine ⟨total, rfl, ?_, hsender'.trans hsender, hnum'.trans hnum⟩
      change total.tally s.isSingleValued = added.tally s.isSingleValued + _ at hsum
      rw [hsum, htally, add_assoc, ownTally, ownTally, List.map_cons, List.sum_cons]
      rfl

end TreeAggregationState

/-- The entries since a query or its Aggregate phase was started last. -/
def sinceStart (trace : List Action) : List Action :=
  trace.foldl (fun entries a =>
    match a with
    | .startQuery _ | .startAggregate .. => []
    | a => entries ++ [a]) []

def lastStart (trace : List Action) : Option ℤ :=
  trace.foldl (fun current a =>
    match a with
    | .startQuery queryNum => some queryNum
    | _ => current) none

def startedQueries (trace : List Action) : List ℤ :=
  trace.filterMap fun
    | .startQuery queryNum => some queryNum
    | _ => none

def addedMessages (trace : List Action) : List AggregationMessage :=
  trace.filterMap fun
    | .addMessage _ message => some message
    | _ => none

/-- What an entry stands for in the sum. -/
def Action.tally (single : Bool) : Action → Tally
  | .addMessage _ message => message.tally single
  | .computeAggregate _ values => ownTally single values
  | _ => 0

def tallySince (single : Bool) (trace : List Action) : Tally :=
  ((sinceStart trace).map (Action.tally single)).sum

def Action.isAccount : Action → Bool
  | .startQuery _ | .startAggregate .. | .addMessage .. | .computeAggregate .. | .sendAggregate .. =>
      true
  | _ => false

section Traces
variable {trace ext : List Action} {a : Action}

theorem sinceStart_concat (trace : List Action) (a : Action) : sinceStart (trace ++ [a]) =
    match a with
    | .startQuery _ | .startAggregate .. => []
    | a => sinceStart trace ++ [a] := by
  simp only [sinceStart, List.foldl_append, List.foldl_cons, List.foldl_nil]

theorem lastStart_concat (trace : List Action) (a : Action) : lastStart (trace ++ [a]) =
    match a with
    | .startQuery queryNum => some queryNum
    | _ => lastStart trace := by
  simp only [lastStart, List.foldl_append, List.foldl_cons, List.foldl_nil]

theorem startedQueries_append (trace ext : List Action) :
    startedQueries (trace ++ ext) = startedQueries trace ++ startedQueries ext :=
  List.filterMap_append

theorem addedMessages_append (trace ext : List Action) :
    addedMessages (trace ++ ext) = addedMessages trace ++ addedMessages ext :=
  List.filterMap_append

theorem sinceStart_suffix (trace : List Action) : sinceStart trace <:+ trace := by
  induction trace using List.reverseRecOn with
  | nil => exact List.suffix_rfl
  | append_singleton trace a ih =>
    rw [sinceStart_concat]
    split
    · exact List.nil_suffix
    · exact List.nil_suffix
    · obtain ⟨pre, hpre⟩ := ih
      exact ⟨pre, by rw [← List.append_assoc, hpre]⟩

theorem tallySince_concat {single : Bool} (h : ∀ queryNum, a ≠ .startQuery queryNum)
    (h' : ∀ queryNum failed buffered, a ≠ .startAggregate queryNum failed buffered) :
    tallySince single (trace ++ [a]) = tallySince single trace + a.tally single := by
  have hsince : sinceStart (trace ++ [a]) = sinceStart trace ++ [a] := by
    rw [sinceStart_concat]
    split
    · exact absurd rfl (h _)
    · exact absurd rfl (h' _ _ _)
    · rfl
  rw [tallySince, tallySince, hsince, List.map_append, List.sum_append]
  simp

variable (trace) in
/-- Entries that have nothing to do with the sum leave it alone. -/
theorem quiet_accounts (hext : ∀ a ∈ ext, a.isAccount = false) :
    sinceStart (trace ++ ext) = sinceStart trace ++ ext ∧
      lastStart (trace ++ ext) = lastStart trace ∧
      addedMessages (trace ++ ext) = addedMessages trace ∧
      ∀ single, tallySince single (trace ++ ext) = tallySince single trace := by
  induction ext using List.reverseRecOn with
  | nil => simp
  | append_singleton ext a ih =>
    obtain ⟨hsince, hlast, hadded, htally⟩ := ih fun b hb => hext b (by simp [hb])
    have ha := hext a (by simp)
    rw [← List.append_assoc]
    refine ⟨?_, ?_, ?_, fun single => ?_⟩
    · rw [sinceStart_concat]
      cases a <;> simp_all [Action.isAccount]
    · rw [lastStart_concat]
      cases a <;> simp_all [Action.isAccount]
    · rw [addedMessages_append, hadded]
      cases a <;> simp_all [Action.isAccount, addedMessages]
    · rw [tallySince_concat (by rintro _ rfl; cases ha) (by rintro _ _ _ rfl; cases ha), htally]
      cases a <;> simp_all [Action.isAccount, Action.tally]

end Traces

/-- A meter sends its aggregate to its parent, right after it has added its own values: the sum of
all that was added in the query. -/
structure SendsSum (env : ProtocolEnv) (requests : ℤ → QueryRequest) (before : List Action)
    (queryNum : ℤ) (aggregate : AggregationMessage) (parentId : ℤ) : Prop where
  last : lastStart before = some queryNum
  parent : parentId = aggregationTreeParent env.meterId env.numAggregationGroups env.numMeters
  senderId : aggregate.senderId = env.meterId
  queryNumber : aggregate.queryNum = queryNum
  numbers : ∀ number message, .addMessage number message ∈ sinceStart before → number = queryNum
  sum : ∃ earlier values, before = earlier ++ [.computeAggregate queryNum values] ∧
    aggregate.tally (requests queryNum).requestType.isSingleValuedQuery =
      tallySince (requests queryNum).requestType.isSingleValuedQuery before + (0, 1)

def Action.Accounts (env : ProtocolEnv) (requests : ℤ → QueryRequest) (before : List Action) :
    Action → Prop
  | .computeAggregate queryNum values => lastStart before = some queryNum ∧ values.Nodup
  | .sendAggregate queryNum aggregate parentId =>
      SendsSum env requests before queryNum aggregate parentId
  | _ => True

structure Balanced (requests : ℤ → QueryRequest) (trace : List Action)
    (aggregation : TreeAggregationState) : Prop where
  request : aggregation.currentQuery = requests aggregation.currentQuery.queryNumber
  last : lastStart trace = some aggregation.currentQuery.queryNumber
  numbers : ∀ number message, .addMessage number message ∈ sinceStart trace →
    number = aggregation.currentQuery.queryNumber
  sum : ∀ m, aggregation.aggregationIntermediate = some m → m.senderId = aggregation.nodeId ∧
    m.queryNum = aggregation.currentQuery.queryNumber ∧
    m.tally aggregation.isSingleValued = tallySince aggregation.isSingleValued trace + (0, 1)

theorem Balanced.quiet {requests : ℤ → QueryRequest} {trace ext : List Action}
    {aggregation : TreeAggregationState} (h : Balanced requests trace aggregation)
    (hext : ∀ a ∈ ext, a.isAccount = false) : Balanced requests (trace ++ ext) aggregation := by
  obtain ⟨hsince, hlast, -, htally⟩ := quiet_accounts trace hext
  refine ⟨h.request, hlast.trans h.last, fun number message hmem => ?_, ?_⟩
  · rw [hsince] at hmem
    rcases List.mem_append.mp hmem with hmem | hmem
    · exact h.numbers number message hmem
    · cases hext _ hmem
  · rw [htally]
    exact h.sum

/-- All entries are in order, and nothing was added that has not arrived. -/
structure InBooks (env : ProtocolEnv) (requests : ℤ → QueryRequest)
    (arrived : Multiset AggregationMessage) (trace : List Action) : Prop where
  added : (addedMessages trace : Multiset AggregationMessage) ≤ arrived
  entries : EveryEntry (Action.Accounts env requests) trace

namespace ProtocolState
variable {ι : Type} {env : ProtocolEnv} {requests : ℤ → QueryRequest} {ph : AggregatePhase ι}
  {arrived kept : Multiset AggregationMessage} {s t u : ProtocolState ι}

/-- The invariant: of the messages that have arrived, `kept` are still to be added. -/
structure Accounted (env : ProtocolEnv) (requests : ℤ → QueryRequest)
    (arrived kept : Multiset AggregationMessage) (s : ProtocolState ι) : Prop where
  rooted : s.Rooted env
  aggregate : ∀ aggregation, s.aggregationPhaseState = some aggregation →
    Balanced requests s.trace aggregation
  nodup : s.proxyValues.Nodup
  added : (addedMessages s.trace : Multiset AggregationMessage) + kept ≤ arrived
  trace : EveryEntry (Action.Accounts env requests) s.trace

/-- What is left of it where a handler stops part-way. -/
def AccountedSoFar (env : ProtocolEnv) (requests : ℤ → QueryRequest)
    (arrived : Multiset AggregationMessage) (s : ProtocolState ι) : Prop :=
  InBooks env requests arrived s.trace

theorem Accounted.soFar (hs : Accounted env requests arrived kept s) :
    AccountedSoFar env requests arrived s :=
  ⟨le_trans (Multiset.le_add_right _ _) hs.added, hs.trace⟩

/-- `t` differs from `s` in what has no part in the sum, and in proxy values that are still
without repetition. -/
structure SameAccounts (s t : ProtocolState ι) : Prop where
  aggregationPhaseState : t.aggregationPhaseState = s.aggregationPhaseState
  futureAggregationMessages : t.futureAggregationMessages = s.futureAggregationMessages
  nodup : s.proxyValues.Nodup → t.proxyValues.Nodup
  trace : ∃ ext, t.trace = s.trace ++ ext ∧ ∀ a ∈ ext, a.isAccount = false

namespace SameAccounts

theorem of_fields (aggregationPhaseState : t.aggregationPhaseState = s.aggregationPhaseState)
    (futureAggregationMessages : t.futureAggregationMessages = s.futureAggregationMessages)
    (proxyValues : t.proxyValues = s.proxyValues) (trace : t.trace = s.trace) : SameAccounts s t :=
  ⟨aggregationPhaseState, futureAggregationMessages, fun h => proxyValues ▸ h, [], by simp [trace],
    by simp⟩

theorem refl (s : ProtocolState ι) : SameAccounts s s := of_fields rfl rfl rfl rfl

theorem trans (h : SameAccounts s t) (h' : SameAccounts t u) : SameAccounts s u := by
  obtain ⟨ext, htrace, hext⟩ := h.trace
  obtain ⟨ext', htrace', hext'⟩ := h'.trace
  refine ⟨h'.aggregationPhaseState.trans h.aggregationPhaseState,
    h'.futureAggregationMessages.trans h.futureAggregationMessages, fun hs => h'.nodup (h.nodup hs),
    ext ++ ext', ?_, ?_⟩
  · rw [htrace', htrace, List.append_assoc]
  · intro a ha
    rcases List.mem_append.mp ha with ha | ha
    · exact hext a ha
    · exact hext' a ha

theorem act (s : ProtocolState ι) {a : Action} (ha : a.isAccount = false) : SameAccounts s (s.act a) :=
  ⟨rfl, rfl, id, [a], rfl, by simpa using ha⟩

theorem emplaceProxyValue (s : ProtocolState ι) (contribution : ValueContribution) :
    SameAccounts s (s.emplaceProxyValue contribution) := by
  unfold ProtocolState.emplaceProxyValue
  split_ifs with hmem
  · exact refl s
  · refine ⟨rfl, rfl, fun hs => ?_, [], by simp, by simp⟩
    exact List.nodup_append_comm.mp (List.nodup_cons.mpr ⟨hmem, hs⟩)

theorem of_bookkeeping (h : Bookkeeping s t) : SameAccounts s t := by
  obtain ⟨ext, htrace, hext⟩ := h.trace
  refine ⟨h.aggregationPhaseState, h.futureAggregationMessages, fun hs => h.proxyValues ▸ hs, ext,
    htrace, fun a ha => ?_⟩
  have hnote := hext a ha
  cases a <;> simp_all [Action.isNote, Action.isAccount]

theorem noteOverlay (P : Protocol ι) (message : OverlayTransportMessage) (s : ProtocolState ι) :
    SameAccounts s (noteOverlay env P message s) := by
  obtain ⟨timer, timers, hnote⟩ := noteOverlay_fields env P message s
  rw [hnote]
  exact (act s (a := .handleOverlay s.overlayRound message) rfl).trans (of_fields rfl rfl rfl rfl)

theorem sends (env : ProtocolEnv) (s : ProtocolState ι) : SameAccounts s (sendOverlayMessageBatch env
    { s with overlayRound := s.overlayRound + 1, pingResponseFromPredecessor := false }) := by
  obtain ⟨failed, hbatch⟩ := sendOverlayMessageBatch_next env s
  rw [hbatch]
  exact (act s (a := .sendOverlay (nextBatch env s) (nextTarget env s)) rfl).trans
    (of_fields rfl rfl rfl rfl)

end SameAccounts

theorem Accounted.same (hs : Accounted env requests arrived kept s) (h : SameAccounts s t) :
    Accounted env requests arrived kept t := by
  obtain ⟨ext, htrace, hext⟩ := h.trace
  obtain ⟨-, -, hadded, -⟩ := quiet_accounts s.trace hext
  refine ⟨?_, fun aggregation hagg => ?_, h.nodup hs.nodup, ?_, ?_⟩
  · rw [Rooted, h.aggregationPhaseState]
    exact hs.rooted
  · rw [htrace]
    exact (hs.aggregate aggregation (h.aggregationPhaseState ▸ hagg)).quiet hext
  · rw [htrace, hadded]
    exact hs.added
  · rw [htrace]
    refine hs.trace.append_of_forall fun a ha pre => ?_
    have hquiet := hext a ha
    cases a <;> trivial

section Aggregation

theorem Accounted.computing (hs : Accounted env requests arrived kept s)
    {aggregation : TreeAggregationState} (hagg : s.aggregationPhaseState = some aggregation)
    (hvalues : (ph.values s.proxyValues s.impl).Nodup) :
    AccountedSoFar env requests arrived (s.computing ph aggregation) where
  added := by
    change (addedMessages (s.trace ++ [_]) : Multiset AggregationMessage) ≤ arrived
    rw [addedMessages_append]
    simpa [addedMessages] using hs.soFar.added
  entries := everyEntry_concat.mpr ⟨hs.trace, (hs.aggregate aggregation hagg).last, hvalues⟩

theorem Accounted.sent (hs : Accounted env requests arrived kept s)
    {aggregation : TreeAggregationState} (hagg : s.aggregationPhaseState = some aggregation)
    (hvalues : (ph.values s.proxyValues s.impl).Nodup) {m total : AggregationMessage}
    (hm : aggregation.aggregationIntermediate = some m)
    (htotal : total.tally aggregation.isSingleValued = m.tally aggregation.isSingleValued +
      ownTally aggregation.isSingleValued (ph.values s.proxyValues s.impl) ∧
        total.senderId = m.senderId ∧ total.queryNum = m.queryNum) :
    Accounted env requests arrived kept (s.sent ph aggregation total) := by
  obtain ⟨hnode, hgroups, hmeters⟩ := hs.rooted aggregation hagg
  have hbalanced := hs.aggregate aggregation hagg
  obtain ⟨hsender, hnum, hsum⟩ := hbalanced.sum m hm
  obtain ⟨htally, hsender', hnum'⟩ := htotal
  have hcomputing := hs.computing hagg hvalues
  have hlast : lastStart (s.computing ph aggregation).trace =
      some aggregation.currentQuery.queryNumber := (lastStart_concat _ _).trans hbalanced.last
  have hnumbers : ∀ number message,
      .addMessage number message ∈ sinceStart (s.computing ph aggregation).trace →
        number = aggregation.currentQuery.queryNumber := by
    intro number message hmem
    rw [ProtocolState.computing, act, sinceStart_concat] at hmem
    exact hbalanced.numbers number message (by simpa using hmem)
  have hsince (single : Bool) : tallySince single (s.computing ph aggregation).trace =
      tallySince single s.trace + ownTally single (ph.values s.proxyValues s.impl) :=
    tallySince_concat (by simp) (by simp)
  have hadds : total.tally aggregation.isSingleValued =
      tallySince aggregation.isSingleValued (s.computing ph aggregation).trace + (0, 1) := by
    rw [htally, hsum, hsince]
    abel
  refine ⟨fun aggregation' hagg' => ?_, fun aggregation' hagg' => ?_, hs.nodup, ?_, ?_⟩
  · obtain rfl := Option.some.inj hagg'
    exact ⟨hnode, hgroups, hmeters⟩
  · obtain rfl := Option.some.inj hagg'
    refine ⟨hbalanced.request, (lastStart_concat _ _).trans hlast, fun number message hmem => ?_,
      fun m' hm' => ?_⟩
    · refine hnumbers number message ?_
      rw [ProtocolState.sent, sinceStart_concat] at hmem
      simpa using hmem
    · obtain rfl := Option.some.inj hm'
      refine ⟨hsender'.trans hsender, hnum'.trans hnum, ?_⟩
      have hkept : tallySince aggregation.isSingleValued (s.sent ph aggregation total).trace =
          tallySince aggregation.isSingleValued (s.computing ph aggregation).trace + 0 :=
        tallySince_concat (by simp) (by simp)
      change total.tally aggregation.isSingleValued =
        tallySince aggregation.isSingleValued (s.sent ph aggregation total).trace + (0, 1)
      rw [hkept, add_zero]
      exact hadds
  · have hkept : addedMessages (s.sent ph aggregation total).trace = addedMessages s.trace := by
      simp [ProtocolState.sent, ProtocolState.computing, act, addedMessages]
    rw [hkept]
    exact hs.added
  · refine everyEntry_concat.mpr ⟨hcomputing.entries, hlast, ?_, ?_, hnum'.trans hnum, hnumbers,
      s.trace, _, rfl, ?_⟩
    · rw [hnode, hgroups, hmeters]
    · exact (hsender'.trans hsender).trans hnode
    · have hsingle : aggregation.isSingleValued =
          (requests aggregation.currentQuery.queryNumber).requestType.isSingleValuedQuery := by
        rw [TreeAggregationState.isSingleValued, ← hbalanced.request]
      rw [← hsingle]
      exact hadds

theorem Accounted.takes {message : AggregationMessage}
    (hs : Accounted env requests arrived (message ::ₘ kept) s)
    {aggregation : TreeAggregationState} (hagg : s.aggregationPhaseState = some aggregation)
    {m intermediate : AggregationMessage} (hm : aggregation.aggregationIntermediate = some m)
    (hadded : intermediate.tally aggregation.isSingleValued =
      m.tally aggregation.isSingleValued + message.tally aggregation.isSingleValued ∧
        intermediate.senderId = m.senderId ∧ intermediate.queryNum = m.queryNum) :
    Accounted env requests arrived kept (s.added aggregation intermediate message) := by
  have hbalanced := hs.aggregate aggregation hagg
  obtain ⟨hsender, hnum, hsum⟩ := hbalanced.sum m hm
  obtain ⟨htally, hsender', hnum'⟩ := hadded
  refine ⟨fun aggregation' hagg' => ?_, fun aggregation' hagg' => ?_, hs.nodup, ?_,
    everyEntry_concat.mpr ⟨hs.trace, trivial⟩⟩
  · obtain rfl := Option.some.inj hagg'
    exact hs.rooted aggregation hagg
  · obtain rfl := Option.some.inj hagg'
    refine ⟨hbalanced.request, (lastStart_concat _ _).trans hbalanced.last,
      fun number message' hmem => ?_, fun m' hm' => ?_⟩
    · rw [ProtocolState.added, sinceStart_concat] at hmem
      rcases List.mem_append.mp hmem with hmem | hmem
      · exact hbalanced.numbers number message' hmem
      · exact (Action.addMessage.inj (List.mem_singleton.mp hmem)).1
    · obtain rfl := Option.some.inj hm'
      refine ⟨hsender'.trans hsender, hnum'.trans hnum, ?_⟩
      have hsince : tallySince aggregation.isSingleValued
          (s.added aggregation intermediate message).trace =
            tallySince aggregation.isSingleValued s.trace +
              message.tally aggregation.isSingleValued :=
        tallySince_concat (by simp) (by simp)
      change intermediate.tally aggregation.isSingleValued = tallySince aggregation.isSingleValued
        (s.added aggregation intermediate message).trace + (0, 1)
      rw [htally, hsum, hsince]
      abel
  · have hconcat : addedMessages (s.added aggregation intermediate message).trace =
        addedMessages s.trace ++ [message] := addedMessages_append _ _
    have hle := hs.added
    rw [hconcat, ← Multiset.coe_add, add_assoc, Multiset.coe_singleton, Multiset.singleton_add]
    exact hle

variable (hph : ∀ proxyValues i, proxyValues.Nodup → (ph.values proxyValues i).Nodup)
include hph

theorem Accounted.sendAggregateIfDone (hs : Accounted env requests arrived kept s) :
    (sendAggregateIfDone env ph s).Ends (fun t => Accounted env requests arrived kept t ∧
      t.futureAggregationMessages = s.futureAggregationMessages)
      (AccountedSoFar env requests arrived) := by
  have hvalues := hph s.proxyValues s.impl hs.nodup
  unfold ProtocolState.sendAggregateIfDone
  cases hagg : s.aggregationPhaseState with
  | none => exact hs.soFar
  | some aggregation =>
    have hcomputing := hs.computing hagg hvalues
    dsimp only
    split_ifs
    · unfold computeAndSendAggregate
      simp only [hagg]
      cases hadd : aggregation.addProxyValues
          (env.π.order (ph.values s.proxyValues s.impl)) with
      | halted e t => exact hcomputing
      | done t =>
        cases hm : aggregation.aggregationIntermediate with
        | none =>
          obtain rfl := TreeAggregationState.addProxyValues_none hm hadd
          simp only [hm]
          exact hcomputing
        | some m =>
          obtain ⟨total, rfl, htotal⟩ := TreeAggregationState.addProxyValues_tally hm hadd
          rw [ownTally_perm (env.π.perm _)] at htotal
          exact ⟨hs.sent hagg hvalues hm htotal, rfl⟩
    · exact ⟨hs, rfl⟩

theorem Accounted.handleAggregationMessage {message : AggregationMessage}
    (hs : Accounted env requests arrived (message ::ₘ kept) s) :
    (handleAggregationMessage env ph message s).Ends (fun t =>
      Accounted env requests arrived kept t ∧
        t.futureAggregationMessages = s.futureAggregationMessages)
      (AccountedSoFar env requests arrived) := by
  unfold ProtocolState.handleAggregationMessage
  cases hagg : s.aggregationPhaseState with
  | none => exact hs.soFar
  | some aggregation =>
    dsimp only
    cases hhandle : aggregation.handleMessage message with
    | error e => exact hs.soFar
    | ok aggregation' =>
      cases hm : aggregation.aggregationIntermediate with
      | none => simp [TreeAggregationState.handleMessage, hm] at hhandle
      | some m =>
        obtain ⟨added, rfl, hadded⟩ := TreeAggregationState.handleMessage_tally hm hhandle
        exact (hs.takes hagg hm hadded).sendAggregateIfDone hph

theorem Accounted.replay (messages : List AggregationMessage)
    (hs : Accounted env requests arrived messages s)
    (hfuture : s.futureAggregationMessages = messages) :
    (Outcome.forEach messages (replay env ph) s).Ends (fun t =>
      Accounted env requests arrived t.futureAggregationMessages t)
      (AccountedSoFar env requests arrived) := by
  induction messages generalizing s with
  | nil =>
    change Accounted env requests arrived s.futureAggregationMessages s
    rw [hfuture]
    exact hs
  | cons message messages ih =>
    refine Outcome.Ends.andThen (P := fun t => Accounted env requests arrived messages t ∧
      t.futureAggregationMessages = messages) ?_ fun t ht => ih ht.1 ht.2
    rw [← Multiset.cons_coe] at hs
    refine (hs.handleAggregationMessage hph).andThen fun t ht => ?_
    refine ⟨⟨ht.1.rooted, ht.1.aggregate, ht.1.nodup, ht.1.added, ht.1.trace⟩, ?_⟩
    change t.futureAggregationMessages.tail = messages
    rw [ht.2, hfuture, List.tail_cons]

omit hph in
theorem Accounted.started (hs : Accounted env requests arrived kept s)
    {aggregation : TreeAggregationState} (hagg : s.aggregationPhaseState = some aggregation)
    (dataArrayLength : ℕ) :
    Accounted env requests arrived kept (s.started aggregation dataArrayLength) := by
  have hbalanced := hs.aggregate aggregation hagg
  have hnone : sinceStart (s.started aggregation dataArrayLength).trace = [] :=
    sinceStart_concat _ _
  refine ⟨fun aggregation' hagg' => ?_, fun aggregation' hagg' => ?_, hs.nodup, ?_,
    everyEntry_concat.mpr ⟨hs.trace, trivial⟩⟩
  · obtain rfl := Option.some.inj hagg'
    exact hs.rooted aggregation hagg
  · obtain rfl := Option.some.inj hagg'
    refine ⟨hbalanced.request, (lastStart_concat _ _).trans hbalanced.last,
      fun number message hmem => ?_, fun m hm => ?_⟩
    · rw [hnone] at hmem
      cases hmem
    · obtain rfl := Option.some.inj hm
      refine ⟨rfl, rfl, ?_⟩
      have hmake := TreeAggregationState.carries_make aggregation.currentQuery dataArrayLength
        aggregation.nodeId
      rw [tallySince, hnone, List.map_nil, List.sum_nil, zero_add]
      exact hmake.tally
  · have hkept : addedMessages (s.started aggregation dataArrayLength).trace =
        addedMessages s.trace := by
      simp [ProtocolState.started, addedMessages]
    rw [hkept]
    exact hs.added

theorem Accounted.startAggregatePhase
    (hs : Accounted env requests arrived s.futureAggregationMessages s) :
    (startAggregatePhase env ph s).Ends (fun t =>
      Accounted env requests arrived t.futureAggregationMessages t)
      (AccountedSoFar env requests arrived) := by
  refine startAggregatePhase_ends (K := InBooks env requests arrived)
    (A := fun t => Accounted env requests arrived t.futureAggregationMessages t)
    (B := fun t => Accounted env requests arrived t.futureAggregationMessages t)
    hs.soFar ?_ ?_ ?_ ?_
  · intro aggregation contribution hagg _
    have hsend := (hs.started hagg contribution.value.length).sendAggregateIfDone hph
    refine hsend.mono (fun t ht => ?_) fun _ ht => ht
    rw [ht.2]
    exact ht.1
  · intro t ht _
    exact Accounted.replay hph _ ht rfl
  · exact fun t ht _ => ht
  · exact fun t ht => ht.same (.of_fields rfl rfl rfl rfl)

theorem Accounted.enterAggregatePhase
    (hs : Accounted env requests arrived s.futureAggregationMessages s) :
    (enterAggregatePhase env ph s).Ends (fun t =>
      Accounted env requests arrived t.futureAggregationMessages t)
      (AccountedSoFar env requests arrived) := by
  have hbegun : Accounted env requests arrived s.futureAggregationMessages (s.onImpl ph.begin) :=
    hs.same (.of_fields rfl rfl rfl rfl)
  exact hbegun.startAggregatePhase hph

/-- A message that arrives is added at once, kept for later or dropped. -/
theorem Accounted.receiveAggregation
    (hs : Accounted env requests arrived s.futureAggregationMessages s)
    (message : AggregationMessage) :
    (receiveAggregation env ph message s).Ends (fun t =>
      Accounted env requests (message ::ₘ arrived) t.futureAggregationMessages t)
      (AccountedSoFar env requests (message ::ₘ arrived)) := by
  have hmore (futures : Multiset AggregationMessage)
      (hfutures : futures ≤ message ::ₘ s.futureAggregationMessages) :
      Accounted env requests (message ::ₘ arrived) futures s := by
    refine ⟨hs.rooted, hs.aggregate, hs.nodup, ?_, hs.trace⟩
    refine (add_le_add_right hfutures _).trans ?_
    rw [Multiset.add_cons]
    exact Multiset.cons_le_cons message hs.added
  unfold ProtocolState.receiveAggregation
  split_ifs
  · have hreceived := (hmore _ le_rfl).same
      (.act s (a := .receiveAggregate s.getCurrentQueryNum message) rfl)
    refine (hreceived.handleAggregationMessage hph).mono (fun t ht => ?_) fun _ ht => ht
    rw [ht.2]
    exact ht.1
  · have hbuffered := hmore (s.bufferAggregation message).futureAggregationMessages (by
      rw [bufferAggregation, ← Multiset.coe_add, Multiset.coe_singleton, add_comm,
        Multiset.singleton_add])
    exact ⟨hbuffered.rooted, hbuffered.aggregate, hbuffered.nodup, hbuffered.added, hbuffered.trace⟩
  · exact hmore _ (Multiset.le_cons_self _ _)

end Aggregation
end ProtocolState
end Pddm
