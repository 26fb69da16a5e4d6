import Pddm.AggregateOnce

/-!
# The sum at one meter

What a meter sends once it has heard from all its children: its own proxy values and
theirs, added element by element.
-/
namespace Pddm

/-- What the `k`-th element of some data adds: for a query of one value, nothing beyond
the first. -/
def entry (single : Bool) (data : List FixedPoint) (k : ℕ) : FixedPoint :=
  if single && k ≠ 0 then 0 else data.getD k 0

/-- The elements that some data adds, with the number of its contributors. -/
abbrev Tally := (ℕ → FixedPoint) × ℤ

def AggregationMessage.tally (single : Bool) (m : AggregationMessage) : Tally :=
  (entry single m.body, m.numContributors)

/-- A message of a meter for a query, whose body and count are those of `x`. -/
structure AggregationMessage.Carries (query : QueryRequest) (length : ℕ) (senderId : ℤ)
    (x : Tally) (m : AggregationMessage) : Prop where
  senderId : m.senderId = senderId
  queryNum : m.queryNum = query.queryNumber
  length : m.body.length = length
  body : ∀ k, m.body.getD k 0 = x.1 k
  tally : m.tally query.requestType.isSingleValuedQuery = x

namespace TreeAggregationState
variable {s : TreeAggregationState} {length : ℕ} {senderId : ℤ} {x : Tally}
  {m : AggregationMessage}

theorem carries_make (query : QueryRequest) (length : ℕ) (senderId : ℤ) :
    AggregationMessage.Carries query length senderId (0, 1)
      (.make senderId query.queryNumber (List.replicate length 0)) where
  senderId := rfl
  queryNum := rfl
  length := List.length_replicate
  body k := by simp [AggregationMessage.make]
  tally := by
    refine Prod.ext (funext fun k => ?_) rfl
    simp [AggregationMessage.tally, entry, AggregationMessage.make]

theorem getD_zipWith_add {xs ys : List FixedPoint} (h : xs.length = ys.length) (k : ℕ) :
    (List.zipWith (· + ·) xs ys).getD k 0 = xs.getD k 0 + ys.getD k 0 := by
  simp only [List.getD_eq_getElem?_getD, List.getElem?_zipWith]
  by_cases hk : k < xs.length
  · have hk' : k < ys.length := h ▸ hk
    simp [hk, hk']
  · have hk' : ¬ k < ys.length := h ▸ hk
    simp [hk, hk']

theorem addValue_carries {query : QueryRequest} (hsingle : query.requestType.isSingleValuedQuery)
    (hlength : 0 < length) (h : m.Carries query length senderId x) (value : FixedPoint)
    (values : List FixedPoint) (n : ℤ) :
    ∃ added, m.addValue value n = .ok added ∧
      added.Carries query length senderId (x + (entry true (value :: values), n)) := by
  have hbody := h.length
  cases hb : m.body with
  | nil =>
    rw [hb, List.length_nil] at hbody
    omega
  | cons b bs =>
    have hx : ∀ k, (b :: bs).getD k 0 = x.1 k := hb ▸ h.body
    have hentry : entry true m.body = x.1 := by rw [← hsingle, ← h.tally, AggregationMessage.tally]
    have hcount : m.numContributors = x.2 := by rw [← h.tally, AggregationMessage.tally]
    have htail : ∀ k, x.1 (k + 1) = 0 := by
      intro k
      rw [← hentry, entry]
      simp
    have helements : ∀ k, ((b + value) :: bs).getD k 0 =
        (x.1 + entry true (value :: values)) k := by
      intro k
      cases k with
      | zero => simp [← hx 0, entry]
      | succ k => simp [← hx (k + 1), entry]
    refine ⟨{ m with body := (b + value) :: bs, numContributors := m.numContributors + n },
      by simp [AggregationMessage.addValue, hb], h.senderId, h.queryNum, by simpa [hb] using hbody,
      helements, Prod.ext (funext fun k => ?_) (congrArg (· + n) hcount)⟩
    rw [hsingle, Prod.fst_add, ← helements]
    cases k with
    | zero => simp [AggregationMessage.tally, entry]
    | succ k =>
      have hnone : bs.getD k 0 = 0 := (hx (k + 1)).trans (htail k)
      simpa [AggregationMessage.tally, entry] using hnone.symm

theorem addValues_carries {query : QueryRequest}
    (hsingle : query.requestType.isSingleValuedQuery = false)
    (h : m.Carries query length senderId x) {data : List FixedPoint}
    (hdata : data.length = length) (n : ℤ) :
    ∃ added, m.addValues data n = .ok added ∧
      added.Carries query length senderId (x + (entry false data, n)) := by
  have hbody : data.length = m.body.length := hdata.trans h.length.symm
  have hcount : m.numContributors = x.2 := by rw [← h.tally, AggregationMessage.tally]
  have hsum : ∀ k, (List.zipWith (· + ·) data m.body).getD k 0 = (x.1 + entry false data) k := by
    intro k
    rw [getD_zipWith_add hbody, h.body, Pi.add_apply, add_comm]
    simp [entry]
  refine ⟨{ m with
      body := List.zipWith (· + ·) data m.body
      numContributors := m.numContributors + n }, by simp [AggregationMessage.addValues, hbody],
    h.senderId, h.queryNum, by simp [hdata, h.length], hsum,
    Prod.ext (funext fun k => ?_) (congrArg (· + n) hcount)⟩
  rw [hsingle, Prod.fst_add, ← hsum]
  simp [AggregationMessage.tally, entry]

theorem addData_carries (hlength : 0 < length) (h : m.Carries s.currentQuery length senderId x)
    {data : List FixedPoint} (hdata : data.length = length) (onEmpty : Fault) (n : ℤ) :
    ∃ added, s.addData onEmpty data n m = .ok added ∧
      added.Carries s.currentQuery length senderId (x + (entry s.isSingleValued data, n)) := by
  cases hsingle : s.isSingleValued with
  | true =>
    cases data with
    | nil =>
      rw [List.length_nil] at hdata
      omega
    | cons value values =>
      obtain ⟨added, hadded, hcarries⟩ := addValue_carries hsingle hlength h value values n
      exact ⟨added, by simpa [addData, hsingle] using hadded, hcarries⟩
  | false =>
    obtain ⟨added, hadded, hcarries⟩ := addValues_carries hsingle h hdata n
    exact ⟨added, by simpa [addData, hsingle] using hadded, hcarries⟩

theorem addProxyValues_carries (hlength : 0 < length) (values : List ValueContribution)
    (hvalues : ∀ value ∈ values, value.value.value.length = length)
    (hm : s.aggregationIntermediate = some m) (h : m.Carries s.currentQuery length senderId x) :
    ∃ total, s.addProxyValues values = .done { s with aggregationIntermediate := some total } ∧
      total.Carries s.currentQuery length senderId
        (x + (values.map fun value => (entry s.isSingleValued value.value.value, 1)).sum) := by
  induction values generalizing s m x with
  | nil =>
    refine ⟨m, ?_, by simpa using h⟩
    rw [addProxyValues, ← hm]
  | cons value values ih =>
    have hvalue : value.value.value.length = length := hvalues value List.mem_cons_self
    obtain ⟨added, hadded, hcarries⟩ := addData_carries hlength h hvalue .undefinedBehaviour 1
    obtain ⟨total, htotal, hsum⟩ := ih (s := { s with aggregationIntermediate := some added })
      (fun v hv => hvalues v (List.mem_cons_of_mem _ hv)) rfl hcarries
    refine ⟨total, ?_, ?_⟩
    · have hstep : s.addProxyValue value = .ok { s with aggregationIntermediate := some added } := by
        simp [addProxyValue, hm, hadded, Except.map]
      rw [addProxyValues, hstep]
      exact htotal
    · rw [List.map_cons, List.sum_cons, ← add_assoc]
      exact hsum

end TreeAggregationState

/-- The messages that have left a meter, with their recipients. -/
def aggregatesSent (trace : List Action) : List (ℤ × AggregationMessage) :=
  trace.filterMap fun a =>
    match a with
    | .sendAggregate _ aggregate parentId => some (parentId, aggregate)
    | _ => none

theorem aggregatesSent_append (trace ext : List Action) :
    aggregatesSent (trace ++ ext) = aggregatesSent trace ++ aggregatesSent ext :=
  List.filterMap_append

/-- The part of one meter in the Aggregate phase of a query: the values it adds are all
of one length. -/
structure AggregationTask (ι : Type) where
  env : ProtocolEnv
  phase : AggregatePhase ι
  query : QueryRequest
  length : ℕ
  values : List ValueContribution
  length_pos : 0 < length
  values_length : ∀ value ∈ values, value.value.value.length = length

namespace AggregationTask
variable {ι : Type} (task : AggregationTask ι)

def single : Bool := task.query.requestType.isSingleValuedQuery

/-- What a meter adds by itself. The message it starts from counts as a contributor. -/
def own : Tally :=
  (task.values.map fun value => (entry task.single value.value.value, 1)).sum + (0, 1)

def awaited : ℤ :=
  TreeAggregationState.awaited task.env.meterId task.env.numAggregationGroups task.env.numMeters []

def parent : ℤ :=
  aggregationTreeParent task.env.meterId task.env.numAggregationGroups task.env.numMeters

def Carries (x : Tally) (m : AggregationMessage) : Prop :=
  m.Carries task.query task.length task.env.meterId x

structure Tallies (received : Multiset Tally) (aggregation : TreeAggregationState) :
    Prop where
  nodeId : aggregation.nodeId = task.env.meterId
  numGroups : aggregation.numGroups = task.env.numAggregationGroups
  numMeters : aggregation.numMeters = task.env.numMeters
  currentQuery : aggregation.currentQuery = task.query
  initialized : aggregation.initialized = true
  count : aggregation.childrenReceivedFrom = received.card
  needed : aggregation.childrenNeeded = task.awaited
  sum : ∃ intermediate, aggregation.aggregationIntermediate = some intermediate ∧
    task.Carries (received.sum + (0, 1)) intermediate

structure Preparing (received : Multiset Tally) (s : ProtocolState ι) : Prop where
  aggregation : s.aggregationPhaseState = some (.make task.env.meterId
    task.env.numAggregationGroups task.env.numMeters task.query)
  contribution : ∃ contribution, s.myContribution = some contribution ∧
    contribution.queryNum = task.query.queryNumber ∧ contribution.value.length = task.length
  inactive : task.phase.isInAggregatePhase s.impl = false
  values : task.phase.values s.proxyValues s.impl = task.values
  failed : s.failedMeterIds = []
  buffered : (s.futureAggregationMessages.map fun m => m.tally task.single : Multiset _) =
    received
  lengths : ∀ m ∈ s.futureAggregationMessages, m.body.length = task.length
  unsent : Unsent s.trace

structure Collecting (received : Multiset Tally) (s : ProtocolState ι) : Prop where
  active : task.phase.isInAggregatePhase s.impl = true
  values : task.phase.values s.proxyValues s.impl = task.values
  tallies : ∃ aggregation, s.aggregationPhaseState = some aggregation ∧
    task.Tallies received aggregation
  unsent : Unsent s.trace

structure Finished (s : ProtocolState ι) : Prop where
  inactive : task.phase.isInAggregatePhase s.impl = false
  initialized : s.aggregationPhaseState.any TreeAggregationState.initialized = true
  computed : countSince Action.isCompute s.trace = 1
  sent : countSince Action.isSend s.trace = 1

/-- From `s` to `t`, with these messages received: the aggregate is sent as soon as the
last awaited one is in. -/
def Advances (received : Multiset Tally) (s t : ProtocolState ι) : Prop :=
  ∃ ext, t.trace = s.trace ++ ext ∧
    (((received.card : ℤ) < task.awaited ∧ task.Collecting received t ∧ aggregatesSent ext = []) ∨
      (task.awaited ≤ received.card ∧ task.Finished t ∧
        ∃ aggregate, task.Carries (task.own + received.sum) aggregate ∧
          aggregatesSent ext = [(task.parent, aggregate)]))

variable {task} {received : Multiset Tally} {s t u : ProtocolState ι}

theorem Advances.of_eq (h : task.Advances received s t)
    (hcore : u.impl = t.impl ∧ u.proxyValues = t.proxyValues ∧
      u.aggregationPhaseState = t.aggregationPhaseState ∧ u.trace = t.trace) :
    task.Advances received s u := by
  obtain ⟨himpl, hproxy, hagg, htrace⟩ := hcore
  obtain ⟨ext, hext, hcase⟩ := h
  refine ⟨ext, htrace.trans hext, hcase.imp ?_ ?_⟩
  · rintro ⟨hlt, hcollecting, hnone⟩
    exact ⟨hlt, ⟨himpl ▸ hcollecting.active, by rw [himpl, hproxy]; exact hcollecting.values,
      hagg ▸ hcollecting.tallies, htrace ▸ hcollecting.unsent⟩, hnone⟩
  · rintro ⟨hle, hfinished, hsent⟩
    exact ⟨hle, ⟨himpl ▸ hfinished.inactive, hagg ▸ hfinished.initialized,
      htrace ▸ hfinished.computed, htrace ▸ hfinished.sent⟩, hsent⟩

theorem Advances.lastRound (h : task.Advances received s t) :
    task.Advances received s { t with isLastRound := true } := h.of_eq ⟨rfl, rfl, rfl, rfl⟩

theorem Advances.prepend (h : task.Advances received t u) {ext : List Action}
    (htrace : t.trace = s.trace ++ ext) (hext : aggregatesSent ext = []) :
    task.Advances received s u := by
  obtain ⟨ext', htrace', hcase⟩ := h
  refine ⟨ext ++ ext', by rw [htrace', htrace, List.append_assoc], ?_⟩
  rw [aggregatesSent_append, hext, List.nil_append]
  exact hcase

theorem Tallies.addProxyValues {aggregation : TreeAggregationState}
    (h : task.Tallies received aggregation) :
    ∃ total, aggregation.addProxyValues (task.env.π.order task.values) =
        .done { aggregation with aggregationIntermediate := some total } ∧
      task.Carries (task.own + received.sum) total := by
  obtain ⟨intermediate, hintermediate, hcarries⟩ := h.sum
  have hperm : (task.env.π.order task.values).Perm task.values := task.env.π.perm _
  have hlengths : ∀ v ∈ task.env.π.order task.values, v.value.value.length = task.length :=
    fun v hv => task.values_length v (hperm.mem_iff.mp hv)
  have hown : ((task.env.π.order task.values).map fun value =>
      ((entry task.single value.value.value, 1) : Tally)).sum + (0, 1) = task.own := by
    rw [own, (hperm.map _).sum_eq]
  have hsingle : aggregation.isSingleValued = task.single := by
    rw [TreeAggregationState.isSingleValued, h.currentQuery, single]
  rw [Carries, ← h.currentQuery] at hcarries
  obtain ⟨total, htotal, hsum⟩ := TreeAggregationState.addProxyValues_carries task.length_pos
    (task.env.π.order task.values) hlengths hintermediate hcarries
  have hrest : received.sum + (0, 1) + ((task.env.π.order task.values).map fun value =>
      ((entry task.single value.value.value, 1) : Tally)).sum = task.own + received.sum := by
    rw [← hown]
    abel
  rw [hsingle, hrest, h.currentQuery] at hsum
  exact ⟨total, htotal, hsum⟩

theorem finished_sent (hunsent : Unsent s.trace) {aggregation : TreeAggregationState}
    (h : task.Tallies received aggregation) (total : AggregationMessage) :
    task.Finished (s.sent task.phase aggregation total) where
  inactive := task.phase.finish_inactive _
  initialized := h.initialized
  computed := by
    rw [ProtocolState.sent, ProtocolState.computing, ProtocolState.act, countSince_concat,
      countSince_concat, hunsent.1]
    rfl
  sent := by
    rw [ProtocolState.sent, ProtocolState.computing, ProtocolState.act, countSince_concat,
      countSince_concat, hunsent.2]
    rfl

theorem Tallies.done_iff {aggregation : TreeAggregationState}
    (h : task.Tallies received aggregation) :
    aggregation.doneReceivingFromChildren = decide (task.awaited ≤ received.card) := by
  rw [TreeAggregationState.doneReceivingFromChildren, h.needed, h.count]

theorem sendAggregateIfDone_waits (hs : task.Collecting received s)
    (hlt : (received.card : ℤ) < task.awaited) :
    ProtocolState.sendAggregateIfDone task.env task.phase s = .done s := by
  obtain ⟨aggregation, hagg, htallies⟩ := hs.tallies
  rw [ProtocolState.sendAggregateIfDone, hagg]
  simp only [htallies.done_iff, decide_eq_true_eq]
  rw [if_neg (not_le.mpr hlt)]

theorem sendAggregateIfDone_sends (hs : task.Collecting received s)
    (hle : task.awaited ≤ received.card) :
    ∃ t, ProtocolState.sendAggregateIfDone task.env task.phase s = .done t ∧
      task.Advances received s t := by
  obtain ⟨aggregation, hagg, htallies⟩ := hs.tallies
  obtain ⟨total, htotal, hcarries⟩ := htallies.addProxyValues
  refine ⟨s.sent task.phase aggregation total, ?_, ?_⟩
  · rw [ProtocolState.sendAggregateIfDone, hagg]
    simp only [htallies.done_iff, decide_eq_true_eq]
    rw [if_pos hle, ProtocolState.computeAndSendAggregate, hagg, hs.values]
    simp only [htotal, Outcome.done_andThen]
    rw [ProtocolState.sent, ProtocolState.computing, hs.values]
    rfl
  · refine ⟨_, List.append_assoc _ _ _, Or.inr ⟨hle, finished_sent hs.unsent htallies total,
      total, hcarries, ?_⟩⟩
    rw [parent, ← htallies.nodeId, ← htallies.numGroups, ← htallies.numMeters]
    rfl

/-- The meter adds its own values and sends if nothing more is awaited. -/
theorem sendAggregateIfDone_advances (hs : task.Collecting received s) :
    ∃ t, ProtocolState.sendAggregateIfDone task.env task.phase s = .done t ∧
      task.Advances received s t := by
  by_cases hlt : (received.card : ℤ) < task.awaited
  · exact ⟨s, sendAggregateIfDone_waits hs hlt, [], by simp, Or.inl ⟨hlt, hs, rfl⟩⟩
  · exact sendAggregateIfDone_sends hs (not_lt.mp hlt)

/-- A message is added, and with the last one the aggregate is sent. -/
theorem handleAggregationMessage_advances (hs : task.Collecting received s)
    {message : AggregationMessage} (hmessage : message.body.length = task.length) :
    ∃ t, ProtocolState.handleAggregationMessage task.env task.phase message s = .done t ∧
      task.Advances (message.tally task.single ::ₘ received) s t := by
  obtain ⟨aggregation, hagg, htallies⟩ := hs.tallies
  obtain ⟨intermediate, hintermediate, hcarries⟩ := htallies.sum
  have hsingle : aggregation.isSingleValued = task.single := by
    rw [TreeAggregationState.isSingleValued, htallies.currentQuery, single]
  rw [Carries, ← htallies.currentQuery] at hcarries
  obtain ⟨added, hadded, hsum⟩ := TreeAggregationState.addData_carries task.length_pos hcarries
    hmessage .exception message.numContributors
  have hrest : received.sum + (0, 1) + (entry task.single message.body, message.numContributors) =
      (message.tally task.single ::ₘ received).sum + (0, 1) := by
    rw [Multiset.sum_cons, AggregationMessage.tally]
    abel
  rw [hsingle, hrest, htallies.currentQuery] at hsum
  have hcollecting : task.Collecting (message.tally task.single ::ₘ received)
      (s.added aggregation added message) := by
    refine ⟨hs.active, hs.values, ⟨_, rfl, ?_⟩, hs.unsent.concat rfl rfl⟩
    refine ⟨htallies.nodeId, htallies.numGroups, htallies.numMeters, htallies.currentQuery,
      htallies.initialized, ?_, htallies.needed, added, rfl, ?_⟩
    · simp only [htallies.count, Multiset.card_cons]
      push_cast
      rfl
    · exact hsum
  obtain ⟨t, ht, hadvances⟩ := sendAggregateIfDone_advances hcollecting
  refine ⟨t, ?_, hadvances.prepend rfl rfl⟩
  have hhandle : aggregation.handleMessage message = .ok { aggregation with
      aggregationIntermediate := some added
      childrenReceivedFrom := aggregation.childrenReceivedFrom + 1 } := by
    simp [TreeAggregationState.handleMessage, hintermediate, hadded, Except.map]
  rw [ProtocolState.handleAggregationMessage, hagg]
  simp only [hhandle]
  exact ht

/-- The buffered messages are added, as many as there are children at most. -/
theorem replay_advances (hs : task.Collecting received s) (hwaits : (received.card : ℤ) < task.awaited)
    (messages : List AggregationMessage) (hmessages : ∀ m ∈ messages, m.body.length = task.length)
    (hle : (received.card : ℤ) + messages.length ≤ task.awaited) :
    ∃ t, Outcome.forEach messages (ProtocolState.replay task.env task.phase) s = .done t ∧
      task.Advances ((messages.map fun m => m.tally task.single : Multiset _) + received)
        s t := by
  induction messages generalizing s received with
  | nil => exact ⟨s, rfl, [], by simp, Or.inl ⟨by simpa using hwaits, by simpa using hs, rfl⟩⟩
  | cons message messages ih =>
    obtain ⟨t, ht, hadvances⟩ := handleAggregationMessage_advances hs
      (hmessages message List.mem_cons_self)
    have hreplay : ProtocolState.replay task.env task.phase message s =
        .done { t with futureAggregationMessages := t.futureAggregationMessages.tail } := by
      rw [ProtocolState.replay, ht]
      rfl
    have hadvances' := hadvances.of_eq (u := { t with
      futureAggregationMessages := t.futureAggregationMessages.tail }) ⟨rfl, rfl, rfl, rfl⟩
    have hreceived : (((message :: messages).map fun m => m.tally task.single : Multiset _) +
        received) = (messages.map fun m => m.tally task.single : Multiset _) +
          message.tally task.single ::ₘ received := by
      rw [List.map_cons, ← Multiset.cons_coe, Multiset.cons_add, Multiset.add_cons]
    rw [Outcome.forEach, hreplay, hreceived]
    rw [List.length_cons] at hle
    push_cast at hle
    obtain ⟨ext, htrace, ⟨hlt, hcollecting, hnone⟩ | ⟨hfull, hrest⟩⟩ := hadvances'
    · rw [Multiset.card_cons] at hlt
      push_cast at hlt
      obtain ⟨u, hu, hadvances''⟩ := ih hcollecting (by rw [Multiset.card_cons]; push_cast; exact hlt)
        (fun m hm => hmessages m (List.mem_cons_of_mem _ hm))
        (by rw [Multiset.card_cons]; push_cast; omega)
      exact ⟨u, hu, hadvances''.prepend htrace hnone⟩
    · -- the last awaited message is the last one buffered
      rw [Multiset.card_cons] at hfull
      push_cast at hfull
      obtain rfl : messages = [] := List.eq_nil_of_length_eq_zero (by omega)
      refine ⟨_, rfl, ext, htrace, Or.inr ?_⟩
      rw [List.map_nil, Multiset.coe_nil, zero_add]
      refine ⟨?_, hrest⟩
      rw [Multiset.card_cons]
      push_cast
      exact hfull

theorem collecting_started (hs : task.Preparing received s) :
    task.Collecting 0 ((s.onImpl task.phase.begin).started
      (.make task.env.meterId task.env.numAggregationGroups task.env.numMeters task.query)
      task.length) := by
  refine ⟨task.phase.begin_active _, (task.phase.values_begin _ _).trans hs.values, ⟨_, rfl, ?_⟩,
    hs.unsent.concat rfl rfl⟩
  have hmake := TreeAggregationState.carries_make task.query task.length task.env.meterId
  refine ⟨rfl, rfl, rfl, rfl, rfl, rfl, ?_, _, rfl, by rw [Multiset.sum_zero, zero_add]; exact hmake⟩
  change TreeAggregationState.awaited _ _ _ s.failedMeterIds = task.awaited
  rw [hs.failed]
  rfl

theorem enterAggregatePhase_advances (hs : task.Preparing received s)
    (hle : (received.card : ℤ) ≤ task.awaited) :
    ∃ t, ProtocolState.enterAggregatePhase task.env task.phase s = .done t ∧
      task.Advances received s t := by
  obtain ⟨contribution, hcontribution, -, hlength⟩ := hs.contribution
  have hcard : received.card = s.futureAggregationMessages.length := by
    rw [← hs.buffered, Multiset.coe_card, List.length_map]
  have hstart := ProtocolState.startAggregatePhase_eq task.env task.phase
    (s := s.onImpl task.phase.begin) hs.aggregation hcontribution
  rw [hlength] at hstart
  have hcollecting := collecting_started hs
  rw [ProtocolState.enterAggregatePhase, hstart]
  by_cases hwaits : 0 < task.awaited
  · rw [sendAggregateIfDone_waits hcollecting (by simpa using hwaits)]
    obtain ⟨t, ht, hadvances⟩ := replay_advances hcollecting (by simpa using hwaits)
      s.futureAggregationMessages hs.lengths (by simpa [hcard] using hle)
    rw [hs.buffered, add_zero] at hadvances
    refine ⟨{ t with isLastRound := true }, ?_, hadvances.lastRound.prepend (s := s) rfl rfl⟩
    rw [Outcome.done_andThen, ProtocolState.isInAggregatePhase, if_pos hcollecting.active]
    change (Outcome.forEach s.futureAggregationMessages _ _).andThen _ = _
    rw [ht]
    rfl
  · -- without a child the aggregate leaves at once
    have hnone : received = 0 := by
      rw [← Multiset.card_eq_zero]
      omega
    obtain ⟨t, ht, hadvances⟩ := sendAggregateIfDone_sends hcollecting (by simpa using hwaits)
    have hinactive : task.phase.isInAggregatePhase t.impl = false := by
      obtain ⟨-, -, ⟨hlt, -⟩ | ⟨-, hfinished, -⟩⟩ := hadvances
      · simp at hlt
        omega
      · exact hfinished.inactive
    refine ⟨{ t with isLastRound := true }, ?_, ?_⟩
    · rw [ht, Outcome.done_andThen, ProtocolState.isInAggregatePhase, hinactive]
      rfl
    · rw [hnone]
      exact hadvances.lastRound.prepend (s := s) rfl rfl

theorem receiveAggregation_prepares (hs : task.Preparing received s) {message : AggregationMessage}
    (hnum : message.queryNum = task.query.queryNumber)
    (hlength : message.body.length = task.length) :
    ∃ t, ProtocolState.receiveAggregation task.env task.phase message s = .done t ∧
      task.Preparing (message.tally task.single ::ₘ received) t ∧ t.trace = s.trace := by
  obtain ⟨contribution, hcontribution, hquery, -⟩ := hs.contribution
  have hcurrent : s.getCurrentQueryNum = task.query.queryNumber := by
    rw [ProtocolState.getCurrentQueryNum, hcontribution]
    exact hquery
  refine ⟨s.bufferAggregation message, ?_, ?_, rfl⟩
  · rw [ProtocolState.receiveAggregation, ProtocolState.isInAggregatePhase, hs.inactive, hcurrent,
      if_neg Bool.false_ne_true, if_pos hnum]
  · refine ⟨hs.aggregation, hs.contribution, hs.inactive, hs.values, hs.failed, ?_, ?_, hs.unsent⟩
    · rw [← hs.buffered, Multiset.cons_coe, Multiset.coe_eq_coe]
      simp [ProtocolState.bufferAggregation]
    · intro m hm
      rcases List.mem_append.mp hm with hm | hm
      · exact hs.lengths m hm
      · rw [List.mem_singleton.mp hm]
        exact hlength

theorem receiveAggregation_advances (hs : task.Collecting received s)
    {message : AggregationMessage} (hlength : message.body.length = task.length) :
    ∃ t, ProtocolState.receiveAggregation task.env task.phase message s = .done t ∧
      task.Advances (message.tally task.single ::ₘ received) s t := by
  have hreceived : task.Collecting received
      (s.act (.receiveAggregate s.getCurrentQueryNum message)) :=
    ⟨hs.active, hs.values, hs.tallies, hs.unsent.concat rfl rfl⟩
  obtain ⟨t, ht, hadvances⟩ := handleAggregationMessage_advances hreceived hlength
  refine ⟨t, ?_, hadvances.prepend rfl rfl⟩
  rw [ProtocolState.receiveAggregation, ProtocolState.isInAggregatePhase, if_pos hs.active]
  exact ht

end AggregationTask
end Pddm
