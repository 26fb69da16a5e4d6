import Pddm.Outcome
import Pddm.Messages
import Pddm.PathFinder
import Pddm.Timers

/-!
# The utility client

The utility broadcasts one query at a time, collects the results that the roots of
the aggregation groups send back, and ends the query when it has enough of them or
a timer expires. Its log records what it does; it is not part of the source's state.
-/
namespace Pddm

inductive QueryProtocol
  | bft | ct | hft
  deriving DecidableEq, Repr

/-- `⌈log2 (n / d)⌉`, the double quotient of two positive `int`s rounded up. -/
def ceilLog2Ratio (n d : ℤ) : ℤ :=
  if d < n then ceilLog2 ((n + d - 1) / d) else -(Nat.log2 (d / n).toNat : ℤ)

structure UtilityConfig where
  queryProtocol : QueryProtocol
  numMeters : ℤ
  failuresTolerated : ℤ
  crypto : CryptoLibrary

inductive UtilityAction
  | startQuery (queryNum : ℤ)
  | sendQuery (query : QueryRequest) (recipientId : ℤ)
  | sendSignature (response : SignatureResponse) (recipientId : ℤ)
  | receiveResult (message : AggregationMessage)
  /-- The end of a query: the results it had received, and the one that is stored
  and handed to every registered callback. -/
  | endQuery (queryNum : ℤ) (results : List AggregationMessage) (result : Option (List FixedPoint))
  deriving DecidableEq, Repr

structure QueryTimeout where
  delayMs : ℤ
  queryNum : ℤ
  deriving DecidableEq, Repr

structure UtilityClient where
  queryTimeoutTimer : ℤ
  queryNum : ℤ
  queryFinished : Bool
  /-- A multiset of messages, equal ones counted together. -/
  currQueryResults : List AggregationMessage
  /-- Indexed by query number. -/
  allQueryResults : List (Option (List FixedPoint))
  currQueryMetersSigned : List ℤ
  /-- A priority queue with the least query number on top. -/
  pendingBatchQueries : List QueryRequest
  timers : Timers QueryTimeout
  log : List UtilityAction

namespace UtilityClient

def networkRoundtripTimeout : ℤ := 100

def init : UtilityClient :=
  ⟨0, -1, false, [], [], [], [], Timers.none, []⟩

def act (s : UtilityClient) (a : UtilityAction) : UtilityClient := { s with log := s.log ++ [a] }

def cancelTimer (s : UtilityClient) (id : ℤ) : UtilityClient :=
  { s with timers := s.timers.cancel id }

/-- Registers a query timeout under the client's handle. -/
def setQueryTimeout (s : UtilityClient) (delayMs : ℤ) : UtilityClient :=
  { s with
    queryTimeoutTimer := s.timers.nextId
    timers := s.timers.register ⟨delayMs, s.queryNum⟩ }

def computeTimeoutTime (cfg : UtilityConfig) : ℤ :=
  let messagesForAggregation :=
    match cfg.queryProtocol with
    | .bft => ceilLog2Ratio cfg.numMeters (2 * cfg.failuresTolerated + 1)
    | .ct | .hft => ceilLog2Ratio cfg.numMeters (cfg.failuresTolerated + 1)
  messagesForAggregation * networkRoundtripTimeout

def roundsForQuery (cfg : UtilityConfig) : ℤ :=
  let log2n : ℤ := ceilLog2 cfg.numMeters
  match cfg.queryProtocol with
  | .bft => 6 * cfg.failuresTolerated + 3 * log2n * log2n + 3 +
      ceilLog2Ratio cfg.numMeters (2 * cfg.failuresTolerated + 1)
  | .hft => 2 * log2n + 2 * cfg.failuresTolerated +
      ceilLog2Ratio cfg.numMeters (cfg.failuresTolerated + 1)
  | .ct => 2 * cfg.failuresTolerated + 4 * log2n + 2 +
      ceilLog2Ratio cfg.numMeters (cfg.failuresTolerated + 1)

def sendQueryToAll (cfg : UtilityConfig) (query : QueryRequest) (s : UtilityClient) :
    UtilityClient :=
  (List.range cfg.numMeters.toNat).foldl (fun s (meterId : ℕ) => s.act (.sendQuery query meterId)) s

def startQuery (cfg : UtilityConfig) (query : QueryRequest) (s : UtilityClient) : UtilityClient :=
  let started : UtilityClient :=
    { s.act (.startQuery query.queryNumber) with
      currQueryMetersSigned := []
      queryNum := query.queryNumber
      currQueryResults := []
      queryFinished := false }
  (started.sendQueryToAll cfg query).setQueryTimeout (roundsForQuery cfg * networkRoundtripTimeout)

def countEqual (results : List AggregationMessage) (result : AggregationMessage) : ℕ :=
  results.countP fun other => other.equal result

/-- The body that a query ends with. Among crash-tolerant results the last one in
iteration order that has contributors is taken. -/
def selectResult (cfg : UtilityConfig) (π : IterationOrder) (results : List AggregationMessage) :
    Option (List FixedPoint) :=
  match cfg.queryProtocol with
  | .bft => ((π.order results).find? fun result =>
      cfg.failuresTolerated + 1 ≤ countEqual results result).map AggregationMessage.body
  | .ct | .hft => (π.order results).foldl
      (fun queryResult result =>
        if 0 < result.numContributors then some result.body else queryResult) none

/-- The vector of results, resized to hold the entry of the query. -/
def storeResult (queryNum : ℕ) (result : Option (List FixedPoint))
    (all : List (Option (List FixedPoint))) : List (Option (List FixedPoint)) :=
  (all ++ List.replicate (queryNum + 1 - all.length) none).set queryNum result

/-- The next pending query, if there is one, is started from here. -/
def startNextQuery (cfg : UtilityConfig) (s : UtilityClient) : UtilityClient :=
  match s.pendingBatchQueries with
  | [] => s
  | next :: rest => { s with pendingBatchQueries := rest }.startQuery cfg next

def endQuery (cfg : UtilityConfig) (π : IterationOrder) (s : UtilityClient) :
    Outcome Fault UtilityClient :=
  let result := selectResult cfg π s.currQueryResults
  -- a negative number indexes the vector out of bounds
  if s.queryNum < 0 then .halted .undefinedBehaviour { s with currQueryResults := [] }
  else
    let ended : UtilityClient :=
      { s.act (.endQuery s.queryNum s.currQueryResults result) with
        currQueryResults := []
        allQueryResults := storeResult s.queryNum.toNat result s.allQueryResults
        queryFinished := true }
    .done (ended.startNextQuery cfg)

/-- Whether this was definitely the last result of the query. -/
def enoughResults (cfg : UtilityConfig) (s : UtilityClient) : Bool :=
  match cfg.queryProtocol with
  | .bft => 2 * cfg.failuresTolerated < s.currQueryResults.length
  | .ct | .hft => cfg.failuresTolerated < s.currQueryResults.length

/-- If the query is not finished, a new timeout is set for the next result. -/
def continueWaiting (cfg : UtilityConfig) (s : UtilityClient) : UtilityClient :=
  if s.queryFinished then s else s.setQueryTimeout (computeTimeoutTime cfg)

def handleAggregationMessage (cfg : UtilityConfig) (π : IterationOrder)
    (message : AggregationMessage) (s : UtilityClient) : Outcome Fault UtilityClient :=
  let received : UtilityClient :=
    { s.act (.receiveResult message) with currQueryResults := s.currQueryResults ++ [message] }
  let s := received.cancelTimer received.queryTimeoutTimer
  (if !s.queryFinished && enoughResults cfg s then endQuery cfg π s else .done s).andThen
    fun s => .done (continueWaiting cfg s)

def handleSignatureRequest (cfg : UtilityConfig) (message : SignatureRequest)
    (s : UtilityClient) : UtilityClient :=
  if message.senderId ∈ s.currQueryMetersSigned then s
  else
    let signedValue := cfg.crypto.rsaSignEncrypted message.body
    { s.act (.sendSignature ⟨utilityNodeId, signedValue⟩ message.senderId) with
      currQueryMetersSigned := message.senderId :: s.currQueryMetersSigned }

/-- Every query is pushed onto the queue of pending ones, and the top is started. -/
def startQueries (cfg : UtilityConfig) (queries : List QueryRequest) (s : UtilityClient) :
    UtilityClient :=
  if queries = [] then s
  else
    startNextQuery cfg { s with
      pendingBatchQueries := queries.foldl
        (fun pending query => pending.orderedInsert (·.queryNumber ≤ ·.queryNumber) query)
        s.pendingBatchQueries }

/-- What reaches the client; an event that runs `endQuery` comes with the order in
which the multiset of results is iterated then. -/
inductive Event
  | startQuery (query : QueryRequest)
  | startQueries (queries : List QueryRequest)
  | result (π : IterationOrder) (message : AggregationMessage)
  | signatureRequest (message : SignatureRequest)
  | timerExpires (π : IterationOrder) (id : ℤ)

/-- A timer that has been cancelled or has fired before does nothing. -/
def handle (cfg : UtilityConfig) (s : UtilityClient) : Event → Outcome Fault UtilityClient
  | .startQuery query => .done (startQuery cfg query s)
  | .startQueries queries => .done (startQueries cfg queries s)
  | .result π message => handleAggregationMessage cfg π message s
  | .signatureRequest message => .done (handleSignatureRequest cfg message s)
  | .timerExpires π id =>
      if s.timers.isPending id then endQuery cfg π (s.cancelTimer id) else .done s

/-- A run goes on as long as no handler stops part-way. -/
def step (cfg : UtilityConfig) (o : Outcome Fault UtilityClient) (e : Event) :
    Outcome Fault UtilityClient :=
  o.andThen fun s => handle cfg s e

/-! Field by field, what starting and ending a query change. -/

theorem foldl_act {α : Type*} (f : α → UtilityAction) (xs : List α) (s : UtilityClient) :
    xs.foldl (fun s x => s.act (f x)) s = { s with log := s.log ++ xs.map f } := by
  induction xs generalizing s with
  | nil => simp
  | cons x xs ih =>
    rw [List.foldl_cons, ih]
    simp [act]

def startEntries (cfg : UtilityConfig) (query : QueryRequest) : List UtilityAction :=
  .startQuery query.queryNumber ::
    (List.range cfg.numMeters.toNat).map fun meterId : ℕ => .sendQuery query meterId

theorem mem_startEntries {cfg : UtilityConfig} {query : QueryRequest} {a : UtilityAction}
    (h : a ∈ startEntries cfg query) :
    a = .startQuery query.queryNumber ∨ ∃ meterId, a = .sendQuery query meterId := by
  refine (List.mem_cons.mp h).imp id fun h => ?_
  obtain ⟨meterId, -, rfl⟩ := List.mem_map.mp h
  exact ⟨meterId, rfl⟩

theorem startQuery_eq (cfg : UtilityConfig) (query : QueryRequest) (s : UtilityClient) :
    s.startQuery cfg query =
      { s with
        currQueryMetersSigned := []
        queryNum := query.queryNumber
        currQueryResults := []
        queryFinished := false
        queryTimeoutTimer := s.timers.nextId
        timers := s.timers.register
          ⟨roundsForQuery cfg * networkRoundtripTimeout, query.queryNumber⟩
        log := s.log ++ startEntries cfg query } := by
  simp only [startQuery, sendQueryToAll, foldl_act]
  rw [startEntries, List.append_cons]
  rfl

def ended (s : UtilityClient) (result : Option (List FixedPoint)) : UtilityClient :=
  { s with
    currQueryResults := []
    allQueryResults := storeResult s.queryNum.toNat result s.allQueryResults
    queryFinished := true
    log := s.log ++ [.endQuery s.queryNum s.currQueryResults result] }

theorem endQuery_eq (cfg : UtilityConfig) (π : IterationOrder) (s : UtilityClient) :
    endQuery cfg π s =
      if s.queryNum < 0 then .halted .undefinedBehaviour { s with currQueryResults := [] }
      else .done ((s.ended (selectResult cfg π s.currQueryResults)).startNextQuery cfg) := rfl

def receive (s : UtilityClient) (message : AggregationMessage) : UtilityClient :=
  { s with
    currQueryResults := s.currQueryResults ++ [message]
    timers := s.timers.cancel s.queryTimeoutTimer
    log := s.log ++ [.receiveResult message] }

/-- A result ends the query in progress when it is the last one needed. -/
def endsQuery (cfg : UtilityConfig) (s : UtilityClient) : Bool :=
  !s.queryFinished && enoughResults cfg s

theorem handleAggregationMessage_eq (cfg : UtilityConfig) (π : IterationOrder)
    (message : AggregationMessage) (s : UtilityClient) :
    handleAggregationMessage cfg π message s =
      (if (s.receive message).endsQuery cfg then endQuery cfg π (s.receive message)
        else .done (s.receive message)).andThen fun s => .done (continueWaiting cfg s) := rfl

theorem startNextQuery_nil {cfg : UtilityConfig} {s : UtilityClient}
    (h : s.pendingBatchQueries = []) : s.startNextQuery cfg = s := by
  simp [startNextQuery, h]

theorem startNextQuery_cons {cfg : UtilityConfig} {s : UtilityClient} {next : QueryRequest}
    {rest : List QueryRequest} (h : s.pendingBatchQueries = next :: rest) :
    s.startNextQuery cfg = { s with pendingBatchQueries := rest }.startQuery cfg next := by
  simp [startNextQuery, h]

theorem storeResult_get {queryNum q : ℕ} {result r : Option (List FixedPoint)}
    {all : List (Option (List FixedPoint))}
    (h : (storeResult queryNum result all)[q]? = some r) :
    (q = queryNum ∧ r = result) ∨ (q ≠ queryNum ∧ (all[q]? = some r ∨ r = none)) := by
  unfold storeResult at h
  rw [List.getElem?_set] at h
  split_ifs at h with hq hlen
  · exact Or.inl ⟨hq.symm, (Option.some.inj h).symm⟩
  · refine Or.inr ⟨fun he => hq he.symm, ?_⟩
    rw [List.getElem?_append] at h
    split_ifs at h
    · exact Or.inl h
    · exact Or.inr (List.eq_of_mem_replicate (List.mem_of_getElem? h))

theorem storeResult_get_self (queryNum : ℕ) (result : Option (List FixedPoint))
    (all : List (Option (List FixedPoint))) :
    (storeResult queryNum result all)[queryNum]? = some result := by
  unfold storeResult
  rw [List.getElem?_set_self]
  simp
  omega

theorem storeResult_get_of_ne {queryNum q : ℕ} (result : Option (List FixedPoint))
    {all : List (Option (List FixedPoint))} {r : Option (List FixedPoint)} (hq : q ≠ queryNum)
    (h : all[q]? = some r) : (storeResult queryNum result all)[q]? = some r := by
  unfold storeResult
  rw [List.getElem?_set_ne hq.symm, List.getElem?_append_left]
  · exact h
  · exact (List.getElem?_eq_some_iff.mp h).1

section Rules
variable {cfg : UtilityConfig} {I J : UtilityClient → Prop}

/-- What makes `I` an invariant of the client once it survives the arrival of a
result. `J` is what holds when a query is about to end. -/
structure Keeps (cfg : UtilityConfig) (I J : UtilityClient → Prop) : Prop where
  pending : ∀ s queue, I s → I { s with pendingBatchQueries := queue }
  start : ∀ s query, I s → I (s.startQuery cfg query)
  wait : ∀ s delay, I s → s.queryFinished = false → I (s.setQueryTimeout delay)
  sign : ∀ s response recipientId signed, I s →
    I { s.act (.sendSignature response recipientId) with currQueryMetersSigned := signed }
  ready : ∀ s, I s → s.queryFinished = false → J s
  expire : ∀ s id, I s → s.timers.isPending id = true → J (s.cancelTimer id)
  ended : ∀ s π, J s → 0 ≤ s.queryNum → I (s.ended (selectResult cfg π s.currQueryResults))
  halted : ∀ s, J s → I { s with currQueryResults := [] }

theorem Keeps.startNextQuery (h : Keeps cfg I J) {s : UtilityClient} (hs : I s) :
    I (s.startNextQuery cfg) := by
  cases hp : s.pendingBatchQueries with
  | nil => rwa [startNextQuery_nil hp]
  | cons next rest =>
    rw [startNextQuery_cons hp]
    exact h.start _ next (h.pending s rest hs)

theorem Keeps.endQuery (h : Keeps cfg I J) {s : UtilityClient} (hs : J s) (π : IterationOrder) :
    (endQuery cfg π s).Holds I := by
  rw [endQuery_eq]
  split_ifs with hq
  · exact h.halted s hs
  · exact h.startNextQuery (h.ended s π hs (not_lt.mp hq))

theorem Keeps.handleAggregationMessage (h : Keeps cfg I J) {s : UtilityClient}
    {message : AggregationMessage} (hs : I (s.receive message)) (π : IterationOrder) :
    (handleAggregationMessage cfg π message s).Holds I := by
  rw [handleAggregationMessage_eq]
  have hfirst : (if (s.receive message).endsQuery cfg then UtilityClient.endQuery cfg π
      (s.receive message) else .done (s.receive message)).Holds I := by
    split_ifs with hend
    · refine h.endQuery (h.ready _ hs ?_) π
      simp only [endsQuery, Bool.and_eq_true, Bool.not_eq_true'] at hend
      exact hend.1
    · exact hs
  refine hfirst.andThen fun t ht => ?_
  unfold continueWaiting
  split_ifs with hfin
  · exact ht
  · exact h.wait t _ ht (by simpa using hfin)

theorem Keeps.handle (h : Keeps cfg I J) {s : UtilityClient} (hs : I s) (e : Event)
    (hreceive : ∀ π message, e = .result π message → I (s.receive message)) :
    (handle cfg s e).Holds I := by
  cases e with
  | startQuery query => exact h.start s query hs
  | startQueries queries =>
    simp only [UtilityClient.handle, startQueries]
    split_ifs
    · exact hs
    · exact h.startNextQuery (h.pending s _ hs)
  | result π message => exact h.handleAggregationMessage (hreceive π message rfl) π
  | signatureRequest message =>
    simp only [UtilityClient.handle, handleSignatureRequest]
    split_ifs
    · exact hs
    · exact h.sign s _ _ _ hs
  | timerExpires π id =>
    simp only [UtilityClient.handle]
    split_ifs with hpending
    · exact h.endQuery (h.expire s id hs hpending) π
    · exact hs

def Arrivals (P : UtilityClient → AggregationMessage → Prop) (o : Outcome Fault UtilityClient) :
    Event → Prop
  | .result _ message => P o.state message
  | _ => True

theorem Keeps.step (h : Keeps cfg I J) {P : UtilityClient → AggregationMessage → Prop}
    (hreceive : ∀ s message, I s → P s message → I (s.receive message))
    {o : Outcome Fault UtilityClient} (ho : o.Holds I) {e : Event} (he : Arrivals P o e) :
    (step cfg o e).Holds I := by
  cases o with
  | halted error s => exact ho
  | done s =>
    refine h.handle ho e fun π message heq => ?_
    subst heq
    exact hreceive s message ho he

/-- Runs whose arrivals all meet `P` stay in `I`. -/
theorem Keeps.throughout (h : Keeps cfg I J) {P : UtilityClient → AggregationMessage → Prop}
    (hreceive : ∀ s message, I s → P s message → I (s.receive message))
    {s : UtilityClient} (hs : I s) {es : List Event}
    (hes : Along (UtilityClient.step cfg) (Arrivals P) (.done s) es) :
    Throughout (UtilityClient.step cfg) (fun o => o.Holds I) (.done s) es :=
  hes.throughout hs fun _ _ ho he => h.step hreceive ho he

end Rules

end UtilityClient
end Pddm
