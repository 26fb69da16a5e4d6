import Pddm.UtilityClient

/-!
# Results and the query they answer

A collected result carries a query number of its own. When every result that is
counted towards a query, and stored for it, is a result of that query.
-/
namespace Pddm.UtilityClient

/-- The results that ended a query were all results of that query, and the one
chosen is the body of one of them. -/
structure Answers (queryNum : ℤ) (results : List AggregationMessage)
    (result : Option (List FixedPoint)) : Prop where
  numbered : ∀ message ∈ results, message.queryNum = queryNum
  chosen : ∀ body, result = some body → ∃ message ∈ results, message.body = body

/-- Every query was ended by its own results, and nothing else is stored. -/
structure ResultsSound (s : UtilityClient) : Prop where
  ended : ∀ queryNum results result, .endQuery queryNum results result ∈ s.log →
    Answers queryNum results result
  stored : ∀ (queryNum : ℕ) body, s.allQueryResults[queryNum]? = some (some body) →
    ∃ results, .endQuery queryNum results (some body) ∈ s.log

/-- Nothing can end the query any more: it has ended, and no timeout is set. -/
def Settled (s : UtilityClient) : Prop := s.queryFinished = true ∧ s.timers.pending = []

/-- The result is one of the query in progress, or comes while there is none. -/
def Timely (s : UtilityClient) (message : AggregationMessage) : Prop :=
  message.queryNum = s.queryNum ∨ s.Settled

structure Numbered (s : UtilityClient) : Prop where
  sound : s.ResultsSound
  results : ∀ message ∈ s.currQueryResults, message.queryNum = s.queryNum

/-- The invariant of runs: results of other queries are collected only when settled. -/
structure Separated (s : UtilityClient) : Prop where
  sound : s.ResultsSound
  results : (∀ message ∈ s.currQueryResults, message.queryNum = s.queryNum) ∨ s.Settled

theorem foldl_contributors_mem {body : List FixedPoint} (results : List AggregationMessage)
    (first : Option (List FixedPoint))
    (h : results.foldl (fun queryResult result =>
      if 0 < result.numContributors then some result.body else queryResult) first = some body) :
    first = some body ∨ ∃ message ∈ results, message.body = body := by
  induction results generalizing first with
  | nil => exact Or.inl h
  | cons result results ih =>
    rw [List.foldl_cons] at h
    rcases ih _ h with hfirst | ⟨message, hm, hbody⟩
    · split_ifs at hfirst
      · exact Or.inr ⟨result, by simp, Option.some.inj hfirst⟩
      · exact Or.inl hfirst
    · exact Or.inr ⟨message, by simp [hm], hbody⟩

/-- Under every protocol the result chosen is the body of a collected message. -/
theorem selectResult_mem {cfg : UtilityConfig} {π : IterationOrder}
    {results : List AggregationMessage} {body : List FixedPoint}
    (h : selectResult cfg π results = some body) : ∃ message ∈ results, message.body = body := by
  have hmem : ∃ message ∈ π.order results, message.body = body := by
    unfold selectResult at h
    cases hprotocol : cfg.queryProtocol with
    | bft =>
      simp only [hprotocol, Option.map_eq_some_iff] at h
      obtain ⟨message, hfind, hbody⟩ := h
      exact ⟨message, List.mem_of_find?_eq_some hfind, hbody⟩
    | ct | hft =>
      simp only [hprotocol] at h
      exact (foldl_contributors_mem _ _ h).resolve_left (by simp)
  obtain ⟨message, hm, hbody⟩ := hmem
  exact ⟨message, π.mem_order.mp hm, hbody⟩

variable {cfg : UtilityConfig} {s t : UtilityClient}

theorem separated_init : Separated init where
  sound := ⟨by simp [init], by simp [init]⟩
  results := by simp [init]

theorem ResultsSound.log_append (hs : s.ResultsSound) (ext : List UtilityAction)
    (hext : ∀ a ∈ ext, ∀ queryNum results result, a ≠ .endQuery queryNum results result)
    (hlog : t.log = s.log ++ ext) (hall : t.allQueryResults = s.allQueryResults) :
    t.ResultsSound := by
  constructor
  · intro queryNum results result hmem
    rw [hlog] at hmem
    rcases List.mem_append.mp hmem with hmem | hmem
    · exact hs.ended queryNum results result hmem
    · exact absurd rfl (hext _ hmem queryNum results result)
  · intro queryNum body h
    rw [hall] at h
    obtain ⟨results, hmem⟩ := hs.stored queryNum body h
    exact ⟨results, by rw [hlog]; exact List.mem_append_left _ hmem⟩

theorem Separated.start (hs : s.Separated) (query : QueryRequest) :
    (s.startQuery cfg query).Separated := by
  rw [startQuery_eq]
  refine ⟨hs.sound.log_append _ ?_ rfl rfl, Or.inl (by simp)⟩
  intro a ha queryNum results body
  rcases mem_startEntries ha with rfl | ⟨meterId, rfl⟩ <;> simp

theorem Separated.receive (hs : s.Separated) {message : AggregationMessage}
    (htimely : s.Timely message) : (s.receive message).Separated := by
  refine ⟨hs.sound.log_append [.receiveResult message] (by simp) rfl rfl, ?_⟩
  have hsettled : s.Settled → (s.receive message).Settled := fun h =>
    ⟨h.1, Timers.cancel_pending_nil h.2 _⟩
  rcases htimely with hnum | h
  · refine hs.results.imp (fun hresults m hm => ?_) hsettled
    rcases List.mem_append.mp hm with hm | hm
    · exact hresults m hm
    · rwa [List.mem_singleton.mp hm]
  · exact Or.inr (hsettled h)

theorem Numbered.ended (hs : s.Numbered) (hq : 0 ≤ s.queryNum) (π : IterationOrder) :
    (s.ended (selectResult cfg π s.currQueryResults)).Separated := by
  refine ⟨⟨?_, ?_⟩, Or.inl (by simp [UtilityClient.ended])⟩
  · intro queryNum results result hmem
    rcases List.mem_append.mp hmem with hmem | hmem
    · exact hs.sound.ended queryNum results result hmem
    · obtain ⟨rfl, rfl, rfl⟩ := UtilityAction.endQuery.inj (List.mem_singleton.mp hmem)
      exact ⟨hs.results, fun body h => selectResult_mem h⟩
  · intro queryNum body h
    rcases storeResult_get h with ⟨rfl, hresult⟩ | ⟨-, h | h⟩
    · refine ⟨s.currQueryResults, List.mem_append_right _ ?_⟩
      rw [Int.toNat_of_nonneg hq, hresult]
      exact List.mem_singleton_self _
    · obtain ⟨results, hmem⟩ := hs.sound.stored queryNum body h
      exact ⟨results, List.mem_append_left _ hmem⟩
    · exact absurd h (by simp)

theorem separated_keeps : Keeps cfg Separated Numbered where
  pending _ _ hs := ⟨⟨hs.sound.ended, hs.sound.stored⟩, hs.results⟩
  start _ query hs := hs.start query
  wait _ _ hs hfin := ⟨⟨hs.sound.ended, hs.sound.stored⟩,
    hs.results.imp id fun h => absurd h.1 (by simp [hfin])⟩
  sign _ response recipientId _ hs :=
    ⟨hs.sound.log_append [.sendSignature response recipientId] (by simp) rfl rfl,
      hs.results⟩
  ready _ hs hfin := ⟨hs.sound, hs.results.resolve_right fun h => absurd h.1 (by simp [hfin])⟩
  expire s id hs hpending := by
    refine ⟨⟨hs.sound.ended, hs.sound.stored⟩, hs.results.resolve_right fun h => ?_⟩
    obtain ⟨payload, hmem⟩ := Timers.isPending_iff.mp hpending
    simp [h.2] at hmem
  ended _ π hs hq := hs.ended hq π
  halted _ hs := ⟨⟨hs.sound.ended, hs.sound.stored⟩, Or.inl (by simp)⟩

/-- Where results arrive only for the query in progress, or while nothing can end a
query, each query is ended by results of its own and stores one of them. -/
theorem results_sound_of_timely (cfg : UtilityConfig) (es : List Event)
    (hes : Along (step cfg) (Arrivals Timely) (.done init) es) :
    Throughout (step cfg) (fun o => o.Holds ResultsSound) (.done init) es :=
  (separated_keeps.throughout (fun _ _ hs htimely => hs.receive htimely) separated_init hes).mono
    fun _ ho => ho.mono (fun _ h => h.sound) fun _ h => h.sound

section LateResult

def ctConfig : UtilityConfig := ⟨.ct, 4, 1, dummyCrypto⟩

def queryOf (queryNum : ℤ) : Event := .startQuery ⟨.currUsageSum, 1, queryNum⟩

def resultOf (senderId queryNum : ℤ) : Event := .result .insertion (.make senderId queryNum [9])

/-- Two queries in turn, each with its results, the last of which is late. -/
theorem timely_results_sound :
    Throughout (step ctConfig) (fun o => o.Holds ResultsSound) (.done init)
      [queryOf 0, resultOf 0 0, resultOf 2 0, resultOf 1 0, queryOf 1, resultOf 0 1] := by
  refine results_sound_of_timely ctConfig _
    ⟨trivial, Or.inl ?_, Or.inl ?_, Or.inr ⟨?_, ?_⟩, trivial, Or.inl ?_, trivial⟩
  all_goals decide +kernel

/-- Query 0 times out, and its late results end query 1. -/
def lateResults : List Event :=
  [queryOf 0, .timerExpires .insertion 0, queryOf 1, resultOf 0 0, resultOf 2 0]

theorem late_results_stored :
    ¬ (lateResults.foldl (step ctConfig) (.done init)).Holds ResultsSound := by
  intro h
  have hmem : .endQuery 1 [.make 0 0 [9], .make 2 0 [9]] (some [9]) ∈
      (lateResults.foldl (step ctConfig) (.done init)).state.log := by decide +kernel
  have hnum := ((Outcome.holds_iff.mp h).ended _ _ _ hmem).numbered (.make 0 0 [9]) (by simp)
  exact absurd hnum (by decide)

end LateResult

end Pddm.UtilityClient
