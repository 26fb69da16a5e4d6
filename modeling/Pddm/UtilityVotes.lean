import Pddm.UtilityClient

/-!
# The votes behind a Byzantine-tolerant result

A result that ends a query has `F + 1` equal copies among the collected ones.
When these are the votes of as many meters.
-/
namespace Pddm.UtilityClient

/-- The query last started in a log, and the messages received since then. -/
def collected (log : List UtilityAction) : ℤ × List AggregationMessage :=
  log.foldl (fun c a =>
    match a with
    | .startQuery queryNum => (queryNum, [])
    | .receiveResult message => (c.1, c.2 ++ [message])
    | _ => c) (-1, [])

def voters (messages : List AggregationMessage) (body : List FixedPoint) (numContributors : ℤ) :
    Finset ℤ :=
  ((messages.filter fun m => m.body = body ∧ m.numContributors = numContributors).map
    AggregationMessage.senderId).toFinset

/-- At least `F + 1` meters have sent this body, with one contributor count, since
the query was started. -/
def Backed (cfg : UtilityConfig) (log : List UtilityAction) (queryNum : ℤ)
    (body : List FixedPoint) : Prop :=
  (collected log).1 = queryNum ∧
    ∃ numContributors, cfg.failuresTolerated + 1 ≤ (voters (collected log).2 body numContributors).card

/-- Every non-null result was backed when its query ended, and nothing else is stored. -/
structure VotesSound (cfg : UtilityConfig) (s : UtilityClient) : Prop where
  ended : EveryEntry (fun pre a => ∀ queryNum results body,
    a = .endQuery queryNum results (some body) → Backed cfg pre queryNum body) s.log
  stored : ∀ (queryNum : ℕ) body, s.allQueryResults[queryNum]? = some (some body) →
    ∃ results, .endQuery queryNum results (some body) ∈ s.log

/-- The sender has no equal message among the results being collected. -/
def FirstVote (s : UtilityClient) (message : AggregationMessage) : Prop :=
  ∀ other ∈ s.currQueryResults, other.senderId = message.senderId → ¬ other.equal message

instance (s : UtilityClient) (message : AggregationMessage) : Decidable (s.FirstVote message) :=
  inferInstanceAs (Decidable (∀ other ∈ s.currQueryResults,
    other.senderId = message.senderId → ¬ other.equal message))

/-- No two of the collected results are the same vote. -/
structure Tallied (cfg : UtilityConfig) (s : UtilityClient) : Prop where
  sound : s.VotesSound cfg
  query : (collected s.log).1 = s.queryNum
  results : s.currQueryResults ⊆ (collected s.log).2
  once : s.currQueryResults.Pairwise fun m m' => m.senderId = m'.senderId → ¬ m.equal m'

theorem collected_concat (log : List UtilityAction) (a : UtilityAction) :
    collected (log ++ [a]) =
      match a with
      | .startQuery queryNum => (queryNum, [])
      | .receiveResult message => ((collected log).1, (collected log).2 ++ [message])
      | _ => collected log := by
  simp only [collected, List.foldl_append, List.foldl_cons, List.foldl_nil]

theorem collected_startEntries (cfg : UtilityConfig) (log : List UtilityAction)
    (query : QueryRequest) :
    collected (log ++ startEntries cfg query) = (query.queryNumber, []) := by
  rw [startEntries, List.append_cons]
  generalize List.range cfg.numMeters.toNat = meters
  induction meters using List.reverseRecOn with
  | nil => simp [collected_concat]
  | append_singleton meters meterId ih =>
    rw [List.map_append, ← List.append_assoc, List.map_singleton, collected_concat]
    exact ih

theorem voters_subset (messages : List AggregationMessage) (body : List FixedPoint)
    (numContributors : ℤ) : voters messages body numContributors ⊆
      (messages.map AggregationMessage.senderId).toFinset := by
  intro sender h
  simp only [voters, List.mem_toFinset, List.mem_map, List.mem_filter] at h ⊢
  obtain ⟨m, ⟨hm, -⟩, rfl⟩ := h
  exact ⟨m, hm, rfl⟩

theorem countEqual_le_voters {results messages : List AggregationMessage}
    (hsub : results ⊆ messages)
    (honce : results.Pairwise fun m m' => m.senderId = m'.senderId → ¬ m.equal m')
    (result : AggregationMessage) :
    countEqual results result ≤ (voters messages result.body result.numContributors).card := by
  have hnodup : ((results.filter fun m => m.equal result).map
      AggregationMessage.senderId).Nodup := by
    rw [List.Nodup, List.pairwise_map, List.pairwise_filter]
    refine honce.imp fun {m m'} h hm hm' hsender => h hsender ?_
    rw [AggregationMessage.equal_iff] at hm hm' ⊢
    exact ⟨hm.1.trans hm'.1.symm, hm.2.1.trans hm'.2.1.symm, hm.2.2.trans hm'.2.2.symm⟩
  have hvotes : ((results.filter fun m => m.equal result).map
      AggregationMessage.senderId).toFinset ⊆
        voters messages result.body result.numContributors := by
    intro sender hsender
    simp only [voters, List.mem_toFinset, List.mem_map, List.mem_filter, decide_eq_true_eq]
      at hsender ⊢
    obtain ⟨m, ⟨hm, heq⟩, rfl⟩ := hsender
    rw [AggregationMessage.equal_iff] at heq
    exact ⟨m, ⟨hsub hm, heq.2.2, heq.1⟩, rfl⟩
  calc countEqual results result
      = ((results.filter fun m => m.equal result).map AggregationMessage.senderId).length := by
        rw [countEqual, List.countP_eq_length_filter, List.length_map]
    _ = ((results.filter fun m => m.equal result).map
          AggregationMessage.senderId).toFinset.card := (List.toFinset_card_of_nodup hnodup).symm
    _ ≤ _ := Finset.card_le_card hvotes

theorem selectResult_bft {cfg : UtilityConfig} (hbft : cfg.queryProtocol = .bft)
    {π : IterationOrder} {results : List AggregationMessage} {body : List FixedPoint}
    (h : selectResult cfg π results = some body) :
    ∃ result, result.body = body ∧ cfg.failuresTolerated + 1 ≤ countEqual results result := by
  simp only [selectResult, hbft, Option.map_eq_some_iff] at h
  obtain ⟨result, hfind, rfl⟩ := h
  exact ⟨result, rfl, by simpa using List.find?_some hfind⟩

variable {cfg : UtilityConfig} {s : UtilityClient}

theorem Tallied.backed (hbft : cfg.queryProtocol = .bft) (hs : s.Tallied cfg)
    {π : IterationOrder} {body : List FixedPoint}
    (h : selectResult cfg π s.currQueryResults = some body) :
    Backed cfg s.log s.queryNum body := by
  obtain ⟨result, rfl, hcount⟩ := selectResult_bft hbft h
  refine ⟨hs.query, result.numContributors, hcount.trans ?_⟩
  exact_mod_cast countEqual_le_voters hs.results hs.once result

theorem tallied_init : Tallied cfg init where
  sound := ⟨everyEntry_nil, by simp [init]⟩
  query := rfl
  results := by simp [init]
  once := by simp [init]

theorem VotesSound.log_append (hs : s.VotesSound cfg) (ext : List UtilityAction)
    (hext : ∀ a ∈ ext, ∀ queryNum results body, a ≠ .endQuery queryNum results body)
    {t : UtilityClient} (hlog : t.log = s.log ++ ext)
    (hall : t.allQueryResults = s.allQueryResults) : t.VotesSound cfg := by
  constructor
  · rw [hlog]
    exact hs.ended.append_of_forall fun a ha pre queryNum results body heq =>
      absurd heq (hext a ha _ _ _)
  · intro queryNum body h
    rw [hall] at h
    obtain ⟨results, hmem⟩ := hs.stored queryNum body h
    exact ⟨results, by rw [hlog]; exact List.mem_append_left _ hmem⟩

theorem Tallied.start (hs : s.Tallied cfg) (query : QueryRequest) :
    (s.startQuery cfg query).Tallied cfg := by
  rw [startQuery_eq]
  have hcollected := collected_startEntries cfg s.log query
  refine ⟨hs.sound.log_append _ ?_ rfl rfl, congrArg Prod.fst hcollected, by simp, by simp⟩
  intro a ha queryNum results body
  rcases mem_startEntries ha with rfl | ⟨meterId, rfl⟩ <;> simp

theorem Tallied.receive (hs : s.Tallied cfg) {message : AggregationMessage}
    (hfirst : s.FirstVote message) : (s.receive message).Tallied cfg := by
  have hcollected := collected_concat s.log (.receiveResult message)
  refine ⟨hs.sound.log_append [.receiveResult message] (by simp) rfl rfl, ?_, ?_, ?_⟩
  · exact (congrArg Prod.fst hcollected).trans hs.query
  · simp only [UtilityClient.receive, hcollected]
    exact List.append_subset.mpr ⟨List.Subset.trans hs.results (List.subset_append_left _ _),
      List.subset_append_right _ _⟩
  · simp only [UtilityClient.receive, List.pairwise_append]
    exact ⟨hs.once, List.pairwise_singleton _ _, fun other hother m hm => by
      rw [List.mem_singleton.mp hm]; exact hfirst other hother⟩

theorem Tallied.ended (hbft : cfg.queryProtocol = .bft) (hs : s.Tallied cfg)
    (hq : 0 ≤ s.queryNum) (π : IterationOrder) :
    (s.ended (selectResult cfg π s.currQueryResults)).Tallied cfg := by
  have hcollected := collected_concat s.log
    (.endQuery s.queryNum s.currQueryResults (selectResult cfg π s.currQueryResults))
  refine ⟨⟨?_, ?_⟩, ?_, by simp [UtilityClient.ended], by simp [UtilityClient.ended]⟩
  · refine everyEntry_concat.mpr ⟨hs.sound.ended, fun queryNum results body heq => ?_⟩
    obtain ⟨rfl, -, hresult⟩ := UtilityAction.endQuery.inj heq
    exact hs.backed hbft hresult
  · intro queryNum body h
    rcases storeResult_get h with ⟨rfl, hresult⟩ | ⟨-, h | h⟩
    · refine ⟨s.currQueryResults, List.mem_append_right _ ?_⟩
      rw [Int.toNat_of_nonneg hq, hresult]
      exact List.mem_singleton_self _
    · obtain ⟨results, hmem⟩ := hs.sound.stored queryNum body h
      exact ⟨results, List.mem_append_left _ hmem⟩
    · exact absurd h (by simp)
  · exact (congrArg Prod.fst hcollected).trans hs.query

theorem tallied_keeps (hbft : cfg.queryProtocol = .bft) :
    Keeps cfg (Tallied cfg) (Tallied cfg) where
  pending _ _ hs := ⟨⟨hs.sound.ended, hs.sound.stored⟩, hs.query, hs.results, hs.once⟩
  start _ query hs := hs.start query
  wait _ _ hs _ := ⟨⟨hs.sound.ended, hs.sound.stored⟩, hs.query, hs.results, hs.once⟩
  sign s response recipientId _ hs := by
    have hcollected := collected_concat s.log (.sendSignature response recipientId)
    refine ⟨hs.sound.log_append [.sendSignature response recipientId] (by simp) rfl rfl,
      ?_, ?_, hs.once⟩
    · exact (congrArg Prod.fst hcollected).trans hs.query
    · exact (congrArg Prod.snd hcollected).symm ▸ hs.results
  ready _ hs _ := hs
  expire _ _ hs _ := ⟨⟨hs.sound.ended, hs.sound.stored⟩, hs.query, hs.results, hs.once⟩
  ended _ π hs hq := hs.ended hbft hq π
  halted _ hs := ⟨⟨hs.sound.ended, hs.sound.stored⟩, hs.query, by simp, by simp⟩

/-- In a run of the Byzantine-tolerant client where no meter's result is taken in
twice for one query, every stored result has the votes of `F + 1` meters. -/
theorem results_backed_of_first_votes (cfg : UtilityConfig) (es : List Event)
    (hbft : cfg.queryProtocol = .bft)
    (hes : Along (step cfg) (Arrivals FirstVote) (.done init) es) :
    Throughout (step cfg) (fun o => o.Holds (VotesSound cfg)) (.done init) es :=
  ((tallied_keeps hbft).throughout (fun _ _ hs hfirst => hs.receive hfirst) tallied_init hes).mono
    fun _ ho => ho.mono (fun _ h => h.sound) fun _ h => h.sound

section RepeatedVote

def bftConfig : UtilityConfig := ⟨.bft, 7, 1, dummyCrypto⟩

def vote (senderId : ℤ) : Event := .result .insertion (.make senderId 0 [5])

/-- Two meters agree, and the next result comes from a third one. -/
theorem two_votes_back_result :
    Throughout (step bftConfig) (fun o => o.Holds (VotesSound bftConfig)) (.done init)
      [.startQuery ⟨.currUsageSum, 1, 0⟩, vote 0, vote 1, vote 2] := by
  refine results_backed_of_first_votes bftConfig _ rfl ⟨trivial, ?_, ?_, ?_, trivial⟩
  all_goals
    change FirstVote _ _
    decide +kernel

def repeatedVotes : List Event := [.startQuery ⟨.currUsageSum, 1, 0⟩, vote 3, vote 3, vote 3]

/-- One meter that repeats its result decides the query. -/
theorem repeated_vote_decides :
    ¬ (repeatedVotes.foldl (step bftConfig) (.done init)).Holds (VotesSound bftConfig) := by
  intro h
  have hlog : (repeatedVotes.foldl (step bftConfig) (.done init)).state.log =
      (repeatedVotes.foldl (step bftConfig) (.done init)).state.log.dropLast ++
        [.endQuery 0 (List.replicate 3 (.make 3 0 [5])) (some [5])] := by decide +kernel
  obtain ⟨-, numContributors, hcard⟩ :=
    (Outcome.holds_iff.mp h).ended _ _ [] hlog 0 _ [5] rfl
  have hone := hcard.trans (Nat.cast_le.mpr (Finset.card_le_card (voters_subset _ _ _)))
  exact absurd hone (by decide +kernel)

end RepeatedVote

end Pddm.UtilityClient
