import Pddm.UtilityClient

/-!
# The result with the most contributors

Without Byzantine failures a query is meant to end with the most complete result. The
loop over the results never raises its bar, and the last one in iteration order wins.
-/
namespace Pddm
namespace UtilityClient
variable {cfg : UtilityConfig} {π : IterationOrder} {results : List AggregationMessage}

/-- One of the results with the most contributors. -/
def MostContributors (results : List AggregationMessage) (message : AggregationMessage) : Prop :=
  message ∈ results ∧ ∀ other ∈ results, other.numContributors ≤ message.numContributors

instance (results : List AggregationMessage) (message : AggregationMessage) :
    Decidable (MostContributors results message) :=
  inferInstanceAs (Decidable (_ ∧ _))

/-- The end of the query goes through and stores the body of such a result. -/
def StoresMaximum (s : UtilityClient) (o : Outcome Fault UtilityClient) : Prop :=
  ∃ t, o = .done t ∧ ∃ message, MostContributors s.currQueryResults message ∧
    t.allQueryResults[s.queryNum.toNat]? = some (some message.body)

def LastIsMaximum (π : IterationOrder) (results : List AggregationMessage) : Prop :=
  ∃ last ∈ (π.order results).getLast?, ∃ message, MostContributors results message ∧
    message.body = last.body

theorem foldl_last {messages : List AggregationMessage} (hpos : ∀ m ∈ messages, 0 < m.numContributors)
    (acc : Option (List FixedPoint)) :
    messages.foldl (fun queryResult result =>
      if 0 < result.numContributors then some result.body else queryResult) acc =
        (messages.getLast?.map AggregationMessage.body).or acc := by
  induction messages using List.reverseRecOn with
  | nil => rfl
  | append_singleton messages m _ =>
    rw [List.foldl_concat, if_pos (hpos m (by simp)), List.getLast?_concat]
    rfl

theorem selectResult_last (hcrash : cfg.queryProtocol ≠ .bft)
    (hpos : ∀ m ∈ results, 0 < m.numContributors) :
    selectResult cfg π results = (π.order results).getLast?.map AggregationMessage.body := by
  have hfold := foldl_last (fun m hm => hpos m (π.mem_order.mp hm)) none
  rw [Option.or_none] at hfold
  unfold selectResult
  split
  · contradiction
  · exact hfold
  · exact hfold

theorem startNextQuery_allQueryResults (s : UtilityClient) :
    (s.startNextQuery cfg).allQueryResults = s.allQueryResults := by
  unfold startNextQuery
  split
  · rfl
  · rw [startQuery_eq]

/-- The stored result is one with the most contributors exactly when the last one in
iteration order has the body of such a result. -/
theorem stores_maximum_iff {s : UtilityClient} (hcrash : cfg.queryProtocol ≠ .bft)
    (hpos : ∀ m ∈ s.currQueryResults, 0 < m.numContributors) :
    StoresMaximum s (endQuery cfg π s) ↔
      0 ≤ s.queryNum ∧ LastIsMaximum π s.currQueryResults := by
  rw [endQuery_eq, selectResult_last hcrash hpos]
  constructor
  · rintro ⟨t, ht, message, hmost, hstored⟩
    split_ifs at ht with hnum
    obtain rfl := Outcome.done.inj ht
    rw [startNextQuery_allQueryResults, ended, storeResult_get_self, Option.some.injEq,
      Option.map_eq_some_iff] at hstored
    obtain ⟨last, hlast, hbody⟩ := hstored
    exact ⟨not_lt.mp hnum, last, hlast, message, hmost, hbody.symm⟩
  · rintro ⟨hnum, last, hlast, message, hmost, hbody⟩
    refine ⟨_, if_neg (not_lt.mpr hnum), message, hmost, ?_⟩
    rw [startNextQuery_allQueryResults, ended, storeResult_get_self, hbody, Option.mem_def.mp hlast]
    rfl

/-- A result with three contributors, and one with two that comes after it. -/
def twoResults : UtilityClient :=
  { init with queryNum := 0, currQueryResults := [⟨0, 0, [9], 3⟩, ⟨2, 0, [5], 2⟩] }

def crashTolerant : UtilityConfig := ⟨.ct, 5, 1, dummyCrypto⟩

theorem less_complete_result_stored :
    ¬ StoresMaximum twoResults (endQuery crashTolerant .insertion twoResults) := by
  rintro ⟨t, ht, message, ⟨hmem, hmost⟩, hstored⟩
  have hresult : (endQuery crashTolerant .insertion twoResults).state.allQueryResults =
      [some [5]] := by
    decide
  rw [ht] at hresult
  have hbody : message.body = [5] := by
    rw [show t.allQueryResults = [some [5]] from hresult] at hstored
    simpa [twoResults] using hstored.symm
  have hthree := hmost ⟨0, 0, [9], 3⟩ (by decide)
  rcases List.mem_pair.mp hmem with rfl | rfl
  · exact absurd hbody (by decide)
  · exact absurd hthree (by decide)

/-- In the other order the more complete result is stored. -/
theorem more_complete_result_stored :
    StoresMaximum { twoResults with currQueryResults := twoResults.currQueryResults.reverse }
      (endQuery crashTolerant .insertion
        { twoResults with currQueryResults := twoResults.currQueryResults.reverse }) := by
  have hmaximum : LastIsMaximum .insertion twoResults.currQueryResults.reverse :=
    ⟨⟨0, 0, [9], 3⟩, rfl, ⟨0, 0, [9], 3⟩, by decide, rfl⟩
  exact (stores_maximum_iff (by decide) (by decide)).mpr ⟨by decide, hmaximum⟩

end UtilityClient
end Pddm
