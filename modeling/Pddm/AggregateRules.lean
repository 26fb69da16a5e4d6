import Pddm.ProtocolRules

/-!
# Rules for the Aggregate phase

What each operation of the phase does to the state of a meter, as rules for outcomes.
Handlers that stop part-way are held to a condition on their trace.
-/
namespace Pddm

namespace TreeAggregationState

theorem addProxyValue_eq {s t : TreeAggregationState} {value : ValueContribution}
    (h : s.addProxyValue value = .ok t) :
    ∃ intermediate, t = { s with aggregationIntermediate := some intermediate } := by
  unfold addProxyValue at h
  cases hi : s.aggregationIntermediate with
  | none => simp [hi] at h
  | some intermediate =>
    simp only [hi] at h
    cases hadd : s.addData .undefinedBehaviour value.value.value 1 intermediate with
    | error e => simp [hadd, Except.map] at h
    | ok added =>
      simp only [hadd, Except.map, Except.ok.injEq] at h
      exact ⟨added, h.symm⟩

theorem addProxyValues_ends (values : List ValueContribution) (s : TreeAggregationState) :
    (addProxyValues values s).Holds fun t =>
      t = { s with aggregationIntermediate := t.aggregationIntermediate } := by
  induction values generalizing s with
  | nil => rfl
  | cons value values ih =>
    unfold addProxyValues
    cases hv : s.addProxyValue value with
    | error e => rfl
    | ok t =>
      obtain ⟨intermediate, rfl⟩ := addProxyValue_eq hv
      exact ih _

theorem handleMessage_eq {s t : TreeAggregationState} {message : AggregationMessage}
    (h : s.handleMessage message = .ok t) :
    ∃ intermediate, t = { s with
      aggregationIntermediate := some intermediate
      childrenReceivedFrom := s.childrenReceivedFrom + 1 } := by
  unfold handleMessage at h
  cases hi : s.aggregationIntermediate with
  | none => simp [hi] at h
  | some intermediate =>
    simp only [hi] at h
    cases hadd : s.addData .exception message.body message.numContributors intermediate with
    | error e => simp [hadd, Except.map] at h
    | ok added =>
      simp only [hadd, Except.map, Except.ok.injEq] at h
      exact ⟨added, h.symm⟩

theorem initializeState_waits {s : TreeAggregationState} {dataArrayLength : ℕ}
    {failedMeterIds : List ℤ}
    (h : (s.initializeState dataArrayLength failedMeterIds).doneReceivingFromChildren = false) :
    0 < (s.initializeState dataArrayLength failedMeterIds).childrenNeeded := by
  have hlt := of_decide_eq_false h
  exact not_le.mp hlt

end TreeAggregationState

namespace ProtocolState
variable {ι : Type} {env : ProtocolEnv} {ph : AggregatePhase ι} {s : ProtocolState ι}

def Rooted (env : ProtocolEnv) (s : ProtocolState ι) : Prop :=
  ∀ aggregation, s.aggregationPhaseState = some aggregation →
    aggregation.nodeId = env.meterId ∧ aggregation.numGroups = env.numAggregationGroups ∧
      aggregation.numMeters = env.numMeters

theorem Rooted.childrenNeeded (hs : s.Rooted env) {aggregation : TreeAggregationState}
    (hagg : s.aggregationPhaseState = some aggregation) (dataArrayLength : ℕ)
    (failedMeterIds : List ℤ) :
    (aggregation.initializeState dataArrayLength failedMeterIds).childrenNeeded =
      TreeAggregationState.awaited env.meterId env.numAggregationGroups env.numMeters
        failedMeterIds := by
  obtain ⟨hnode, hgroups, hmeters⟩ := hs aggregation hagg
  simp only [TreeAggregationState.initializeState, hnode, hgroups, hmeters]

def computing (ph : AggregatePhase ι) (s : ProtocolState ι) (aggregation : TreeAggregationState) :
    ProtocolState ι :=
  s.act (.computeAggregate aggregation.currentQuery.queryNumber (ph.values s.proxyValues s.impl))

def sent (ph : AggregatePhase ι) (s : ProtocolState ι) (aggregation : TreeAggregationState)
    (aggregate : AggregationMessage) : ProtocolState ι :=
  { s.computing ph aggregation with
    aggregationPhaseState := some { aggregation with aggregationIntermediate := some aggregate }
    impl := ph.finish s.impl
    trace := (s.computing ph aggregation).trace ++
      [.sendAggregate aggregation.currentQuery.queryNumber aggregate
        (aggregationTreeParent aggregation.nodeId aggregation.numGroups aggregation.numMeters)] }

def added (s : ProtocolState ι) (aggregation : TreeAggregationState)
    (intermediate message : AggregationMessage) : ProtocolState ι :=
  { s with
    aggregationPhaseState := some { aggregation with
      aggregationIntermediate := some intermediate
      childrenReceivedFrom := aggregation.childrenReceivedFrom + 1 }
    trace := s.trace ++ [.addMessage aggregation.currentQuery.queryNumber message] }

def started (s : ProtocolState ι) (aggregation : TreeAggregationState) (dataArrayLength : ℕ) :
    ProtocolState ι :=
  { s.cancelTimer with
    aggregationPhaseState := some (aggregation.initializeState dataArrayLength s.failedMeterIds)
    trace := s.trace ++ [.startAggregate aggregation.currentQuery.queryNumber s.failedMeterIds
      s.futureAggregationMessages] }

variable {Q A B : ProtocolState ι → Prop} {K : List Action → Prop}

theorem sendAggregateIfDone_ends (hK : K s.trace)
    (hwait : ∀ aggregation, s.aggregationPhaseState = some aggregation →
      aggregation.doneReceivingFromChildren = false → Q s)
    (hcompute : ∀ aggregation, s.aggregationPhaseState = some aggregation →
      aggregation.doneReceivingFromChildren = true → K (s.computing ph aggregation).trace)
    (hsent : ∀ aggregation aggregate, s.aggregationPhaseState = some aggregation →
      aggregation.doneReceivingFromChildren = true → Q (s.sent ph aggregation aggregate)) :
    (sendAggregateIfDone env ph s).Ends Q fun t => K t.trace := by
  unfold sendAggregateIfDone
  cases hagg : s.aggregationPhaseState with
  | none => exact hK
  | some aggregation =>
    dsimp only
    split_ifs with hdone
    · have hcomputing := hcompute aggregation hagg hdone
      have hadd := TreeAggregationState.addProxyValues_ends
        (env.π.order (ph.values s.proxyValues s.impl)) aggregation
      unfold computeAndSendAggregate
      simp only [hagg]
      cases hvalues : TreeAggregationState.addProxyValues
          (env.π.order (ph.values s.proxyValues s.impl)) aggregation with
      | halted e t => exact hcomputing
      | done t =>
        rw [hvalues] at hadd
        change t = _ at hadd
        dsimp only
        cases hi : t.aggregationIntermediate with
        | none => exact hcomputing
        | some aggregate =>
          have hQ := hsent aggregation aggregate hagg hdone
          rw [hi] at hadd
          subst hadd
          exact hQ
    · exact hwait aggregation hagg (by simpa using hdone)

theorem handleAggregationMessage_ends {message : AggregationMessage} (hK : K s.trace)
    (hadd : ∀ aggregation intermediate, s.aggregationPhaseState = some aggregation →
      (sendAggregateIfDone env ph (s.added aggregation intermediate message)).Ends Q
        fun t => K t.trace) :
    (handleAggregationMessage env ph message s).Ends Q fun t => K t.trace := by
  unfold handleAggregationMessage
  cases hagg : s.aggregationPhaseState with
  | none => exact hK
  | some aggregation =>
    dsimp only
    cases hm : aggregation.handleMessage message with
    | error e => exact hK
    | ok aggregation' =>
      obtain ⟨intermediate, rfl⟩ := TreeAggregationState.handleMessage_eq hm
      exact hadd aggregation intermediate hagg

theorem startAggregatePhase_eq (env : ProtocolEnv) (ph : AggregatePhase ι)
    {aggregation : TreeAggregationState} {contribution : ValueTuple}
    (hagg : s.aggregationPhaseState = some aggregation)
    (hcontribution : s.myContribution = some contribution) :
    startAggregatePhase env ph s =
      ((sendAggregateIfDone env ph (s.started aggregation contribution.value.length)).andThen
        fun t => if t.isInAggregatePhase ph then
          Outcome.forEach t.futureAggregationMessages (replay env ph) t
        else .done t).andThen fun t => .done { t with isLastRound := true } := by
  unfold startAggregatePhase
  dsimp only
  split
  · rename_i aggregation' contribution' hagg' hcontribution'
    obtain rfl := Option.some.inj (hagg'.symm.trans hagg)
    obtain rfl := Option.some.inj (hcontribution'.symm.trans hcontribution)
    rfl
  · rename_i hnone
    exact absurd hcontribution (hnone _ _ hagg)

/-- The phase starts, sends at once where no child is awaited, and otherwise replays
what was buffered. -/
theorem startAggregatePhase_ends (hK : K s.trace)
    (hstart : ∀ aggregation contribution, s.aggregationPhaseState = some aggregation →
      s.myContribution = some contribution →
      (sendAggregateIfDone env ph (s.started aggregation contribution.value.length)).Ends A
        fun t => K t.trace)
    (hreplay : ∀ t, A t → ph.isInAggregatePhase t.impl = true →
      (Outcome.forEach t.futureAggregationMessages (replay env ph) t).Ends B fun t => K t.trace)
    (hskip : ∀ t, A t → ph.isInAggregatePhase t.impl = false → B t)
    (hlast : ∀ t, B t → Q { t with isLastRound := true }) :
    (startAggregatePhase env ph s).Ends Q fun t => K t.trace := by
  cases hagg : s.aggregationPhaseState with
  | none => simpa [startAggregatePhase, cancelTimer, hagg] using hK
  | some aggregation =>
    cases hcontribution : s.myContribution with
    | none => simpa [startAggregatePhase, cancelTimer, hagg, hcontribution] using hK
    | some contribution =>
      rw [startAggregatePhase_eq env ph hagg hcontribution]
      refine Outcome.Ends.andThen (P := B) (Outcome.Ends.andThen (P := A) ?_ ?_) hlast
      · exact hstart aggregation contribution hagg hcontribution
      · intro t ht
        split_ifs with hactive
        · exact hreplay t ht hactive
        · exact hskip t ht (by simpa [isInAggregatePhase] using hactive)

end ProtocolState
end Pddm
