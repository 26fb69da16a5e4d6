import Pddm.AggregateRules

/-!
# The query numbers of what is added

The number of a message is looked at before it is buffered, not when it is added into
the aggregate.
-/
namespace Pddm

/-- Each message is added into the aggregate of its own query. -/
def AddsOwnQuery (trace : List Action) : Prop :=
  ∀ queryNum message, .addMessage queryNum message ∈ trace → message.queryNum = queryNum

/-- A message that arrives during the Aggregate phase is of the current query. So are
those buffered where the phase starts and a child is awaited. -/
def Action.IsCurrent (env : ProtocolEnv) : Action → Prop
  | .receiveAggregate queryNum message => message.queryNum = queryNum
  | .startAggregate queryNum failed buffered =>
      TreeAggregationState.awaited env.meterId env.numAggregationGroups env.numMeters failed ≤ 0 ∨
        ∀ message ∈ buffered, message.queryNum = queryNum
  | _ => True

def AllCurrent (env : ProtocolEnv) (trace : List Action) : Prop := ∀ a ∈ trace, a.IsCurrent env

theorem AllCurrent.prefix {env : ProtocolEnv} {trace ext : List Action}
    (h : AllCurrent env (trace ++ ext)) : AllCurrent env trace :=
  fun a ha => h a (List.mem_append_left _ ha)

theorem AllCurrent.last {env : ProtocolEnv} {trace : List Action} {a : Action}
    (h : AllCurrent env (trace ++ [a])) : a.IsCurrent env :=
  h a (List.mem_append_right _ (List.mem_singleton_self a))

theorem AddsOwnQuery.append {trace ext : List Action} (h : AddsOwnQuery trace)
    (hext : ∀ queryNum message, .addMessage queryNum message ∉ ext) :
    AddsOwnQuery (trace ++ ext) := by
  intro queryNum message hmem
  rcases List.mem_append.mp hmem with hmem | hmem
  · exact h queryNum message hmem
  · exact absurd hmem (hext queryNum message)

theorem AddsOwnQuery.add {trace : List Action} (h : AddsOwnQuery trace) {queryNum : ℤ}
    {message : AggregationMessage} (hm : message.queryNum = queryNum) :
    AddsOwnQuery (trace ++ [.addMessage queryNum message]) := by
  intro queryNum' message' hmem
  rcases List.mem_append.mp hmem with hmem | hmem
  · exact h queryNum' message' hmem
  · obtain ⟨rfl, rfl⟩ := Action.addMessage.inj (List.mem_singleton.mp hmem)
    exact hm

namespace ProtocolState
variable {ι : Type} {env : ProtocolEnv} {ph : AggregatePhase ι} {s t : ProtocolState ι}

def AddsOwn (env : ProtocolEnv) (s : ProtocolState ι) : Prop :=
  AllCurrent env s.trace → AddsOwnQuery s.trace

/-- The invariant: the meter aggregates for the query it has contributed to. -/
structure Numbered (env : ProtocolEnv) (s : ProtocolState ι) : Prop where
  rooted : s.Rooted env
  current : ∀ aggregation, s.aggregationPhaseState = some aggregation →
    s.getCurrentQueryNum = aggregation.currentQuery.queryNumber
  adds : s.AddsOwn env

theorem AddsOwn.append (hs : s.AddsOwn env) {ext : List Action} (htrace : t.trace = s.trace ++ ext)
    (hext : ∀ queryNum message, .addMessage queryNum message ∉ ext) : t.AddsOwn env := by
  intro hcurrent
  rw [htrace] at hcurrent ⊢
  exact (hs hcurrent.prefix).append hext

theorem Numbered.frame (hs : Numbered env s) (h : SameCore s t) : Numbered env t := by
  obtain ⟨ext, htrace, hext⟩ := h.trace
  refine ⟨?_, ?_, hs.adds.append htrace fun queryNum message hmem => ?_⟩
  · rw [Rooted, h.aggregationPhaseState]
    exact hs.rooted
  · rw [h.aggregationPhaseState, getCurrentQueryNum, h.myContribution]
    exact hs.current
  · have hquiet := hext _ hmem
    simp [Action.isQuiet] at hquiet

theorem Numbered.onImpl (hs : Numbered env s) (f : ι → ι) : Numbered env (s.onImpl f) :=
  ⟨hs.rooted, hs.current, hs.adds⟩

theorem numbered_sent (hs : Numbered env s) {aggregation : TreeAggregationState}
    (hagg : s.aggregationPhaseState = some aggregation) (aggregate : AggregationMessage) :
    Numbered env (s.sent ph aggregation aggregate) := by
  refine ⟨fun aggregation' hagg' => ?_, fun aggregation' hagg' => ?_, ?_⟩
  · obtain rfl := Option.some.inj hagg'
    exact hs.rooted aggregation hagg
  · obtain rfl := Option.some.inj hagg'
    exact hs.current aggregation hagg
  · exact hs.adds.append (List.append_assoc _ _ _) (by simp)

theorem numbered_handle (ph : AggregatePhase ι) (hs : Numbered env s) (message : AggregationMessage)
    (hm : AllCurrent env s.trace → message.queryNum = s.getCurrentQueryNum) :
    (handleAggregationMessage env ph message s).Ends
      (fun t => Numbered env t ∧ t.getCurrentQueryNum = s.getCurrentQueryNum ∧
        (AllCurrent env t.trace → AllCurrent env s.trace)) (AddsOwn env) := by
  refine handleAggregationMessage_ends (K := fun trace => AllCurrent env trace → AddsOwnQuery trace)
    hs.adds fun aggregation intermediate hagg => ?_
  have hadded : Numbered env (s.added aggregation intermediate message) := by
    refine ⟨fun aggregation' hagg' => ?_, fun aggregation' hagg' => ?_, fun hcurrent => ?_⟩
    · obtain rfl := Option.some.inj hagg'
      exact hs.rooted aggregation hagg
    · obtain rfl := Option.some.inj hagg'
      exact hs.current aggregation hagg
    · have hown := hs.adds hcurrent.prefix
      exact hown.add ((hm hcurrent.prefix).trans (hs.current aggregation hagg))
  refine sendAggregateIfDone_ends (K := fun trace => AllCurrent env trace → AddsOwnQuery trace)
    hadded.adds ?_ ?_ ?_
  · exact fun _ _ _ => ⟨hadded, rfl, AllCurrent.prefix⟩
  · intro aggregation' _ _
    exact hadded.adds.append (t := computing ph _ aggregation') rfl (by simp)
  · intro aggregation' aggregate hagg' _
    exact ⟨numbered_sent hadded hagg' aggregate, rfl, fun h => h.prefix.prefix.prefix⟩

theorem numbered_forEach (hs : Numbered env s) (messages : List AggregationMessage)
    (hm : AllCurrent env s.trace → ∀ message ∈ messages,
      message.queryNum = s.getCurrentQueryNum) :
    (Outcome.forEach messages (replay env ph) s).Ends (Numbered env) (AddsOwn env) := by
  induction messages generalizing s with
  | nil => exact hs
  | cons message messages ih =>
    have hhead := numbered_handle ph hs message fun hcurrent =>
      hm hcurrent message List.mem_cons_self
    refine Outcome.Ends.andThen (P := fun t => Numbered env t ∧
      t.getCurrentQueryNum = s.getCurrentQueryNum ∧
      (AllCurrent env t.trace → AllCurrent env s.trace)) ?_ ?_
    · exact hhead.andThen fun t ht => ⟨⟨ht.1.rooted, ht.1.current, ht.1.adds⟩, ht.2⟩
    · rintro t ⟨ht, hnum, hback⟩
      refine ih ht fun hcurrent m hmem => ?_
      exact (hm (hback hcurrent) m (List.mem_cons_of_mem _ hmem)).trans hnum.symm

/-- Of the buffered messages, those of another query are added as well. -/
theorem numbered_startAggregatePhase (hs : Numbered env s) :
    (startAggregatePhase env ph s).Ends (Numbered env) (AddsOwn env) := by
  refine startAggregatePhase_ends (A := fun t => Numbered env t ∧
      (ph.isInAggregatePhase t.impl = true → AllCurrent env t.trace →
        ∀ message ∈ t.futureAggregationMessages, message.queryNum = t.getCurrentQueryNum))
    (B := Numbered env) (K := fun trace => AllCurrent env trace → AddsOwnQuery trace)
    hs.adds ?_ ?_ ?_ ?_
  · intro aggregation contribution hagg _
    have hstarted : Numbered env (s.started aggregation contribution.value.length) := by
      refine ⟨fun aggregation' hagg' => ?_, fun aggregation' hagg' => ?_, ?_⟩
      · obtain rfl := Option.some.inj hagg'
        exact hs.rooted aggregation hagg
      · obtain rfl := Option.some.inj hagg'
        exact hs.current aggregation hagg
      · exact hs.adds.append rfl (by simp)
    refine sendAggregateIfDone_ends (K := fun trace => AllCurrent env trace → AddsOwnQuery trace)
      hstarted.adds ?_ ?_ ?_
    · intro aggregation' hagg' hdone
      obtain rfl := Option.some.inj hagg'
      refine ⟨hstarted, fun _ hcurrent message hmem => ?_⟩
      have hpos := TreeAggregationState.initializeState_waits hdone
      rw [hs.rooted.childrenNeeded hagg] at hpos
      have hbuffered := hcurrent.last.resolve_left (not_le.mpr hpos)
      exact (hbuffered message hmem).trans (hs.current aggregation hagg).symm
    · intro aggregation' _ _
      exact hstarted.adds.append (t := computing ph _ aggregation') rfl (by simp)
    · intro aggregation' aggregate hagg' _
      refine ⟨numbered_sent hstarted hagg' aggregate, fun hactive => ?_⟩
      exact absurd hactive (by simp [sent, ph.finish_inactive])
  · exact fun t ht hactive => numbered_forEach ht.1 _ (ht.2 hactive)
  · exact fun t ht _ => ht.1
  · exact fun t ht => ⟨ht.rooted, ht.current, ht.adds⟩

theorem numbered_receiveAggregation (hs : Numbered env s) (message : AggregationMessage) :
    (receiveAggregation env ph message s).Ends (Numbered env) (AddsOwn env) := by
  unfold receiveAggregation
  split_ifs
  · have hreceived : Numbered env (s.act (.receiveAggregate s.getCurrentQueryNum message)) :=
      ⟨hs.rooted, hs.current, hs.adds.append rfl (by simp)⟩
    have hadd := numbered_handle ph hreceived message fun hcurrent => hcurrent.last
    exact hadd.mono (fun _ ht => ht.1) fun _ ht => ht
  · exact hs.frame (SameCore.bufferAggregation s message)
  · exact hs

theorem numbered_startQuery {P : Protocol ι} {fuel : ℕ} {request : QueryRequest}
    (hs : Numbered env s) (contributedData : List FixedPoint)
    (himpl : ∀ t, Numbered env t →
      (P.startQueryImpl env (endOverlayRound env P fuel) request t).Ends (Numbered env)
        (AddsOwn env)) :
    (startQuery env P fuel request contributedData s).Ends (Numbered env) (AddsOwn env) := by
  have hadds : AddsOwn env (s.cancelTimer.act (.startQuery request.queryNumber)) :=
    hs.adds.append rfl (by simp)
  unfold startQuery
  dsimp only
  split
  · exact hadds
  · refine himpl _ ⟨fun aggregation hagg => ?_, fun aggregation hagg => ?_, hadds⟩
    · obtain rfl := Option.some.inj hagg
      exact ⟨rfl, rfl, rfl⟩
    · obtain rfl := Option.some.inj hagg
      rfl

theorem numbered_init (i : ι) : Numbered env (.init i) where
  rooted _ hagg := by simp [init] at hagg
  current _ hagg := by simp [init] at hagg
  adds _ _ _ hmem := by simp [init] at hmem

end ProtocolState

namespace CtProtocolState
variable {env : ProtocolEnv}

theorem numbered_keeps : ProtocolState.Keeps env protocol (ProtocolState.Numbered env)
    (ProtocolState.AddsOwn env) where
  weaken _ hs := hs.adds
  frame _ _ hs h := hs.frame h
  nextRound _ hs _ := ⟨hs.rooted, hs.current, hs.adds⟩
  ends s hs := by
    change (endOverlayRoundImpl env s).Ends _ _
    unfold endOverlayRoundImpl
    split_ifs
    · refine Outcome.Ends.andThen (P := ProtocolState.Numbered env)
        (Outcome.forEach_ends hs fun value _ t ht => ?_) fun t ht => ht.onImpl fun _ => ⟨t.overlayRound, .echo⟩
      exact (echoValue_ends value t).mono (fun _ h => ht.frame h) fun _ h => (ht.frame h).adds
    · exact ProtocolState.numbered_startAggregatePhase (hs.onImpl _)
    · exact hs
  handles endRound message s hrec hs := by
    refine ((handleBody_ends message.body s).mono (fun _ h => hs.frame h)
      fun _ h => (hs.frame h).adds).andThen fun t ht => ?_
    split_ifs
    · exact hrec _ (ht.frame (.leaving t _))
    · exact ht

theorem numbered_keepsAll : ProtocolState.KeepsAll env protocol (ProtocolState.Numbered env)
    (ProtocolState.AddsOwn env) where
  toKeeps := numbered_keeps
  init := ProtocolState.numbered_init _
  start fuel request data s hs := by
    refine ProtocolState.numbered_startQuery hs data fun t ht => ?_
    have hshuffle : ProtocolState.Numbered env (t.onImpl fun _ => ⟨0, .shuffle⟩) := ht.onImpl _
    change (startQueryImpl env _ request t).Ends _ _
    unfold startQueryImpl
    dsimp only
    split
    · exact hshuffle.adds
    · exact numbered_keeps.encryptedMulticastToProxies (fun _ => numbered_keeps.endOverlayRound fuel)
        _ hshuffle
  signature _ _ _ _ hs := hs
  aggregation message _ hs := ProtocolState.numbered_receiveAggregation hs message

end CtProtocolState

namespace HftProtocolState
variable {env : ProtocolEnv}

theorem numbered_flood {s : State} (hs : ProtocolState.Numbered env s) :
    ProtocolState.Numbered env (flood env s) := by
  unfold flood
  split_ifs
  · exact ⟨hs.rooted, hs.current, hs.adds⟩
  · exact hs

theorem numbered_keeps : ProtocolState.Keeps env protocol (ProtocolState.Numbered env)
    (ProtocolState.AddsOwn env) where
  weaken _ hs := hs.adds
  frame _ _ hs h := hs.frame h
  nextRound _ hs _ := ⟨hs.rooted, hs.current, hs.adds⟩
  ends s hs := by
    change (endOverlayRoundImpl env s).Ends _ _
    unfold endOverlayRoundImpl
    refine Outcome.Ends.andThen (P := ProtocolState.Numbered env) ?_ fun t ht => numbered_flood ht
    unfold endPhase
    split_ifs
    · exact hs.onImpl fun _ => ⟨.gather, s.overlayRound, s.impl.relayMessages, []⟩
    · exact ProtocolState.numbered_startAggregatePhase ((hs.onImpl _).onImpl _)
    · exact hs
  handles endRound message s hrec hs := by
    refine ((handleBody_ends message.body s).mono (fun _ ⟨_, _, h⟩ => (hs.onImpl _).frame h)
      fun _ ⟨_, _, h⟩ => ((hs.onImpl _).frame h).adds).andThen fun t ht => ?_
    split_ifs
    · exact hrec _ (ht.frame (.leaving t _))
    · exact ht

theorem numbered_keepsAll : ProtocolState.KeepsAll env protocol (ProtocolState.Numbered env)
    (ProtocolState.AddsOwn env) where
  toKeeps := numbered_keeps
  init := ProtocolState.numbered_init _
  start fuel request data s hs := by
    refine ProtocolState.numbered_startQuery hs data fun t ht => ?_
    change (startQueryImpl env _ request t).Ends _ _
    unfold startQueryImpl
    split
    · exact ht.adds
    · next contribution hcontribution =>
      refine numbered_keeps.endOverlayRound fuel (ProtocolState.Numbered.frame (s := { t with
        myContribution := some { contribution with
          proxies := contribution.proxies.insertionSort (· ≤ ·) }
        impl := ⟨.scatter, 0, _, []⟩ }) ⟨ht.rooted, fun aggregation hagg => ?_, ht.adds⟩
          (.leaving _ _))
      have hcurrent := ht.current aggregation hagg
      rw [ProtocolState.getCurrentQueryNum, hcontribution] at hcurrent
      exact hcurrent
  signature _ _ _ _ hs := hs
  aggregation message _ hs := ProtocolState.numbered_receiveAggregation hs message

end HftProtocolState

namespace MeterClient

/-- A client of the crash-tolerant protocol adds each message into the aggregate of its
query, as long as those it handles in the Aggregate phase are of the current query. -/
theorem adds_own_query_of_all_current (env : ClientEnv) (fuel : ℕ) (es : List Event) :
    Throughout (step env CtProtocolState.protocol fuel)
      (fun o => Both env (fun env s => AllCurrent env s.trace → AddsOwnQuery s.trace) o.state)
      (.done (init CtProtocolState.protocol)) es :=
  throughout_state (fun _ => CtProtocolState.numbered_keepsAll) fuel es

/-- Meter 8 no longer waits for one of its children, whose message for query 0 comes
after the aggregate has been sent and stays in the buffer until query 1. -/
def lateChildEnv : ClientEnv := sampleEnv 8 11 eleven_meters 4 5 fun n => n ≠ 103

def lateChild : List Event :=
  [sampleQuery 0] ++ timeouts 0 27 ++
    [.aggregation (.make 10 0 [4]), .aggregation (.make 9 0 [3]), sampleQuery 1] ++ timeouts 27 27

theorem late_child_added_to_next_query :
    ¬ Both lateChildEnv (fun _ s => AddsOwnQuery s.trace)
      (run lateChildEnv CtProtocolState.protocol 100 lateChild).state := by
  intro h
  have hadded : .addMessage 1 (.make 9 0 [3]) ∈
      (run lateChildEnv CtProtocolState.protocol 100 lateChild).state.primary.trace := by
    decide +kernel
  have hnum := h.primary 1 _ hadded
  revert hnum
  decide

end MeterClient
end Pddm
