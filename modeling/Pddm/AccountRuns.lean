import Pddm.AggregateAccounts
import Pddm.WaitingMessages

/-!
# The books through a run

Every event leaves the books of a meter balanced, and what is noted down stays noted down.
-/
namespace Pddm

namespace ProtocolState
variable {ι : Type} {env : ProtocolEnv} {requests : ℤ → QueryRequest}
  {arrived : Multiset AggregationMessage} {s t : ProtocolState ι}

/-- A protocol that adds up only in its Aggregate phase. Whatever survives the operations outside
of sums, and the Aggregate phase, survives its handlers. -/
structure KeepsAccounts {P : Protocol ι} (L : Layered P) : Prop where
  waiting : KeepsWaiting L
  values : ∀ proxyValues i, proxyValues.Nodup → (P.values proxyValues i).Nodup
  body : ∀ env message s, (L.handleBody env message s).Holds (SameAccounts s)
  ends : ∀ env (I H : ProtocolState ι → Prop) s, (∀ t u, I t → SameAccounts t u → I u) →
    (∀ t, I t → H t) → (∀ t, I t → (enterAggregatePhase env P.toAggregatePhase t).Ends I H) →
    I s → (P.endOverlayRoundImpl env s).Ends I H
  start : ∀ env endRound request (I H : ProtocolState ι → Prop) s,
    (∀ t u, I t → SameAccounts t u → I u) → (∀ t, I t → H t) →
    (∀ t, I t → (endRound t).Ends I H) → I s → (P.startQueryImpl env endRound request s).Ends I H
  signature : ∀ env endRound message (I H : ProtocolState ι → Prop) s,
    (∀ t u, I t → SameAccounts t u → I u) → (∀ t, I t → H t) →
    (∀ t, I t → (endRound t).Ends I H) → I s →
    (P.handleSignatureResponse env endRound message s).Ends I H

/-- The invariant between two events: what is buffered is still to be added. -/
def InAccount (env : ProtocolEnv) (requests : ℤ → QueryRequest)
    (arrived : Multiset AggregationMessage) (s : ProtocolState ι) : Prop :=
  Accounted env requests arrived s.futureAggregationMessages s

theorem InAccount.same (hs : InAccount env requests arrived s) (h : SameAccounts s t) :
    InAccount env requests arrived t := by
  unfold InAccount
  rw [h.futureAggregationMessages]
  exact Accounted.same hs h

theorem inAccount_init (impl : ι) : InAccount env requests 0 (.init impl) where
  rooted _ hagg := by simp [init] at hagg
  aggregate _ hagg := by simp [init] at hagg
  nodup := List.nodup_nil
  added := le_rfl
  trace := everyEntry_nil

def Event.aggregates : Event → Multiset AggregationMessage
  | .aggregation message => {message}
  | _ => 0

def Event.starts : Event → List ℤ
  | .startQuery request _ => [request.queryNumber]
  | _ => []

namespace KeepsAccounts
variable {P : Protocol ι} {L : Layered P} (K : KeepsAccounts L)
include K

theorem maintains : Maintains L env (fun _ => True) (InAccount env requests arrived)
    (InAccount env requests arrived) (AccountedSoFar env requests arrived) where
  weaken _ hs := hs.soFar
  frame _ _ hs h := hs.same (.of_bookkeeping h)
  buffers _ _ hs _ := hs.same (.of_fields rfl rfl rfl rfl)
  buffered _ _ _ _ := trivial
  absorbs message s hs _ := by
    have hnoted : InAccount env requests arrived (noteOverlay env P message s) :=
      hs.same (.noteOverlay P message s)
    exact (K.body env _ _).mono (fun _ ht => hnoted.same ht) fun _ ht => (hnoted.same ht).soFar
  ends s hs := K.ends env _ _ s (fun _ _ ht h => ht.same h) (fun _ ht => ht.soFar)
    (fun _ ht => Accounted.enterAggregatePhase K.values ht) hs
  rests _ hs _ := hs.same (.of_bookkeeping (.cancelTimer _))
  sends s hs _ := hs.same (.sends env s)

theorem startQuery (fuel : ℕ) {request : QueryRequest} {data : List FixedPoint}
    (hrequest : request = requests request.queryNumber) (hs : InAccount env requests arrived s) :
    (startQuery env P fuel request data s).Ends (InAccount env requests arrived)
      (AccountedSoFar env requests arrived) := by
  have hkept : addedMessages (s.trace ++ [.startQuery request.queryNumber]) =
      addedMessages s.trace := by simp [addedMessages]
  have hopened : InBooks env requests arrived (s.trace ++ [.startQuery request.queryNumber]) := by
    refine ⟨?_, everyEntry_concat.mpr ⟨hs.trace, trivial⟩⟩
    rw [hkept]
    exact hs.soFar.added
  unfold ProtocolState.startQuery
  dsimp only
  split
  · exact hopened
  · refine K.start env _ request _ _ _ (fun _ _ ht h => ht.same h) (fun _ ht => ht.soFar)
      (fun _ ht => K.maintains.endOverlayRound fuel ht) ?_
    refine ⟨fun aggregation hagg => ?_, fun aggregation hagg => ?_, List.nodup_nil, ?_,
      hopened.entries⟩
    · obtain rfl := Option.some.inj hagg
      exact ⟨rfl, rfl, rfl⟩
    · obtain rfl := Option.some.inj hagg
      refine ⟨hrequest, lastStart_concat _ _, fun number message hmem => ?_, fun m hm => ?_⟩
      · change _ ∈ sinceStart (s.trace ++ [.startQuery request.queryNumber]) at hmem
        rw [sinceStart_concat] at hmem
        cases hmem
      · cases hm
    · change (addedMessages (s.trace ++ [.startQuery request.queryNumber]) : Multiset _) + _ ≤ arrived
      rw [hkept]
      exact hs.added

theorem handle (fuel : ℕ) {e : Event} (hs : InAccount env requests arrived s)
    (he : ∀ request data, e = .startQuery request data → request = requests request.queryNumber) :
    (s.handle env P fuel e).Ends (InAccount env requests (e.aggregates + arrived))
      (AccountedSoFar env requests (e.aggregates + arrived)) := by
  have hnone (e : Event) (h : e.aggregates = 0) : e.aggregates + arrived = arrived := by
    rw [h, zero_add]
  cases e with
  | startQuery request data =>
    rw [hnone _ rfl]
    exact K.startQuery fuel (he request data rfl) hs
  | overlay message =>
    rw [hnone _ rfl]
    exact K.maintains.receiveOverlay fuel trivial hs
  | aggregation message =>
    rw [show (Event.aggregation message).aggregates + arrived = message ::ₘ arrived from
      Multiset.singleton_add message arrived]
    exact Accounted.receiveAggregation K.values hs message
  | ping message =>
    rw [hnone _ rfl]
    exact hs.same (.of_bookkeeping (.handlePingMessage s env message))
  | signatureResponse message =>
    rw [hnone _ rfl]
    exact K.signature env _ message _ _ s (fun _ _ ht h => ht.same h) (fun _ ht => ht.soFar)
      (fun _ ht => K.maintains.endOverlayRound fuel ht) hs
  | timerExpires id =>
    rw [hnone _ rfl]
    exact K.maintains.timerExpires fuel id hs

end KeepsAccounts

section Starts
variable {P : Protocol ι} {L : Layered P}

theorem AddsWaiting.startedQueries (h : AddsWaiting s t) :
    startedQueries t.trace = startedQueries s.trace := by
  obtain ⟨ext, htrace, hext⟩ := h.trace
  have hnone : Pddm.startedQueries ext = [] := by
    refine List.filterMap_eq_nil_iff.mpr fun a ha => ?_
    have hstart := hext a ha
    cases a <;> simp_all [Action.isStart]
  rw [htrace, startedQueries_append, hnone, List.append_nil]

theorem startedQueries_maintains (K : KeepsWaiting L) (env : ProtocolEnv) (started : List ℤ) :
    Maintains L env (fun _ => True) (fun s => startedQueries s.trace = started)
      (fun s => startedQueries s.trace = started) fun s => startedQueries s.trace = started where
  weaken _ hs := hs
  frame _ _ hs h := (AddsWaiting.of_bookkeeping h).startedQueries.trans hs
  buffers _ _ hs _ := hs
  buffered _ _ _ _ := trivial
  absorbs message s hs _ := (absorb_addsWaiting K env message s).mono
    (fun _ ht => ht.startedQueries.trans hs) fun _ ht => ht.startedQueries.trans hs
  ends s hs := (K.ends env s).mono (fun _ ht => ht.startedQueries.trans hs)
    fun _ ht => ht.startedQueries.trans hs
  rests _ hs _ := hs
  sends s hs _ := by
    obtain ⟨failed, hbatch⟩ := sendOverlayMessageBatch_next env s
    rw [hbatch]
    change startedQueries (s.trace ++ [_]) = started
    rw [startedQueries_append, hs]
    exact List.append_nil _

theorem startedQueries_handle (K : KeepsWaiting L) (env : ProtocolEnv) (fuel : ℕ) (e : Event)
    (s : ProtocolState ι) : (s.handle env P fuel e).Holds fun t =>
      startedQueries t.trace = startedQueries s.trace ++ e.starts := by
  have hmaintains := startedQueries_maintains K env (startedQueries s.trace ++ e.starts)
  have hnone : startedQueries s.trace = startedQueries s.trace ++ [] := (List.append_nil _).symm
  cases e with
  | startQuery request data =>
    have hopened (u : ProtocolState ι) (hu : u.trace = s.trace ++ [.startQuery request.queryNumber]) :
        startedQueries u.trace = startedQueries s.trace ++ [request.queryNumber] := by
      rw [hu, startedQueries_append]
      rfl
    change (startQuery env P fuel request data s).Holds _
    unfold startQuery
    dsimp only
    split
    · exact hopened _ rfl
    · refine K.start env _ request _ _ (fun t ht => ht.startedQueries.trans ?_) fun t ht =>
        hmaintains.endOverlayRound fuel (ht.startedQueries.trans ?_)
      · exact hopened _ rfl
      · exact hopened _ rfl
  | overlay message => exact hmaintains.receiveOverlay fuel trivial hnone
  | aggregation message =>
    refine (SameOverlay.receiveAggregation message s).mono (fun t ht => ?_) fun t ht => ?_
    · exact (AddsWaiting.of_sameOverlay ht).startedQueries.trans hnone
    · exact (AddsWaiting.of_sameOverlay ht).startedQueries.trans hnone
  | ping message => exact hmaintains.frame s _ hnone (.handlePingMessage s env message)
  | signatureResponse message =>
    refine K.signature env _ message s _ (fun t ht => ?_) fun t ht => ?_
    · exact ht.startedQueries.trans hnone
    · exact hmaintains.endOverlayRound fuel (ht.startedQueries.trans hnone)
  | timerExpires id => exact hmaintains.timerExpires fuel id hnone

theorem trace_prefix_handle (K : KeepsWaiting L) (env : ProtocolEnv) (fuel : ℕ) (e : Event)
    (s : ProtocolState ι) : s.trace <+: (s.handle env P fuel e).state.trace := by
  have hconveys := Outcome.holds_iff.mp ((conveys_maintainsAll K env fuel s).handle
    (Conveys.refl env s) (e := e) trivial)
  obtain ⟨ext, htrace, -⟩ := hconveys
  exact ⟨ext, htrace.symm⟩

end Starts
end ProtocolState

namespace CtProtocolState
open ProtocolState (SameAccounts KeepsAccounts)

theorem keepsAccounts : KeepsAccounts layered where
  waiting := keepsWaiting
  values _ _ h := h
  body env message s := by
    have heffect (t : State) (ht : BodyEffect env message s t) : SameAccounts s t := by
      cases ht with
      | ignored => exact .refl s
      | forwarded enclosed => exact .of_fields rfl rfl rfl rfl
      | accepted contribution => exact .emplaceProxyValue s contribution
    exact (handleBody_effect message s).mono heffect heffect
  ends env I H s hframe hweaken henter hs := by
    change (endOverlayRoundImpl env s).Ends I H
    unfold endOverlayRoundImpl
    split_ifs
    · refine Outcome.Ends.andThen (P := I) (Outcome.forEach_ends hs fun value _ t ht => ?_)
        fun t ht => hframe t _ ht (.of_fields rfl rfl rfl rfl)
      unfold echoValue
      split
      · exact hweaken t ht
      · exact hframe t _ ht (.of_fields rfl rfl rfl rfl)
    · exact henter s hs
    · exact hs
  start env endRound request I H s hframe hweaken hend hs := by
    have hshuffle : I (s.onImpl fun _ => ⟨0, .shuffle⟩) := hframe s _ hs (.of_fields rfl rfl rfl rfl)
    change (startQueryImpl env endRound request s).Ends I H
    unfold startQueryImpl
    dsimp only
    split
    · exact hweaken _ hshuffle
    · refine ProtocolState.encryptedMulticastToProxies_ends (hweaken _ hshuffle) fun onions _ => ?_
      refine hend _ (hframe _ _ hshuffle (SameAccounts.trans ?_ (.act _ rfl)))
      exact .of_fields rfl rfl rfl rfl
  signature _ _ _ _ _ _ _ _ _ hs := hs

end CtProtocolState

namespace HftProtocolState
open ProtocolState (SameAccounts KeepsAccounts)

theorem keepsAccounts : KeepsAccounts layered where
  waiting := keepsWaiting
  values _ _ h := h
  body env message s := by
    have heffect (t : State) (ht : BodyEffect env message s t) : SameAccounts s t := by
      cases ht with
      | ignored => exact .refl s
      | relayed => exact .of_fields rfl rfl rfl rfl
      | accepted contribution => exact .emplaceProxyValue s contribution
      | flooded => exact .of_fields rfl rfl rfl rfl
    exact (handleBody_effect message s).mono heffect heffect
  ends env I H s hframe hweaken henter hs := by
    change (endOverlayRoundImpl env s).Ends I H
    unfold endOverlayRoundImpl
    refine Outcome.Ends.andThen (P := I) ?_ fun t ht => ?_
    · unfold endPhase
      split_ifs
      · exact hframe s _ hs (.of_fields rfl rfl rfl rfl)
      · exact henter _ (hframe s _ hs (.of_fields rfl rfl rfl rfl))
      · exact hs
    · refine hframe t _ ht ?_
      unfold flood
      split_ifs
      · exact .of_fields rfl rfl rfl rfl
      · exact .refl t
  start env endRound request I H s hframe hweaken hend hs := by
    change (startQueryImpl env endRound request s).Ends I H
    unfold startQueryImpl
    split
    · exact hweaken s hs
    · refine hend _ (hframe s _ hs (SameAccounts.trans ?_ (.act _ rfl)))
      exact .of_fields rfl rfl rfl rfl
  signature _ _ _ _ _ _ _ _ _ hs := hs

end HftProtocolState
end Pddm
