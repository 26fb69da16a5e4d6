import Pddm.AggregateOnce
import Pddm.Groups

/-!
# Before the Aggregate phase

Every meter picks one proxy in each group. A proxy keeps the set of the contributions that
the messages of Shuffle and Echo bring to it.
-/
namespace Pddm

/-- Every proxy is drawn from the group it is the proxy in. -/
theorem pickProxy_mem {choice nodeId groupBegin groupEnd : ℤ} (hbegin : groupBegin ≤ choice)
    (hend : choice ≤ if groupBegin ≤ nodeId ∧ nodeId ≤ groupEnd then groupEnd - 1
      else groupEnd) :
    groupBegin ≤ pickProxy choice nodeId groupBegin groupEnd ∧
      pickProxy choice nodeId groupBegin groupEnd ≤ groupEnd := by
  unfold pickProxy randomIntExclude
  split_ifs at hend ⊢ <;> omega

section Proxies
variable {G N : ℤ}

theorem proxyRange_eq {group : ℤ} (hlt : group < G) :
    proxyRange G N group =
      (groupFirst group G N, groupFirst group G N + groupSize group G N - 1) := by
  unfold proxyRange groupSize groupFirst
  by_cases hlast : group = G - 1
  · subst hlast
    have hnot : ¬ G - 1 < G - 2 := by omega
    have hne : G - 1 ≠ G - 2 := by omega
    simp only [if_neg hnot, if_neg hne, if_true]
    ext <;> ring
  · by_cases hsecond : group = G - 2
    · subst hsecond
      have hne : G - 2 ≠ G - 1 := by omega
      simp only [lt_irrefl, if_false, if_true, if_neg hne]
      ext <;> ring
    · have hfirst : group < G - 2 := by omega
      simp only [if_pos hfirst, if_neg hlast, if_neg hsecond]
      ext <;> ring

variable (h : ValidSizes G N)
include h

theorem pickProxies_eq (draws : ℕ → ℤ) (nodeId : ℤ) :
    pickProxies draws nodeId G N = .ok ((List.range G.toNat).map fun g : ℕ =>
      pickProxy (draws g) nodeId (proxyRange G N g).1 (proxyRange G N g).2) := by
  have hsize := h.size
  have hgroups := h.groups
  rw [pickProxies, if_neg (by omega), if_neg (by omega)]

theorem pickProxy_mem_group {draws : ℕ → ℤ} {nodeId : ℤ} (hdraws : ValidDraws draws nodeId G N)
    {g : ℕ} (hg : (g : ℤ) < G) :
    pickProxy (draws g) nodeId (proxyRange G N g).1 (proxyRange G N g).2 ∈ groupMembers g G N := by
  obtain ⟨hbegin, hend⟩ := hdraws g hg
  have hpick := pickProxy_mem hbegin hend
  rw [proxyRange_eq hg] at hpick ⊢
  rw [mem_groupMembers_iff h.nonempty (by omega) hg]
  omega

theorem existsUnique_proxy {draws : ℕ → ℤ} {nodeId : ℤ} (hdraws : ValidDraws draws nodeId G N)
    {proxies : List ℤ} (hproxies : pickProxies draws nodeId G N = .ok proxies) {group : ℤ}
    (hnonneg : 0 ≤ group) (hlt : group < G) : ∃! p, p ∈ proxies ∧ p ∈ groupMembers group G N := by
  rw [pickProxies_eq h] at hproxies
  obtain rfl := Except.ok.inj hproxies
  obtain ⟨n, rfl⟩ := Int.eq_ofNat_of_zero_le hnonneg
  refine ⟨_, ⟨List.mem_map.mpr ⟨n, List.mem_range.mpr (by omega), rfl⟩,
    pickProxy_mem_group h hdraws hlt⟩, ?_⟩
  rintro p ⟨hp, hgroup⟩
  obtain ⟨g, hg, rfl⟩ := List.mem_map.mp hp
  have hrange := List.mem_range.mp hg
  have hother := pickProxy_mem_group h hdraws (g := g) (by omega)
  have hsame : (g : ℤ) = n :=
    (mem_groupMembers.mp hother).2.2.symm.trans (mem_groupMembers.mp hgroup).2.2
  rw [Nat.cast_inj.mp hsame]

omit h in
/-- Where proxies can be picked, there is one for each group, and they are meters. -/
theorem pickProxies_spec {draws : ℕ → ℤ} {nodeId : ℤ} (hdraws : ValidDraws draws nodeId G N)
    {proxies : List ℤ} (hproxies : pickProxies draws nodeId G N = .ok proxies) :
    (proxies.length : ℤ) = G ∧ ∀ p ∈ proxies, 0 ≤ p ∧ p < N := by
  have hsizes : ValidSizes G N := by
    unfold pickProxies at hproxies
    split_ifs at hproxies with hsize hgroups
    exact ⟨by omega, by omega⟩
  have hgroups := hsizes.groups
  rw [pickProxies_eq hsizes] at hproxies
  obtain rfl := Except.ok.inj hproxies
  constructor
  · simp only [List.length_map, List.length_range]
    omega
  · intro p hp
    obtain ⟨g, hg, rfl⟩ := List.mem_map.mp hp
    have hrange := List.mem_range.mp hg
    have hmem := mem_groupMembers.mp (pickProxy_mem_group hsizes hdraws (g := g) (by omega))
    exact ⟨hmem.1, hmem.2.1⟩

end Proxies

namespace ProtocolState
variable {ι : Type} {env : ProtocolEnv}

theorem sendTo_of_sendOk (hok : ∀ n, env.sendOk n = true) (s : ProtocolState ι) (a : Action)
    (recipientId : ℤ) : s.sendTo env a recipientId = s.act a := by
  rw [sendTo, if_pos (hok _)]

theorem beginRound_of_sendOk (hok : ∀ n, env.sendOk n = true) (s : ProtocolState ι) :
    (beginRound env s).proxyValues = s.proxyValues ∧
      (beginRound env s).failedMeterIds = s.failedMeterIds ∧
      (beginRound env s).futureAggregationMessages = s.futureAggregationMessages := by
  unfold beginRound sendOverlayMessageBatch
  simp only [sendTo_of_sendOk hok]
  split_ifs <;> exact ⟨rfl, rfl, rfl⟩

theorem beginRound_bufferAggregation (s : ProtocolState ι) (message : AggregationMessage) :
    beginRound env (s.bufferAggregation message) =
      (beginRound env s).bufferAggregation message := by
  unfold beginRound sendOverlayMessageBatch sendTo
  dsimp only [bufferAggregation, act, fail, setRoundTimeout, transports, getCurrentQueryNum]
  split_ifs <;> rfl

end ProtocolState

namespace CtProtocolState

/-- What a meter does before the Aggregate phase: it handles a message of the overlay, or
goes on to the next round. -/
inductive OverlayEvent
  | handle (message : OverlayMessage)
  | endRound
  deriving DecidableEq

def echoFinished (env : ProtocolEnv) (s : State) : Prop :=
  s.impl.protocolPhase = .echo ∧
    s.overlayRound ≥ s.impl.echoStartRound + env.failuresTolerated + 2 * env.log2n + 1

instance (env : ProtocolEnv) (s : State) : Decidable (echoFinished env s) :=
  inferInstanceAs (Decidable (_ ∧ _))

/-- The last round of Echo ends by entering the Aggregate phase, and not here. -/
def overlayStep (env : ProtocolEnv) (e : OverlayEvent) (s : State) : Outcome Fault State :=
  match e with
  | .handle message => handleBody env message s
  | .endRound =>
      if echoFinished env s then .done s
      else (endOverlayRoundImpl env s).andThen fun s => .done (ProtocolState.beginRound env s)

def overlayRun (env : ProtocolEnv) (es : List OverlayEvent) (s : State) : Outcome Fault State :=
  Outcome.forEach es (overlayStep env) s

def delivered (meterId : ℤ) (es : List OverlayEvent) : List ValueContribution :=
  es.filterMap fun
    | .handle message =>
        if message.destination = meterId then message.body.asValueContribution else none
    | .endRound => none

/-- The meter shuffles or echoes contributions, with these aggregates kept for later and
these proxy values so far. -/
structure Overlaying (mine : ValueTuple) (aggregation : TreeAggregationState)
    (buffered : List AggregationMessage) (values : List ValueContribution) (s : State) :
    Prop where
  overlay : isInOverlayPhase s.impl = true
  contribution : s.myContribution = some mine
  aggregation : s.aggregationPhaseState = some aggregation
  failed : s.failedMeterIds = []
  buffers : s.futureAggregationMessages = buffered
  unsent : Unsent s.trace
  nodup : s.proxyValues.Nodup
  mem : ∀ c, c ∈ s.proxyValues ↔ c ∈ values

section OverlaySteps
variable {env : ProtocolEnv} {mine : ValueTuple} {aggregation : TreeAggregationState}
  {buffered : List AggregationMessage} {values : List ValueContribution} {s t : State}

theorem Overlaying.frame (hs : Overlaying mine aggregation buffered values s)
    (h : ProtocolState.SameCore s t) (hvalues : t.proxyValues = s.proxyValues)
    (hfailed : t.failedMeterIds = s.failedMeterIds)
    (hbuffers : t.futureAggregationMessages = s.futureAggregationMessages) :
    Overlaying mine aggregation buffered values t := by
  obtain ⟨ext, htrace, hext⟩ := h.trace
  refine ⟨h.impl ▸ hs.overlay, h.myContribution.trans hs.contribution,
    h.aggregationPhaseState.trans hs.aggregation, hfailed.trans hs.failed,
    hbuffers.trans hs.buffers, ?_, hvalues ▸ hs.nodup, hvalues ▸ hs.mem⟩
  rw [htrace]
  exact hs.unsent.quiet hext

theorem Overlaying.emplace (hs : Overlaying mine aggregation buffered values s)
    (contribution : ValueContribution) :
    Overlaying mine aggregation buffered (values ++ [contribution]) (s.emplaceProxyValue contribution) := by
  unfold ProtocolState.emplaceProxyValue
  split_ifs with hmem
  · refine ⟨hs.overlay, hs.contribution, hs.aggregation, hs.failed, hs.buffers, hs.unsent, hs.nodup, ?_⟩
    intro c
    rw [List.mem_append, List.mem_singleton, ← hs.mem]
    constructor
    · exact Or.inl
    · rintro (hc | rfl)
      · exact hc
      · exact hmem
  · refine ⟨hs.overlay, hs.contribution, hs.aggregation, hs.failed, hs.buffers, hs.unsent, ?_, ?_⟩
    · exact List.nodup_append_comm.mp (List.nodup_cons.mpr ⟨hmem, hs.nodup⟩)
    · intro c
      simp only [List.mem_append, hs.mem]

theorem acceptContribution_overlaying (hs : Overlaying mine aggregation buffered values s)
    {message : OverlayMessage}
    (hnum : ∀ c, message.body.asValueContribution = some c → c.value.queryNum = mine.queryNum) :
    ∃ t, acceptContribution message s = .done t ∧ Overlaying mine aggregation
      buffered (values ++ message.body.asValueContribution.toList) t := by
  unfold acceptContribution
  cases hbody : message.body.asValueContribution with
  | none => exact ⟨s, rfl, by simpa using hs⟩
  | some c =>
    simp only [hs.contribution, if_pos (hnum c hbody)]
    exact ⟨_, rfl, hs.emplace c⟩

theorem handleBody_eq (message : OverlayMessage) (s : State) :
    handleBody env message s =
      match message.body.asOverlayMessage with
      | some enclosed => .done (s.wait enclosed)
      | none =>
          if message.destination = env.meterId ∧ isInOverlayPhase s.impl = true then
            acceptContribution message s
          else .done s := by
  have hnull : message.body = .null → acceptContribution message s = .done s := by
    intro hbody
    rw [acceptContribution, hbody]
    rfl
  unfold handleBody handleShufflePhaseMessage handleEchoPhaseMessage isInOverlayPhase
  cases hphase : s.impl.protocolPhase <;> cases hbody : message.body <;>
    simp [MessageBody.asOverlayMessage, hnull, hbody]

theorem delivered_cons (meterId : ℤ) (e : OverlayEvent) (es : List OverlayEvent) :
    delivered meterId (e :: es) = delivered meterId [e] ++ delivered meterId es := by
  rw [← List.singleton_append]
  exact List.filterMap_append

theorem handleBody_overlaying (hs : Overlaying mine aggregation buffered values s)
    {message : OverlayMessage}
    (hnum : ∀ c ∈ delivered env.meterId [.handle message], c.value.queryNum = mine.queryNum) :
    ∃ t, handleBody env message s = .done t ∧ Overlaying mine aggregation
      buffered (values ++ delivered env.meterId [.handle message]) t := by
  rw [handleBody_eq]
  cases henclosed : message.body.asOverlayMessage with
  | some enclosed =>
    have hnone : message.body.asValueContribution = none := by
      revert henclosed
      cases message.body <;> simp [MessageBody.asOverlayMessage, MessageBody.asValueContribution]
    refine ⟨_, rfl, ?_⟩
    have hdelivered : delivered env.meterId [.handle message] = [] := by
      simp [delivered, hnone]
    rw [hdelivered, List.append_nil]
    exact hs.frame (.wait s enclosed) rfl rfl rfl
  | none =>
    by_cases hdest : message.destination = env.meterId
    · have hdelivered : delivered env.meterId [.handle message] =
          message.body.asValueContribution.toList := by
        cases hbody : message.body.asValueContribution <;> simp [delivered, hdest, hbody]
      rw [hdelivered] at hnum ⊢
      simp only [if_pos (And.intro hdest hs.overlay)]
      exact acceptContribution_overlaying hs fun c hc => hnum c (by simp [hc])
    · have hdelivered : delivered env.meterId [.handle message] = [] := by
        simp [delivered, hdest]
      rw [hdelivered, List.append_nil]
      simp only [hdest, false_and, if_false]
      exact ⟨s, rfl, hs⟩

theorem echoValues_overlaying (hs : Overlaying mine aggregation buffered values s)
    (proxyValues : List ValueContribution) :
    (Outcome.forEach proxyValues (echoValue env) s).Ends
      (Overlaying mine aggregation buffered values) fun _ => True := by
  refine Outcome.forEach_ends hs fun proxyValue _ t ht => ?_
  unfold echoValue
  split
  · trivial
  · exact ht.frame (.of_fields rfl rfl rfl rfl rfl rfl) rfl rfl rfl

theorem overlayStep_overlaying (env : ProtocolEnv) (hok : ∀ n, env.sendOk n = true)
    (hs : Overlaying mine aggregation buffered values s) (e : OverlayEvent)
    (hnum : ∀ c ∈ delivered env.meterId [e], c.value.queryNum = mine.queryNum) :
    (overlayStep env e s).Ends
      (Overlaying mine aggregation buffered (values ++ delivered env.meterId [e])) fun _ => True := by
  cases e with
  | handle message =>
    obtain ⟨t, ht, hoverlaying⟩ := handleBody_overlaying hs hnum
    rw [overlayStep, ht]
    exact hoverlaying
  | endRound =>
    have hdelivered : delivered env.meterId [.endRound] = [] := rfl
    have hbegin : ∀ t, Overlaying mine aggregation buffered values t →
        Overlaying mine aggregation buffered values (ProtocolState.beginRound env t) := by
      intro t ht
      obtain ⟨hvalues, hfailed, hbuffers⟩ := ProtocolState.beginRound_of_sendOk hok t
      have hround : Overlaying mine aggregation buffered values
          { t with overlayRound := t.overlayRound + 1 } :=
        ⟨ht.overlay, ht.contribution, ht.aggregation, ht.failed, ht.buffers, ht.unsent, ht.nodup, ht.mem⟩
      exact hround.frame (.beginRound t env) hvalues hfailed hbuffers
    rw [hdelivered, List.append_nil, overlayStep]
    split_ifs with hfinished
    · exact hs
    · refine Outcome.Ends.andThen (P := Overlaying mine aggregation buffered values) ?_ fun t ht =>
        hbegin t ht
      unfold endOverlayRoundImpl
      split_ifs with hshuffle hecho
      · refine (echoValues_overlaying hs _).andThen fun t ht => ?_
        exact ⟨rfl, ht.contribution, ht.aggregation, ht.failed, ht.buffers, ht.unsent, ht.nodup, ht.mem⟩
      · exact absurd hecho hfinished
      · exact hs

theorem overlayRun_overlaying (env : ProtocolEnv) (hok : ∀ n, env.sendOk n = true)
    (hs : Overlaying mine aggregation buffered values s) (es : List OverlayEvent)
    (hnum : ∀ c ∈ delivered env.meterId es, c.value.queryNum = mine.queryNum) :
    (overlayRun env es s).Ends
      (Overlaying mine aggregation buffered (values ++ delivered env.meterId es)) fun _ => True := by
  induction es generalizing s values with
  | nil => simpa [overlayRun, delivered] using hs
  | cons e es ih =>
    rw [delivered_cons] at hnum ⊢
    rw [← List.append_assoc]
    refine (overlayStep_overlaying env hok hs e fun c hc => ?_).andThen fun t ht => ih ht fun c hc => ?_
    · exact hnum c (List.mem_append_left _ hc)
    · exact hnum c (List.mem_append_right _ hc)

theorem emplaceProxyValue_bufferAggregation (message : AggregationMessage)
    (c : ValueContribution) (s : State) : (s.bufferAggregation message).emplaceProxyValue c =
      (s.emplaceProxyValue c).bufferAggregation message := by
  unfold ProtocolState.emplaceProxyValue ProtocolState.bufferAggregation
  dsimp only
  split_ifs <;> rfl

theorem acceptContribution_bufferAggregation (message : AggregationMessage) (m : OverlayMessage)
    (s : State) : acceptContribution m (s.bufferAggregation message) =
      (acceptContribution m s).map fun t => t.bufferAggregation message := by
  have hmine : (s.bufferAggregation message).myContribution = s.myContribution := rfl
  unfold acceptContribution
  rw [hmine]
  cases m.body.asValueContribution with
  | none => rfl
  | some c =>
    cases s.myContribution with
    | none => rfl
    | some mine =>
      dsimp only
      rw [emplaceProxyValue_bufferAggregation]
      split_ifs <;> rfl

theorem handleBody_bufferAggregation (message : AggregationMessage) (m : OverlayMessage)
    (s : State) : handleBody env m (s.bufferAggregation message) =
      (handleBody env m s).map fun t => t.bufferAggregation message := by
  have himpl : (s.bufferAggregation message).impl = s.impl := rfl
  rw [handleBody_eq, handleBody_eq, acceptContribution_bufferAggregation, himpl]
  cases m.body.asOverlayMessage with
  | some enclosed => rfl
  | none =>
    dsimp only
    split_ifs <;> rfl

theorem echoValue_bufferAggregation (message : AggregationMessage) (c : ValueContribution)
    (s : State) : echoValue env c (s.bufferAggregation message) =
      (echoValue env c s).map fun t => t.bufferAggregation message := by
  have hround : (s.bufferAggregation message).overlayRound = s.overlayRound := rfl
  have hnum : (s.bufferAggregation message).getCurrentQueryNum = s.getCurrentQueryNum := rfl
  unfold echoValue
  rw [hround, hnum]
  split <;> rfl

theorem endOverlayRoundImpl_bufferAggregation (message : AggregationMessage)
    (hs : ¬ echoFinished env s) : endOverlayRoundImpl env (s.bufferAggregation message) =
      (endOverlayRoundImpl env s).map fun t => t.bufferAggregation message := by
  have himpl : (s.bufferAggregation message).impl = s.impl := rfl
  have hround : (s.bufferAggregation message).overlayRound = s.overlayRound := rfl
  have hvalues : (s.bufferAggregation message).proxyValues = s.proxyValues := rfl
  unfold endOverlayRoundImpl
  rw [himpl, hround, hvalues]
  split_ifs with hshuffle hlast
  · rw [Outcome.forEach_comm (echoValue_bufferAggregation message)]
    exact Outcome.andThen_comm fun t => rfl
  · exact absurd hlast hs
  · rfl

theorem overlayStep_bufferAggregation (e : OverlayEvent) (message : AggregationMessage)
    (s : State) :
    overlayStep env e (s.bufferAggregation message) =
      (overlayStep env e s).map fun t => t.bufferAggregation message := by
  cases e with
  | handle m => exact handleBody_bufferAggregation message m s
  | endRound =>
    have hfinished : echoFinished env (s.bufferAggregation message) = echoFinished env s := rfl
    simp only [overlayStep, hfinished]
    split_ifs with hdone
    · rfl
    · rw [endOverlayRoundImpl_bufferAggregation message hdone]
      refine Outcome.andThen_comm fun t => ?_
      rw [ProtocolState.beginRound_bufferAggregation]
      rfl

theorem overlayRun_bufferAggregation (es : List OverlayEvent) (message : AggregationMessage)
    (s : State) :
    overlayRun env es (s.bufferAggregation message) =
      (overlayRun env es s).map fun t => t.bufferAggregation message :=
  Outcome.forEach_comm fun e t => overlayStep_bufferAggregation e message t

theorem isInAggregatePhase_of_overlay {i : CtProtocolState} (hi : isInOverlayPhase i = true) :
    aggregatePhase.isInAggregatePhase i = false := by
  rw [isInOverlayPhase, Bool.or_eq_true, decide_eq_true_eq, decide_eq_true_eq] at hi
  rcases hi with hi | hi <;> simp [aggregatePhase, hi]

def keepAggregate (queryNum : ℤ) (message : AggregationMessage) (s : State) : State :=
  if message.queryNum = queryNum then s.bufferAggregation message else s

theorem receiveAggregation_overlaying (env : ProtocolEnv)
    (hs : Overlaying mine aggregation buffered values s)
    (message : AggregationMessage) :
    ProtocolState.receiveAggregation env aggregatePhase message s =
      .done (keepAggregate mine.queryNum message s) := by
  have hphase : s.isInAggregatePhase aggregatePhase = false :=
    isInAggregatePhase_of_overlay hs.overlay
  have hnum : s.getCurrentQueryNum = mine.queryNum := by
    rw [ProtocolState.getCurrentQueryNum, hs.contribution]
  rw [ProtocolState.receiveAggregation, hphase, hnum, keepAggregate]
  split_ifs <;> first | rfl | contradiction

theorem keepAggregate_trace (queryNum : ℤ) (message : AggregationMessage) (s : State) :
    (keepAggregate queryNum message s).trace = s.trace := by
  unfold keepAggregate
  split_ifs <;> rfl

theorem Overlaying.keepAggregate (hs : Overlaying mine aggregation buffered values s)
    (queryNum : ℤ) (message : AggregationMessage) :
    ∃ buffered', Overlaying mine aggregation buffered' values
      (keepAggregate queryNum message s) := by
  unfold CtProtocolState.keepAggregate
  split_ifs
  · exact ⟨buffered ++ [message], hs.overlay, hs.contribution, hs.aggregation, hs.failed,
      congrArg (· ++ [message]) hs.buffers, hs.unsent, hs.nodup, hs.mem⟩
  · exact ⟨buffered, hs⟩

theorem overlayRun_keepAggregate (es : List OverlayEvent) (queryNum : ℤ)
    (message : AggregationMessage) (s : State) :
    overlayRun env es (keepAggregate queryNum message s) =
      (overlayRun env es s).map (keepAggregate queryNum message) := by
  by_cases hnum : message.queryNum = queryNum
  · have hkeep : keepAggregate queryNum message = fun t => t.bufferAggregation message :=
      funext fun t => if_pos hnum
    rw [hkeep]
    exact overlayRun_bufferAggregation es message s
  · have hkeep : keepAggregate queryNum message = id := funext fun t => if_neg hnum
    rw [hkeep, id_eq]
    cases overlayRun env es s <;> rfl

end OverlaySteps
end CtProtocolState
end Pddm
