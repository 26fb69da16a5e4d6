import Pddm.AggregateRules

/-!
# One aggregate for each query

A meter sends one aggregate at most between two starts of a query, unless more
messages were buffered when its Aggregate phase started than it waits for.
-/
namespace Pddm

def Action.isCompute : Action → Bool
  | .computeAggregate .. => true
  | _ => false

def Action.isSend : Action → Bool
  | .sendAggregate .. => true
  | _ => false

def countSince (kind : Action → Bool) (trace : List Action) : ℕ :=
  trace.foldl (fun n a =>
    match a with
    | .startQuery _ => 0
    | a => if kind a then n + 1 else n) 0

/-- Between two starts of a query the meter adds its own values at most once, and sends
one aggregate at most. -/
def SendsOnce (trace : List Action) : Prop :=
  EveryEntry (fun pre a => (a.isCompute = true → countSince Action.isCompute pre = 0) ∧
    (a.isSend = true → countSince Action.isSend pre = 0)) trace

/-- Where the Aggregate phase starts and a child is awaited, no more messages are
buffered than children are awaited. -/
def Action.BufferFits (env : ProtocolEnv) : Action → Prop
  | .startAggregate _ failed buffered =>
      let awaited := TreeAggregationState.awaited env.meterId env.numAggregationGroups
        env.numMeters failed
      awaited ≤ 0 ∨ (buffered.length : ℤ) ≤ awaited
  | _ => True

def BuffersFit (env : ProtocolEnv) (trace : List Action) : Prop := ∀ a ∈ trace, a.BufferFits env

def Unsent (trace : List Action) : Prop :=
  countSince Action.isCompute trace = 0 ∧ countSince Action.isSend trace = 0

theorem countSince_concat (kind : Action → Bool) (trace : List Action) (a : Action) :
    countSince kind (trace ++ [a]) =
      match a with
      | .startQuery _ => 0
      | a => if kind a then countSince kind trace + 1 else countSince kind trace := by
  simp only [countSince, List.foldl_append, List.foldl_cons, List.foldl_nil]

theorem countSince_concat_eq_zero {kind : Action → Bool} {trace : List Action} {a : Action}
    (h : countSince kind trace = 0) (ha : kind a = false) : countSince kind (trace ++ [a]) = 0 := by
  rw [countSince_concat]
  cases a <;> simp [h, ha]

theorem Unsent.concat {trace : List Action} (h : Unsent trace) {a : Action}
    (hcompute : a.isCompute = false) (hsend : a.isSend = false) : Unsent (trace ++ [a]) :=
  ⟨countSince_concat_eq_zero h.1 hcompute, countSince_concat_eq_zero h.2 hsend⟩

theorem Unsent.quiet {trace ext : List Action} (h : Unsent trace)
    (hext : ∀ a ∈ ext, a.isQuiet = true) : Unsent (trace ++ ext) := by
  induction ext using List.reverseRecOn with
  | nil => simpa using h
  | append_singleton ext a ih =>
    have ha : a.isQuiet = true := hext a (by simp)
    have hpre := ih fun b hb => hext b (by simp [hb])
    rw [← List.append_assoc]
    refine hpre.concat ?_ ?_
    · cases a <;> simp_all [Action.isQuiet, Action.isCompute]
    · cases a <;> simp_all [Action.isQuiet, Action.isSend]

theorem SendsOnce.quiet {trace ext : List Action} (h : SendsOnce trace)
    (hext : ∀ a ∈ ext, a.isQuiet = true) : SendsOnce (trace ++ ext) := by
  refine h.append_of_forall fun a ha pre => ?_
  have hquiet := hext a ha
  cases a <;> simp_all [Action.isQuiet, Action.isCompute, Action.isSend]

theorem SendsOnce.concat {trace : List Action} (h : SendsOnce trace) {a : Action}
    (hcompute : a.isCompute = false) (hsend : a.isSend = false) : SendsOnce (trace ++ [a]) :=
  everyEntry_concat.mpr ⟨h, by simp [hcompute], by simp [hsend]⟩

theorem SendsOnce.compute {trace : List Action} (h : SendsOnce trace) (hunsent : Unsent trace)
    (queryNum : ℤ) (values : List ValueContribution) :
    SendsOnce (trace ++ [.computeAggregate queryNum values]) :=
  everyEntry_concat.mpr ⟨h, fun _ => hunsent.1, by simp [Action.isSend]⟩

theorem SendsOnce.send {trace : List Action} (h : SendsOnce trace) (hunsent : Unsent trace)
    (queryNum : ℤ) (values : List ValueContribution) (aggregate : AggregationMessage)
    (parentId : ℤ) :
    SendsOnce (trace ++ [.computeAggregate queryNum values] ++
      [.sendAggregate queryNum aggregate parentId]) :=
  everyEntry_concat.mpr ⟨h.compute hunsent queryNum values, by simp [Action.isCompute],
    fun _ => countSince_concat_eq_zero hunsent.2 rfl⟩

theorem SendsOnce.countSince_le_one {trace : List Action} (h : SendsOnce trace) :
    countSince Action.isCompute trace ≤ 1 := by
  induction trace using List.reverseRecOn with
  | nil => exact Nat.zero_le 1
  | append_singleton trace a ih =>
    obtain ⟨htrace, ha, -⟩ := everyEntry_concat.mp h
    have hle := ih htrace
    cases a with
    | computeAggregate queryNum values => simp [countSince_concat, Action.isCompute, ha rfl]
    | startQuery queryNum => simp [countSince_concat]
    | _ => simpa [countSince_concat, Action.isCompute] using hle

theorem BuffersFit.prefix {env : ProtocolEnv} {trace ext : List Action}
    (h : BuffersFit env (trace ++ ext)) : BuffersFit env trace :=
  fun a ha => h a (List.mem_append_left _ ha)

namespace ProtocolState
variable {ι : Type} {env : ProtocolEnv} {ph : AggregatePhase ι} {s t : ProtocolState ι}

/-- The aggregate has not been sent, and children are still to be heard of. -/
def Waiting (s : ProtocolState ι) : Prop :=
  Unsent s.trace ∧ ∃ aggregation, s.aggregationPhaseState = some aggregation ∧
    aggregation.doneReceivingFromChildren = false

/-- Where all buffers fit, every aggregate of the meter is the first of its query. -/
def SentOnce (env : ProtocolEnv) (s : ProtocolState ι) : Prop :=
  BuffersFit env s.trace → SendsOnce s.trace

/-- A query has been started, and its Aggregate phase has not. -/
structure Prepared (env : ProtocolEnv) (s : ProtocolState ι) : Prop where
  rooted : s.Rooted env
  notLast : s.isLastRound = false
  unsent : BuffersFit env s.trace → SendsOnce s.trace ∧ Unsent s.trace

/-- The invariant. `closed` says of the data of a protocol that no further round end
can start the Aggregate phase in that round. -/
structure Once (env : ProtocolEnv) (ph : AggregatePhase ι) (closed : ι → ℤ → Prop)
    (s : ProtocolState ι) : Prop where
  rooted : s.Rooted env
  inactive : s.isLastRound = false → ph.isInAggregatePhase s.impl = false
  closes : s.isLastRound = true → closed s.impl s.overlayRound
  sends : BuffersFit env s.trace → SendsOnce s.trace ∧
    (s.isLastRound = false → Unsent s.trace) ∧
    (ph.isInAggregatePhase s.impl = true → s.Waiting)

variable {closed : ι → ℤ → Prop}

theorem Once.frame (hs : Once env ph closed s) (h : SameCore s t) : Once env ph closed t := by
  obtain ⟨ext, htrace, hext⟩ := h.trace
  refine ⟨?_, ?_, ?_, fun hfits => ?_⟩
  · rw [Rooted, h.aggregationPhaseState]
    exact hs.rooted
  · rw [h.isLastRound, h.impl]
    exact hs.inactive
  · rw [h.isLastRound, h.impl, h.overlayRound]
    exact hs.closes
  · rw [htrace] at hfits
    obtain ⟨hsends, hopen, hactive⟩ := hs.sends hfits.prefix
    rw [Waiting, h.isLastRound, h.impl, h.aggregationPhaseState, htrace]
    refine ⟨hsends.quiet hext, fun hlast => (hopen hlast).quiet hext, fun hphase => ?_⟩
    exact ⟨(hactive hphase).1.quiet hext, (hactive hphase).2⟩

theorem Once.notLast (hs : Once env ph closed s) (h : ¬ closed s.impl s.overlayRound) :
    s.isLastRound = false := by
  cases hlast : s.isLastRound with
  | false => rfl
  | true => exact absurd (hs.closes hlast) h

theorem Once.prepared (hs : Once env ph closed s) (h : s.isLastRound = false) : s.Prepared env :=
  ⟨hs.rooted, h, fun hfits => ⟨(hs.sends hfits).1, (hs.sends hfits).2.1 h⟩⟩

/-- Outside of the Aggregate phase the data of the protocol may change. -/
theorem Once.onImpl (hs : Once env ph closed s) {f : ι → ι}
    (hinactive : ph.isInAggregatePhase (f s.impl) = false)
    (hclosed : s.isLastRound = true → closed (f s.impl) s.overlayRound) :
    Once env ph closed (s.onImpl f) :=
  ⟨hs.rooted, fun _ => hinactive, hclosed, fun hfits => ⟨(hs.sends hfits).1, (hs.sends hfits).2.1,
    fun hactive => absurd hactive (by simp [ProtocolState.onImpl, hinactive])⟩⟩

theorem Prepared.once (hs : s.Prepared env) {f : ι → ι}
    (hinactive : ph.isInAggregatePhase (f s.impl) = false) :
    Once env ph closed (s.onImpl f) := by
  have hlast : (s.onImpl f).isLastRound = false := hs.notLast
  refine ⟨hs.rooted, fun _ => hinactive, by simp [hlast], fun hfits => ⟨(hs.unsent hfits).1,
    fun _ => (hs.unsent hfits).2, fun hactive => ?_⟩⟩
  exact absurd hactive (by simp [ProtocolState.onImpl, hinactive])

/-- What a data type of a protocol has to satisfy for the invariant. -/
structure Closes (ph : AggregatePhase ι) (closed : ι → ℤ → Prop) : Prop where
  begin : ∀ i round, closed (ph.begin i) round
  finish : ∀ i round, closed i round → closed (ph.finish i) round

/-- The phase goes on with `n` messages to be taken in, all of them awaited. -/
structure Replaying (env : ProtocolEnv) (ph : AggregatePhase ι) (closed : ι → ℤ → Prop) (n : ℕ)
    (s : ProtocolState ι) : Prop where
  rooted : s.Rooted env
  closes : closed s.impl s.overlayRound
  sends : BuffersFit env s.trace → SendsOnce s.trace ∧
    (n ≠ 0 → ph.isInAggregatePhase s.impl = true) ∧
    (ph.isInAggregatePhase s.impl = true → Unsent s.trace ∧
      ∃ aggregation, s.aggregationPhaseState = some aggregation ∧
        aggregation.doneReceivingFromChildren = false ∧
        aggregation.childrenReceivedFrom + n ≤ aggregation.childrenNeeded)

theorem Replaying.once {n : ℕ} (hs : Replaying env ph closed n s) (hlast : s.isLastRound = true) :
    Once env ph closed s := by
  refine ⟨hs.rooted, by simp [hlast], fun _ => hs.closes, fun hfits => ?_⟩
  obtain ⟨hsends, -, hactive⟩ := hs.sends hfits
  refine ⟨hsends, by simp [hlast], fun h => ?_⟩
  obtain ⟨hnone, aggregation, hagg, hdone, -⟩ := hactive h
  exact ⟨hnone, aggregation, hagg, hdone⟩

theorem Once.replaying (hs : Once env ph closed s) (hlast : s.isLastRound = true)
    (hactive : ph.isInAggregatePhase s.impl = true) : Replaying env ph closed 1 s := by
  refine ⟨hs.rooted, hs.closes hlast, fun hfits => ⟨(hs.sends hfits).1, fun _ => hactive,
    fun _ => ?_⟩⟩
  obtain ⟨hnone, aggregation, hagg, hdone⟩ := (hs.sends hfits).2.2 hactive
  refine ⟨hnone, aggregation, hagg, hdone, ?_⟩
  have hlt : aggregation.childrenReceivedFrom < aggregation.childrenNeeded := by
    simpa [TreeAggregationState.doneReceivingFromChildren] using hdone
  exact hlt

/-- Taking in the last awaited message sends the aggregate, and no earlier one does. -/
theorem replaying_handle (hclosed : Closes ph closed) {n : ℕ}
    (hs : Replaying env ph closed (n + 1) s) (message : AggregationMessage) :
    (handleAggregationMessage env ph message s).Ends
      (fun t => Replaying env ph closed n t ∧ t.isLastRound = s.isLastRound)
      (SentOnce env) := by
  have hstart : BuffersFit env s.trace → SendsOnce s.trace := fun hfits => (hs.sends hfits).1
  refine handleAggregationMessage_ends (K := fun trace => BuffersFit env trace → SendsOnce trace)
    hstart fun aggregation intermediate hagg => ?_
  have hadded : BuffersFit env (s.added aggregation intermediate message).trace →
      SendsOnce (s.added aggregation intermediate message).trace ∧
        Unsent (s.added aggregation intermediate message).trace ∧
        ph.isInAggregatePhase s.impl = true ∧
        aggregation.childrenReceivedFrom + 1 + n ≤ aggregation.childrenNeeded := by
    intro hfits
    obtain ⟨hsends, hactive, hawaits⟩ := hs.sends hfits.prefix
    have ha := hactive (Nat.succ_ne_zero n)
    obtain ⟨hnone, aggregation', hagg', -, hle⟩ := hawaits ha
    obtain rfl := Option.some.inj (hagg.symm.trans hagg')
    refine ⟨hsends.concat rfl rfl, hnone.concat rfl rfl, ha, ?_⟩
    push_cast at hle
    omega
  have hrooted : (s.added aggregation intermediate message).Rooted env := by
    intro aggregation' hagg'
    obtain rfl := Option.some.inj hagg'
    exact hs.rooted aggregation hagg
  refine sendAggregateIfDone_ends (K := fun trace => BuffersFit env trace → SendsOnce trace)
    (fun hfits => (hadded hfits).1) ?_ ?_ ?_
  · intro aggregation' hagg' hdone
    obtain rfl := Option.some.inj hagg'
    refine ⟨⟨hrooted, hs.closes, fun hfits => ?_⟩, rfl⟩
    obtain ⟨hsends, hnone, hactive, hle⟩ := hadded hfits
    exact ⟨hsends, fun _ => hactive, fun _ => ⟨hnone, _, rfl, hdone, hle⟩⟩
  · intro aggregation' hagg' hdone hfits
    obtain ⟨hsends, hnone, -⟩ := hadded hfits.prefix
    exact hsends.compute hnone _ _
  · intro aggregation' aggregate hagg' hdone
    obtain rfl := Option.some.inj hagg'
    have hinactive : ph.isInAggregatePhase (ph.finish s.impl) = false := ph.finish_inactive _
    refine ⟨⟨?_, hclosed.finish _ _ hs.closes, fun hfits => ?_⟩, rfl⟩
    · intro aggregation'' hagg''
      obtain rfl := Option.some.inj hagg''
      exact hs.rooted aggregation hagg
    · obtain ⟨hsends, hnone, -, hle⟩ := hadded hfits.prefix.prefix
      refine ⟨hsends.send hnone _ _ _ _, fun hn => ?_, fun hactive => ?_⟩
      · have hall : aggregation.childrenNeeded ≤ aggregation.childrenReceivedFrom + 1 := by
          simpa [TreeAggregationState.doneReceivingFromChildren] using hdone
        omega
      · exact absurd hactive (by simp [sent, added, hinactive])

theorem replaying_forEach (hclosed : Closes ph closed) (messages : List AggregationMessage)
    (hs : Replaying env ph closed messages.length s) :
    (Outcome.forEach messages (replay env ph) s).Ends (Replaying env ph closed 0)
      (SentOnce env) := by
  induction messages generalizing s with
  | nil => exact hs
  | cons message messages ih =>
    refine Outcome.Ends.andThen (P := Replaying env ph closed messages.length) ?_ fun t ht => ih ht
    refine (replaying_handle hclosed hs message).andThen fun t ht => ?_
    exact ⟨ht.1.rooted, ht.1.closes, ht.1.sends⟩

theorem Prepared.started (hs : s.Prepared env) {aggregation : TreeAggregationState}
    (hagg : s.aggregationPhaseState = some aggregation) (dataArrayLength : ℕ) :
    (s.started aggregation dataArrayLength).Prepared env := by
  refine ⟨fun aggregation' hagg' => ?_, hs.notLast, fun hfits => ?_⟩
  · obtain rfl := Option.some.inj hagg'
    exact hs.rooted aggregation hagg
  · obtain ⟨hsends, hnone⟩ := hs.unsent hfits.prefix
    exact ⟨hsends.concat rfl rfl, hnone.concat rfl rfl⟩

theorem buffered_le_needed (hs : s.Prepared env) {aggregation : TreeAggregationState}
    (hagg : s.aggregationPhaseState = some aggregation) {dataArrayLength : ℕ}
    (hfits : BuffersFit env (s.started aggregation dataArrayLength).trace)
    (hdone : (aggregation.initializeState dataArrayLength
      s.failedMeterIds).doneReceivingFromChildren = false) :
    (s.futureAggregationMessages.length : ℤ) ≤
      (aggregation.initializeState dataArrayLength s.failedMeterIds).childrenNeeded := by
  have hneeded := hs.rooted.childrenNeeded hagg dataArrayLength s.failedMeterIds
  have hfit := hfits (.startAggregate aggregation.currentQuery.queryNumber s.failedMeterIds
    s.futureAggregationMessages) (List.mem_append_right _ (List.mem_singleton_self _))
  have hpos := TreeAggregationState.initializeState_waits hdone
  rw [hneeded] at hpos ⊢
  exact hfit.resolve_left (not_le.mpr hpos)

theorem once_startAggregatePhase (hclosed : Closes ph closed) (hs : s.Prepared env)
    (hactive : ph.isInAggregatePhase s.impl = true) (hcloses : closed s.impl s.overlayRound) :
    (startAggregatePhase env ph s).Ends (Once env ph closed)
      (SentOnce env) := by
  refine startAggregatePhase_ends (A := fun t => Replaying env ph closed
      (if ph.isInAggregatePhase t.impl then t.futureAggregationMessages.length else 0) t)
    (B := Replaying env ph closed 0)
    (K := fun trace => BuffersFit env trace → SendsOnce trace)
    (fun hfits => (hs.unsent hfits).1) ?_ ?_ ?_ ?_
  · intro aggregation contribution hagg _
    have hstarted := hs.started hagg contribution.value.length
    refine sendAggregateIfDone_ends (K := fun trace => BuffersFit env trace → SendsOnce trace)
      (fun hfits => (hstarted.unsent hfits).1) ?_ ?_ ?_
    · intro aggregation' hagg' hdone
      obtain rfl := Option.some.inj hagg'
      refine ⟨hstarted.rooted, hcloses, fun hfits => ?_⟩
      obtain ⟨hsends, hnone⟩ := hstarted.unsent hfits
      have hle := buffered_le_needed hs hagg hfits hdone
      refine ⟨hsends, fun _ => hactive, fun _ => ⟨hnone, _, rfl, hdone, ?_⟩⟩
      have himpl : ph.isInAggregatePhase (s.started aggregation contribution.value.length).impl =
          true := hactive
      rw [if_pos himpl]
      exact (zero_add _).trans_le hle
    · intro aggregation' hagg' _ hfits
      obtain ⟨hsends, hnone⟩ := hstarted.unsent hfits.prefix
      exact hsends.compute hnone _ _
    · intro aggregation' aggregate hagg' _
      obtain rfl := Option.some.inj hagg'
      have hinactive : ph.isInAggregatePhase (sent ph (s.started aggregation
          contribution.value.length) (aggregation.initializeState contribution.value.length
            s.failedMeterIds) aggregate).impl = false := ph.finish_inactive _
      refine ⟨fun aggregation'' hagg'' => ?_, hclosed.finish _ _ hcloses, fun hfits => ?_⟩
      · obtain rfl := Option.some.inj hagg''
        exact hs.rooted aggregation hagg
      · obtain ⟨hsends, hnone⟩ := hstarted.unsent hfits.prefix.prefix
        refine ⟨hsends.send hnone _ _ _ _, fun hn => ?_, fun h => ?_⟩
        · simp [hinactive] at hn
        · simp [hinactive] at h
  · intro t ht hactive
    rw [if_pos hactive] at ht
    exact replaying_forEach hclosed _ ht
  · intro t ht hactive
    rwa [if_neg (by simp [hactive])] at ht
  · intro t ht
    exact Replaying.once (n := 0) ⟨ht.rooted, ht.closes, ht.sends⟩ rfl

theorem once_enterAggregatePhase (hclosed : Closes ph closed) (hs : s.Prepared env) :
    (enterAggregatePhase env ph s).Ends (Once env ph closed)
      (SentOnce env) :=
  once_startAggregatePhase (s := s.onImpl ph.begin) hclosed ⟨hs.rooted, hs.notLast, hs.unsent⟩
    (ph.begin_active _) (hclosed.begin _ _)

/-- A message that arrives is taken in or buffered. -/
theorem once_receiveAggregation (hclosed : Closes ph closed) (hs : Once env ph closed s)
    (message : AggregationMessage) :
    (receiveAggregation env ph message s).Ends (Once env ph closed)
      (SentOnce env) := by
  unfold receiveAggregation
  split_ifs with hactive
  · have hlast : s.isLastRound = true := by
      by_contra h
      have hinactive := hs.inactive (by simpa using h)
      simp [isInAggregatePhase, hinactive] at hactive
    have hreplaying := hs.replaying hlast hactive
    have hact : Replaying env ph closed 1
        (s.act (.receiveAggregate s.getCurrentQueryNum message)) := by
      refine ⟨hreplaying.rooted, hreplaying.closes, fun hfits => ?_⟩
      obtain ⟨hsends, hn, hawaits⟩ := hreplaying.sends hfits.prefix
      exact ⟨hsends.concat rfl rfl, hn, fun h => ⟨(hawaits h).1.concat rfl rfl, (hawaits h).2⟩⟩
    refine (replaying_handle hclosed hact message).mono ?_ fun t ht => ht
    rintro t ⟨ht, hlast'⟩
    exact ht.once (hlast'.trans hlast)
  · exact hs.frame (SameCore.bufferAggregation s message)
  · exact hs

theorem once_startQuery {P : Protocol ι} {fuel : ℕ} {request : QueryRequest}
    (hs : Once env P.toAggregatePhase closed s) (contributedData : List FixedPoint)
    (himpl : ∀ t, Prepared env t →
      (P.startQueryImpl env (endOverlayRound env P fuel) request t).Ends
        (Once env P.toAggregatePhase closed) (SentOnce env)) :
    (startQuery env P fuel request contributedData s).Ends
      (Once env P.toAggregatePhase closed) (SentOnce env) := by
  have hsends : BuffersFit env (s.trace ++ [.startQuery request.queryNumber]) →
      SendsOnce (s.trace ++ [.startQuery request.queryNumber]) :=
    fun hfits => (hs.sends hfits.prefix).1.concat rfl rfl
  unfold startQuery
  dsimp only
  split
  · exact hsends
  · refine himpl _ ⟨fun aggregation hagg => ?_, rfl, fun hfits => ⟨hsends hfits, ?_⟩⟩
    · obtain rfl := Option.some.inj hagg
      exact ⟨rfl, rfl, rfl⟩
    · exact ⟨countSince_concat _ _ _, countSince_concat _ _ _⟩

theorem once_init (i : ι) (h : ph.isInAggregatePhase i = false) :
    Once env ph closed (.init i) where
  rooted _ hagg := by simp [init] at hagg
  inactive _ := h
  closes hlast := by simp [init] at hlast
  sends _ := ⟨everyEntry_nil, fun _ => ⟨rfl, rfl⟩, fun hactive => absurd hactive (by simp [init, h])⟩

theorem Once.nextRound (hs : Once env ph closed s) (h : s.isLastRound = false) :
    Once env ph closed { s with overlayRound := s.overlayRound + 1 } :=
  ⟨hs.rooted, hs.inactive, fun hlast => absurd hlast (by simp [h]), hs.sends⟩

theorem Once.sentOnce (hs : Once env ph closed s) : s.SentOnce env :=
  fun hfits => (hs.sends hfits).1

end ProtocolState

namespace CtProtocolState
variable {env : ProtocolEnv}

/-- No round end starts the Aggregate phase outside of the overlay phases. -/
def Closed (i : CtProtocolState) (_ : ℤ) : Prop := isInOverlayPhase i = false

theorem closes : ProtocolState.Closes aggregatePhase Closed where
  begin _ _ := rfl
  finish _ _ _ := rfl

theorem once_keeps : ProtocolState.Keeps env protocol
    (ProtocolState.Once env aggregatePhase Closed) (ProtocolState.SentOnce env) where
  weaken _ hs := hs.sentOnce
  frame _ _ hs h := hs.frame h
  nextRound _ hs h := hs.nextRound h
  ends s hs := by
    change (endOverlayRoundImpl env s).Ends _ _
    unfold endOverlayRoundImpl
    split_ifs with hshuffle hecho
    · refine Outcome.Ends.andThen (P := fun t => ProtocolState.SameCore s t)
        (Outcome.forEach_ends (.refl s) fun value _ t ht => ?_) fun t ht => ?_
      · exact (echoValue_ends value t).mono (fun _ h => ht.trans h)
          fun _ h => (hs.frame (ht.trans h)).sentOnce
      · have hlast : t.isLastRound = false := by
          rw [ht.isLastRound]
          exact hs.notLast (by simp [Closed, isInOverlayPhase, hshuffle.1])
        have ht' := hs.frame ht
        exact ht'.onImpl (f := fun _ => ⟨t.overlayRound, .echo⟩) rfl (by simp [hlast])
    · refine ProtocolState.once_enterAggregatePhase closes (hs.prepared (hs.notLast ?_))
      simp [Closed, isInOverlayPhase, hecho.1]
    · exact hs
  handles endRound message s hrec hs := by
    refine ((handleBody_ends message.body s).mono (fun _ h => hs.frame h)
      fun _ h => (hs.frame h).sentOnce).andThen fun t ht => ?_
    split_ifs
    · exact hrec _ (ht.frame (.leaving t _))
    · exact ht

theorem once_keepsAll : ProtocolState.KeepsAll env protocol
    (ProtocolState.Once env aggregatePhase Closed) (ProtocolState.SentOnce env) where
  toKeeps := once_keeps
  init := ProtocolState.once_init _ rfl
  start fuel request data s hs := by
    refine ProtocolState.once_startQuery hs data fun t ht => ?_
    have hshuffle : ProtocolState.Once env aggregatePhase Closed
        (t.onImpl fun _ => ⟨0, .shuffle⟩) := ht.once rfl
    change (startQueryImpl env _ request t).Ends _ _
    unfold startQueryImpl
    dsimp only
    split
    · exact hshuffle.sentOnce
    · exact once_keeps.encryptedMulticastToProxies (fun _ => once_keeps.endOverlayRound fuel) _
        hshuffle
  signature _ _ _ _ hs := hs
  aggregation message _ hs := ProtocolState.once_receiveAggregation closes hs message

end CtProtocolState

namespace HftProtocolState
variable {env : ProtocolEnv}

def Closed (i : HftProtocolState) (_ : ℤ) : Prop := isInOverlayPhase i = false

theorem closes : ProtocolState.Closes aggregatePhase Closed where
  begin _ _ := rfl
  finish _ _ _ := rfl

theorem once_messages {s t : State} (hs : ProtocolState.Once env aggregatePhase Closed s)
    {relay flood : List OverlayMessage}
    (ht : ProtocolState.SameCore (s.onImpl fun i =>
      { i with relayMessages := relay, currentFloodMessages := flood }) t) :
    ProtocolState.Once env aggregatePhase Closed t := by
  have hmessages : ProtocolState.Once env aggregatePhase Closed (s.onImpl fun i =>
      { i with relayMessages := relay, currentFloodMessages := flood }) :=
    ⟨hs.rooted, hs.inactive, hs.closes, hs.sends⟩
  exact hmessages.frame ht

theorem once_flood {s : State} (hs : ProtocolState.Once env aggregatePhase Closed s) :
    ProtocolState.Once env aggregatePhase Closed (flood env s) := by
  unfold flood
  split_ifs
  · exact once_messages hs (.of_fields rfl rfl rfl rfl rfl rfl)
  · exact hs

theorem once_endPhase {s : State} (hs : ProtocolState.Once env aggregatePhase Closed s) :
    (endPhase env s).Ends (ProtocolState.Once env aggregatePhase Closed)
      (ProtocolState.SentOnce env) := by
  unfold endPhase
  split_ifs with hscatter hgather
  · have hlast : s.isLastRound = false :=
      hs.notLast (by simp [Closed, isInOverlayPhase, hscatter.1])
    exact hs.onImpl (f := fun _ => ⟨.gather, s.overlayRound, s.impl.relayMessages, []⟩) rfl
      (by simp [hlast])
  · have hlast : s.isLastRound = false :=
      hs.notLast (by simp [Closed, isInOverlayPhase, hgather.1])
    have hprepared := hs.prepared hlast
    exact ProtocolState.once_enterAggregatePhase closes
      ⟨hprepared.rooted, hprepared.notLast, hprepared.unsent⟩
  · exact hs

theorem once_keeps : ProtocolState.Keeps env protocol
    (ProtocolState.Once env aggregatePhase Closed) (ProtocolState.SentOnce env) where
  weaken _ hs := hs.sentOnce
  frame _ _ hs h := hs.frame h
  nextRound _ hs h := hs.nextRound h
  ends s hs := (once_endPhase hs).andThen fun t ht => once_flood ht
  handles endRound message s hrec hs := by
    refine ((handleBody_ends message.body s).mono (fun _ ⟨_, _, h⟩ => once_messages hs h)
      fun _ ⟨_, _, h⟩ => (once_messages hs h).sentOnce).andThen fun t ht => ?_
    split_ifs
    · exact hrec _ (ht.frame (.leaving t _))
    · exact ht

theorem once_keepsAll : ProtocolState.KeepsAll env protocol
    (ProtocolState.Once env aggregatePhase Closed) (ProtocolState.SentOnce env) where
  toKeeps := once_keeps
  init := ProtocolState.once_init _ rfl
  start fuel request data s hs := by
    refine ProtocolState.once_startQuery hs data fun t ht => ?_
    change (startQueryImpl env _ request t).Ends _ _
    unfold startQueryImpl
    split
    · exact fun hfits => (ht.unsent hfits).1
    · have hscatter : ∀ contribution messages, ProtocolState.Once env aggregatePhase Closed
          { t with myContribution := contribution, impl := ⟨.scatter, 0, messages, []⟩ } := by
        intro contribution messages
        have hprepared : ProtocolState.Prepared env
            { t with myContribution := contribution } := ⟨ht.rooted, ht.notLast, ht.unsent⟩
        exact hprepared.once (f := fun _ => ⟨.scatter, 0, messages, []⟩) rfl
      exact once_keeps.endOverlayRound fuel ((hscatter _ _).frame (.leaving _ _))
  signature _ _ _ _ hs := hs
  aggregation message _ hs := ProtocolState.once_receiveAggregation closes hs message

end HftProtocolState

namespace BftProtocolState
variable {env : ProtocolEnv}

/-- Agreement does not last long enough in its first round to end there. -/
def Closed (i : BftProtocolState) (round : ℤ) : Prop :=
  i.protocolPhase = .agreement → round ≤ i.agreementStartRound

theorem closes : ProtocolState.Closes aggregatePhase Closed where
  begin _ _ h := by simp [aggregatePhase] at h
  finish _ _ _ h := by simp [aggregatePhase] at h

theorem once_agreeOn {s : State} (hs : ProtocolState.Once env aggregatePhase Closed s)
    (value : ValueContribution) : ProtocolState.Once env aggregatePhase Closed
      (s.act (.agreeOn s.getCurrentQueryNum value)) := by
  refine ⟨hs.rooted, hs.inactive, hs.closes, fun hfits => ?_⟩
  obtain ⟨hsends, hopen, hactive⟩ := hs.sends hfits.prefix
  refine ⟨hsends.concat rfl rfl, fun hlast => (hopen hlast).concat rfl rfl, fun hphase => ?_⟩
  exact ⟨(hactive hphase).1.concat rfl rfl, (hactive hphase).2⟩

theorem once_handleAgreement {s : State} (hs : ProtocolState.Once env aggregatePhase Closed s)
    (hphase : s.impl.protocolPhase = .agreement) (message : OverlayMessage) :
    (handleAgreementPhaseMessage env message s).Ends
      (ProtocolState.Once env aggregatePhase Closed) (ProtocolState.SentOnce env) := by
  unfold handleAgreementPhaseMessage
  split
  · exact hs.sentOnce
  · rename_i agreement _
    have hact : ∀ t : State, ProtocolState.Once env aggregatePhase Closed t →
        t.impl = s.impl → ProtocolState.Once env aggregatePhase Closed (t.onImpl fun i =>
          { i with agreementPhaseState := some (agreement.handleMessage env.crypto message) }) := by
      intro t ht himpl
      refine ht.onImpl ?_ ht.closes
      simp [aggregatePhase, himpl, hphase]
    dsimp only
    split
    · exact hact _ (once_agreeOn hs _) rfl
    · exact hact _ hs rfl

theorem once_handleBody {s : State} (hs : ProtocolState.Once env aggregatePhase Closed s)
    (message : OverlayMessage) :
    (handleBody env message s).Ends (ProtocolState.Once env aggregatePhase Closed)
      (ProtocolState.SentOnce env) := by
  unfold handleBody
  split
  · exact hs
  · split
    · exact hs.frame (.wait s _)
    · split_ifs
      · split
        · exact (handleShufflePhaseMessage_ends message s).mono (fun _ h => hs.frame h)
            fun _ h => (hs.frame h).sentOnce
        · exact once_handleAgreement hs (by assumption) message
        · exact hs
      · exact hs

theorem once_endAgreement {s : State} (hs : ProtocolState.Once env aggregatePhase Closed s)
    (hshuffle : s.impl.protocolPhase ≠ .shuffle) (hphase : s.impl.protocolPhase = .agreement) :
    (endOverlayRoundImpl env s).Ends (ProtocolState.Once env aggregatePhase Closed)
      (ProtocolState.SentOnce env) := by
  unfold endOverlayRoundImpl
  dsimp only
  rw [if_neg (fun h => hshuffle h.1), if_pos hphase]
  cases hi : s.impl.agreementPhaseState with
  | none =>
    dsimp only
    split_ifs
    · exact hs.sentOnce
    · exact hs
  | some agreement =>
    dsimp only
    split_ifs with hphase2 hphase1
    · have hlast : s.isLastRound = false := by
        refine hs.notLast fun hclosed => ?_
        have hround := hclosed hphase
        have hsquare : 0 ≤ env.log2n * env.log2n := mul_self_nonneg _
        have hrounds := hphase2.1
        rw [mul_assoc] at hrounds
        omega
      have hprepared := hs.prepared hlast
      exact ProtocolState.once_enterAggregatePhase closes
        ⟨hprepared.rooted, hprepared.notLast, hprepared.unsent⟩
    · cases agreement.finishPhase1 env.π env.crypto s.overlayRound with
      | error e => exact hs.sentOnce
      | ok finished =>
        have himpl := hs.onImpl (f := fun i => { i with agreementPhaseState := some finished.2 })
          (by simp [aggregatePhase, hphase]) hs.closes
        exact himpl.frame (.of_fields rfl rfl rfl rfl rfl rfl)
    · exact hs

theorem once_endOverlayRoundImpl {s : State}
    (hs : ProtocolState.Once env aggregatePhase Closed s) :
    (endOverlayRoundImpl env s).Ends (ProtocolState.Once env aggregatePhase Closed)
      (ProtocolState.SentOnce env) := by
  by_cases hphase : s.impl.protocolPhase = .agreement
  · exact once_endAgreement hs (by simp [hphase]) hphase
  · unfold endOverlayRoundImpl
    dsimp only
    split_ifs
    · refine Outcome.Ends.andThen (P := fun t => ProtocolState.SameCore s t)
        (Outcome.forEach_ends (.refl s) fun value _ t ht => ?_) fun t ht => ?_
      · exact (signValue_ends value t).mono (fun _ h => ht.trans h)
          fun _ h => (hs.frame (ht.trans h)).sentOnce
      · exact (hs.frame ht).onImpl rfl fun _ _ => le_rfl
    · exact hs

theorem once_keeps : ProtocolState.Keeps env protocol
    (ProtocolState.Once env aggregatePhase Closed) (ProtocolState.SentOnce env) where
  weaken _ hs := hs.sentOnce
  frame _ _ hs h := hs.frame h
  nextRound _ hs h := hs.nextRound h
  ends _ hs := once_endOverlayRoundImpl hs
  handles endRound message s hrec hs := by
    refine (once_handleBody hs message.body).andThen fun t ht => ?_
    split_ifs
    · exact hrec _ (ht.frame (.leaving t _))
    · exact ht

theorem once_keepsAll : ProtocolState.KeepsAll env protocol
    (ProtocolState.Once env aggregatePhase Closed) (ProtocolState.SentOnce env) where
  toKeeps := once_keeps
  init := ProtocolState.once_init _ rfl
  start fuel request data s hs := by
    refine ProtocolState.once_startQuery hs data fun t ht => ?_
    have hsetup : ProtocolState.Once env aggregatePhase Closed (t.onImpl fun i => { i with
        protocolPhase := .setup
        acceptedProxyValues := []
        agreementPhaseState := some (.init env.meterId env.numMeters request.queryNumber) }) :=
      ht.once rfl
    change (startQueryImpl env (ProtocolState.endOverlayRound env protocol fuel) request t).Ends _ _
    unfold startQueryImpl
    dsimp only
    split
    · exact hsetup.sentOnce
    · exact hsetup.frame (.act _ rfl)
  signature endRound message s hrec hs := by
    change (handleSignatureResponse env endRound message s).Ends _ _
    unfold handleSignatureResponse
    split
    · exact hs.sentOnce
    · refine once_keeps.encryptedMulticastToProxies hrec _ (hs.onImpl rfl fun _ h => ?_)
      simp at h
  aggregation message _ hs := ProtocolState.once_receiveAggregation closes hs message

end BftProtocolState

namespace MeterClient

/-- As long as buffers fit, a client of any protocol sends one aggregate for each
start of a query at most, under each of its IDs. -/
theorem sends_once_of_buffers_fit (env : ClientEnv) (fuel : ℕ) (es : List Event) :
    Throughout (step env CtProtocolState.protocol fuel)
        (fun o => Both env (fun env s => BuffersFit env s.trace → SendsOnce s.trace) o.state)
        (.done (init CtProtocolState.protocol)) es ∧
      Throughout (step env HftProtocolState.protocol fuel)
        (fun o => Both env (fun env s => BuffersFit env s.trace → SendsOnce s.trace) o.state)
        (.done (init HftProtocolState.protocol)) es ∧
      Throughout (step env BftProtocolState.protocol fuel)
        (fun o => Both env (fun env s => BuffersFit env s.trace → SendsOnce s.trace) o.state)
        (.done (init BftProtocolState.protocol)) es :=
  ⟨throughout_state (fun _ => CtProtocolState.once_keepsAll) fuel es,
    throughout_state (fun _ => HftProtocolState.once_keepsAll) fuel es,
    throughout_state (fun _ => BftProtocolState.once_keepsAll) fuel es⟩

/-- Meter 8 buffers the aggregates of both its children, and the last ping to one of
these fails before the Aggregate phase starts. -/
def lateFailureEnv : ClientEnv := sampleEnv 8 11 eleven_meters 4 5 fun n => n ≠ 103

def lateFailure : List Event :=
  [sampleQuery 0, .aggregation (.make 9 0 [3]), .aggregation (.make 10 0 [4])] ++ timeouts 0 27

theorem late_failure_sends_twice :
    ¬ Both lateFailureEnv (fun _ s => SendsOnce s.trace)
      (run lateFailureEnv CtProtocolState.protocol 100 lateFailure).state := by
  intro h
  have hle := h.primary.countSince_le_one
  revert hle
  decide +kernel

end MeterClient
end Pddm
