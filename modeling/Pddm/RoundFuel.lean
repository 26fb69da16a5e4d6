import Pddm.RoundDepth

/-!
# Runs that are never short of fuel

Fuel is used up where a round ends within another, and nowhere else. With more of it than there
are rounds in a query no run stops for want of it.
-/
namespace Pddm

namespace Outcome
variable {ε σ α : Type*} {error : ε} {o : Outcome ε σ} {f : σ → Outcome ε σ} {P H I : σ → Prop}

/-- The handler has not been stopped by this error. -/
def Avoids (error : ε) (o : Outcome ε σ) : Prop := ∀ s, o ≠ halted error s

@[simp] theorem avoids_done (s : σ) : (done s : Outcome ε σ).Avoids error := nofun

@[simp] theorem avoids_halted {e : ε} {s : σ} :
    (halted e s : Outcome ε σ).Avoids error ↔ e ≠ error := by
  simp [Avoids]

theorem Avoids.andThen_of_ends (ho : o.Avoids error) (h : o.Ends P H)
    (hf : ∀ s, P s → (f s).Avoids error) : (o.andThen f).Avoids error := by
  cases o with
  | done s => exact hf s h
  | halted e s => exact ho

theorem Avoids.andThen (ho : o.Avoids error) (hf : ∀ s, (f s).Avoids error) :
    (o.andThen f).Avoids error := by
  cases o with
  | done s => exact hf s
  | halted e s => exact ho

theorem avoids_forEach {xs : List α} {f : α → σ → Outcome ε σ}
    (hf : ∀ x ∈ xs, ∀ s, (f x s).Avoids error) (s : σ) : (forEach xs f s).Avoids error := by
  induction xs generalizing s with
  | nil => exact avoids_done s
  | cons x xs ih =>
    refine (hf x (by simp) s).andThen fun t => ?_
    exact ih (fun y hy => hf y (by simp [hy])) t

/-- What calls `g` in some states only avoids what `g` avoids in these. -/
theorem avoids_of_congr {g : σ → Outcome ε σ} {F : (σ → Outcome ε σ) → Outcome ε σ}
    (hcongr : ∀ g', (∀ s, I s → g s = g' s) → F g = F g')
    (hF : ∀ g', (∀ s, (g' s).Avoids error) → (F g').Avoids error)
    (hg : ∀ s, I s → (g s).Avoids error) : (F g).Avoids error := by
  classical
  rw [hcongr (fun s => if I s then g s else .done s) fun s hs => (if_pos hs).symm]
  refine hF _ fun s => ?_
  split_ifs with hs
  · exact hg s hs
  · exact avoids_done s

end Outcome

section Errors
variable {α γ : Type} {error : Fault}

theorem bind_ne_error {x : Except Fault α} {f : α → Except Fault γ} (hx : x ≠ .error error)
    (hf : ∀ a, f a ≠ .error error) : (x >>= f) ≠ .error error := by
  cases x with
  | ok a => exact hf a
  | error e => simpa [bind, Except.bind] using hx

theorem mapM_ne_error {xs : List α} {f : α → Except Fault γ} (hf : ∀ a, f a ≠ .error error) :
    xs.mapM f ≠ .error error := by
  induction xs with
  | nil => simp [pure, Except.pure]
  | cons x xs ih =>
    rw [List.mapM_cons]
    refine bind_ne_error (hf x) fun a => bind_ne_error ih fun as => ?_
    simp [pure, Except.pure]

theorem map_ne_error {x : Except Fault α} {f : α → γ} (hx : x ≠ .error error) :
    x.map f ≠ .error error := by
  cases x with
  | ok a => simp [Except.map]
  | error e => simpa [Except.map] using hx

theorem avoids_of_error {σ : Type} {x : Except Fault α} {e : Fault} {s : σ} (hx : x ≠ .error error)
    (heq : x = .error e) : (Outcome.halted e s).Avoids error := by
  rw [Outcome.avoids_halted]
  rintro rfl
  exact hx heq

theorem findPathFrom_fuel (π : IterationOrder) (target n start : ℤ) (used : List ℤ) (rounds : ℕ)
    (time : ℤ) (infected : List InfectedNode) :
    findPathFrom π target n start used rounds time infected ≠ .error .outOfFuel := by
  induction rounds generalizing time infected with
  | zero => simp [findPathFrom]
  | succ rounds ih =>
    rw [findPathFrom]
    split
    · simp
    · exact ih _ _

theorem findPathsFrom_fuel (π : IterationOrder) (source n start maxRound : ℤ)
    (targets used : List ℤ) :
    findPathsFrom π source n start maxRound targets used ≠ .error .outOfFuel := by
  induction targets generalizing used with
  | nil => simp [findPathsFrom]
  | cons target targets ih =>
    rw [findPathsFrom]
    refine bind_ne_error ?_ fun found => bind_ne_error (ih _) fun paths => by simp
    unfold findAnother
    split_ifs
    · simp
    · exact bind_ne_error (findPathFrom_fuel _ _ _ _ _ _ _ _) fun path => by simp

theorem multicastToOtherProxies_fuel (π : IterationOrder) (crypto : CryptoLibrary)
    (nodeId numNodes startRound queryNum : ℤ) (proxies : List ℤ) (body : MessageBody) :
    multicastToOtherProxies π crypto nodeId numNodes startRound queryNum proxies body ≠
      .error .outOfFuel := by
  refine bind_ne_error ?_ fun others => bind_ne_error (findPathsFrom_fuel _ _ _ _ _ _ _) fun paths =>
    mapM_ne_error fun path => bind_ne_error ?_ fun message => by simp
  · unfold otherProxies
    dsimp only
    split_ifs <;> simp
  · cases path <;> simp [pathOverlayMessage]

theorem CrusaderAgreementState.finishPhase1_fuel (π : IterationOrder) (crypto : CryptoLibrary)
    (round : ℤ) (s : CrusaderAgreementState) : s.finishPhase1 π crypto round ≠ .error .outOfFuel :=
  bind_ne_error (mapM_ne_error fun _ => multicastToOtherProxies_fuel _ _ _ _ _ _ _ _)
    fun _ => by simp

theorem pickProxies_fuel (draws : ℕ → ℤ) (nodeId numGroups numMeters : ℤ) :
    pickProxies draws nodeId numGroups numMeters ≠ .error .outOfFuel := by
  unfold pickProxies
  split_ifs <;> simp

end Errors

namespace TreeAggregationState
variable (s : TreeAggregationState)

theorem addData_fuel {onEmpty : Fault} (h : onEmpty ≠ .outOfFuel) (data : List FixedPoint)
    (numContributors : ℤ) (intermediate : AggregationMessage) :
    s.addData onEmpty data numContributors intermediate ≠ .error .outOfFuel := by
  unfold addData AggregationMessage.addValue AggregationMessage.addValues
  split_ifs
  · cases data with
    | nil => simpa using h
    | cons value data => cases intermediate.body <;> simp
  · simp
  · simp

theorem handleMessage_fuel (message : AggregationMessage) :
    s.handleMessage message ≠ .error .outOfFuel := by
  unfold handleMessage
  cases s.aggregationIntermediate with
  | none => simp
  | some intermediate => exact map_ne_error (s.addData_fuel (by simp) _ _ _)

theorem addProxyValue_fuel (value : ValueContribution) :
    s.addProxyValue value ≠ .error .outOfFuel := by
  unfold addProxyValue
  cases s.aggregationIntermediate with
  | none => simp
  | some intermediate => exact map_ne_error (s.addData_fuel (by simp) _ _ _)

theorem addProxyValues_fuel (values : List ValueContribution) :
    (s.addProxyValues values).Avoids .outOfFuel := by
  induction values generalizing s with
  | nil => simp [addProxyValues]
  | cons value values ih =>
    rw [addProxyValues]
    cases hadded : s.addProxyValue value with
    | ok t => exact ih t
    | error e => exact avoids_of_error (s.addProxyValue_fuel value) hadded

end TreeAggregationState

namespace ProtocolState
variable {ι : Type}

section Aggregation
variable (env : ProtocolEnv) (ph : AggregatePhase ι)

theorem sendAggregateIfDone_fuel (s : ProtocolState ι) :
    (s.sendAggregateIfDone env ph).Avoids .outOfFuel := by
  have hcompute (values : List ValueContribution) (s : ProtocolState ι) :
      (s.computeAndSendAggregate env values).Avoids .outOfFuel := by
    unfold computeAndSendAggregate
    split
    · simp
    · rename_i aggregation _
      have hadd := aggregation.addProxyValues_fuel (env.π.order values)
      dsimp only
      split
      · rename_i e t heq
        rw [heq] at hadd
        simpa using hadd
      · split <;> simp
  unfold sendAggregateIfDone
  split
  · simp
  · split_ifs
    · exact (hcompute _ _).andThen fun t => by simp
    · simp

theorem handleAggregationMessage_fuel (message : AggregationMessage) (s : ProtocolState ι) :
    (s.handleAggregationMessage env ph message).Avoids .outOfFuel := by
  unfold handleAggregationMessage
  split
  · simp
  · rename_i aggregation _
    split
    · rename_i e heq
      exact avoids_of_error (aggregation.handleMessage_fuel message) heq
    · exact sendAggregateIfDone_fuel env ph _

theorem enterAggregatePhase_fuel (s : ProtocolState ι) :
    (s.enterAggregatePhase env ph).Avoids .outOfFuel := by
  unfold enterAggregatePhase startAggregatePhase
  dsimp only
  split
  · refine Outcome.Avoids.andThen ?_ fun t => by simp
    refine (sendAggregateIfDone_fuel env ph _).andThen fun t => ?_
    split_ifs
    · refine Outcome.avoids_forEach (fun message _ u => ?_) t
      exact (handleAggregationMessage_fuel env ph message u).andThen fun v => by simp
    · simp
  · simp

theorem encryptedMulticastToProxies_fuel
    {endRound : ProtocolState ι → Outcome Fault (ProtocolState ι)}
    (hround : ∀ t, (endRound t).Avoids .outOfFuel) (contribution : ValueContribution)
    (s : ProtocolState ι) :
    (encryptedMulticastToProxies env endRound contribution s).Avoids .outOfFuel := by
  unfold encryptedMulticastToProxies
  dsimp only
  split
  · rename_i e heq
    refine avoids_of_error (bind_ne_error (findPathsFrom_fuel _ _ _ _ _ _ _) fun paths =>
      mapM_ne_error fun path => ?_) heq
    unfold buildEncryptedOnion
    split <;> simp
  · exact hround _

end Aggregation

/-- A protocol runs out of fuel only where it ends a round. -/
structure FuelsRounds {P : Protocol ι} (L : Layered P) (env : ProtocolEnv) : Prop where
  body : ∀ message s, (L.handleBody env message s).Avoids .outOfFuel
  ends : ∀ s, (P.endOverlayRoundImpl env s).Avoids .outOfFuel
  start : ∀ endRound request s, (∀ t, (endRound t).Avoids .outOfFuel) →
    (P.startQueryImpl env endRound request s).Avoids .outOfFuel
  signature : ∀ endRound message s, (∀ t, (endRound t).Avoids .outOfFuel) →
    (P.handleSignatureResponse env endRound message s).Avoids .outOfFuel

section Rounds
variable {P : Protocol ι} {L : Layered P} {env : ProtocolEnv} {OnTime Waiting : ℤ → ι → Prop}
  {lastRound : ℤ} {k fuel : ℕ} {s : ProtocolState ι}
  {endRound : ProtocolState ι → Outcome Fault (ProtocolState ι)} (hparts : FuelsRounds L env)
include hparts

theorem FuelsRounds.handleOverlayMessage (hround : ∀ t, (endRound t).Avoids .outOfFuel)
    (message : OverlayTransportMessage) (s : ProtocolState ι) :
    (handleOverlayMessage env P endRound message s).Avoids .outOfFuel := by
  rw [L.handleOverlayMessage_eq]
  refine Outcome.Avoids.andThen (hparts.body _ _) fun t => ?_
  split_ifs
  · exact hround _
  · simp

theorem FuelsRounds.superEndOverlayRound (hround : ∀ t, (endRound t).Avoids .outOfFuel)
    (s : ProtocolState ι) : (superEndOverlayRound env P endRound s).Avoids .outOfFuel := by
  unfold ProtocolState.superEndOverlayRound
  dsimp only
  split_ifs
  · simp
  · refine (Outcome.avoids_forEach (fun message _ => hparts.handleOverlayMessage hround message)
      _).andThen fun t => ?_
    split_ifs
    · exact hround _
    · simp

/-- Fuel for each of the rounds that are left is enough. -/
theorem KeepsRounds.endOverlayRound_avoids (h : KeepsRounds L env OnTime Waiting lastRound)
    (hs : RoundsLeft P OnTime lastRound 0 k s) (hfuel : k < fuel) :
    (endOverlayRound env P fuel s).Avoids .outOfFuel := by
  induction k generalizing s fuel with
  | zero =>
    obtain ⟨m, rfl⟩ := Nat.exists_eq_succ_of_ne_zero hfuel.ne'
    cases hs with
    | running hphase hlast honTime hk =>
      rw [add_zero] at honTime hk
      have hbound := (h.bound _ _ honTime hphase).2
      push_cast at hk
      omega
    | stopped hphase hlast honTime =>
      unfold endOverlayRound
      rw [h.rests s hphase, Outcome.done_andThen]
      unfold ProtocolState.superEndOverlayRound
      rw [if_pos (show s.cancelTimer.isLastRound = true from hlast)]
      exact Outcome.avoids_done _
  | succ k ih =>
    obtain ⟨m, rfl⟩ := Nat.exists_eq_succ_of_ne_zero (Nat.ne_zero_of_lt hfuel)
    unfold endOverlayRound
    refine (hparts.ends s).andThen_of_ends (h.endOverlayRoundImpl_left hs) fun t ht => ?_
    exact Outcome.avoids_of_congr (F := fun g => ProtocolState.superEndOverlayRound env P g t)
      (fun g' hsame => (h.left_maintains k).superEndOverlayRound_congr
        (fun _ => (h.left_maintains k).endOverlayRound m) hsame ht)
      (fun g' hg' => hparts.superEndOverlayRound hg' t)
      fun u hu => ih hu (Nat.lt_of_succ_lt_succ hfuel)

namespace KeepsTime
variable {A : ProtocolState ι → Prop} (h : KeepsTime L env OnTime Waiting lastRound A)
  (hfuel : (lastRound + 2).toNat < fuel)
include h hfuel

theorem handle_avoids {e : Event} (hsign : ∀ message, e = .signatureResponse message → A s)
    (hs : ∃ c, Clock P OnTime Waiting lastRound c s) :
    (s.handle env P fuel e).Avoids .outOfFuel := by
  have hround (t : ProtocolState ι) (ht : RoundsLeft P OnTime lastRound 0 (lastRound + 2).toNat t) :
      (endOverlayRound env P fuel t).Avoids .outOfFuel :=
    h.toKeepsRounds.endOverlayRound_avoids hparts ht hfuel
  have hopen (t : ProtocolState ι) (ht : Opening P OnTime t) :
      (endOverlayRound env P fuel t).Avoids .outOfFuel := by
    refine hround t (h.toKeepsRounds.roundsLeft_of_running ht.phase ht.last ?_)
    rw [ht.overlayRound]
    exact ht.onTime
  obtain ⟨c, hs⟩ := hs
  cases e with
  | startQuery request data =>
    have hcancel : (s.timers.cancel s.roundTimeoutTimer).pending = [] := by
      cases hphase : P.isInOverlayPhase s.impl with
      | true => exact Timers.cancel_pending_singleton (hs.armed.overlay hphase).2
      | false => exact Timers.cancel_pending_nil (hs.armed.otherwise hphase) _
    change (startQuery env P fuel request data s).Avoids .outOfFuel
    unfold startQuery
    dsimp only
    split
    · rename_i e heq
      exact avoids_of_error (pickProxies_fuel _ _ _ _) heq
    · exact Outcome.avoids_of_congr (F := fun g => P.startQueryImpl env g request _)
        (fun g' hsame => h.startSame _ g' _ _ rfl rfl hcancel hsame)
        (fun g' hg' => hparts.start g' _ _ hg') hopen
  | overlay message =>
    change (receiveOverlay env P fuel message s).Avoids .outOfFuel
    unfold receiveOverlay
    split_ifs
    · simp
    · simp
    · rcases hs with ⟨hs, -⟩ | hs
      · rw [L.handleOverlayMessage_eq]
        refine Outcome.Avoids.andThen_of_ends (hparts.body _ _)
          (h.toKeepsRounds.absorb_unstarted message hs) fun t ht => ?_
        simp [ht.phase]
      · exact Outcome.avoids_of_congr
          (F := fun g => ProtocolState.handleOverlayMessage env P g message s)
          (fun g' hsame => (h.toKeepsRounds.left_maintains _).handleOverlayMessage_congr hsame
            trivial (h.toKeepsRounds.roundsLeft_of_ticking hs))
          (fun g' hg' => hparts.handleOverlayMessage hg' message s) hround
    · simp
    · simp
  | aggregation message =>
    change (receiveAggregation env P.toAggregatePhase message s).Avoids .outOfFuel
    unfold receiveAggregation
    split_ifs
    · exact handleAggregationMessage_fuel env _ message _
    · simp
    · simp
  | ping message => exact Outcome.avoids_done _
  | signatureResponse message =>
    refine Outcome.avoids_of_congr (F := fun g => P.handleSignatureResponse env g message s)
      (fun g' hsame => h.signatureSame _ g' _ _ (hsign message rfl) ?_ hsame)
      (fun g' hg' => hparts.signature g' _ _ hg') hopen
    rcases hs with ⟨hs, -⟩ | hs
    · exact .inl hs
    · exact .inr ⟨c, hs⟩
  | timerExpires id =>
    change (timerExpires env P fuel id s).Avoids .outOfFuel
    unfold timerExpires
    cases hfind : s.timers.find id with
    | none => exact Outcome.avoids_done _
    | some registeredIn =>
      rcases hs with ⟨hs, -⟩ | hs
      · have hmem := Timers.mem_of_find hfind
        rw [hs.timers] at hmem
        cases hmem
      · unfold handleRoundTimeout
        dsimp only
        split_ifs
        · simp
        · exact hround _ ((h.toKeepsRounds.roundsLeft_of_ticking hs).same rfl rfl rfl
            fun _ hr => hr)

theorem run_avoids {es : List Event}
    (hes : Along (step env P fuel) (fun o e => ∀ message, e = .signatureResponse message → A o.state)
      (.done (.init P.init)) es) : (run env P fuel es).Avoids .outOfFuel := by
  refine (hes.throughout (I := fun o => o.Ends
    (fun t => ∃ c, Clock P OnTime Waiting lastRound c t) (fun _ => True) ∧ o.Avoids .outOfFuel)
      ⟨h.clock_init, Outcome.avoids_done _⟩ fun o e ho he => ?_).last.2
  cases o with
  | halted error s => exact ho
  | done s => exact ⟨h.handle_clock_exists fuel he ho.1, h.handle_avoids hparts hfuel he ho.1⟩

end KeepsTime
end Rounds
end ProtocolState

namespace CtProtocolState

theorem fuelsRounds (env : ProtocolEnv) : ProtocolState.FuelsRounds layered env where
  body message s := by
    change (handleBody env message s).Avoids .outOfFuel
    unfold handleBody handleShufflePhaseMessage handleEchoPhaseMessage acceptContribution
    repeat' split
    all_goals simp
  ends s := by
    change (endOverlayRoundImpl env s).Avoids .outOfFuel
    unfold endOverlayRoundImpl
    split_ifs
    · refine (Outcome.avoids_forEach (fun proxyValue _ t => ?_) s).andThen fun t => by simp
      unfold echoValue
      split
      · rename_i e heq
        exact avoids_of_error (multicastToOtherProxies_fuel _ _ _ _ _ _ _ _) heq
      · simp
    · exact ProtocolState.enterAggregatePhase_fuel env _ s
    · simp
  start endRound request s hround := by
    change (startQueryImpl env endRound request s).Avoids .outOfFuel
    unfold startQueryImpl
    dsimp only
    split
    · simp
    · exact ProtocolState.encryptedMulticastToProxies_fuel env hround _ _
  signature _ _ s _ := Outcome.avoids_done s

end CtProtocolState

namespace HftProtocolState

theorem fuelsRounds (env : ProtocolEnv) : ProtocolState.FuelsRounds layered env where
  body message s := by
    change (handleBody env message s).Avoids .outOfFuel
    unfold handleBody handleScatterPhaseMessage handleGatherPhaseMessage
    repeat' split
    all_goals simp
  ends s := by
    refine Outcome.Avoids.andThen ?_ fun t => by simp
    unfold endPhase
    split_ifs
    · simp
    · exact ProtocolState.enterAggregatePhase_fuel env _ _
    · simp
  start endRound request s hround := by
    change (startQueryImpl env endRound request s).Avoids .outOfFuel
    unfold startQueryImpl
    split
    · simp
    · exact hround _
  signature _ _ s _ := Outcome.avoids_done s

end HftProtocolState

namespace BftProtocolState

theorem fuelsRounds (env : ProtocolEnv) : ProtocolState.FuelsRounds layered env where
  body message s := by
    change (handleBody env message s).Avoids .outOfFuel
    unfold handleBody handleShufflePhaseMessage handleAgreementPhaseMessage
    repeat' split
    all_goals simp
  ends s := by
    change (endOverlayRoundImpl env s).Avoids .outOfFuel
    unfold endOverlayRoundImpl
    dsimp only
    split
    · -- Shuffle ends
      refine (Outcome.avoids_forEach (fun proxyValue _ t => ?_) s).andThen fun t => by simp
      unfold signValue
      dsimp only
      split
      · rename_i e heq
        exact avoids_of_error (multicastToOtherProxies_fuel _ _ _ _ _ _ _ _) heq
      · simp
    · split
      · split
        · split <;> simp
        · split
          · -- the second phase of the agreement ends
            exact ProtocolState.enterAggregatePhase_fuel env _ _
          · split
            · -- the first one does
              split
              · rename_i e heq
                exact avoids_of_error (CrusaderAgreementState.finishPhase1_fuel _ _ _ _) heq
              · simp
            · simp
      · simp
  start endRound request s _ := by
    change (startQueryImpl env endRound request s).Avoids .outOfFuel
    unfold startQueryImpl
    dsimp only
    split <;> simp
  signature endRound message s hround := by
    change (handleSignatureResponse env endRound message s).Avoids .outOfFuel
    unfold handleSignatureResponse
    split
    · simp
    · exact ProtocolState.encryptedMulticastToProxies_fuel env hround _ _

end BftProtocolState
end Pddm
