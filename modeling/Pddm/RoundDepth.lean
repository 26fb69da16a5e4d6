import Pddm.RoundClocks

/-!
# How deep the ends of rounds are nested

A message may end a round, the next round begins with buffered messages, and one of these may
end it in turn. Each time there is a round less to come.
-/
namespace Pddm
namespace ProtocolState
variable {ι : Type}

/-- The round that comes `next` after the current one is on time, and no more than `k` rounds are
left from there on. -/
inductive RoundsLeft (P : Protocol ι) (OnTime : ℤ → ι → Prop) (lastRound next : ℤ) (k : ℕ)
    (s : ProtocolState ι) : Prop
  | running (hphase : P.isInOverlayPhase s.impl = true) (hlast : s.isLastRound = false)
      (honTime : OnTime (s.overlayRound + next) s.impl)
      (hk : lastRound - (s.overlayRound + next) + 1 ≤ k)
  | stopped (hphase : P.isInOverlayPhase s.impl = false) (hlast : s.isLastRound = true)
      (honTime : OnTime s.overlayRound s.impl)

section Depth
variable {P : Protocol ι} {L : Layered P} {env : ProtocolEnv} {OnTime Waiting : ℤ → ι → Prop}
  {lastRound : ℤ} {k : ℕ} {s t : ProtocolState ι}

theorem RoundsLeft.same {next : ℤ} (hs : RoundsLeft P OnTime lastRound next k s)
    (hround : t.overlayRound = s.overlayRound) (hlastRound : t.isLastRound = s.isLastRound)
    (hphaseSame : P.isInOverlayPhase t.impl = P.isInOverlayPhase s.impl)
    (honTimeSame : ∀ r, OnTime r s.impl → OnTime r t.impl) :
    RoundsLeft P OnTime lastRound next k t := by
  cases hs with
  | running hphase hlast honTime hk =>
    refine .running (hphaseSame.trans hphase) (hlastRound.trans hlast) ?_ ?_
    · rw [hround]
      exact honTimeSame _ honTime
    · rwa [hround]
  | stopped hphase hlast honTime =>
    refine .stopped (hphaseSame.trans hphase) (hlastRound.trans hlast) ?_
    rw [hround]
    exact honTimeSame _ honTime

namespace KeepsRounds
variable (h : KeepsRounds L env OnTime Waiting lastRound)
include h

theorem endOverlayRoundImpl_left (hs : RoundsLeft P OnTime lastRound 0 (k + 1) s) :
    (P.endOverlayRoundImpl env s).Ends (RoundsLeft P OnTime lastRound 1 k) fun _ => True := by
  cases hs with
  | stopped hphase hlast honTime =>
    rw [h.rests s hphase]
    exact .stopped hphase hlast honTime
  | running hphase hlast honTime hk =>
    rw [add_zero] at honTime hk
    refine ((L.ends env s).and (h.ends s hphase hlast honTime)).mono (fun t ht => ?_)
      fun _ _ => trivial
    obtain ⟨hsame, hended⟩ := ht
    rcases hended with ⟨hphase', hlast', honTime'⟩ | ⟨hphase', hlast', honTime'⟩
    · refine .running hphase' hlast' ?_ ?_
      · rw [hsame.overlayRound]
        exact honTime'
      · rw [hsame.overlayRound]
        push_cast at hk
        omega
    · refine .stopped hphase' hlast' ?_
      rw [hsame.overlayRound]
      exact honTime'

theorem left_maintains (k : ℕ) : Maintains L env (fun _ => True)
    (RoundsLeft P OnTime lastRound 0 k) (RoundsLeft P OnTime lastRound 1 k) fun _ => True where
  weaken _ _ := trivial
  frame s t hs hbook := hs.same hbook.overlayRound hbook.isLastRound (by rw [hbook.impl])
    fun r hr => by rwa [hbook.impl]
  buffers _ s hs _ := hs.same rfl rfl rfl fun _ hr => hr
  buffered _ _ _ _ := trivial
  absorbs message s hs _ := by
    obtain ⟨timer, timers, hnote⟩ := noteOverlay_fields env P message s
    have hnoted : RoundsLeft P OnTime lastRound 0 k (noteOverlay env P message s) := by
      rw [hnote]
      exact hs.same rfl rfl rfl fun _ hr => hr
    exact (h.body _ _).mono
      (fun t ht => hnoted.same ht.1.overlayRound ht.1.isLastRound ht.2.1 ht.2.2.1) fun _ _ => trivial
  ends s hs := by
    have hmore : RoundsLeft P OnTime lastRound 0 (k + 1) s := by
      cases hs with
      | running hphase hlast honTime hk =>
        exact .running hphase hlast honTime (by push_cast; omega)
      | stopped hphase hlast honTime => exact .stopped hphase hlast honTime
    exact h.endOverlayRoundImpl_left hmore
  rests s hs hlastRound := by
    cases hs with
    | running hphase hlast => simp [hlast] at hlastRound
    | stopped hphase hlast honTime => exact .stopped hphase hlast honTime
  sends s hs hlastRound := by
    obtain ⟨failed, hnext⟩ := sendOverlayMessageBatch_next env s
    rw [hnext]
    cases hs with
    | running hphase hlast honTime hk =>
      refine .running hphase hlast ?_ ?_
      · rw [add_zero]
        exact honTime
      · rw [add_zero]
        exact hk
    | stopped hphase hlast => simp [hlast] at hlastRound

/-- More fuel than rounds are left changes nothing. -/
theorem endOverlayRound_fuel (hs : RoundsLeft P OnTime lastRound 0 k s) {fuel fuel' : ℕ}
    (hfuel : k < fuel) (hfuel' : k < fuel') :
    endOverlayRound env P fuel s = endOverlayRound env P fuel' s := by
  induction k generalizing s fuel fuel' with
  | zero =>
    obtain ⟨m, rfl⟩ := Nat.exists_eq_succ_of_ne_zero hfuel.ne'
    obtain ⟨m', rfl⟩ := Nat.exists_eq_succ_of_ne_zero hfuel'.ne'
    cases hs with
    | running hphase hlast honTime hk =>
      rw [add_zero] at honTime hk
      have hbound := (h.bound _ _ honTime hphase).2
      push_cast at hk
      omega
    | stopped hphase hlast honTime =>
      unfold endOverlayRound
      rw [h.rests s hphase, Outcome.done_andThen, Outcome.done_andThen]
      unfold superEndOverlayRound
      rw [if_pos (show s.cancelTimer.isLastRound = true from hlast),
        if_pos (show s.cancelTimer.isLastRound = true from hlast)]
  | succ k ih =>
    obtain ⟨m, rfl⟩ := Nat.exists_eq_succ_of_ne_zero (Nat.ne_zero_of_lt hfuel)
    obtain ⟨m', rfl⟩ := Nat.exists_eq_succ_of_ne_zero (Nat.ne_zero_of_lt hfuel')
    unfold endOverlayRound
    refine Outcome.andThen_congr (h.endOverlayRoundImpl_left hs) fun t ht => ?_
    exact (h.left_maintains k).superEndOverlayRound_congr
      (fun _ => (h.left_maintains k).endOverlayRound m)
      (fun u hu => ih hu (Nat.lt_of_succ_lt_succ hfuel) (Nat.lt_of_succ_lt_succ hfuel')) ht

/-- The rounds of a query are never more than those up to the last one. -/
theorem roundsLeft_of_running (hphase : P.isInOverlayPhase s.impl = true)
    (hlast : s.isLastRound = false) (honTime : OnTime s.overlayRound s.impl) :
    RoundsLeft P OnTime lastRound 0 (lastRound + 2).toNat s := by
  obtain ⟨hfirst, hbound⟩ := h.bound _ _ honTime hphase
  refine .running hphase hlast ?_ ?_
  · rwa [add_zero]
  · rw [Int.toNat_of_nonneg (by omega)]
    omega

theorem roundsLeft_of_ticking {c : ℤ} (hs : Ticking P OnTime lastRound c s) :
    RoundsLeft P OnTime lastRound 0 (lastRound + 2).toNat s := by
  cases hs with
  | running hphase hlast honTime => exact h.roundsLeft_of_running hphase hlast honTime
  | stopped hphase hlast honTime => exact .stopped hphase hlast honTime

end KeepsRounds

namespace KeepsTime
variable {A : ProtocolState ι → Prop} (h : KeepsTime L env OnTime Waiting lastRound A)
  {fuel fuel' : ℕ} (hfuel : (lastRound + 2).toNat < fuel) (hfuel' : (lastRound + 2).toNat < fuel')
include h hfuel hfuel'

theorem handle_fuel {e : Event} (hsign : ∀ message, e = .signatureResponse message → A s)
    (hs : ∃ c, Clock P OnTime Waiting lastRound c s) :
    s.handle env P fuel e = s.handle env P fuel' e := by
  have hround (t : ProtocolState ι) (ht : RoundsLeft P OnTime lastRound 0 (lastRound + 2).toNat t) :
      endOverlayRound env P fuel t = endOverlayRound env P fuel' t :=
    h.toKeepsRounds.endOverlayRound_fuel ht hfuel hfuel'
  have hopen (t : ProtocolState ι) (ht : Opening P OnTime t) :
      endOverlayRound env P fuel t = endOverlayRound env P fuel' t := by
    refine hround t (h.toKeepsRounds.roundsLeft_of_running ht.phase ht.last ?_)
    rw [ht.overlayRound]
    exact ht.onTime
  obtain ⟨c, hs⟩ := hs
  cases e with
  | startQuery request data =>
    have hcancel : (s.timers.cancel s.roundTimeoutTimer).pending = [] := by
      cases hphase : P.isInOverlayPhase s.impl with
      | true => exact Timers.cancel_pending_singleton (hs.armed.overlay hphase).2
      | false => exact Timers.cancel_pending_nil (hs.armed.otherwise hphase) _
    change startQuery env P fuel request data s = startQuery env P fuel' request data s
    unfold startQuery
    dsimp only
    split
    · rfl
    · exact h.startSame _ _ _ _ rfl rfl hcancel hopen
  | overlay message =>
    change receiveOverlay env P fuel message s = receiveOverlay env P fuel' message s
    unfold receiveOverlay
    split_ifs
    · rfl
    · rfl
    · rcases hs with ⟨hs, -⟩ | hs
      · rw [L.handleOverlayMessage_eq, L.handleOverlayMessage_eq]
        refine Outcome.andThen_congr (h.toKeepsRounds.absorb_unstarted message hs) fun t ht => ?_
        simp [ht.phase]
      · exact (h.toKeepsRounds.left_maintains _).handleOverlayMessage_congr hround trivial
          (h.toKeepsRounds.roundsLeft_of_ticking hs)
    · rfl
    · rfl
  | aggregation message => rfl
  | ping message => rfl
  | signatureResponse message =>
    refine h.signatureSame _ _ _ _ (hsign message rfl) ?_ hopen
    rcases hs with ⟨hs, -⟩ | hs
    · exact .inl hs
    · exact .inr ⟨c, hs⟩
  | timerExpires id =>
    change timerExpires env P fuel id s = timerExpires env P fuel' id s
    unfold timerExpires
    cases hfind : s.timers.find id with
    | none => rfl
    | some registeredIn =>
      rcases hs with ⟨hs, -⟩ | hs
      · have hmem := Timers.mem_of_find hfind
        rw [hs.timers] at hmem
        cases hmem
      · unfold handleRoundTimeout
        dsimp only
        split_ifs
        · rfl
        · exact hround _ ((h.toKeepsRounds.roundsLeft_of_ticking hs).same rfl rfl rfl
            fun _ hr => hr)

theorem run_fuel {es : List Event}
    (hes : Along (step env P fuel) (fun o e => ∀ message, e = .signatureResponse message → A o.state)
      (.done (.init P.init)) es) : run env P fuel es = run env P fuel' es := by
  unfold run
  refine (Along.foldl_eq (hes.along (I := fun o => o.Ends
    (fun t => ∃ c, Clock P OnTime Waiting lastRound c t) fun _ => True) h.clock_init
      fun o e ho he => ?_)).symm
  cases o with
  | halted error s => exact ⟨trivial, rfl⟩
  | done s =>
    exact ⟨h.handle_clock_exists fuel he ho, (h.handle_fuel hfuel hfuel' he ho).symm⟩

end KeepsTime
end Depth
end ProtocolState
end Pddm
