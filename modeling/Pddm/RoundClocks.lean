import Pddm.PhaseSchedule

/-!
# The clock of the rounds

In an overlay phase a meter has one timer pending, which is that of its round. Each time it
fires a round is over, or the predecessor has answered a ping.
-/
namespace Pddm

namespace ProtocolState
variable {ι : Type}

structure SameClock (s t : ProtocolState ι) : Prop where
  overlayRound : t.overlayRound = s.overlayRound
  isLastRound : t.isLastRound = s.isLastRound
  pingResponse : t.pingResponseFromPredecessor = s.pingResponseFromPredecessor
  roundTimeoutTimer : t.roundTimeoutTimer = s.roundTimeoutTimer
  timers : t.timers = s.timers

namespace SameClock

theorem refl (s : ProtocolState ι) : SameClock s s := ⟨rfl, rfl, rfl, rfl, rfl⟩

theorem emplaceProxyValue (s : ProtocolState ι) (contribution : ValueContribution) :
    SameClock s (s.emplaceProxyValue contribution) ∧
      (s.emplaceProxyValue contribution).impl = s.impl := by
  unfold ProtocolState.emplaceProxyValue
  split_ifs
  · exact ⟨refl s, rfl⟩
  · exact ⟨⟨rfl, rfl, rfl, rfl, rfl⟩, rfl⟩

theorem sendTo (s : ProtocolState ι) (env : ProtocolEnv) (a : Action) (recipientId : ℤ) :
    SameClock s (s.sendTo env a recipientId) ∧ (s.sendTo env a recipientId).impl = s.impl := by
  unfold ProtocolState.sendTo
  split_ifs
  · exact ⟨⟨rfl, rfl, rfl, rfl, rfl⟩, rfl⟩
  · exact ⟨⟨rfl, rfl, rfl, rfl, rfl⟩, rfl⟩

end SameClock

/-- An aggregate that is taken in may finish the Aggregate phase. -/
theorem handleAggregationMessage_clock {env : ProtocolEnv} {ph : AggregatePhase ι}
    (message : AggregationMessage) (s : ProtocolState ι) :
    (handleAggregationMessage env ph message s).Ends
      (fun t => SameClock s t ∧ (t.impl = s.impl ∨ t.impl = ph.finish s.impl)) fun _ => True := by
  unfold handleAggregationMessage
  split
  · trivial
  · split
    · trivial
    · unfold sendAggregateIfDone
      split
      · trivial
      · split_ifs
        · refine Outcome.Ends.andThen (P := fun t => SameClock s t ∧ t.impl = s.impl) ?_
            fun t ht => ⟨⟨ht.1.overlayRound, ht.1.isLastRound, ht.1.pingResponse,
              ht.1.roundTimeoutTimer, ht.1.timers⟩, .inr (congrArg ph.finish ht.2)⟩
          unfold computeAndSendAggregate
          split
          · trivial
          · dsimp only
            split
            · trivial
            · split
              · trivial
              · exact ⟨⟨rfl, rfl, rfl, rfl, rfl⟩, rfl⟩
        · exact ⟨⟨rfl, rfl, rfl, rfl, rfl⟩, .inl rfl⟩

theorem beginRound_clock (env : ProtocolEnv) (s : ProtocolState ι) :
    (beginRound env s).overlayRound = s.overlayRound + 1 ∧
      (beginRound env s).isLastRound = s.isLastRound ∧
      (beginRound env s).pingResponseFromPredecessor = false ∧
      (beginRound env s).impl = s.impl ∧
      (beginRound env s).timers.pending =
        s.timers.pending ++ [((beginRound env s).roundTimeoutTimer, s.overlayRound + 1)] := by
  have hbatch (t : ProtocolState ι) : SameClock t (sendOverlayMessageBatch env t) ∧
      (sendOverlayMessageBatch env t).impl = t.impl := by
    unfold sendOverlayMessageBatch
    dsimp only
    obtain ⟨hclock, himpl⟩ := SameClock.sendTo { t with
      waitingMessages := t.waitingMessages.filter
        (fun m => !decide (m.destination = gossipTarget env.meterId t.overlayRound env.numMeters)) ++
          t.outgoingMessages.filter fun m => !(m.flood ||
            decide (m.destination = gossipTarget env.meterId t.overlayRound env.numMeters))
      outgoingMessages := [] } env _ _
    exact ⟨⟨hclock.overlayRound, hclock.isLastRound, hclock.pingResponse,
      hclock.roundTimeoutTimer, hclock.timers⟩, himpl⟩
  obtain ⟨hclock, himpl⟩ := hbatch
    { s with overlayRound := s.overlayRound + 1, pingResponseFromPredecessor := false }
  unfold beginRound
  dsimp only
  generalize sendOverlayMessageBatch env
    { s with overlayRound := s.overlayRound + 1, pingResponseFromPredecessor := false } = u
    at hclock himpl ⊢
  have hset : u.setRoundTimeout.timers.pending =
      s.timers.pending ++ [(u.setRoundTimeout.roundTimeoutTimer, s.overlayRound + 1)] := by
    change u.timers.pending ++ [(u.timers.nextId, u.overlayRound)] =
      s.timers.pending ++ [(u.timers.nextId, s.overlayRound + 1)]
    rw [hclock.timers, hclock.overlayRound]
  split_ifs
  · exact ⟨hclock.overlayRound, hclock.isLastRound, hclock.pingResponse, himpl, hset⟩
  · obtain ⟨hping, hsame⟩ := SameClock.sendTo u.setRoundTimeout env
      (.sendPing ⟨env.meterId, false⟩
        (gossipPredecessor env.meterId u.setRoundTimeout.overlayRound env.numMeters))
      (gossipPredecessor env.meterId u.setRoundTimeout.overlayRound env.numMeters)
    refine ⟨hping.overlayRound.trans hclock.overlayRound, hping.isLastRound.trans hclock.isLastRound,
      hping.pingResponse.trans hclock.pingResponse, hsame.trans himpl, ?_⟩
    rw [hping.timers, hping.roundTimeoutTimer]
    exact hset

structure Armed (P : Protocol ι) (s : ProtocolState ι) : Prop where
  overlay : P.isInOverlayPhase s.impl = true →
    s.isLastRound = false ∧ s.timers.pending = [(s.roundTimeoutTimer, s.overlayRound)]
  otherwise : P.isInOverlayPhase s.impl = false → s.timers.pending = []

/-- What a meter can wait for in the overlay: two timeouts in each round that is left, and one
more where its predecessor has answered a ping. -/
def patience (P : Protocol ι) (lastRound : ℤ) (s : ProtocolState ι) : ℤ :=
  if P.isInOverlayPhase s.impl then
    2 * (lastRound + 1 - s.overlayRound) + if s.pingResponseFromPredecessor then 1 else 0
  else 0

/-- Where a round is about to end or has just ended: `next` is the round for which the protocol
is on time, from the current one on, and `c` bounds what is left to wait for. -/
inductive InRound (P : Protocol ι) (OnTime : ℤ → ι → Prop) (lastRound next c : ℤ)
    (s : ProtocolState ι) : Prop
  | running (hphase : P.isInOverlayPhase s.impl = true) (hlast : s.isLastRound = false)
      (honTime : OnTime (s.overlayRound + next) s.impl) (htimers : s.OneTimer)
      (hc : 2 * (lastRound - s.overlayRound) ≤ c)
  | stopped (hphase : P.isInOverlayPhase s.impl = false) (hlast : s.isLastRound = true)
      (honTime : OnTime s.overlayRound s.impl) (htimers : s.OneTimer) (hc : 0 ≤ c)

/-- The clock between handlers, once the overlay has been started. -/
inductive Ticking (P : Protocol ι) (OnTime : ℤ → ι → Prop) (lastRound c : ℤ)
    (s : ProtocolState ι) : Prop
  | running (hphase : P.isInOverlayPhase s.impl = true) (hlast : s.isLastRound = false)
      (honTime : OnTime s.overlayRound s.impl)
      (htimers : s.timers.pending = [(s.roundTimeoutTimer, s.overlayRound)])
      (hc : patience P lastRound s ≤ c)
  | stopped (hphase : P.isInOverlayPhase s.impl = false) (hlast : s.isLastRound = true)
      (honTime : OnTime s.overlayRound s.impl) (htimers : s.timers.pending = []) (hc : 0 ≤ c)

/-- A meter that is waiting may end its round. -/
theorem Ticking.leaving {P : Protocol ι} {OnTime : ℤ → ι → Prop} {lastRound c : ℤ}
    {s : ProtocolState ι} (hs : Ticking P OnTime lastRound c s) (cause : RoundEnd) :
    InRound P OnTime lastRound 0 c (s.leaving cause) := by
  cases hs with
  | running hphase hlast honTime htimers hc =>
    refine .running hphase hlast ?_ (fun e he => ?_) ?_
    · rwa [add_zero]
    · have hmem : e ∈ s.timers.pending := he
      rw [htimers, List.mem_singleton] at hmem
      rw [hmem]
      rfl
    · rw [patience, if_pos hphase] at hc
      change 2 * (lastRound - s.overlayRound) ≤ c
      split_ifs at hc <;> omega
  | stopped hphase hlast honTime htimers hc =>
    refine .stopped hphase hlast honTime (fun e he => ?_) hc
    have hmem : e ∈ s.timers.pending := he
    rw [htimers] at hmem
    cases hmem

/-- The clock before the overlay is started. -/
structure Unstarted (P : Protocol ι) (Waiting : ℤ → ι → Prop) (s : ProtocolState ι) : Prop where
  phase : P.isInOverlayPhase s.impl = false
  last : s.isLastRound = false
  waiting : Waiting s.overlayRound s.impl
  timers : s.timers.pending = []

/-- The overlay is about to be started. -/
structure Opening (P : Protocol ι) (OnTime : ℤ → ι → Prop) (s : ProtocolState ι) : Prop where
  overlayRound : s.overlayRound = -1
  phase : P.isInOverlayPhase s.impl = true
  last : s.isLastRound = false
  onTime : OnTime (-1) s.impl
  timers : s.timers.pending = []

/-- What keeps the rounds of a protocol on time: the overlay is over after `lastRound`. Before
the overlay is started the data of the protocol are `Waiting`. -/
structure KeepsRounds {P : Protocol ι} (L : Layered P) (env : ProtocolEnv)
    (OnTime Waiting : ℤ → ι → Prop) (lastRound : ℤ) : Prop where
  bound : ∀ r i, OnTime r i → P.isInOverlayPhase i = true → -1 ≤ r ∧ r ≤ lastRound
  apart : ∀ i, P.isInOverlayPhase i = true → P.isInAggregatePhase i = false
  waits : ∀ r i, Waiting r i → P.isInAggregatePhase i = false
  finish : ∀ r i, P.isInAggregatePhase i = true → OnTime r i →
    OnTime r (P.finish i) ∧ P.isInOverlayPhase (P.finish i) = false
  body : ∀ message s, (L.handleBody env message s).Holds fun t => SameClock s t ∧
    P.isInOverlayPhase t.impl = P.isInOverlayPhase s.impl ∧
      (∀ r, OnTime r s.impl → OnTime r t.impl) ∧ ∀ r, Waiting r s.impl → Waiting r t.impl
  ends : ∀ s, P.isInOverlayPhase s.impl = true → s.isLastRound = false →
    OnTime s.overlayRound s.impl → (P.endOverlayRoundImpl env s).Ends
      (fun t => (P.isInOverlayPhase t.impl = true ∧ t.isLastRound = false ∧
          OnTime (s.overlayRound + 1) t.impl) ∨
        (P.isInOverlayPhase t.impl = false ∧ t.isLastRound = true ∧
          OnTime s.overlayRound t.impl)) fun _ => True
  rests : ∀ s, P.isInOverlayPhase s.impl = false → P.endOverlayRoundImpl env s = .done s

/-- What keeps a protocol on time through all its queries; `A` says when a signature may
arrive. -/
structure KeepsTime {P : Protocol ι} (L : Layered P) (env : ProtocolEnv)
    (OnTime Waiting : ℤ → ι → Prop) (lastRound : ℤ) (A : ProtocolState ι → Prop) : Prop
    extends KeepsRounds L env OnTime Waiting lastRound where
  init : Waiting 0 P.init ∧ P.isInOverlayPhase P.init = false
  start : ∀ endRound request s (I : ProtocolState ι → Prop), s.overlayRound = -1 →
    s.isLastRound = false → s.timers.pending = [] →
    (∀ t, Opening P OnTime t → (endRound t).Ends I fun _ => True) →
    (∀ t, Unstarted P Waiting t → I t) →
    (P.startQueryImpl env endRound request s).Ends I fun _ => True
  signature : ∀ endRound message s (I : ProtocolState ι → Prop), A s → I s →
    (Unstarted P Waiting s ∨ ∃ c, Ticking P OnTime lastRound c s) →
    (∀ t, Opening P OnTime t → (endRound t).Ends I fun _ => True) →
    (P.handleSignatureResponse env endRound message s).Ends I fun _ => True
  startSame : ∀ endRound endRound' request s, s.overlayRound = -1 → s.isLastRound = false →
    s.timers.pending = [] → (∀ t, Opening P OnTime t → endRound t = endRound' t) →
    P.startQueryImpl env endRound request s = P.startQueryImpl env endRound' request s
  signatureSame : ∀ endRound endRound' message s, A s →
    (Unstarted P Waiting s ∨ ∃ c, Ticking P OnTime lastRound c s) →
    (∀ t, Opening P OnTime t → endRound t = endRound' t) →
    P.handleSignatureResponse env endRound message s =
      P.handleSignatureResponse env endRound' message s

namespace KeepsRounds
variable {P : Protocol ι} {L : Layered P} {env : ProtocolEnv} {OnTime Waiting : ℤ → ι → Prop}
  {lastRound c : ℤ} {s t : ProtocolState ι}
  {endRound : ProtocolState ι → Outcome Fault (ProtocolState ι)}
  (h : KeepsRounds L env OnTime Waiting lastRound)
include h

/-- The handling of a message in the overlay sets the timer anew. -/
theorem absorb_ticking (message : OverlayTransportMessage)
    (hs : Ticking P OnTime lastRound c s) :
    (L.absorb env message s).Ends (Ticking P OnTime lastRound c) fun _ => True := by
  have hnote : Ticking P OnTime lastRound c (noteOverlay env P message s) := by
    unfold noteOverlay
    dsimp only
    cases hs with
    | running hphase hlast honTime htimers hc =>
      rw [if_pos (show P.isInOverlayPhase (s.act _).impl = true from hphase)]
      refine .running hphase hlast honTime ?_ hc
      have hnone := Timers.cancel_pending_singleton htimers
      change (s.timers.cancel s.roundTimeoutTimer).pending ++ _ = _
      rw [hnone]
      rfl
    | stopped hphase hlast honTime htimers hc =>
      rw [if_neg (by simp [act, hphase])]
      exact .stopped hphase hlast honTime htimers hc
  refine (h.body _ _).mono (fun t ht => ?_) fun _ _ => trivial
  obtain ⟨hclock, hsame, honTime', -⟩ := ht
  cases hnote with
  | running hphase hlast honTime htimers hc =>
    refine .running (hsame.trans hphase) (hclock.isLastRound.trans hlast) ?_ ?_ ?_
    · rw [hclock.overlayRound]
      exact honTime' _ honTime
    · rw [hclock.timers, hclock.overlayRound, hclock.roundTimeoutTimer]
      exact htimers
    · rwa [patience, hsame, hclock.overlayRound, hclock.pingResponse]
  | stopped hphase hlast honTime htimers hc =>
    refine .stopped (hsame.trans hphase) (hclock.isLastRound.trans hlast) ?_ ?_ hc
    · rw [hclock.overlayRound]
      exact honTime' _ honTime
    · rw [hclock.timers]
      exact htimers

theorem absorb_unstarted (message : OverlayTransportMessage) (hs : Unstarted P Waiting s) :
    (L.absorb env message s).Ends (Unstarted P Waiting) fun _ => True := by
  have hnote : Unstarted P Waiting (noteOverlay env P message s) := by
    unfold noteOverlay
    dsimp only
    rw [if_neg (by simp [act, hs.phase])]
    exact ⟨hs.phase, hs.last, hs.waiting, hs.timers⟩
  refine (h.body _ _).mono (fun t ht => ?_) fun _ _ => trivial
  obtain ⟨hclock, hsame, -, hwaiting⟩ := ht
  refine ⟨hsame.trans hnote.phase, hclock.isLastRound.trans hnote.last, ?_, ?_⟩
  · rw [hclock.overlayRound]
    exact hwaiting _ hnote.waiting
  · rw [hclock.timers]
    exact hnote.timers

theorem handleOverlayMessage_ticking
    (hrec : ∀ t, InRound P OnTime lastRound 0 c t →
      (endRound t).Ends (Ticking P OnTime lastRound c) fun _ => True)
    (message : OverlayTransportMessage) (hs : Ticking P OnTime lastRound c s) :
    (handleOverlayMessage env P endRound message s).Ends (Ticking P OnTime lastRound c)
      fun _ => True := by
  rw [L.handleOverlayMessage_eq]
  refine (h.absorb_ticking message hs).andThen fun t ht => ?_
  split_ifs
  · exact hrec _ (ht.leaving _)
  · exact ht

theorem superEndOverlayRound_ticking
    (hrec : ∀ t, InRound P OnTime lastRound 0 c t →
      (endRound t).Ends (Ticking P OnTime lastRound c) fun _ => True)
    (hs : InRound P OnTime lastRound 1 c s) :
    (superEndOverlayRound env P endRound s).Ends (Ticking P OnTime lastRound c) fun _ => True := by
  unfold superEndOverlayRound
  dsimp only
  cases hs with
  | stopped hphase hlast honTime htimers hc =>
    rw [if_pos (show s.cancelTimer.isLastRound = true from hlast)]
    exact .stopped hphase hlast honTime htimers.cancel hc
  | running hphase hlast honTime htimers hc =>
    rw [if_neg (show ¬ s.cancelTimer.isLastRound = true by simp [cancelTimer, hlast])]
    obtain ⟨hround, hsame, hping, himpl, hpending⟩ := beginRound_clock env s.cancelTimer
    have hbegun : Ticking P OnTime lastRound c (beginRound env s.cancelTimer) := by
      refine .running (himpl ▸ hphase) (hsame.trans hlast) ?_ ?_ ?_
      · rw [hround, himpl]
        exact honTime
      · rw [hpending, hround]
        change (s.timers.cancel s.roundTimeoutTimer).pending ++ _ = _
        rw [htimers.cancel]
        rfl
      · rw [patience, himpl, if_pos (show P.isInOverlayPhase s.cancelTimer.impl = true from hphase),
          hping, hround]
        change 2 * (lastRound + 1 - (s.overlayRound + 1)) + 0 ≤ c
        omega
    generalize beginRound env s.cancelTimer = u at hbegun ⊢
    have hlogged : Ticking P OnTime lastRound c
        { u.act (.replayOverlay u.overlayRound (u.futureOverlayMessages.filter u.isForRound)) with
          futureOverlayMessages := u.futureOverlayMessages.filter fun m => !u.isForRound m } := by
      cases hbegun with
      | running hphase hlast honTime htimers hc => exact .running hphase hlast honTime htimers hc
      | stopped hphase hlast honTime htimers hc => exact .stopped hphase hlast honTime htimers hc
    refine Outcome.Ends.andThen (P := Ticking P OnTime lastRound c)
      (Outcome.forEach_ends hlogged fun message _ t ht => ?_) fun t ht => ?_
    · exact h.handleOverlayMessage_ticking hrec message ht
    · split_ifs
      · exact hrec _ (ht.leaving _)
      · exact ht

theorem endOverlayRoundImpl_inRound (hs : InRound P OnTime lastRound 0 c s) :
    (P.endOverlayRoundImpl env s).Ends (InRound P OnTime lastRound 1 c) fun _ => True := by
  cases hs with
  | stopped hphase hlast honTime htimers hc =>
    rw [h.rests s hphase]
    exact .stopped hphase hlast honTime htimers hc
  | running hphase hlast honTime htimers hc =>
    rw [add_zero] at honTime
    obtain ⟨-, hbound⟩ := h.bound _ _ honTime hphase
    refine ((L.ends env s).and (h.ends s hphase hlast honTime)).mono (fun t ht => ?_)
      fun _ _ => trivial
    obtain ⟨hsame, hended⟩ := ht
    have honly : t.OneTimer := htimers.of_fields hsame.roundTimeoutTimer hsame.timers
    rcases hended with ⟨hphase', hlast', honTime'⟩ | ⟨hphase', hlast', honTime'⟩
    · refine .running hphase' hlast' ?_ honly ?_
      · rw [hsame.overlayRound]
        exact honTime'
      · rw [hsame.overlayRound]
        exact hc
    · refine .stopped hphase' hlast' ?_ honly (by omega)
      rw [hsame.overlayRound]
      exact honTime'

/-- Ending a round leaves the clock ticking, however many rounds end in turn. -/
theorem endOverlayRound_ticking (fuel : ℕ) (hs : InRound P OnTime lastRound 0 c s) :
    (endOverlayRound env P fuel s).Ends (Ticking P OnTime lastRound c) fun _ => True := by
  induction fuel generalizing s with
  | zero => trivial
  | succ fuel ih =>
    exact (h.endOverlayRoundImpl_inRound hs).andThen fun t ht =>
      h.superEndOverlayRound_ticking (fun _ => ih) ht

end KeepsRounds

def Clock (P : Protocol ι) (OnTime Waiting : ℤ → ι → Prop) (lastRound c : ℤ)
    (s : ProtocolState ι) : Prop :=
  (Unstarted P Waiting s ∧ 0 ≤ c) ∨ Ticking P OnTime lastRound c s

namespace Clock
variable {P : Protocol ι} {OnTime Waiting : ℤ → ι → Prop} {lastRound c : ℤ} {s t : ProtocolState ι}

theorem armed (hs : Clock P OnTime Waiting lastRound c s) : Armed P s := by
  rcases hs with ⟨hs, -⟩ | hs
  · exact ⟨fun hphase => by simp [hs.phase] at hphase, fun _ => hs.timers⟩
  · cases hs with
    | running hphase hlast honTime htimers hc =>
      exact ⟨fun _ => ⟨hlast, htimers⟩, fun hphase' => by simp [hphase] at hphase'⟩
    | stopped hphase hlast honTime htimers hc =>
      exact ⟨fun hphase' => by simp [hphase] at hphase', fun _ => htimers⟩

theorem patience_le (hs : Clock P OnTime Waiting lastRound c s) : patience P lastRound s ≤ c := by
  rcases hs with ⟨hs, hc⟩ | hs
  · rwa [patience, if_neg (by simp [hs.phase])]
  · cases hs with
    | running hphase hlast honTime htimers hc => exact hc
    | stopped hphase hlast honTime htimers hc => rwa [patience, if_neg (by simp [hphase])]

/-- The bound may be any that is not below what is left to wait for. -/
theorem rebound (hs : Clock P OnTime Waiting lastRound c s) {c' : ℤ}
    (hc' : patience P lastRound s ≤ c') : Clock P OnTime Waiting lastRound c' s := by
  rcases hs with ⟨hs, -⟩ | hs
  · rw [patience, if_neg (by simp [hs.phase])] at hc'
    exact .inl ⟨hs, hc'⟩
  · cases hs with
    | running hphase hlast honTime htimers hc =>
      exact .inr (.running hphase hlast honTime htimers hc')
    | stopped hphase hlast honTime htimers hc =>
      rw [patience, if_neg (by simp [hphase])] at hc'
      exact .inr (.stopped hphase hlast honTime htimers hc')

theorem same (hs : Clock P OnTime Waiting lastRound c s) (h : SameClock s t)
    (himpl : t.impl = s.impl) : Clock P OnTime Waiting lastRound c t := by
  rcases hs with ⟨hs, hc⟩ | hs
  · refine .inl ⟨⟨himpl ▸ hs.phase, h.isLastRound.trans hs.last, ?_, h.timers ▸ hs.timers⟩, hc⟩
    rw [h.overlayRound, himpl]
    exact hs.waiting
  · refine .inr ?_
    cases hs with
    | running hphase hlast honTime htimers hc =>
      refine .running (himpl ▸ hphase) (h.isLastRound.trans hlast) ?_ ?_ ?_
      · rw [h.overlayRound, himpl]
        exact honTime
      · rw [h.timers, h.overlayRound, h.roundTimeoutTimer]
        exact htimers
      · rwa [patience, himpl, h.overlayRound, h.pingResponse]
    | stopped hphase hlast honTime htimers hc =>
      refine .stopped (himpl ▸ hphase) (h.isLastRound.trans hlast) ?_ (h.timers ▸ htimers) hc
      rw [h.overlayRound, himpl]
      exact honTime

end Clock

def fires (s : ProtocolState ι) : Event → Bool
  | .timerExpires id => s.timers.isPending id
  | _ => false

def Event.answers : Event → Bool
  | .ping message => message.isResponse
  | _ => false

def Event.isPassing : Event → Bool
  | .startQuery .. | .signatureResponse _ => false
  | _ => true

namespace KeepsRounds
variable {P : Protocol ι} {L : Layered P} {env : ProtocolEnv} {OnTime Waiting : ℤ → ι → Prop}
  {lastRound c : ℤ} {s : ProtocolState ι} (h : KeepsRounds L env OnTime Waiting lastRound)
include h

theorem receiveOverlay_clock (fuel : ℕ) (message : OverlayTransportMessage)
    (hs : Clock P OnTime Waiting lastRound c s) :
    (receiveOverlay env P fuel message s).Ends (Clock P OnTime Waiting lastRound c)
      fun _ => True := by
  have hbuffer : Clock P OnTime Waiting lastRound c (s.bufferOverlay message) :=
    hs.same ⟨rfl, rfl, rfl, rfl, rfl⟩ rfl
  unfold receiveOverlay
  split_ifs
  · exact hbuffer
  · exact hs
  · rcases hs with ⟨hs, hc⟩ | hs
    · rw [L.handleOverlayMessage_eq]
      refine (h.absorb_unstarted message hs).andThen fun t ht => ?_
      rw [if_neg (by simp [ht.phase])]
      exact .inl ⟨ht, hc⟩
    · exact (h.handleOverlayMessage_ticking (fun _ => h.endOverlayRound_ticking fuel) message
        hs).mono (fun _ ht => .inr ht) fun _ _ => trivial
  · exact hbuffer
  · exact hs

theorem receiveAggregation_clock (message : AggregationMessage)
    (hs : Clock P OnTime Waiting lastRound c s) :
    (receiveAggregation env P.toAggregatePhase message s).Ends
      (Clock P OnTime Waiting lastRound c) fun _ => True := by
  by_cases hinside : P.isInAggregatePhase s.impl = true
  · have hstopped : Ticking P OnTime lastRound c s := by
      rcases hs with ⟨hs, -⟩ | hs
      · rw [h.waits _ _ hs.waiting] at hinside
        cases hinside
      · exact hs
    cases hstopped with
    | running hphase hlast honTime htimers hc =>
      rw [h.apart _ hphase] at hinside
      cases hinside
    | stopped hphase hlast honTime htimers hc =>
      unfold receiveAggregation
      rw [if_pos (show s.isInAggregatePhase P.toAggregatePhase = true from hinside)]
      refine (handleAggregationMessage_clock message _).mono (fun t ht => .inr ?_)
        fun _ _ => trivial
      obtain ⟨hclock, himpl⟩ := ht
      have hmoved : P.isInOverlayPhase t.impl = false ∧ OnTime s.overlayRound t.impl := by
        rcases himpl with himpl | himpl
        · rw [himpl]
          exact ⟨hphase, honTime⟩
        · rw [himpl]
          exact ((h.finish _ _ hinside honTime).symm)
      refine .stopped hmoved.1 (hclock.isLastRound.trans hlast) ?_ (hclock.timers ▸ htimers) hc
      rw [hclock.overlayRound]
      exact hmoved.2
  · rcases receiveAggregation_outside env message (Bool.eq_false_iff.mpr hinside) with heq | heq
    · rw [heq]
      exact hs
    · rw [heq]
      exact hs.same ⟨rfl, rfl, rfl, rfl, rfl⟩ rfl

/-- A timer that goes off is paid for: the round is over, or a ping had been answered. -/
theorem timerExpires_clock (fuel : ℕ) (id : ℤ) (hs : Clock P OnTime Waiting lastRound c s)
    (hc : c = patience P lastRound s) : (timerExpires env P fuel id s).Ends
      (Clock P OnTime Waiting lastRound (c - if s.timers.isPending id then 1 else 0))
      fun _ => True := by
  unfold timerExpires
  cases hfind : s.timers.find id with
  | some registeredIn =>
    dsimp only
    have hmem := Timers.mem_of_find hfind
    rw [if_pos (Timers.isPending_iff.mpr ⟨_, hmem⟩)]
    rcases hs with ⟨hs, -⟩ | hs
    · rw [hs.timers] at hmem
      cases hmem
    · cases hs with
      | stopped hphase hlast honTime htimers _ =>
        rw [htimers] at hmem
        cases hmem
      | running hphase hlast honTime htimers _ =>
        rw [htimers, List.mem_singleton, Prod.mk.injEq] at hmem
        obtain ⟨rfl, rfl⟩ := hmem
        have hnone := Timers.cancel_pending_singleton htimers
        rw [patience, if_pos hphase] at hc
        unfold handleRoundTimeout
        dsimp only
        split_ifs with hping
        · rw [if_pos hping] at hc
          have hagain : Ticking P OnTime lastRound (c - 1) ({ s with
              timers := s.timers.cancel s.roundTimeoutTimer
              pingResponseFromPredecessor := false } : ProtocolState ι).setRoundTimeout := by
            refine .running hphase hlast honTime ?_ ?_
            · change (s.timers.cancel s.roundTimeoutTimer).pending ++ _ = _
              rw [hnone]
              rfl
            · rw [patience]
              change (if P.isInOverlayPhase s.impl then
                2 * (lastRound + 1 - s.overlayRound) + 0 else 0) ≤ c - 1
              rw [if_pos hphase]
              omega
          obtain ⟨hclock, himpl⟩ := SameClock.sendTo _ env (.sendPing ⟨env.meterId, false⟩
            (gossipPredecessor env.meterId s.overlayRound env.numMeters))
            (gossipPredecessor env.meterId s.overlayRound env.numMeters)
          exact Clock.same (.inr hagain) hclock himpl
        · rw [if_neg hping] at hc
          refine (h.endOverlayRound_ticking fuel ?_).mono (fun _ ht => .inr ht) fun _ _ => trivial
          refine .running hphase hlast ?_ (fun e he => ?_) ?_
          · rw [add_zero]
            exact honTime
          · have hmem : e ∈ (s.timers.cancel s.roundTimeoutTimer).pending := he
            rw [hnone] at hmem
            cases hmem
          · change 2 * (lastRound - s.overlayRound) ≤ _
            omega
  | none =>
    rw [if_neg, sub_zero]
    · exact hs
    · intro hpending
      obtain ⟨payload, hmem⟩ := Timers.isPending_iff.mp hpending
      rw [Timers.find, Option.map_eq_none_iff, List.find?_eq_none] at hfind
      exact hfind _ hmem (by simp)

/-- What one event costs: a timer that goes off shortens the wait, an answer to a ping may
prolong it. -/
theorem handle_clock (fuel : ℕ) {e : Event} (he : e.isPassing = true)
    (hs : Clock P OnTime Waiting lastRound c s) (hc : c = patience P lastRound s) :
    (s.handle env P fuel e).Ends (Clock P OnTime Waiting lastRound
      (c + (if e.answers then 1 else 0) - if s.fires e then 1 else 0)) fun _ => True := by
  have hplain (o : Outcome Fault (ProtocolState ι))
      (ho : o.Ends (Clock P OnTime Waiting lastRound c) fun _ => True) :
      o.Ends (Clock P OnTime Waiting lastRound (c + 0 - 0)) fun _ => True := by
    rwa [add_zero, sub_zero]
  cases e with
  | startQuery => cases he
  | signatureResponse => cases he
  | overlay message => exact hplain _ (h.receiveOverlay_clock fuel message hs)
  | aggregation message => exact hplain _ (h.receiveAggregation_clock message hs)
  | timerExpires id =>
    have htimer := h.timerExpires_clock fuel id hs hc
    rwa [← add_zero c] at htimer
  | ping message =>
    change Clock P OnTime Waiting lastRound (c + (if message.isResponse then 1 else 0) - 0)
      (s.handlePingMessage env message)
    rw [sub_zero]
    unfold handlePingMessage
    cases hresponse : message.isResponse with
    | false =>
      simp only [Bool.not_false, if_true, Bool.false_eq_true, if_false, add_zero]
      exact hs.same ⟨rfl, rfl, rfl, rfl, rfl⟩ rfl
    | true =>
      simp only [Bool.not_true, Bool.false_eq_true, if_false, if_true]
      split_ifs
      · have hanswered : patience P lastRound { s with pingResponseFromPredecessor := true } ≤
            c + 1 := by
          rw [hc, patience, patience]
          dsimp only
          split_ifs <;> omega
        rcases hs with ⟨hs, hnonneg⟩ | hs
        · exact .inl ⟨⟨hs.phase, hs.last, hs.waiting, hs.timers⟩, by omega⟩
        · cases hs with
          | running hphase hlast honTime htimers _ =>
            exact .inr (.running hphase hlast honTime htimers hanswered)
          | stopped hphase hlast honTime htimers hnonneg =>
            exact .inr (.stopped hphase hlast honTime htimers (by omega))
      · exact hs.rebound (by omega)

end KeepsRounds

namespace KeepsTime
variable {P : Protocol ι} {L : Layered P} {env : ProtocolEnv} {OnTime Waiting : ℤ → ι → Prop}
  {lastRound : ℤ} {A : ProtocolState ι → Prop} {s : ProtocolState ι}
  (h : KeepsTime L env OnTime Waiting lastRound A)
include h

theorem handle_clock_exists (fuel : ℕ) {e : Event}
    (hsign : ∀ message, e = .signatureResponse message → A s)
    (hs : ∃ c, Clock P OnTime Waiting lastRound c s) :
    (s.handle env P fuel e).Ends (fun t => ∃ c, Clock P OnTime Waiting lastRound c t)
      fun _ => True := by
  obtain ⟨c, hs⟩ := hs
  have hopen (t : ProtocolState ι) (ht : Opening P OnTime t) :
      (endOverlayRound env P fuel t).Ends (fun t => ∃ c, Clock P OnTime Waiting lastRound c t)
        fun _ => True := by
    have hround : InRound P OnTime lastRound 0 (2 * (lastRound + 1)) t := by
      refine .running ht.phase ht.last ?_ (fun e he => ?_) ?_
      · rw [ht.overlayRound]
        exact ht.onTime
      · rw [ht.timers] at he
        cases he
      · rw [ht.overlayRound]
        omega
    exact (h.toKeepsRounds.endOverlayRound_ticking fuel hround).mono (fun _ hu => ⟨_, .inr hu⟩) fun _ _ => trivial
  by_cases he : e.isPassing = true
  · exact (h.toKeepsRounds.handle_clock fuel he (hs.rebound le_rfl) rfl).mono (fun _ ht => ⟨_, ht⟩)
      fun _ _ => trivial
  · cases e with
    | startQuery request data =>
      have hcancel : (s.timers.cancel s.roundTimeoutTimer).pending = [] := by
        cases hphase : P.isInOverlayPhase s.impl with
        | true => exact Timers.cancel_pending_singleton (hs.armed.overlay hphase).2
        | false => exact Timers.cancel_pending_nil (hs.armed.otherwise hphase) _
      change (startQuery env P fuel request data s).Ends _ _
      unfold startQuery
      dsimp only
      split
      · trivial
      · exact h.start _ _ _ _ rfl rfl hcancel hopen fun t ht => ⟨0, .inl ⟨ht, le_rfl⟩⟩
    | signatureResponse message =>
      refine h.signature _ _ _ _ (hsign message rfl) ⟨c, hs⟩ ?_ hopen
      rcases hs with ⟨hs, -⟩ | hs
      · exact .inl hs
      · exact .inr ⟨c, hs⟩
    | _ => exact absurd rfl he

theorem clock_init : (Outcome.done (.init P.init) : Outcome Fault (ProtocolState ι)).Ends
    (fun t => ∃ c, Clock P OnTime Waiting lastRound c t) fun _ => True :=
  ⟨0, .inl ⟨⟨h.init.2, rfl, h.init.1, rfl⟩, le_rfl⟩⟩

theorem clock_of_run (fuel : ℕ) {es : List Event}
    (hes : Along (step env P fuel) (fun o e => ∀ message, e = .signatureResponse message → A o.state)
      (.done (.init P.init)) es) :
    (run env P fuel es).Ends (fun t => ∃ c, Clock P OnTime Waiting lastRound c t)
      fun _ => True := by
  refine (hes.throughout (I := fun o => o.Ends
    (fun t => ∃ c, Clock P OnTime Waiting lastRound c t) fun _ => True) h.clock_init
      fun o e ho he => ?_).last
  cases o with
  | halted error s => trivial
  | done s => exact h.handle_clock_exists fuel he ho

end KeepsTime

def firings (env : ProtocolEnv) (P : Protocol ι) (fuel : ℕ) :
    Outcome Fault (ProtocolState ι) → List Event → ℤ
  | _, [] => 0
  | o, e :: es => (if o.state.fires e then 1 else 0) + firings env P fuel (step env P fuel o e) es

theorem foldl_step_halted (env : ProtocolEnv) (P : Protocol ι) (fuel : ℕ) (error : Fault)
    (s : ProtocolState ι) (es : List Event) :
    es.foldl (step env P fuel) (.halted error s) = .halted error s := by
  induction es with
  | nil => rfl
  | cons e es ih => exact ih

/-- Each timer that goes off is paid for, by a round or by an answered ping. -/
theorem KeepsRounds.patience_run {P : Protocol ι} {L : Layered P} {env : ProtocolEnv}
    {OnTime Waiting : ℤ → ι → Prop} {lastRound c : ℤ}
    (h : KeepsRounds L env OnTime Waiting lastRound) (fuel : ℕ) {s t : ProtocolState ι}
    (hs : Clock P OnTime Waiting lastRound c s) {es : List Event}
    (hes : ∀ e ∈ es, e.isPassing = true) (hdone : es.foldl (step env P fuel) (.done s) = .done t) :
    Clock P OnTime Waiting lastRound
      (patience P lastRound s + es.countP Event.answers - firings env P fuel (.done s) es) t := by
  induction es generalizing s c with
  | nil =>
    obtain rfl := Outcome.done.inj hdone
    exact hs.rebound (by simp [firings])
  | cons e es ih =>
    have hstep := h.handle_clock fuel (hes e (by simp)) (hs.rebound le_rfl) rfl
    rw [List.foldl_cons] at hdone
    change (step env P fuel (.done s) e).Ends _ _ at hstep
    cases hnext : step env P fuel (.done s) e with
    | halted error u =>
      rw [hnext, foldl_step_halted] at hdone
      cases hdone
    | done u =>
      rw [hnext] at hdone hstep
      have hrest := ih hstep (fun e he => hes e (by simp [he])) hdone
      have hcost : patience P lastRound u ≤ _ := Clock.patience_le hstep
      refine hrest.rebound (hrest.patience_le.trans ?_)
      rw [firings, hnext, List.countP_cons]
      push_cast
      change _ ≤ _ - ((if s.fires e then 1 else 0) + _)
      split_ifs at hcost ⊢ <;> omega

/-- What a meter waits for, from one query to the next. -/
structure TimersEnd (env : ProtocolEnv) (P : Protocol ι) (lastRound : ℤ) (fuel : ℕ)
    (es : List Event) : Prop where
  armed : (run env P fuel es).Ends (Armed P) fun _ => True
  within : ∀ s t es', run env P fuel es = .done s → (∀ e ∈ es', e.isPassing = true) →
    es'.foldl (step env P fuel) (.done s) = .done t →
      firings env P fuel (.done s) es' + patience P lastRound t ≤
        patience P lastRound s + es'.countP Event.answers
  leaves : ∀ s t es', run env P fuel es = .done s → (∀ e ∈ es', e.isPassing = true) →
    es'.foldl (step env P fuel) (.done s) = .done t →
      patience P lastRound s + es'.countP Event.answers < firings env P fuel (.done s) es' + 2 →
        P.isInOverlayPhase t.impl = false

/-- In every round two timeouts are left, this one and that of the last round at least. -/
theorem KeepsRounds.two_le_patience {P : Protocol ι} {L : Layered P} {env : ProtocolEnv}
    {OnTime Waiting : ℤ → ι → Prop} {lastRound c : ℤ} {s : ProtocolState ι}
    (h : KeepsRounds L env OnTime Waiting lastRound)
    (hs : Clock P OnTime Waiting lastRound c s) (hphase : P.isInOverlayPhase s.impl = true) :
    2 ≤ patience P lastRound s := by
  rcases hs with ⟨hs, -⟩ | hs
  · simp [hs.phase] at hphase
  · cases hs with
    | stopped houtside => simp [houtside] at hphase
    | running _ hlast honTime htimers hc =>
      have hbound := (h.bound _ _ honTime hphase).2
      rw [patience, if_pos hphase]
      split_ifs <;> omega

theorem KeepsTime.timersEnd {P : Protocol ι} {L : Layered P} {env : ProtocolEnv}
    {OnTime Waiting : ℤ → ι → Prop} {lastRound : ℤ} {A : ProtocolState ι → Prop}
    (h : KeepsTime L env OnTime Waiting lastRound A) (fuel : ℕ) {es : List Event}
    (hes : Along (step env P fuel) (fun o e => ∀ message, e = .signatureResponse message → A o.state)
      (.done (.init P.init)) es) : TimersEnd env P lastRound fuel es := by
  have hclock := h.clock_of_run fuel hes
  have hrest (s t : ProtocolState ι) (es' : List Event) (hs : run env P fuel es = .done s)
      (hpassing : ∀ e ∈ es', e.isPassing = true)
      (hdone : es'.foldl (step env P fuel) (.done s) = .done t) :
      Clock P OnTime Waiting lastRound
        (patience P lastRound s + es'.countP Event.answers - firings env P fuel (.done s) es') t := by
    rw [hs] at hclock
    obtain ⟨c, hclock⟩ := hclock
    exact h.toKeepsRounds.patience_run fuel hclock hpassing hdone
  constructor
  · exact hclock.mono (fun s hs => hs.elim fun _ hs => hs.armed) fun _ _ => trivial
  · intro s t es' hs hpassing hdone
    have hle := (hrest s t es' hs hpassing hdone).patience_le
    omega
  · intro s t es' hs hpassing hdone hoften
    have hend := hrest s t es' hs hpassing hdone
    by_contra hphase
    have htwo := h.toKeepsRounds.two_le_patience hend (Bool.not_eq_false _ |>.mp hphase)
    have hle := hend.patience_le
    omega

/-- From one query to the next no phase comes back. -/
def GoesForward (env : ProtocolEnv) (P : Protocol ι) (rank : ι → ℕ) (fuel : ℕ)
    (es : List Event) : Prop :=
  Along (step env P fuel) (fun o e => (∀ request data, e ≠ .startQuery request data) →
    (step env P fuel o e).Ends (fun t => rank o.state.impl ≤ rank t.impl) fun _ => True)
    (.done (.init P.init)) es

/-- A schedule that may be entered at each phase takes the phases in their order. -/
theorem KeepsTime.goesForward {P : Protocol ι} {L : Layered P} {env : ProtocolEnv}
    {OnTime : ℕ → ℤ → ι → Prop} {Waiting : ℤ → ι → Prop} {lastRound : ℤ} {rank : ι → ℕ}
    (h : KeepsTime L env (OnTime 0) Waiting lastRound fun _ => True)
    (hfrom : ∀ p, KeepsRounds L env (OnTime p) Waiting lastRound)
    (hrank : ∀ p r i, OnTime p r i → p ≤ rank i ∧ OnTime (rank i) r i)
    (hwaiting : ∀ r i, Waiting r i → ∀ j, rank j ≤ rank i)
    (hsignature : ∀ endRound message s, P.handleSignatureResponse env endRound message s = .done s)
    (fuel : ℕ) (es : List Event) : GoesForward env P rank fuel es := by
  refine Along.along (I := fun o => o.Ends
    (fun t => ∃ c, Clock P (OnTime 0) Waiting lastRound c t) fun _ => True)
    (along_of_forall (P := fun _ _ => True) es fun _ _ => trivial) h.clock_init
    fun o e ho _ => ?_
  cases o with
  | halted error s => exact ⟨trivial, fun _ => trivial⟩
  | done s =>
    refine ⟨h.handle_clock_exists fuel (fun _ _ => trivial) ho, fun hstart => ?_⟩
    obtain ⟨c, hs⟩ := ho
    have hhere : Clock P (OnTime (rank s.impl)) Waiting lastRound (patience P lastRound s) s := by
      rcases hs.rebound le_rfl with hs | hs
      · exact .inl hs
      · cases hs with
        | running hphase hlast honTime htimers hc =>
          exact .inr (.running hphase hlast (hrank _ _ _ honTime).2 htimers hc)
        | stopped hphase hlast honTime htimers hc =>
          exact .inr (.stopped hphase hlast (hrank _ _ _ honTime).2 htimers hc)
    by_cases he : e.isPassing = true
    · refine ((hfrom _).handle_clock fuel he hhere rfl).mono (fun t ht => ?_) fun _ _ => trivial
      rcases ht with ⟨ht, -⟩ | ht
      · exact hwaiting _ _ ht.waiting _
      · cases ht with
        | running hphase hlast honTime => exact (hrank _ _ _ honTime).1
        | stopped hphase hlast honTime => exact (hrank _ _ _ honTime).1
    · cases e with
      | startQuery request data => exact absurd rfl (hstart request data)
      | signatureResponse message =>
        change (P.handleSignatureResponse env (endOverlayRound env P fuel) message s).Ends _ _
        rw [hsignature]
        exact le_rfl
      | _ => exact absurd rfl he

end ProtocolState
end Pddm
