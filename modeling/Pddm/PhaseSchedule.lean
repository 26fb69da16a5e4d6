import Pddm.ProxyBuffers

/-!
# The schedule of the Byzantine-tolerant protocol

A query goes through Setup, Shuffle, the two phases of the agreement and Aggregate. The
rounds in which the phases end are fixed, as long as signatures arrive during Setup only.
-/
namespace Pddm

def Action.isMulticast : Action → Bool
  | .leaveRound _ cause => cause = .start
  | _ => false

def multicasts (trace : List Action) : ℕ := trace.countP Action.isMulticast

theorem multicasts_append_of_forall {trace ext : List Action}
    (h : ∀ a ∈ ext, a.isMulticast = false) : multicasts (trace ++ ext) = multicasts trace := by
  have hnone : ext.countP Action.isMulticast = 0 :=
    List.countP_eq_zero.mpr fun a ha => by simp [h a ha]
  rw [multicasts, List.countP_append, hnone]
  rfl

namespace ProtocolState
variable {ι : Type} {s t : ProtocolState ι}

theorem Bookkeeping.multicasts (h : Bookkeeping s t) : multicasts t.trace = multicasts s.trace := by
  obtain ⟨ext, htrace, hext⟩ := h.trace
  rw [htrace]
  refine multicasts_append_of_forall fun a ha => ?_
  have hnote := hext a ha
  cases a <;> simp_all [Action.isNote, Action.isMulticast]

theorem SameOverlay.multicasts {ph : AggregatePhase ι} (h : SameOverlay ph s t) :
    multicasts t.trace = multicasts s.trace := by
  obtain ⟨ext, htrace, hext⟩ := h.trace
  rw [htrace]
  refine multicasts_append_of_forall fun a ha => ?_
  have haggregation := hext a ha
  cases a <;> simp_all [Action.isAggregation, Action.isMulticast]

theorem SameRound.multicasts (h : SameRound s t) : multicasts t.trace = multicasts s.trace := by
  obtain ⟨ext, htrace, hext⟩ := h.trace
  rw [htrace]
  refine multicasts_append_of_forall fun a ha => ?_
  have hround := hext a ha
  cases a <;> simp_all [Action.isRound, Action.isMulticast]

section Aggregation
variable {env : ProtocolEnv} {ph : AggregatePhase ι}

/-- Whether the overlay is over is decided when the Aggregate phase starts. -/
theorem handleAggregationMessage_isLastRound (message : AggregationMessage)
    (s : ProtocolState ι) : (handleAggregationMessage env ph message s).Ends
      (fun t => t.isLastRound = s.isLastRound) fun _ => True := by
  unfold handleAggregationMessage
  split
  · trivial
  · split
    · trivial
    · unfold sendAggregateIfDone
      split
      · trivial
      · split_ifs
        · refine Outcome.Ends.andThen (P := fun t => t.isLastRound = s.isLastRound) ?_
            fun t (ht : t.isLastRound = s.isLastRound) => ht
          unfold computeAndSendAggregate
          split
          · trivial
          · dsimp only
            split
            · trivial
            · split
              · trivial
              · rfl
        · rfl

theorem startAggregatePhase_isLastRound (s : ProtocolState ι) :
    (startAggregatePhase env ph s).Ends (fun t => t.isLastRound = true) fun _ => True := by
  have hany (o : Outcome Fault (ProtocolState ι)) : o.Ends (fun _ => True) fun _ => True := by
    cases o <;> trivial
  unfold startAggregatePhase
  dsimp only
  split
  · exact (hany _).andThen fun t _ => rfl
  · trivial

theorem receiveAggregation_outside (env : ProtocolEnv) (message : AggregationMessage)
    (h : ph.isInAggregatePhase s.impl = false) :
    receiveAggregation env ph message s = .done s ∨
      receiveAggregation env ph message s = .done (s.bufferAggregation message) := by
  unfold receiveAggregation isInAggregatePhase
  rw [if_neg (by simp [h])]
  split_ifs
  · exact .inr rfl
  · exact .inl rfl

end Aggregation
end ProtocolState

def BftProtocolPhase.rank : BftProtocolPhase → ℕ
  | .setup => 0
  | .shuffle => 1
  | .agreement => 2
  | .aggregate => 3
  | .idle => 4

namespace BftProtocolState
open ProtocolState (SameOverlay Multicasts Bookkeeping SameRound)
variable {env : ProtocolEnv}

def phaseRounds (env : ProtocolEnv) : ℤ :=
  2 * env.failuresTolerated + env.log2n * env.log2n + 1

theorem phaseRounds_pos (env : ProtocolEnv) : 0 < phaseRounds env := by
  have hsquare : 0 ≤ env.log2n * env.log2n := mul_self_nonneg _
  unfold phaseRounds
  omega

def phase1Finished (i : BftProtocolState) : Bool :=
  i.agreementPhaseState.any CrusaderAgreementState.phase1Finished

/-- What a state looks like in some round, once its contribution has been multicast. -/
inductive OnSchedule (env : ProtocolEnv) (round : ℤ) (s : State) : Prop
  | shuffling (hphase : s.impl.protocolPhase = .shuffle) (hlast : s.isLastRound = false)
      (hround : round ≤ phaseRounds env) (hfinished : phase1Finished s.impl = false)
  | agreeing (hphase : s.impl.protocolPhase = .agreement) (hlast : s.isLastRound = false)
      (hstart : s.impl.agreementStartRound = phaseRounds env) (hafter : phaseRounds env < round)
      (hround : round ≤ 3 * phaseRounds env)
      (hfinished : phase1Finished s.impl = true ↔ 2 * phaseRounds env < round)
  | aggregating (hphase : s.impl.protocolPhase = .aggregate ∨ s.impl.protocolPhase = .idle)
      (hlast : s.isLastRound = true)

theorem OnSchedule.not_setup {round : ℤ} {s : State} (hs : OnSchedule env round s) :
    s.impl.protocolPhase ≠ .setup := by
  intro h
  cases hs with
  | shuffling hphase => simp [h] at hphase
  | agreeing hphase => simp [h] at hphase
  | aggregating hphase => simp [h] at hphase

/-- The phase is `p` or a later one, and `n` contributions have been multicast. -/
structure Reached (p n : ℕ) (s : State) : Prop where
  rank : p ≤ s.impl.protocolPhase.rank
  multicasts : multicasts s.trace = n

structure Paced (env : ProtocolEnv) (p n : ℕ) (round : ℤ) (s : State) : Prop where
  onSchedule : OnSchedule env round s
  reached : Reached p n s

/-- What the end of a round makes of the phase, `s` before it and `t` after it: Shuffle and the
two phases of the agreement end in a round of their own. -/
def Timely (env : ProtocolEnv) (s t : State) : Prop :=
  (s.impl.protocolPhase = .shuffle → t.impl.protocolPhase ≠ .shuffle →
    s.overlayRound = phaseRounds env) ∧
  (s.impl.protocolPhase = .agreement → phase1Finished s.impl = false →
    phase1Finished t.impl = true → s.overlayRound = 2 * phaseRounds env) ∧
  (s.impl.protocolPhase = .agreement → t.impl.protocolPhase ≠ .agreement →
    s.overlayRound = 3 * phaseRounds env)

instance (env : ProtocolEnv) (s t : State) : Decidable (Timely env s t) :=
  inferInstanceAs (Decidable (_ ∧ _ ∧ _))

theorem Timely.of_impl {s t : State} (h : t.impl = s.impl) : Timely env s t := by
  unfold Timely
  rw [h]
  exact ⟨fun hphase hnot => absurd hphase hnot, fun _ hnot hfinished => by simp [hnot] at hfinished,
    fun hphase hnot => absurd hphase hnot⟩

structure SameSchedule (s t : State) : Prop where
  isLastRound : t.isLastRound = s.isLastRound
  protocolPhase : t.impl.protocolPhase = s.impl.protocolPhase
  agreementStartRound : t.impl.agreementStartRound = s.impl.agreementStartRound
  phase1Finished : phase1Finished t.impl = phase1Finished s.impl
  multicasts : multicasts t.trace = multicasts s.trace

namespace SameSchedule
variable {p n : ℕ} {round : ℤ} {s t u : State}

theorem of_impl (isLastRound : t.isLastRound = s.isLastRound) (impl : t.impl = s.impl)
    (hmulticasts : Pddm.multicasts t.trace = Pddm.multicasts s.trace) : SameSchedule s t :=
  ⟨isLastRound, congrArg _ impl, congrArg _ impl, congrArg _ impl, hmulticasts⟩

theorem trans (h : SameSchedule s t) (h' : SameSchedule t u) : SameSchedule s u :=
  ⟨h'.isLastRound.trans h.isLastRound, h'.protocolPhase.trans h.protocolPhase,
    h'.agreementStartRound.trans h.agreementStartRound, h'.phase1Finished.trans h.phase1Finished,
    h'.multicasts.trans h.multicasts⟩

theorem onSchedule (h : SameSchedule s t) (hs : OnSchedule env round s) :
    OnSchedule env round t := by
  cases hs with
  | shuffling hphase hlast hround hfinished =>
    exact .shuffling (h.protocolPhase.trans hphase) (h.isLastRound.trans hlast) hround
      (h.phase1Finished.trans hfinished)
  | agreeing hphase hlast hstart hafter hround hfinished =>
    exact .agreeing (h.protocolPhase.trans hphase) (h.isLastRound.trans hlast)
      (h.agreementStartRound.trans hstart) hafter hround (by rw [h.phase1Finished, hfinished])
  | aggregating hphase hlast =>
    exact .aggregating (by rw [h.protocolPhase]; exact hphase) (h.isLastRound.trans hlast)

theorem reached (h : SameSchedule s t) (hs : Reached p n s) : Reached p n t :=
  ⟨h.protocolPhase ▸ hs.rank, h.multicasts.trans hs.multicasts⟩

theorem paced (h : SameSchedule s t) (hround : t.overlayRound = round)
    (hs : Paced env p n round s) : Paced env p n t.overlayRound t := by
  rw [hround]
  exact ⟨h.onSchedule hs.onSchedule, h.reached hs.reached⟩

theorem of_bookkeeping (h : Bookkeeping s t) : SameSchedule s t :=
  .of_impl h.isLastRound h.impl h.multicasts

theorem of_multicasts {queryNum : ℤ} (h : Multicasts env queryNum s t) : SameSchedule s t := by
  obtain ⟨_, _, rfl⟩ := h
  exact .of_impl rfl rfl rfl

theorem emplaceProxyValue (s : State) (contribution : ValueContribution) :
    SameSchedule s (s.emplaceProxyValue contribution) := by
  have h := ProtocolState.SameCore.emplaceProxyValue s contribution
  exact .of_impl h.isLastRound h.impl (SameRound.emplaceProxyValue s contribution).multicasts

theorem handleBody (message : OverlayMessage) (s : State) :
    (handleBody env message s).Holds (SameSchedule s) := by
  have heffect (t : State) (ht : BodyEffect env message s t) : SameSchedule s t := by
    cases ht with
    | ignored => exact .of_impl rfl rfl rfl
    | forwarded enclosed => exact .of_impl rfl rfl rfl
    | accepted contribution => exact .emplaceProxyValue s contribution
    | agreed agreement u hagreement hlogged =>
      have hphase := (CrusaderAgreementState.handleMessage_fields env.crypto message agreement).2.2
      have hu : SameSchedule s u ∧ u.impl = s.impl := by
        rcases hlogged with rfl | ⟨_, _, rfl⟩
        · exact ⟨.of_impl rfl rfl rfl, rfl⟩
        · exact ⟨.of_impl rfl rfl (SameRound.act s rfl).multicasts, rfl⟩
      refine hu.1.trans ⟨rfl, rfl, rfl, ?_, rfl⟩
      simp [BftProtocolState.phase1Finished, ProtocolState.onImpl, hu.2, hagreement, hphase]
  exact (handleBody_effect message s).mono heffect heffect

end SameSchedule

theorem handleBody_same (message : OverlayMessage) (s : State) :
    (handleBody env message s).Holds fun t => SameSchedule s t ∧ SameRound s t :=
  (SameSchedule.handleBody message s).and (handleBody_sameRound message s)

theorem absorb_sameSchedule (message : OverlayTransportMessage) (s : State) :
    (layered.absorb env message s).Holds
      (fun t => SameSchedule s t ∧ t.overlayRound = s.overlayRound) := by
  have hnote : SameSchedule s (ProtocolState.noteOverlay env protocol message s) ∧
      (ProtocolState.noteOverlay env protocol message s).overlayRound = s.overlayRound := by
    obtain ⟨timer, timers, hnote⟩ := ProtocolState.noteOverlay_fields env protocol message s
    rw [hnote]
    refine ⟨.of_impl rfl rfl (multicasts_append_of_forall fun a ha => ?_), rfl⟩
    rw [List.mem_singleton.mp ha]
    rfl
  have hafter (t : State)
      (h : SameSchedule (ProtocolState.noteOverlay env protocol message s) t ∧
        SameRound (ProtocolState.noteOverlay env protocol message s) t) :
      SameSchedule s t ∧ t.overlayRound = s.overlayRound :=
    ⟨hnote.1.trans h.1, h.2.overlayRound.trans hnote.2⟩
  exact (handleBody_same _ _).mono hafter hafter

section Rounds
variable {p n : ℕ} {s : State}

theorem enterAggregatePhase_paced (hrank : p ≤ 3) (hs : multicasts s.trace = n) :
    (s.enterAggregatePhase env aggregatePhase).Ends
      (fun t => Paced env p n (t.overlayRound + 1) t) (Reached p n) := by
  have hsame : (s.enterAggregatePhase env aggregatePhase).Holds
      (SameOverlay aggregatePhase (s.onImpl aggregatePhase.begin)) :=
    SameOverlay.startAggregatePhase _
  have hlast : (s.enterAggregatePhase env aggregatePhase).Ends (fun t => t.isLastRound = true)
      fun _ => True := ProtocolState.startAggregatePhase_isLastRound _
  have hphase (t : State) (h : SameOverlay aggregatePhase (s.onImpl aggregatePhase.begin) t) :
      t.impl.protocolPhase = .aggregate ∨ t.impl.protocolPhase = .idle :=
    h.impl (fun i => i.protocolPhase = .aggregate ∨ i.protocolPhase = .idle)
      (fun _ _ => .inl rfl) (fun _ _ => .inr rfl) (.inl rfl)
  have hreached (t : State) (h : SameOverlay aggregatePhase (s.onImpl aggregatePhase.begin) t) :
      Reached p n t := by
    refine ⟨?_, h.multicasts.trans hs⟩
    rcases hphase t h with hphase | hphase
    · rw [hphase]
      exact hrank
    · rw [hphase]
      exact hrank.trans (Nat.le_succ 3)
  exact (hsame.and hlast).mono (fun t ht => ⟨.aggregating (hphase t ht.1) ht.2, hreached t ht.1⟩)
    fun t ht => hreached t ht.1

def EndsPaced (env : ProtocolEnv) (p n : ℕ) (s : State) : Prop :=
  (endOverlayRoundImpl env s).Ends
    (fun t => Paced env p n (t.overlayRound + 1) t ∧ Timely env s t)
    (fun t => Reached p n t ∧ Timely env s t)

theorem endShuffleRound_paced (hs : Reached p n s) (hphase : s.impl.protocolPhase = .shuffle)
    (hlast : s.isLastRound = false) (hround : s.overlayRound ≤ phaseRounds env)
    (hfinished : phase1Finished s.impl = false) : EndsPaced env p n s := by
  have hpos := phaseRounds_pos env
  have hrank : p ≤ 1 := by
    have hrank := hs.rank
    rwa [hphase] at hrank
  unfold EndsPaced endOverlayRoundImpl
  dsimp only
  rw [show 2 * (env.failuresTolerated : ℤ) + env.log2n * env.log2n + 1 = phaseRounds env from rfl]
  by_cases hend : s.overlayRound ≥ phaseRounds env
  · have hnow : s.overlayRound = phaseRounds env := le_antisymm hround hend
    have htimely (t : State) : Timely env s t :=
      ⟨fun _ _ => hnow, fun h => by simp [hphase] at h, fun h => by simp [hphase] at h⟩
    rw [if_pos ⟨hphase, hend⟩]
    refine Outcome.Ends.andThen (P := Multicasts env s.getCurrentQueryNum s)
      ((signValues_multicasts _ s).mono (fun _ ht => ht) fun t ht =>
        ⟨(SameSchedule.of_multicasts ht).reached hs, htimely t⟩) fun t ht => ?_
    obtain ⟨messages, -, rfl⟩ := ht
    refine ⟨⟨.agreeing rfl hlast hnow ?_ ?_ ?_, hrank.trans (Nat.le_succ 1), hs.multicasts⟩,
      htimely _⟩
    · exact Int.lt_add_one_of_le hend
    · change s.overlayRound + 1 ≤ _
      omega
    · change BftProtocolState.phase1Finished s.impl = true ↔ _ < s.overlayRound + 1
      rw [hfinished]
      constructor
      · intro h
        cases h
      · intro h
        omega
  · rw [if_neg (fun h => hend h.2), if_neg (by simp [hphase])]
    exact ⟨⟨.shuffling hphase hlast (by omega) hfinished, hs⟩, .of_impl rfl⟩

theorem endAgreementRound_paced (hs : Reached p n s)
    (hphase : s.impl.protocolPhase = .agreement) (hlast : s.isLastRound = false)
    (hstart : s.impl.agreementStartRound = phaseRounds env)
    (hafter : phaseRounds env < s.overlayRound) (hround : s.overlayRound ≤ 3 * phaseRounds env)
    (hfinished : phase1Finished s.impl = true ↔ 2 * phaseRounds env < s.overlayRound) :
    EndsPaced env p n s := by
  have hpos := phaseRounds_pos env
  have hrank : p ≤ 2 := by
    have hrank := hs.rank
    rwa [hphase] at hrank
  have hstays (hnot : s.overlayRound < 3 * phaseRounds env)
      (hsame : phase1Finished s.impl = true ↔ 2 * phaseRounds env ≤ s.overlayRound) :
      Paced env p n (s.overlayRound + 1) s :=
    ⟨.agreeing hphase hlast hstart (by omega) (by omega) (by rw [hsame]; omega), hs⟩
  unfold EndsPaced endOverlayRoundImpl
  dsimp only
  rw [show 2 * (env.failuresTolerated : ℤ) + env.log2n * env.log2n + 1 = phaseRounds env from rfl,
    if_neg (by simp [hphase]), if_pos hphase]
  split
  · next hnone =>
    have hnot : phase1Finished s.impl = false := by simp [phase1Finished, hnone]
    have hbefore : ¬ 2 * phaseRounds env < s.overlayRound := fun h => by
      simp [hnot] at hfinished
      omega
    split_ifs with hend
    · exact ⟨hs, .of_impl rfl⟩
    · refine ⟨hstays (by omega) ?_, .of_impl rfl⟩
      rw [hnot]
      exact ⟨fun h => (by cases h), fun h => (hend (by omega)).elim⟩
  · next agreement hagreement =>
    have hphase1 : phase1Finished s.impl = agreement.phase1Finished := by
      simp [phase1Finished, hagreement]
    have hdouble : s.impl.agreementStartRound + 4 * env.failuresTolerated +
        2 * env.log2n * env.log2n + 2 = 3 * phaseRounds env := by
      rw [hstart]
      unfold phaseRounds
      ring
    rw [hphase1] at hfinished hstays
    rw [hdouble, hstart]
    by_cases hover : s.overlayRound ≥ 3 * phaseRounds env ∧ agreement.phase1Finished = true
    · have htimely (t : State) : Timely env s t :=
        ⟨fun h => by simp [hphase] at h, fun _ h => by simp [hphase1, hover.2] at h,
          fun _ _ => le_antisymm hround hover.1⟩
      rw [if_pos hover]
      refine Outcome.Ends.mono (enterAggregatePhase_paced (hrank.trans (Nat.le_succ 2)) ?_)
        (fun t ht => ⟨ht, htimely t⟩) fun t ht => ⟨ht, htimely t⟩
      exact hs.multicasts
    · rw [if_neg hover]
      by_cases haccept : s.overlayRound ≥ phaseRounds env + phaseRounds env ∧
          (!agreement.phase1Finished) = true
      · rw [if_pos haccept]
        split
        · exact ⟨hs, .of_impl rfl⟩
        · next agreement' haccepts =>
          obtain rfl := CrusaderAgreementState.finishPhase1_state haccepts
          have hnow : s.overlayRound = 2 * phaseRounds env := by
            have hle : ¬ 2 * phaseRounds env < s.overlayRound := fun h => by
              simp [hfinished.mpr h] at haccept
            omega
          refine ⟨⟨.agreeing hphase hlast rfl ?_ ?_ ?_, hs.rank, hs.multicasts⟩,
            fun h => by simp [hphase] at h, fun _ _ _ => hnow, fun _ h => absurd hphase h⟩
          · exact lt_add_of_lt_of_pos hafter one_pos
          · change s.overlayRound + 1 ≤ _
            omega
          · change true = true ↔ _ < s.overlayRound + 1
            rw [hnow]
            simp
      · rw [if_neg haccept]
        refine ⟨hstays ?_ ?_, .of_impl rfl⟩
        · by_contra hend
          have hthird : 3 * phaseRounds env ≤ s.overlayRound := by omega
          exact hover ⟨hthird, hfinished.mpr (by omega)⟩
        · rw [hfinished]
          refine ⟨le_of_lt, fun h => lt_of_le_of_ne h fun heq => haccept ⟨by omega, ?_⟩⟩
          rw [← heq] at hfinished
          simpa using hfinished

theorem endOverlayRoundImpl_paced (hs : Paced env p n s.overlayRound s) : EndsPaced env p n s := by
  cases hs.onSchedule with
  | shuffling hphase hlast hround hfinished =>
    exact endShuffleRound_paced hs.reached hphase hlast hround hfinished
  | agreeing hphase hlast hstart hafter hround hfinished =>
    exact endAgreementRound_paced hs.reached hphase hlast hstart hafter hround hfinished
  | aggregating hphase hlast =>
    unfold EndsPaced endOverlayRoundImpl
    dsimp only
    rw [if_neg (by rintro ⟨h, -⟩; simp [h] at hphase), if_neg (by intro h; simp [h] at hphase)]
    exact ⟨⟨.aggregating hphase hlast, hs.reached⟩, .of_impl rfl⟩

theorem receiveAggregation_paced (message : AggregationMessage)
    (hs : Paced env p n s.overlayRound s) :
    (ProtocolState.receiveAggregation env aggregatePhase message s).Ends
      (fun t => Paced env p n t.overlayRound t) (Reached p n) := by
  by_cases hphase : s.impl.protocolPhase = .aggregate
  · have hrank : p ≤ 3 := by
      have hrank := hs.reached.rank
      rwa [hphase] at hrank
    have hlast : s.isLastRound = true := by
      cases hs.onSchedule with
      | shuffling h => simp [h] at hphase
      | agreeing h => simp [h] at hphase
      | aggregating _ hlast => exact hlast
    have hsame : (s.receiveAggregation env aggregatePhase message).Holds
        (SameOverlay aggregatePhase s) := SameOverlay.receiveAggregation message s
    have hkept : (ProtocolState.receiveAggregation env aggregatePhase message s).Ends
        (fun t => t.isLastRound = s.isLastRound) fun _ => True := by
      unfold ProtocolState.receiveAggregation
      rw [if_pos (show s.isInAggregatePhase aggregatePhase = true from decide_eq_true hphase)]
      exact ProtocolState.handleAggregationMessage_isLastRound message _
    have hafter (t : State) (h : SameOverlay aggregatePhase s t) :
        (t.impl.protocolPhase = .aggregate ∨ t.impl.protocolPhase = .idle) ∧ Reached p n t := by
      have hover := h.impl (fun i => i.protocolPhase = .aggregate ∨ i.protocolPhase = .idle)
        (fun _ _ => .inl rfl) (fun _ _ => .inr rfl) (.inl hphase)
      refine ⟨hover, ?_, h.multicasts.trans hs.reached.multicasts⟩
      rcases hover with hover | hover
      · rw [hover]
        exact hrank
      · rw [hover]
        exact hrank.trans (Nat.le_succ 3)
    exact (hsame.and hkept).mono
      (fun t ht => ⟨.aggregating (hafter t ht.1).1 (ht.2.trans hlast), (hafter t ht.1).2⟩)
      fun t ht => (hafter t ht.1).2
  · have houtside : aggregatePhase.isInAggregatePhase s.impl = false := decide_eq_false hphase
    rcases ProtocolState.receiveAggregation_outside env message houtside with h | h
    · rw [h]
      exact hs
    · rw [h]
      exact SameSchedule.paced (.of_impl (s := s) rfl rfl rfl) rfl hs

theorem sendOverlayMessageBatch_paced (hs : Paced env p n (s.overlayRound + 1) s) :
    let t := ProtocolState.sendOverlayMessageBatch env
      { s with overlayRound := s.overlayRound + 1, pingResponseFromPredecessor := false }
    Paced env p n t.overlayRound t := by
  have hcore := ProtocolState.SameCore.sendOverlayMessageBatch
    { s with overlayRound := s.overlayRound + 1, pingResponseFromPredecessor := false } env
  have hround : SameRound { s with
      overlayRound := s.overlayRound + 1
      pingResponseFromPredecessor := false }
      (ProtocolState.sendOverlayMessageBatch env
        { s with overlayRound := s.overlayRound + 1, pingResponseFromPredecessor := false }) :=
    ProtocolState.sendOverlayMessageBatch_sameRound _
  have hsame : SameSchedule s (ProtocolState.sendOverlayMessageBatch env
      { s with overlayRound := s.overlayRound + 1, pingResponseFromPredecessor := false }) :=
    .of_impl hcore.isLastRound hcore.impl hround.multicasts
  exact hsame.paced hcore.overlayRound hs

theorem paced_maintains (env : ProtocolEnv) (p n : ℕ) :
    ProtocolState.Maintains layered env (fun _ => True) (fun s => Paced env p n s.overlayRound s)
      (fun s => Paced env p n (s.overlayRound + 1) s) (Reached p n) where
  weaken _ hs := hs.reached
  frame _ _ hs h := (SameSchedule.of_bookkeeping h).paced h.overlayRound hs
  buffers _ s hs _ := SameSchedule.paced (.of_impl (s := s) rfl rfl rfl) rfl hs
  buffered _ _ _ _ := trivial
  absorbs message s hs _ := (absorb_sameSchedule message s).mono (fun _ h => h.1.paced h.2 hs)
    fun _ h => h.1.reached hs.reached
  ends _ hs := (endOverlayRoundImpl_paced hs).mono (fun _ ht => ht.1) fun _ ht => ht.1
  rests s hs hlast := by
    cases hs.onSchedule with
    | shuffling _ hnot => simp [hnot] at hlast
    | agreeing _ hnot => simp [hnot] at hlast
    | aggregating hphase => exact ⟨.aggregating hphase hlast, hs.reached.rank, hs.reached.multicasts⟩
  sends _ hs _ := sendOverlayMessageBatch_paced hs

end Rounds

/-- Within a query, signatures arrive during Setup. -/
def SignsInSetup (s : State) : ProtocolState.Event → Prop
  | .startQuery .. => False
  | .signatureResponse _ => s.impl.protocolPhase = .setup
  | _ => True

theorem paced_maintainsAll (env : ProtocolEnv) (fuel p n : ℕ) :
    ProtocolState.MaintainsAll layered env fuel (fun _ => True) SignsInSetup
      (fun s => Paced env p n s.overlayRound s) (fun s => Paced env p n (s.overlayRound + 1) s)
      (Reached p n) where
  toMaintains := paced_maintains env p n
  overlay _ _ _ := trivial
  start _ _ _ _ h := h.elim
  signature _ _ hs h := absurd h hs.onSchedule.not_setup
  aggregation message _ hs _ := receiveAggregation_paced message hs

structure InSetup (n : ℕ) (s : State) : Prop where
  phase : s.impl.protocolPhase = .setup
  overlayRound : s.overlayRound = -1
  isLastRound : s.isLastRound = false
  phase1Finished : phase1Finished s.impl = false
  untimed : s.timers.pending = []
  multicasts : multicasts s.trace = n

section Setup
variable {n : ℕ} {s t : State}

theorem InSetup.same (hs : InSetup n s) (h : SameSchedule s t)
    (hround : t.overlayRound = s.overlayRound)
    (htimers : ∀ e ∈ t.timers.pending, e ∈ s.timers.pending) : InSetup n t := by
  refine ⟨h.protocolPhase.trans hs.phase, hround.trans hs.overlayRound,
    h.isLastRound.trans hs.isLastRound, h.phase1Finished.trans hs.phase1Finished, ?_,
    h.multicasts.trans hs.multicasts⟩
  refine List.eq_nil_iff_forall_not_mem.mpr fun e he => ?_
  have hbefore := htimers e he
  rw [hs.untimed] at hbefore
  cases hbefore

theorem InSetup.reached (hs : InSetup n s) : Reached 0 n s := ⟨Nat.zero_le _, hs.multicasts⟩

theorem startQuery_inSetup (fuel : ℕ) (request : QueryRequest) (data : List FixedPoint)
    (hs : s.OneTimer) : (s.startQuery env protocol fuel request data).Ends
      (fun t => InSetup (multicasts t.trace) t) fun _ => True := by
  unfold ProtocolState.startQuery
  dsimp only
  split
  · trivial
  · rw [show protocol.startQueryImpl = startQueryImpl from rfl]
    unfold startQueryImpl
    exact ⟨rfl, rfl, rfl, rfl, hs.cancel, rfl⟩

theorem absorb_inSetup (message : OverlayTransportMessage) (hs : InSetup n s) :
    (layered.absorb env message s).Ends (InSetup n) (Reached 0 n) := by
  have hnote : InSetup n (ProtocolState.noteOverlay env protocol message s) := by
    have hidle : ¬ protocol.isInOverlayPhase s.impl = true := by
      change ¬ (_ || _) = true
      simp [hs.phase]
    unfold ProtocolState.noteOverlay
    change InSetup n { (if protocol.isInOverlayPhase s.impl then _ else
      s.act (.handleOverlay s.overlayRound message) : State) with waitingMessages := _ }
    rw [if_neg hidle]
    refine hs.same (.of_impl rfl rfl (multicasts_append_of_forall fun a ha => ?_)) rfl fun _ he => he
    rw [List.mem_singleton.mp ha]
    rfl
  exact (handleBody_same _ _).mono (fun _ h => hnote.same h.1 h.2.overlayRound h.2.timers)
    fun _ h => (hnote.same h.1 h.2.overlayRound h.2.timers).reached

theorem handleOverlayMessage_inSetup (endRound : State → Outcome Fault State)
    (message : OverlayTransportMessage) (hs : InSetup n s) :
    ProtocolState.handleOverlayMessage env protocol endRound message s =
      layered.absorb env message s := by
  have hdone : layered.absorb env message s = (layered.absorb env message s).andThen .done := by
    cases layered.absorb env message s <;> rfl
  rw [layered.handleOverlayMessage_eq]
  conv_rhs => rw [hdone]
  refine Outcome.andThen_congr (absorb_inSetup message hs) fun t ht => if_neg ?_
  change ¬ (_ && (_ || _)) = true
  simp [ht.phase]

theorem InSetup.multicast (hs : InSetup n s) (onions : List OverlayMessage) :
    let t := ({ s.onImpl fun i => { i with protocolPhase := .shuffle } with
      outgoingMessages := s.outgoingMessages ++ onions } : State).leaving .start
    Paced env 0 (n + 1) t.overlayRound t := by
  have hpos := phaseRounds_pos env
  refine ⟨.shuffling rfl hs.isLastRound ?_ hs.phase1Finished, Nat.zero_le _, ?_⟩
  · change s.overlayRound ≤ _
    rw [hs.overlayRound]
    omega
  · change Pddm.multicasts (s.trace ++ [_]) = n + 1
    rw [Pddm.multicasts, List.countP_append, ← Pddm.multicasts, hs.multicasts]
    rfl

theorem handleSignatureResponse_paced {endRound : State → Outcome Fault State}
    (hrec : ∀ t, Paced env 0 (n + 1) t.overlayRound t →
      (endRound t).Ends (fun t => Paced env 0 (n + 1) t.overlayRound t) (Reached 0 (n + 1)))
    (message : SignatureResponse) (hs : InSetup n s) :
    (handleSignatureResponse env endRound message s).Ends
      (fun t => Paced env 0 (n + 1) t.overlayRound t) fun t => multicasts t.trace ≤ n + 1 := by
  have hbefore : multicasts s.trace ≤ n + 1 := hs.multicasts.le.trans (Nat.le_succ n)
  unfold handleSignatureResponse
  split
  · exact hbefore
  · refine ProtocolState.encryptedMulticastToProxies_ends hbefore fun onions _ => ?_
    exact Outcome.Ends.mono (hrec _ (hs.multicast onions)) (fun _ ht => ht)
      fun _ ht => ht.multicasts.le

end Setup

/-- What the end of this round makes of the phase happens on time. -/
def endsOnTime (env : ProtocolEnv) (s : State) : Bool :=
  decide (Timely env s (endOverlayRoundImpl env s).state)

theorem Paced.endsOnTime {p n : ℕ} {s : State} (hs : Paced env p n s.overlayRound s) :
    endsOnTime env s = true := by
  have hends := endOverlayRoundImpl_paced hs
  refine decide_eq_true (Outcome.holds_iff.mp ?_ : Timely env s (endOverlayRoundImpl env s).state)
  exact hends.mono (fun _ ht => ht.2) fun _ ht => ht.2

/-- What holds in a query before whose start `n` contributions had been multicast. -/
def InQuery (env : ProtocolEnv) (n : ℕ) (s : State) : Prop :=
  InSetup n s ∨ Paced env 0 (n + 1) s.overlayRound s

/-- What a step does to the phase. -/
structure MovesOn (env : ProtocolEnv) (n : ℕ) (s : State) (o : Outcome Fault State) : Prop where
  inQuery : o.Ends (InQuery env n) fun t => multicasts t.trace ≤ n + 1
  rank : s.impl.protocolPhase.rank ≤ o.state.impl.protocolPhase.rank

theorem InQuery.multicasts_le {n : ℕ} {s : State} (hs : InQuery env n s) :
    multicasts s.trace ≤ n + 1 := by
  rcases hs with hs | hs
  · exact hs.multicasts.le.trans (Nat.le_succ n)
  · exact hs.reached.multicasts.le

section Steps
variable {n : ℕ} {s : State} {e : ProtocolState.Event}

theorem handle_inSetup (fuel : ℕ) (hs : InSetup n s) (he : SignsInSetup s e) :
    (s.handle env protocol fuel e).Ends (InQuery env n) fun t => multicasts t.trace ≤ n + 1 := by
  have hstays (o : Outcome Fault State) (ho : o.Ends (InSetup n) (Reached 0 n)) :
      o.Ends (InQuery env n) fun t => multicasts t.trace ≤ n + 1 :=
    ho.mono (fun _ => .inl) fun _ ht => ht.multicasts.le.trans (Nat.le_succ n)
  cases e with
  | startQuery => exact he.elim
  | overlay message =>
    have hbuffered : InSetup n (s.bufferOverlay message) :=
      hs.same (.of_impl rfl rfl rfl) rfl fun _ he => he
    refine hstays _ ?_
    change (s.receiveOverlay env protocol fuel message).Ends _ _
    unfold ProtocolState.receiveOverlay
    split_ifs
    · exact hbuffered
    · exact hs
    · rw [handleOverlayMessage_inSetup _ message hs]
      exact absorb_inSetup message hs
    · exact hbuffered
    · exact hs
  | aggregation message =>
    have houtside : aggregatePhase.isInAggregatePhase s.impl = false :=
      decide_eq_false (by simp [hs.phase])
    refine hstays _ ?_
    change (s.receiveAggregation env aggregatePhase message).Ends _ _
    rcases ProtocolState.receiveAggregation_outside env message houtside with h | h
    · rw [h]
      exact hs
    · rw [h]
      exact hs.same (.of_impl rfl rfl rfl) rfl fun _ he => he
  | ping message =>
    have hbook := Bookkeeping.handlePingMessage s env message
    have hround : SameRound s (s.handlePingMessage env message) :=
      ProtocolState.handlePingMessage_sameRound message s
    exact hstays (.done _) (hs.same (.of_bookkeeping hbook) hbook.overlayRound hround.timers)
  | signatureResponse message =>
    exact (handleSignatureResponse_paced
      (fun t ht => (paced_maintains env 0 (n + 1)).endOverlayRound fuel ht) message hs).mono
        (fun _ => .inr) fun _ ht => ht
  | timerExpires id =>
    refine hstays _ ?_
    change (s.timerExpires env protocol fuel id).Ends _ _
    unfold ProtocolState.timerExpires
    split
    · next registeredIn hfind =>
      have hpending := Timers.mem_of_find hfind
      rw [hs.untimed] at hpending
      cases hpending
    · exact hs

theorem handle_movesOn (fuel : ℕ) (hs : InQuery env n s) (he : SignsInSetup s e) :
    MovesOn env n s (s.handle env protocol fuel e) := by
  rcases hs with hs | hs
  · refine ⟨handle_inSetup fuel hs he, ?_⟩
    rw [hs.phase]
    exact Nat.zero_le _
  · have hfrom : Paced env s.impl.protocolPhase.rank (n + 1) s.overlayRound s :=
      ⟨hs.onSchedule, le_rfl, hs.reached.multicasts⟩
    have hends := (paced_maintainsAll env fuel s.impl.protocolPhase.rank (n + 1)).handle hfrom he
    refine ⟨hends.mono (fun t ht => .inr ⟨ht.onSchedule, Nat.zero_le _, ht.reached.multicasts⟩)
      fun t ht => ht.multicasts.le, ?_⟩
    refine (Outcome.holds_iff.mp (hends.mono (fun t ht => ht.reached) fun t ht => ht) :
      Reached _ (n + 1) (s.handle env protocol fuel e).state).rank

/-- No handler ends a phase at another time. -/
theorem handle_endsOnTime (error : Fault) (fuel : ℕ) (hs : InQuery env n s)
    (he : SignsInSetup s e) : s.handle env (protocol.checked endsOnTime error) fuel e =
      s.handle env protocol fuel e := by
  have hcheck (t : State) (ht : Paced env 0 (n + 1) t.overlayRound t) : endsOnTime env t = true :=
    ht.endsOnTime
  rcases hs with hs | hs
  · cases e with
    | startQuery => exact he.elim
    | overlay message =>
      change s.receiveOverlay env (protocol.checked endsOnTime error) fuel message =
        s.receiveOverlay env protocol fuel message
      unfold ProtocolState.receiveOverlay
      rw [handleOverlayMessage_inSetup _ message hs]
      rw [show ProtocolState.handleOverlayMessage env (protocol.checked endsOnTime error) _ message
        s = layered.absorb env message s from handleOverlayMessage_inSetup _ message hs]
    | aggregation message => rfl
    | ping message => rfl
    | signatureResponse message =>
      have hround (t : State) (ht : Paced env 0 (n + 1) t.overlayRound t) :=
        (paced_maintains env 0 (n + 1)).endOverlayRound_checked hcheck error fuel ht
      change handleSignatureResponse env _ message s = handleSignatureResponse env _ message s
      unfold handleSignatureResponse
      split
      · rfl
      · exact ProtocolState.encryptedMulticastToProxies_congr hround hs.multicast
    | timerExpires id =>
      change s.timerExpires env (protocol.checked endsOnTime error) fuel id =
        s.timerExpires env protocol fuel id
      unfold ProtocolState.timerExpires
      split
      · next registeredIn hfind =>
        have hpending := Timers.mem_of_find hfind
        rw [hs.untimed] at hpending
        cases hpending
      · rfl
  · refine (paced_maintainsAll env fuel 0 (n + 1)).handle_checked hcheck
      (fun _ _ _ _ hnot => hnot.elim) (fun message t ht hsetup => ?_) hs he
    exact absurd hsetup ht.onSchedule.not_setup

end Steps

theorem starts_inQuery (env : ProtocolEnv) (fuel : ℕ) (es₀ : List ProtocolState.Event)
    (request : QueryRequest) (data : List FixedPoint) :
    let o := ProtocolState.run env protocol fuel (es₀ ++ [.startQuery request data])
    o.Ends (InQuery env (multicasts o.state.trace)) fun t =>
      multicasts t.trace ≤ multicasts o.state.trace + 1 := by
  intro o
  have hbefore := ProtocolState.oneTimer_of_run layered env fuel es₀
  have hsetup : o.Ends (fun t => InSetup (multicasts t.trace) t) fun _ => True := by
    change (ProtocolState.run env protocol fuel (es₀ ++ [_])).Ends _ _
    rw [ProtocolState.run_append]
    exact Outcome.Ends.andThen hbefore fun s hs => startQuery_inSetup fuel request data hs
  cases ho : o with
  | done s =>
    rw [ho] at hsetup
    exact .inl hsetup
  | halted error s => exact Nat.le_succ _

/-- A query whose signatures arrive during Setup only. The phases follow one another, the
contribution is multicast once at most, and the protocol that stops where a phase ends at
another time than its own does the same. -/
theorem phases_on_schedule (env : ProtocolEnv) (fuel : ℕ) (es₀ : List ProtocolState.Event)
    (request : QueryRequest) (data : List FixedPoint) (es : List ProtocolState.Event)
    (hes : Along (ProtocolState.step env protocol fuel) (fun o e => SignsInSetup o.state e)
      (ProtocolState.run env protocol fuel (es₀ ++ [.startQuery request data])) es) :
    let o := ProtocolState.run env protocol fuel (es₀ ++ [.startQuery request data])
    Along (ProtocolState.step env protocol fuel)
        (fun o e => o.state.impl.protocolPhase.rank ≤
          (ProtocolState.step env protocol fuel o e).state.impl.protocolPhase.rank) o es ∧
      Throughout (ProtocolState.step env protocol fuel)
        (fun o' => multicasts o'.state.trace ≤ multicasts o.state.trace + 1) o es ∧
      ∀ error, es.foldl (ProtocolState.step env (protocol.checked endsOnTime error) fuel) o =
        es.foldl (ProtocolState.step env protocol fuel) o := by
  intro o
  let n := multicasts o.state.trace
  have hfirst : o.Ends (InQuery env n) fun t => multicasts t.trace ≤ n + 1 :=
    starts_inQuery env fuel es₀ request data
  have hstep (o' : Outcome Fault State) (e : ProtocolState.Event)
      (ho : o'.Ends (InQuery env n) fun t => multicasts t.trace ≤ n + 1)
      (he : SignsInSetup o'.state e) :
      MovesOn env n o'.state (ProtocolState.step env protocol fuel o' e) := by
    cases o' with
    | done s => exact handle_movesOn fuel ho he
    | halted error s => exact ⟨ho, le_rfl⟩
  have hchecked (error : Fault) (o' : Outcome Fault State) (e : ProtocolState.Event)
      (ho : o'.Ends (InQuery env n) fun t => multicasts t.trace ≤ n + 1)
      (he : SignsInSetup o'.state e) :
      ProtocolState.step env (protocol.checked endsOnTime error) fuel o' e =
        ProtocolState.step env protocol fuel o' e := by
    cases o' with
    | done s => exact handle_endsOnTime error fuel ho he
    | halted error s => rfl
  refine ⟨?_, ?_, fun error => Along.foldl_eq ?_⟩
  · exact hes.along hfirst fun o' e ho he => ⟨(hstep o' e ho he).inQuery, (hstep o' e ho he).rank⟩
  · refine (hes.throughout hfirst fun o' e ho he => (hstep o' e ho he).inQuery).mono fun o' ho => ?_
    exact Outcome.holds_iff.mp (ho.mono (fun _ hs => hs.multicasts_le) fun _ h => h)
  · exact hes.along hfirst fun o' e ho he =>
      ⟨(hstep o' e ho he).inQuery, hchecked error o' e ho he⟩

/-- A signature, and timeouts until the query is over. -/
def signedRun : List ProtocolState.Event :=
  .signatureResponse ⟨-1, ""⟩ :: (List.range 60).map fun i : ℕ => .timerExpires i

def queryRun : List ProtocolState.Event := [.startQuery ⟨.currUsageSum, 1, 0⟩ [5]]

theorem signedRun_on_schedule :
    let o := ProtocolState.run ProtocolState.valueEnv protocol 100 ([] ++ queryRun)
    Along (ProtocolState.step ProtocolState.valueEnv protocol 100)
        (fun o e => o.state.impl.protocolPhase.rank ≤
          (ProtocolState.step ProtocolState.valueEnv protocol 100 o e).state.impl.protocolPhase.rank)
        o signedRun ∧
      Throughout (ProtocolState.step ProtocolState.valueEnv protocol 100)
        (fun o' => multicasts o'.state.trace ≤ multicasts o.state.trace + 1) o signedRun ∧
      ∀ error, signedRun.foldl (ProtocolState.step ProtocolState.valueEnv
          (protocol.checked endsOnTime error) 100) o =
        signedRun.foldl (ProtocolState.step ProtocolState.valueEnv protocol 100) o := by
  refine phases_on_schedule ProtocolState.valueEnv 100 [] ⟨.currUsageSum, 1, 0⟩ [5] signedRun
    ⟨?_, along_of_mem fun e he o => ?_⟩
  · change (ProtocolState.run ProtocolState.valueEnv protocol 100 _).state.impl.protocolPhase = .setup
    decide +kernel
  · obtain ⟨i, -, rfl⟩ := List.mem_map.mp he
    trivial

/-- The signature arrives twice, and the contribution is multicast again. -/
theorem second_signature_multicasts_again :
    ¬ Throughout (ProtocolState.step ProtocolState.valueEnv protocol 100)
      (fun o => multicasts o.state.trace ≤
        multicasts (ProtocolState.run ProtocolState.valueEnv protocol 100 queryRun).state.trace + 1)
      (ProtocolState.run ProtocolState.valueEnv protocol 100 queryRun)
      [.signatureResponse ⟨-1, ""⟩, .signatureResponse ⟨-1, ""⟩] := by
  intro h
  have htwice := h.last
  revert htwice
  decide +kernel

end BftProtocolState
end Pddm
