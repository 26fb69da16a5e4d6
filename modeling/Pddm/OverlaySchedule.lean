import Pddm.RoundFuel

/-!
# The schedules of the protocols

The rounds in which the phases of the overlay end are fixed in all three protocols. So each of
them keeps time, whatever a meter receives.
-/
namespace Pddm

namespace ProtocolState
variable {ι : Type} {env : ProtocolEnv}

theorem enterAggregatePhase_after {ph : AggregatePhase ι} (s : ProtocolState ι) (R : ι → Prop)
    (hbegin : ∀ i, R i → R (ph.begin i)) (hfinish : ∀ i, R i → R (ph.finish i))
    (hs : R (ph.begin s.impl)) : (s.enterAggregatePhase env ph).Ends
      (fun t => t.isLastRound = true ∧ R t.impl) fun _ => True := by
  have hsame : (s.enterAggregatePhase env ph).Holds (SameOverlay ph (s.onImpl ph.begin)) :=
    SameOverlay.startAggregatePhase _
  have hlast : (s.enterAggregatePhase env ph).Ends (fun t => t.isLastRound = true)
      fun _ => True := startAggregatePhase_isLastRound _
  exact (hsame.and hlast).mono (fun t ht => ⟨ht.2, ht.1.impl R hbegin hfinish hs⟩)
    fun _ _ => trivial

theorem encryptedMulticastToProxies_opens {P : Protocol ι} {OnTime : ℤ → ι → Prop}
    {I : ProtocolState ι → Prop} {endRound : ProtocolState ι → Outcome Fault (ProtocolState ι)}
    {contribution : ValueContribution} {s : ProtocolState ι} (hs : Opening P OnTime s)
    (hopen : ∀ t, Opening P OnTime t → (endRound t).Ends I fun _ => True) :
    (encryptedMulticastToProxies env endRound contribution s).Ends I fun _ => True :=
  encryptedMulticastToProxies_ends trivial fun _ _ =>
    hopen _ ⟨hs.overlayRound, hs.phase, hs.last, hs.onTime, hs.timers⟩

theorem encryptedMulticastToProxies_same {P : Protocol ι} {OnTime : ℤ → ι → Prop}
    {endRound endRound' : ProtocolState ι → Outcome Fault (ProtocolState ι)}
    {contribution : ValueContribution} {s : ProtocolState ι} (hs : Opening P OnTime s)
    (hsame : ∀ t, Opening P OnTime t → endRound t = endRound' t) :
    encryptedMulticastToProxies env endRound contribution s =
      encryptedMulticastToProxies env endRound' contribution s :=
  encryptedMulticastToProxies_congr hsame fun _ =>
    ⟨hs.overlayRound, hs.phase, hs.last, hs.onTime, hs.timers⟩

end ProtocolState

def CtProtocolPhase.rank : CtProtocolPhase → ℕ
  | .shuffle => 0
  | .echo => 1
  | .aggregate => 2
  | .idle => 3

namespace CtProtocolState
open ProtocolState (SameClock SameOverlay Opening Unstarted KeepsRounds KeepsTime)
variable {env : ProtocolEnv} {p : ℕ}

def phaseRounds (env : ProtocolEnv) : ℤ := env.failuresTolerated + 2 * env.log2n + 1

theorem phaseRounds_pos (env : ProtocolEnv) : 0 < phaseRounds env := by
  have hlog : 0 ≤ env.log2n := Int.natCast_nonneg _
  unfold phaseRounds
  omega

/-- In which rounds a meter is in each phase, from the phase of rank `p` on. -/
def OnTime (env : ProtocolEnv) (p : ℕ) (r : ℤ) (i : CtProtocolState) : Prop :=
  p ≤ i.protocolPhase.rank ∧
    match i.protocolPhase with
    | .shuffle => -1 ≤ r ∧ r ≤ phaseRounds env
    | .echo => i.echoStartRound = phaseRounds env ∧ phaseRounds env < r ∧ r ≤ 2 * phaseRounds env
    | .aggregate | .idle => r = 2 * phaseRounds env

def Waiting (_ : ℤ) (i : CtProtocolState) : Prop := i.protocolPhase = .idle

theorem handleBody_clock (message : OverlayMessage) (s : State) :
    (handleBody env message s).Holds fun t => SameClock s t ∧ t.impl = s.impl := by
  have heffect (t : State) (ht : BodyEffect env message s t) : SameClock s t ∧ t.impl = s.impl := by
    cases ht with
    | ignored => exact ⟨.refl s, rfl⟩
    | forwarded enclosed => exact ⟨⟨rfl, rfl, rfl, rfl, rfl⟩, rfl⟩
    | accepted contribution => exact SameClock.emplaceProxyValue s contribution
  exact (handleBody_effect message s).mono heffect heffect

theorem isInOverlayPhase_iff {i : CtProtocolState} : isInOverlayPhase i = true ↔
    i.protocolPhase = .shuffle ∨ i.protocolPhase = .echo := by
  simp [isInOverlayPhase]

theorem endOverlayRoundImpl_onTime {s : State} (hphase : isInOverlayPhase s.impl = true)
    (hlast : s.isLastRound = false) (hs : OnTime env p s.overlayRound s.impl) :
    (endOverlayRoundImpl env s).Ends
      (fun t => (isInOverlayPhase t.impl = true ∧ t.isLastRound = false ∧
          OnTime env p (s.overlayRound + 1) t.impl) ∨
        (isInOverlayPhase t.impl = false ∧ t.isLastRound = true ∧
          OnTime env p s.overlayRound t.impl)) fun _ => True := by
  have hpos := phaseRounds_pos env
  obtain ⟨hrank, hround⟩ := hs
  unfold endOverlayRoundImpl
  rw [show (env.failuresTolerated : ℤ) + 2 * env.log2n + 1 = phaseRounds env from rfl]
  rcases isInOverlayPhase_iff.mp hphase with hshuffle | hecho
  · rw [hshuffle] at hrank hround
    obtain ⟨hfirst, hround⟩ := hround
    by_cases hend : s.overlayRound ≥ phaseRounds env
    · rw [if_pos ⟨hshuffle, hend⟩]
      refine Outcome.Ends.andThen (P := fun t : State => t.isLastRound = false ∧
        t.overlayRound = s.overlayRound) ?_ fun t ht => .inl ⟨rfl, ht.1, hrank.trans (Nat.zero_le 1), ?_⟩
      · refine Outcome.forEach_ends ⟨hlast, rfl⟩ fun value _ t ht => ?_
        unfold echoValue
        split
        · trivial
        · exact ht
      · dsimp only
        omega
    · rw [if_neg fun h => hend h.2, if_neg (by simp [hshuffle])]
      refine .inl ⟨hphase, hlast, ?_, ?_⟩
      · rwa [hshuffle]
      · rw [hshuffle]
        dsimp only
        omega
  · rw [hecho] at hrank hround
    obtain ⟨hstart, hafter, hround⟩ := hround
    rw [if_neg (by simp [hecho]), hstart,
      show phaseRounds env + env.failuresTolerated + 2 * env.log2n + 1 = 2 * phaseRounds env by
        unfold phaseRounds; ring]
    by_cases hend : s.overlayRound ≥ 2 * phaseRounds env
    · rw [if_pos ⟨hecho, hend⟩]
      refine (ProtocolState.enterAggregatePhase_after s
        (fun i => i.protocolPhase = .aggregate ∨ i.protocolPhase = .idle) (fun _ _ => .inl rfl)
        (fun _ _ => .inr rfl) (.inl rfl)).mono (fun t ht => .inr ?_) fun _ _ => trivial
      obtain ⟨hover, hphase'⟩ := ht
      have hnow : s.overlayRound = 2 * phaseRounds env := le_antisymm hround hend
      refine ⟨?_, hover, ?_⟩
      · rcases hphase' with h | h <;> simp [isInOverlayPhase, h]
      · have hp : p ≤ 1 := hrank
        rcases hphase' with h | h
        · unfold OnTime
          rw [h]
          exact ⟨hp.trans (Nat.le_succ 1), hnow⟩
        · unfold OnTime
          rw [h]
          exact ⟨hp.trans (by decide), hnow⟩
    · rw [if_neg fun h => hend h.2]
      refine .inl ⟨hphase, hlast, ?_, ?_⟩
      · rwa [hecho]
      · rw [hecho]
        exact ⟨hstart, by omega, by omega⟩

theorem keepsRounds (env : ProtocolEnv) (p : ℕ) :
    KeepsRounds layered env (OnTime env p) Waiting (2 * phaseRounds env) where
  bound r i hi hphase := by
    have hpos := phaseRounds_pos env
    obtain ⟨-, hround⟩ := hi
    rcases isInOverlayPhase_iff.mp hphase with h | h
    · rw [h] at hround
      dsimp only at hround
      omega
    · rw [h] at hround
      dsimp only at hround
      omega
  apart i hphase := by
    rcases isInOverlayPhase_iff.mp hphase with h | h <;>
      exact decide_eq_false (by simp [h])
  waits r i hi := decide_eq_false (by rw [show i.protocolPhase = .idle from hi]; decide)
  finish r i hphase hi := by
    have haggregate : i.protocolPhase = .aggregate := of_decide_eq_true hphase
    obtain ⟨hrank, hround⟩ := hi
    rw [haggregate] at hrank hround
    exact ⟨⟨hrank.trans (Nat.le_succ 2), hround⟩, rfl⟩
  body message s := by
    have hsame (t : State) (h : SameClock s t ∧ t.impl = s.impl) : SameClock s t ∧
        isInOverlayPhase t.impl = isInOverlayPhase s.impl ∧
          (∀ r, OnTime env p r s.impl → OnTime env p r t.impl) ∧
            ∀ r, Waiting r s.impl → Waiting r t.impl := by
      rw [h.2]
      exact ⟨h.1, rfl, fun _ h => h, fun _ h => h⟩
    exact (handleBody_clock message s).mono hsame hsame
  ends s hphase hlast hs := endOverlayRoundImpl_onTime hphase hlast hs
  rests s hphase := by
    have hneither : s.impl.protocolPhase ≠ .shuffle ∧ s.impl.protocolPhase ≠ .echo := by
      rw [← not_or, ← isInOverlayPhase_iff]
      exact Bool.eq_false_iff.mp hphase
    change endOverlayRoundImpl env s = .done s
    unfold endOverlayRoundImpl
    rw [if_neg fun h => hneither.1 h.1, if_neg fun h => hneither.2 h.1]

theorem opening_shuffle {s : State} (hround : s.overlayRound = -1) (hlast : s.isLastRound = false)
    (htimers : s.timers.pending = []) :
    Opening protocol (OnTime env 0) { s with impl := ⟨0, .shuffle⟩ } := by
  have hpos := phaseRounds_pos env
  refine ⟨hround, rfl, hlast, ⟨le_rfl, le_rfl, ?_⟩, htimers⟩
  omega

theorem keepsTime (env : ProtocolEnv) :
    KeepsTime layered env (OnTime env 0) Waiting (2 * phaseRounds env) fun _ => True where
  toKeepsRounds := keepsRounds env 0
  init := ⟨rfl, rfl⟩
  start endRound request s I hround hlast htimers hopen _ := by
    change (startQueryImpl env endRound request s).Ends I _
    unfold startQueryImpl
    dsimp only
    split
    · trivial
    · exact ProtocolState.encryptedMulticastToProxies_opens (opening_shuffle hround hlast htimers)
        hopen
  signature _ _ _ _ _ hI _ _ := hI
  startSame endRound endRound' request s hround hlast htimers hsame := by
    change startQueryImpl env endRound request s = startQueryImpl env endRound' request s
    unfold startQueryImpl
    dsimp only
    split
    · rfl
    · exact ProtocolState.encryptedMulticastToProxies_same (opening_shuffle hround hlast htimers)
        hsame
  signatureSame _ _ _ _ _ _ _ := rfl

inductive PhaseByRound (env : ProtocolEnv) (s : State) : Prop
  | unstarted (hphase : s.impl.protocolPhase = .idle) (hlast : s.isLastRound = false)
  | shuffle (hphase : s.impl.protocolPhase = .shuffle) (hlast : s.isLastRound = false)
      (hround : -1 ≤ s.overlayRound ∧ s.overlayRound ≤ phaseRounds env)
  | echo (hphase : s.impl.protocolPhase = .echo) (hlast : s.isLastRound = false)
      (hround : phaseRounds env < s.overlayRound ∧ s.overlayRound ≤ 2 * phaseRounds env)
  | ended (hphase : s.impl.protocolPhase = .aggregate ∨ s.impl.protocolPhase = .idle)
      (hlast : s.isLastRound = true) (hround : s.overlayRound = 2 * phaseRounds env)

theorem phaseByRound_of_clock {c : ℤ} {s : State}
    (hs : ProtocolState.Clock protocol (OnTime env p) Waiting (2 * phaseRounds env) c s) :
    PhaseByRound env s := by
  rcases hs with ⟨hs, -⟩ | hs
  · exact .unstarted hs.waiting hs.last
  · cases hs with
    | running hphase hlast honTime =>
      obtain ⟨-, hround⟩ := honTime
      rcases isInOverlayPhase_iff.mp hphase with h | h
      · rw [h] at hround
        exact .shuffle h hlast hround
      · rw [h] at hround
        exact .echo h hlast hround.2
    | stopped hphase hlast honTime =>
      obtain ⟨-, hround⟩ := honTime
      cases h : s.impl.protocolPhase with
      | shuffle => exact absurd (isInOverlayPhase_iff.mpr (.inl h)) (Bool.eq_false_iff.mp hphase)
      | echo => exact absurd (isInOverlayPhase_iff.mpr (.inr h)) (Bool.eq_false_iff.mp hphase)
      | aggregate =>
        rw [h] at hround
        exact .ended (.inl h) hlast hround
      | idle =>
        rw [h] at hround
        exact .ended (.inr h) hlast hround

theorem goesForward (env : ProtocolEnv) (fuel : ℕ) (es : List ProtocolState.Event) :
    ProtocolState.GoesForward env protocol (fun i => i.protocolPhase.rank) fuel es := by
  refine (keepsTime env).goesForward (keepsRounds env) (fun p r i hi => ⟨hi.1, le_rfl, hi.2⟩)
    (fun r i hi j => ?_) (fun _ _ _ => rfl) fuel es
  rw [show i.protocolPhase = .idle from hi]
  cases j.protocolPhase <;> decide

end CtProtocolState

def HftProtocolPhase.rank : HftProtocolPhase → ℕ
  | .scatter => 0
  | .gather => 1
  | .aggregate => 2
  | .idle => 3

namespace HftProtocolState
open ProtocolState (SameClock Opening KeepsRounds KeepsTime)
variable {env : ProtocolEnv} {p : ℕ}

def phaseRounds (env : ProtocolEnv) : ℤ := env.log2n + env.failuresTolerated

/-- Gather takes as many, but one at least. -/
def lastRound (env : ProtocolEnv) : ℤ := max (2 * phaseRounds env) (phaseRounds env + 1)

theorem phaseRounds_nonneg (env : ProtocolEnv) : 0 ≤ phaseRounds env := by
  have hlog : 0 ≤ env.log2n := Int.natCast_nonneg _
  unfold phaseRounds
  omega

/-- In which rounds a meter is in each phase, from the phase of rank `p` on. -/
def OnTime (env : ProtocolEnv) (p : ℕ) (r : ℤ) (i : HftProtocolState) : Prop :=
  p ≤ i.protocolPhase.rank ∧
    match i.protocolPhase with
    | .scatter => -1 ≤ r ∧ r ≤ phaseRounds env
    | .gather => i.gatherStartRound = phaseRounds env ∧ phaseRounds env < r ∧ r ≤ lastRound env
    | .aggregate | .idle => r = lastRound env

def Waiting (_ : ℤ) (i : HftProtocolState) : Prop := i.protocolPhase = .idle

/-- The schedule does not depend on the messages that are kept. -/
def SamePhase (i i' : HftProtocolState) : Prop :=
  i'.protocolPhase = i.protocolPhase ∧ i'.gatherStartRound = i.gatherStartRound

theorem SamePhase.onTime {i i' : HftProtocolState} (h : SamePhase i i') {r : ℤ}
    (hi : OnTime env p r i) : OnTime env p r i' := by
  unfold OnTime at hi ⊢
  rw [h.1, h.2]
  exact hi

theorem SamePhase.isInOverlayPhase {i i' : HftProtocolState} (h : SamePhase i i') :
    isInOverlayPhase i' = isInOverlayPhase i := by
  unfold HftProtocolState.isInOverlayPhase
  rw [h.1]

theorem handleBody_clock (message : OverlayMessage) (s : State) :
    (handleBody env message s).Holds fun t => SameClock s t ∧ SamePhase s.impl t.impl := by
  have heffect (t : State) (ht : BodyEffect env message s t) :
      SameClock s t ∧ SamePhase s.impl t.impl := by
    cases ht with
    | ignored => exact ⟨.refl s, rfl, rfl⟩
    | relayed => exact ⟨⟨rfl, rfl, rfl, rfl, rfl⟩, rfl, rfl⟩
    | accepted contribution =>
      obtain ⟨hclock, himpl⟩ := SameClock.emplaceProxyValue s contribution
      exact ⟨hclock, by rw [himpl], by rw [himpl]⟩
    | flooded => exact ⟨⟨rfl, rfl, rfl, rfl, rfl⟩, rfl, rfl⟩
  exact (handleBody_effect message s).mono heffect heffect

theorem isInOverlayPhase_iff {i : HftProtocolState} : isInOverlayPhase i = true ↔
    i.protocolPhase = .scatter ∨ i.protocolPhase = .gather := by
  simp [isInOverlayPhase]

theorem flood_same (s : State) : (flood env s).isLastRound = s.isLastRound ∧
    SamePhase s.impl (flood env s).impl := by
  unfold flood
  split_ifs
  · exact ⟨rfl, rfl, rfl⟩
  · exact ⟨rfl, rfl, rfl⟩

theorem endPhase_onTime {s : State} (hphase : isInOverlayPhase s.impl = true)
    (hlast : s.isLastRound = false) (hs : OnTime env p s.overlayRound s.impl) :
    (endPhase env s).Ends
      (fun t => (isInOverlayPhase t.impl = true ∧ t.isLastRound = false ∧
          OnTime env p (s.overlayRound + 1) t.impl) ∨
        (isInOverlayPhase t.impl = false ∧ t.isLastRound = true ∧
          OnTime env p s.overlayRound t.impl)) fun _ => True := by
  have hnonneg := phaseRounds_nonneg env
  have hlasts : phaseRounds env + 1 ≤ lastRound env ∧ 2 * phaseRounds env ≤ lastRound env :=
    ⟨le_max_right _ _, le_max_left _ _⟩
  obtain ⟨hrank, hround⟩ := hs
  unfold endPhase
  rw [show env.log2n + (env.failuresTolerated : ℤ) = phaseRounds env from rfl]
  rcases isInOverlayPhase_iff.mp hphase with hscatter | hgather
  · rw [hscatter] at hrank hround
    obtain ⟨hfirst, hround⟩ := hround
    by_cases hend : s.overlayRound ≥ phaseRounds env
    · rw [if_pos ⟨hscatter, hend⟩]
      refine .inl ⟨rfl, hlast, hrank.trans (Nat.zero_le 1), le_antisymm hround hend, ?_, ?_⟩ <;> omega
    · rw [if_neg fun h => hend h.2, if_neg (by simp [hscatter])]
      refine .inl ⟨hphase, hlast, ?_, ?_⟩
      · rwa [hscatter]
      · rw [hscatter]
        dsimp only
        omega
  · rw [hgather] at hrank hround
    obtain ⟨hstart, hafter, hround⟩ := hround
    rw [if_neg (by simp [hgather]), hstart, add_assoc,
      show env.log2n + (env.failuresTolerated : ℤ) = phaseRounds env from rfl, ← two_mul]
    by_cases hend : s.overlayRound ≥ 2 * phaseRounds env
    · rw [if_pos ⟨hgather, hend⟩]
      refine (ProtocolState.enterAggregatePhase_after _
        (fun i => i.protocolPhase = .aggregate ∨ i.protocolPhase = .idle) (fun _ _ => .inl rfl)
        (fun _ _ => .inr rfl) (.inl rfl)).mono (fun t ht => .inr ?_) fun _ _ => trivial
      obtain ⟨hover, hphase'⟩ := ht
      have hnow : s.overlayRound = lastRound env :=
        le_antisymm hround (max_le hend (by omega))
      have hp : p ≤ 1 := hrank
      refine ⟨?_, hover, ?_⟩
      · rcases hphase' with h | h <;> simp [isInOverlayPhase, h]
      · rcases hphase' with h | h
        · unfold OnTime
          rw [h]
          exact ⟨hp.trans (Nat.le_succ 1), hnow⟩
        · unfold OnTime
          rw [h]
          exact ⟨hp.trans (by decide), hnow⟩
    · rw [if_neg fun h => hend h.2]
      refine .inl ⟨hphase, hlast, ?_, ?_⟩
      · rwa [hgather]
      · rw [hgather]
        exact ⟨hstart, by omega, by omega⟩

theorem keepsRounds (env : ProtocolEnv) (p : ℕ) :
    KeepsRounds layered env (OnTime env p) Waiting (lastRound env) where
  bound r i hi hphase := by
    have hnonneg := phaseRounds_nonneg env
    have hlasts : phaseRounds env + 1 ≤ lastRound env := le_max_right _ _
    obtain ⟨-, hround⟩ := hi
    rcases isInOverlayPhase_iff.mp hphase with h | h
    · rw [h] at hround
      dsimp only at hround
      omega
    · rw [h] at hround
      dsimp only at hround
      omega
  apart i hphase := by
    rcases isInOverlayPhase_iff.mp hphase with h | h <;>
      exact decide_eq_false (by simp [h])
  waits r i hi := decide_eq_false (by rw [show i.protocolPhase = .idle from hi]; decide)
  finish r i hphase hi := by
    have haggregate : i.protocolPhase = .aggregate := of_decide_eq_true hphase
    obtain ⟨hrank, hround⟩ := hi
    rw [haggregate] at hrank hround
    exact ⟨⟨hrank.trans (Nat.le_succ 2), hround⟩, rfl⟩
  body message s := by
    have hsame (t : State) (h : SameClock s t ∧ SamePhase s.impl t.impl) : SameClock s t ∧
        isInOverlayPhase t.impl = isInOverlayPhase s.impl ∧
          (∀ r, OnTime env p r s.impl → OnTime env p r t.impl) ∧
            ∀ r, Waiting r s.impl → Waiting r t.impl :=
      ⟨h.1, h.2.isInOverlayPhase, fun _ => h.2.onTime, fun _ hr => h.2.1.trans hr⟩
    exact (handleBody_clock message s).mono hsame hsame
  ends s hphase hlast hs := by
    change (endOverlayRoundImpl env s).Ends _ _
    unfold endOverlayRoundImpl
    refine (endPhase_onTime hphase hlast hs).andThen fun t ht => ?_
    obtain ⟨hsame, hphase'⟩ := @flood_same env t
    change (isInOverlayPhase (flood env t).impl = true ∧ _) ∨
      (isInOverlayPhase (flood env t).impl = false ∧ _)
    rw [hphase'.isInOverlayPhase, hsame]
    exact ht.imp (fun h => ⟨h.1, h.2.1, hphase'.onTime h.2.2⟩)
      fun h => ⟨h.1, h.2.1, hphase'.onTime h.2.2⟩
  rests s hphase := by
    have hneither : s.impl.protocolPhase ≠ .scatter ∧ s.impl.protocolPhase ≠ .gather := by
      rw [← not_or, ← isInOverlayPhase_iff]
      exact Bool.eq_false_iff.mp hphase
    change endOverlayRoundImpl env s = .done s
    unfold endOverlayRoundImpl endPhase
    rw [if_neg fun h => hneither.1 h.1, if_neg fun h => hneither.2 h.1, Outcome.done_andThen, flood,
      if_neg (show ¬ isInOverlayPhase s.impl = true from Bool.eq_false_iff.mp hphase)]

theorem keepsTime (env : ProtocolEnv) :
    KeepsTime layered env (OnTime env 0) Waiting (lastRound env) fun _ => True where
  toKeepsRounds := keepsRounds env 0
  init := ⟨rfl, rfl⟩
  start endRound request s I hround hlast htimers hopen _ := by
    have hnonneg := phaseRounds_nonneg env
    change (startQueryImpl env endRound request s).Ends I _
    unfold startQueryImpl
    split
    · trivial
    · refine hopen _ ⟨hround, rfl, hlast, ⟨le_rfl, le_rfl, ?_⟩, htimers⟩
      omega
  signature _ _ _ _ _ hI _ _ := hI
  startSame endRound endRound' request s hround hlast htimers hsame := by
    have hnonneg := phaseRounds_nonneg env
    change startQueryImpl env endRound request s = startQueryImpl env endRound' request s
    unfold startQueryImpl
    split
    · rfl
    · refine hsame _ ⟨hround, rfl, hlast, ⟨le_rfl, le_rfl, ?_⟩, htimers⟩
      omega
  signatureSame _ _ _ _ _ _ _ := rfl

inductive PhaseByRound (env : ProtocolEnv) (s : State) : Prop
  | unstarted (hphase : s.impl.protocolPhase = .idle) (hlast : s.isLastRound = false)
  | scatter (hphase : s.impl.protocolPhase = .scatter) (hlast : s.isLastRound = false)
      (hround : -1 ≤ s.overlayRound ∧ s.overlayRound ≤ phaseRounds env)
  | gather (hphase : s.impl.protocolPhase = .gather) (hlast : s.isLastRound = false)
      (hround : phaseRounds env < s.overlayRound ∧ s.overlayRound ≤ lastRound env)
  | ended (hphase : s.impl.protocolPhase = .aggregate ∨ s.impl.protocolPhase = .idle)
      (hlast : s.isLastRound = true) (hround : s.overlayRound = lastRound env)

theorem phaseByRound_of_clock {c : ℤ} {s : State}
    (hs : ProtocolState.Clock protocol (OnTime env p) Waiting (lastRound env) c s) :
    PhaseByRound env s := by
  rcases hs with ⟨hs, -⟩ | hs
  · exact .unstarted hs.waiting hs.last
  · cases hs with
    | running hphase hlast honTime =>
      obtain ⟨-, hround⟩ := honTime
      rcases isInOverlayPhase_iff.mp hphase with h | h
      · rw [h] at hround
        exact .scatter h hlast hround
      · rw [h] at hround
        exact .gather h hlast hround.2
    | stopped hphase hlast honTime =>
      obtain ⟨-, hround⟩ := honTime
      cases h : s.impl.protocolPhase with
      | scatter => exact absurd (isInOverlayPhase_iff.mpr (.inl h)) (Bool.eq_false_iff.mp hphase)
      | gather => exact absurd (isInOverlayPhase_iff.mpr (.inr h)) (Bool.eq_false_iff.mp hphase)
      | aggregate =>
        rw [h] at hround
        exact .ended (.inl h) hlast hround
      | idle =>
        rw [h] at hround
        exact .ended (.inr h) hlast hround

theorem goesForward (env : ProtocolEnv) (fuel : ℕ) (es : List ProtocolState.Event) :
    ProtocolState.GoesForward env protocol (fun i => i.protocolPhase.rank) fuel es := by
  refine (keepsTime env).goesForward (keepsRounds env) (fun p r i hi => ⟨hi.1, le_rfl, hi.2⟩)
    (fun r i hi j => ?_) (fun _ _ _ => rfl) fuel es
  rw [show i.protocolPhase = .idle from hi]
  cases j.protocolPhase <;> decide

end HftProtocolState

namespace BftProtocolState
open ProtocolState (SameClock SameRound Opening Unstarted KeepsRounds KeepsTime)
variable {env : ProtocolEnv}

/-- In which rounds a meter is in each phase of the overlay. -/
def OnTime (env : ProtocolEnv) (r : ℤ) (i : BftProtocolState) : Prop :=
  match i.protocolPhase with
  | .setup => False
  | .shuffle => -1 ≤ r ∧ r ≤ phaseRounds env ∧ phase1Finished i = false
  | .agreement => i.agreementStartRound = phaseRounds env ∧ phaseRounds env < r ∧
      r ≤ 3 * phaseRounds env ∧ (phase1Finished i = true ↔ 2 * phaseRounds env < r)
  | .aggregate | .idle => True

/-- A meter is idle before its first query, and waits for a signature during Setup. -/
def Waiting (r : ℤ) (i : BftProtocolState) : Prop :=
  i.protocolPhase = .idle ∨ (i.protocolPhase = .setup ∧ r = -1 ∧ phase1Finished i = false)

/-- The schedule depends on three things. -/
structure SamePhase (i i' : BftProtocolState) : Prop where
  protocolPhase : i'.protocolPhase = i.protocolPhase
  agreementStartRound : i'.agreementStartRound = i.agreementStartRound
  phase1Finished : phase1Finished i' = phase1Finished i

theorem SamePhase.onTime {i i' : BftProtocolState} (h : SamePhase i i') {r : ℤ}
    (hi : OnTime env r i) : OnTime env r i' := by
  unfold OnTime at hi ⊢
  rw [h.protocolPhase, h.agreementStartRound, h.phase1Finished]
  exact hi

theorem SamePhase.waiting {i i' : BftProtocolState} (h : SamePhase i i') {r : ℤ}
    (hi : Waiting r i) : Waiting r i' := by
  unfold Waiting at hi ⊢
  rw [h.protocolPhase, h.phase1Finished]
  exact hi

theorem handleBody_clock (message : OverlayMessage) (s : State) :
    (handleBody env message s).Holds fun t => SameClock s t ∧ SamePhase s.impl t.impl := by
  have hclock (t : State) (ht : BodyEffect env message s t) : SameClock s t := by
    cases ht with
    | ignored => exact .refl s
    | forwarded enclosed => exact ⟨rfl, rfl, rfl, rfl, rfl⟩
    | accepted contribution => exact (SameClock.emplaceProxyValue s contribution).1
    | agreed agreement u _ hlogged =>
      rcases hlogged with rfl | ⟨_, _, rfl⟩
      · exact ⟨rfl, rfl, rfl, rfl, rfl⟩
      · exact ⟨rfl, rfl, rfl, rfl, rfl⟩
  exact (((handleBody_effect message s).mono hclock hclock).and
    (SameSchedule.handleBody message s)).mono
      (fun t ht => ⟨ht.1, ht.2.protocolPhase, ht.2.agreementStartRound, ht.2.phase1Finished⟩)
      fun t ht => ⟨ht.1, ht.2.protocolPhase, ht.2.agreementStartRound, ht.2.phase1Finished⟩

theorem isInOverlayPhase_iff {i : BftProtocolState} : isInOverlayPhase i = true ↔
    i.protocolPhase = .shuffle ∨ i.protocolPhase = .agreement := by
  simp [isInOverlayPhase]

theorem endOverlayRoundImpl_onTime {s : State} (hphase : isInOverlayPhase s.impl = true)
    (hlast : s.isLastRound = false) (hs : OnTime env s.overlayRound s.impl) :
    (endOverlayRoundImpl env s).Ends
      (fun t => (isInOverlayPhase t.impl = true ∧ t.isLastRound = false ∧
          OnTime env (s.overlayRound + 1) t.impl) ∨
        (isInOverlayPhase t.impl = false ∧ t.isLastRound = true ∧
          OnTime env s.overlayRound t.impl)) fun _ => True := by
  have hfirst : -1 ≤ s.overlayRound := by
    have hpos := phaseRounds_pos env
    unfold OnTime at hs
    rcases isInOverlayPhase_iff.mp hphase with h | h
    · rw [h] at hs
      exact hs.1
    · rw [h] at hs
      have hafter := hs.2.1
      omega
  have honSchedule : OnSchedule env s.overlayRound s := by
    unfold OnTime at hs
    rcases isInOverlayPhase_iff.mp hphase with h | h
    · rw [h] at hs
      exact .shuffling h hlast hs.2.1 hs.2.2
    · rw [h] at hs
      obtain ⟨hstart, hafter, hround, hfinished⟩ := hs
      exact .agreeing h hlast hstart hafter hround hfinished
  have hpace : Paced env 0 (multicasts s.trace) s.overlayRound s :=
    ⟨honSchedule, Nat.zero_le _, rfl⟩
  have hpaced := endOverlayRoundImpl_paced hpace
  refine ((layered.ends env s).and hpaced).mono (fun t ht => ?_) fun _ _ => trivial
  obtain ⟨hsame, hnext, -⟩ := ht
  have hnext' := hnext.onSchedule
  rw [hsame.overlayRound] at hnext'
  cases hnext' with
  | shuffling hphase' hlast' hround hfinished =>
    refine .inl ⟨isInOverlayPhase_iff.mpr (.inl hphase'), hlast', ?_⟩
    unfold OnTime
    rw [hphase']
    exact ⟨by omega, hround, hfinished⟩
  | agreeing hphase' hlast' hstart hafter hround hfinished =>
    refine .inl ⟨isInOverlayPhase_iff.mpr (.inr hphase'), hlast', ?_⟩
    unfold OnTime
    rw [hphase']
    exact ⟨hstart, hafter, hround, hfinished⟩
  | aggregating hphase' hlast' =>
    refine .inr ⟨?_, hlast', ?_⟩
    · rcases hphase' with h | h <;> simp [isInOverlayPhase, h]
    · unfold OnTime
      rcases hphase' with h | h <;> rw [h] <;> trivial

theorem keepsRounds (env : ProtocolEnv) :
    KeepsRounds layered env (OnTime env) Waiting (3 * phaseRounds env) where
  bound r i hi hphase := by
    have hpos := phaseRounds_pos env
    unfold OnTime at hi
    rcases isInOverlayPhase_iff.mp hphase with h | h
    · rw [h] at hi
      obtain ⟨hfirst, hround, -⟩ := hi
      omega
    · rw [h] at hi
      obtain ⟨-, hafter, hround, -⟩ := hi
      omega
  apart i hphase := by
    rcases isInOverlayPhase_iff.mp hphase with h | h <;>
      exact decide_eq_false (by simp [h])
  waits r i hi := by
    rcases hi with h | ⟨h, -⟩ <;> exact decide_eq_false (by simp [h])
  finish _ _ _ _ := ⟨trivial, rfl⟩
  body message s := by
    have hsame (t : State) (h : SameClock s t ∧ SamePhase s.impl t.impl) : SameClock s t ∧
        isInOverlayPhase t.impl = isInOverlayPhase s.impl ∧
          (∀ r, OnTime env r s.impl → OnTime env r t.impl) ∧
            ∀ r, Waiting r s.impl → Waiting r t.impl := by
      refine ⟨h.1, ?_, fun _ => h.2.onTime, fun _ => h.2.waiting⟩
      unfold isInOverlayPhase
      rw [h.2.protocolPhase]
    exact (handleBody_clock message s).mono hsame hsame
  ends s hphase hlast hs := endOverlayRoundImpl_onTime hphase hlast hs
  rests s hphase := by
    have hneither : s.impl.protocolPhase ≠ .shuffle ∧ s.impl.protocolPhase ≠ .agreement := by
      rw [← not_or, ← isInOverlayPhase_iff]
      exact Bool.eq_false_iff.mp hphase
    change endOverlayRoundImpl env s = .done s
    unfold endOverlayRoundImpl
    dsimp only
    rw [if_neg fun h => hneither.1 h.1, if_neg hneither.2]

/-- The signature that completes Setup starts the overlay. -/
theorem opening_of_setup {s : State} (hs : Unstarted protocol Waiting s)
    (hsetup : s.impl.protocolPhase = .setup) :
    Opening protocol (OnTime env) (s.onImpl fun i => { i with protocolPhase := .shuffle }) := by
  have hpos := phaseRounds_pos env
  obtain ⟨-, hround, hfinished⟩ := hs.waiting.resolve_left (by simp [hsetup])
  exact ⟨hround, rfl, hs.last, ⟨le_rfl, by omega, hfinished⟩, hs.timers⟩

theorem keepsTime (env : ProtocolEnv) :
    KeepsTime layered env (OnTime env) Waiting (3 * phaseRounds env)
      fun s => s.impl.protocolPhase = .setup where
  toKeepsRounds := keepsRounds env
  init := ⟨.inl rfl, rfl⟩
  start endRound request s I hround hlast htimers _ hunstarted := by
    change (startQueryImpl env endRound request s).Ends I _
    unfold startQueryImpl
    dsimp only
    split
    · trivial
    · exact hunstarted _ ⟨rfl, hlast, .inr ⟨rfl, hround, rfl⟩, htimers⟩
  signature endRound message s I hsetup _ hs hopen := by
    rcases hs with hs | ⟨c, hs⟩
    · change (handleSignatureResponse env endRound message s).Ends I _
      unfold handleSignatureResponse
      split
      · trivial
      · exact ProtocolState.encryptedMulticastToProxies_opens (opening_of_setup hs hsetup) hopen
    · cases hs with
      | running hphase => simp [protocol, isInOverlayPhase, hsetup] at hphase
      | stopped hphase hlast honTime => simp [OnTime, hsetup] at honTime
  startSame _ _ _ _ _ _ _ _ := rfl
  signatureSame endRound endRound' message s hsetup hs hsame := by
    rcases hs with hs | ⟨c, hs⟩
    · change handleSignatureResponse env endRound message s =
        handleSignatureResponse env endRound' message s
      unfold handleSignatureResponse
      split
      · rfl
      · exact ProtocolState.encryptedMulticastToProxies_same (opening_of_setup hs hsetup) hsame
    · cases hs with
      | running hphase => simp [protocol, isInOverlayPhase, hsetup] at hphase
      | stopped hphase hlast honTime => simp [OnTime, hsetup] at honTime

end BftProtocolState
namespace ProtocolState
variable (env : ProtocolEnv) (fuel : ℕ)

/-- In the protocols without signatures the round tells the phase, and no phase comes back
before the next query. -/
theorem rounds_on_schedule (es : List Event) :
    ((run env CtProtocolState.protocol fuel es).Ends (CtProtocolState.PhaseByRound env)
        (fun _ => True) ∧
      GoesForward env CtProtocolState.protocol (fun i => i.protocolPhase.rank) fuel es) ∧
    (run env HftProtocolState.protocol fuel es).Ends (HftProtocolState.PhaseByRound env)
        (fun _ => True) ∧
      GoesForward env HftProtocolState.protocol (fun i => i.protocolPhase.rank) fuel es := by
  have hct := (CtProtocolState.keepsTime env).clock_of_run fuel
    (along_of_forall es fun _ _ _ _ => trivial)
  have hhft := (HftProtocolState.keepsTime env).clock_of_run fuel
    (along_of_forall es fun _ _ _ _ => trivial)
  refine ⟨⟨hct.mono (fun s hs => ?_) fun _ _ => trivial, CtProtocolState.goesForward env fuel es⟩,
    hhft.mono (fun s hs => ?_) fun _ _ => trivial, HftProtocolState.goesForward env fuel es⟩
  · obtain ⟨c, hs⟩ := hs
    exact CtProtocolState.phaseByRound_of_clock hs
  · obtain ⟨c, hs⟩ := hs
    exact HftProtocolState.phaseByRound_of_clock hs

/-- Signatures arrive during Setup. -/
def SignedInSetup (es : List Event) : Prop :=
  Along (step env BftProtocolState.protocol fuel)
    (fun o e => ∀ message, e = .signatureResponse message → o.state.impl.protocolPhase = .setup)
    (.done (.init BftProtocolState.protocol.init)) es

/-- A meter in the overlay always has the timer of its round pending, and it leaves the overlay
once timers have gone off twice for each round and once more for each answer to a ping. -/
theorem timers_end_overlay (es : List Event) :
    TimersEnd env CtProtocolState.protocol (2 * CtProtocolState.phaseRounds env) fuel es ∧
    TimersEnd env HftProtocolState.protocol (HftProtocolState.lastRound env) fuel es ∧
    (SignedInSetup env fuel es →
      TimersEnd env BftProtocolState.protocol (3 * BftProtocolState.phaseRounds env) fuel es) :=
  ⟨(CtProtocolState.keepsTime env).timersEnd fuel (along_of_forall es fun _ _ _ _ => trivial),
    (HftProtocolState.keepsTime env).timersEnd fuel (along_of_forall es fun _ _ _ _ => trivial),
    (BftProtocolState.keepsTime env).timersEnd fuel⟩

theorem valueRun_signedInSetup : SignedInSetup valueEnv 100 (valueRun [0, 8]) := by
  have hstart (e : Event) (h : ∀ message, e ≠ .signatureResponse message)
      (o : Outcome Fault BftProtocolState.State) :
      ∀ message, e = .signatureResponse message → o.state.impl.protocolPhase = .setup :=
    fun message he => absurd he (h message)
  refine ⟨hstart _ (by simp) _, fun _ _ => ?_, hstart _ (by simp) _,
    along_of_mem fun e he o => ?_⟩
  · change (run valueEnv BftProtocolState.protocol 100 [.startQuery ⟨.currUsageSum, 1, 0⟩
      [5]]).state.impl.protocolPhase = .setup
    decide +kernel
  · obtain ⟨i, -, rfl⟩ := List.mem_map.mp he
    exact hstart _ (by simp) o

theorem sample_timers_end_overlay :
    TimersEnd valueEnv CtProtocolState.protocol (2 * CtProtocolState.phaseRounds valueEnv) 100
        (valueRun [0, 8]) ∧
    TimersEnd valueEnv BftProtocolState.protocol (3 * BftProtocolState.phaseRounds valueEnv) 100
        (valueRun [0, 8]) :=
  ⟨(timers_end_overlay valueEnv 100 (valueRun [0, 8])).1,
    (timers_end_overlay valueEnv 100 (valueRun [0, 8])).2.2 valueRun_signedInSetup⟩

/-- The ends of rounds are nested no deeper than there are rounds: with more fuel a run does not
stop for want of it, and does not depend on it. -/
theorem depth_within_rounds (fuel' : ℕ) (es : List Event) :
    ((2 * CtProtocolState.phaseRounds env + 2).toNat < fuel →
      (∀ s, run env CtProtocolState.protocol fuel es ≠ .halted .outOfFuel s) ∧
      ((2 * CtProtocolState.phaseRounds env + 2).toNat < fuel' →
        run env CtProtocolState.protocol fuel es = run env CtProtocolState.protocol fuel' es)) ∧
    ((HftProtocolState.lastRound env + 2).toNat < fuel →
      (∀ s, run env HftProtocolState.protocol fuel es ≠ .halted .outOfFuel s) ∧
      ((HftProtocolState.lastRound env + 2).toNat < fuel' →
        run env HftProtocolState.protocol fuel es = run env HftProtocolState.protocol fuel' es)) ∧
    (SignedInSetup env fuel es → (3 * BftProtocolState.phaseRounds env + 2).toNat < fuel →
      (∀ s, run env BftProtocolState.protocol fuel es ≠ .halted .outOfFuel s) ∧
      ((3 * BftProtocolState.phaseRounds env + 2).toNat < fuel' →
        run env BftProtocolState.protocol fuel es = run env BftProtocolState.protocol fuel' es)) := by
  refine ⟨fun h => ⟨?_, fun h' => ?_⟩, fun h => ⟨?_, fun h' => ?_⟩, fun hes h => ⟨?_, fun h' => ?_⟩⟩
  · exact (CtProtocolState.keepsTime env).run_avoids (CtProtocolState.fuelsRounds env) h
      (along_of_forall es fun _ _ _ _ => trivial)
  · exact (CtProtocolState.keepsTime env).run_fuel h h' (along_of_forall es fun _ _ _ _ => trivial)
  · exact (HftProtocolState.keepsTime env).run_avoids (HftProtocolState.fuelsRounds env) h
      (along_of_forall es fun _ _ _ _ => trivial)
  · exact (HftProtocolState.keepsTime env).run_fuel h h' (along_of_forall es fun _ _ _ _ => trivial)
  · exact (BftProtocolState.keepsTime env).run_avoids (BftProtocolState.fuelsRounds env) h hes
  · exact (BftProtocolState.keepsTime env).run_fuel h h' hes

theorem sample_depth_within_rounds :
    ((∀ s, run valueEnv CtProtocolState.protocol 100 (valueRun [0, 8]) ≠ .halted .outOfFuel s) ∧
      run valueEnv CtProtocolState.protocol 100 (valueRun [0, 8]) =
        run valueEnv CtProtocolState.protocol 1000 (valueRun [0, 8])) ∧
    (∀ s, run valueEnv BftProtocolState.protocol 100 (valueRun [0, 8]) ≠ .halted .outOfFuel s) ∧
      run valueEnv BftProtocolState.protocol 100 (valueRun [0, 8]) =
        run valueEnv BftProtocolState.protocol 1000 (valueRun [0, 8]) := by
  obtain ⟨hct, -, hbft⟩ := depth_within_rounds valueEnv 100 1000 (valueRun [0, 8])
  obtain ⟨hfuel, hsame⟩ := hct (by decide)
  obtain ⟨hfuel', hsame'⟩ := hbft valueRun_signedInSetup (by decide)
  exact ⟨⟨hfuel, hsame (by decide)⟩, hfuel', hsame' (by decide)⟩

end ProtocolState
end Pddm
