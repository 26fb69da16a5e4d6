import Pddm.OverlayEffects

/-!
# The order of rounds

Why a meter leaves a round, and in which round it handles a message. Messages that were
buffered for a round are handled one after the other although one of them may end it.
-/
namespace Pddm

def Action.isRound : Action → Bool
  | .handleOverlay .. | .replayOverlay .. | .leaveRound .. => true
  | _ => false

/-- The reasons of a round: its final message, a timeout of it, or a predecessor in it
that is known to have failed. -/
def RoundEnd.BelongsTo (env : ProtocolEnv) (r : ℤ) : RoundEnd → Prop
  | .start => False
  | .finalMessage senderRound => senderRound = r
  | .timeout registeredIn => registeredIn = r
  | .deadPredecessor predecessor failed =>
      predecessor = gossipPredecessor env.meterId r env.numMeters ∧ predecessor ∈ failed

def Action.InOrder (env : ProtocolEnv) : Action → Prop
  | .handleOverlay overlayRound message => message.senderRound = overlayRound
  | .leaveRound overlayRound cause => 0 ≤ overlayRound → cause.BelongsTo env overlayRound
  | _ => True

/-- Every message is handled in its round, and every round is left for a reason of its own. -/
def InOrder (env : ProtocolEnv) (trace : List Action) : Prop := ∀ a ∈ trace, a.InOrder env

/-- No message that was buffered for a round comes after a final one, and no overlay is
started that is under way. -/
def Action.BatchFits : Action → Prop
  | .replayOverlay _ messages => ∀ m ∈ messages.dropLast, m.isFinalMessage = false
  | .leaveRound overlayRound .start => overlayRound < 0
  | _ => True

def BatchesFit (trace : List Action) : Prop := ∀ a ∈ trace, a.BatchFits

theorem BatchesFit.earlier {trace trace' : List Action} (h : BatchesFit trace')
    (hgrows : trace <+: trace') : BatchesFit trace :=
  fun a ha => h a (hgrows.subset ha)

namespace ProtocolState
variable {ι : Type}

/-- The operations below the rounds: they keep the round, and register no timer. -/
structure SameRound (s t : ProtocolState ι) : Prop where
  overlayRound : t.overlayRound = s.overlayRound
  roundTimeoutTimer : t.roundTimeoutTimer = s.roundTimeoutTimer
  timers : ∀ e ∈ t.timers.pending, e ∈ s.timers.pending
  trace : ∃ ext, t.trace = s.trace ++ ext ∧ ∀ a ∈ ext, a.isRound = false

namespace SameRound
variable {s t u : ProtocolState ι}

theorem of_fields (overlayRound : t.overlayRound = s.overlayRound)
    (roundTimeoutTimer : t.roundTimeoutTimer = s.roundTimeoutTimer)
    (timers : t.timers = s.timers) (trace : t.trace = s.trace) : SameRound s t :=
  ⟨overlayRound, roundTimeoutTimer, by simp [timers], [], by simp [trace], by simp⟩

theorem refl (s : ProtocolState ι) : SameRound s s := of_fields rfl rfl rfl rfl

theorem trans (h : SameRound s t) (h' : SameRound t u) : SameRound s u := by
  obtain ⟨ext, htrace, hext⟩ := h.trace
  obtain ⟨ext', htrace', hext'⟩ := h'.trace
  refine ⟨h'.overlayRound.trans h.overlayRound, h'.roundTimeoutTimer.trans h.roundTimeoutTimer,
    fun e he => h.timers e (h'.timers e he), ext ++ ext', ?_, ?_⟩
  · rw [htrace', htrace, List.append_assoc]
  · intro a ha
    rcases List.mem_append.mp ha with ha | ha
    · exact hext a ha
    · exact hext' a ha

theorem act (s : ProtocolState ι) {a : Action} (ha : a.isRound = false) : SameRound s (s.act a) :=
  ⟨rfl, rfl, fun _ he => he, [a], rfl, by simpa using ha⟩

theorem concat (h : SameRound s t) {a : Action} (ha : a.isRound = false) : SameRound s (t.act a) :=
  h.trans (act t ha)

theorem wait (s : ProtocolState ι) (message : OverlayMessage) : SameRound s (s.wait message) :=
  of_fields rfl rfl rfl rfl

theorem emplaceProxyValue (s : ProtocolState ι) (contribution : ValueContribution) :
    SameRound s (s.emplaceProxyValue contribution) := by
  unfold ProtocolState.emplaceProxyValue
  split_ifs
  · exact refl s
  · exact of_fields rfl rfl rfl rfl

theorem sendTo (s : ProtocolState ι) (env : ProtocolEnv) {a : Action} (ha : a.isRound = false)
    (recipientId : ℤ) : SameRound s (s.sendTo env a recipientId) := by
  unfold ProtocolState.sendTo
  split_ifs
  · exact act s ha
  · exact (act s ha).trans (of_fields rfl rfl rfl rfl)

theorem of_sameOverlay {ph : AggregatePhase ι} (h : SameOverlay ph s t) : SameRound s t := by
  obtain ⟨ext, htrace, hext⟩ := h.trace
  refine ⟨h.overlayRound, h.roundTimeoutTimer, h.timers, ext, htrace, fun a ha => ?_⟩
  have haggregation := hext a ha
  cases a <;> simp_all [Action.isAggregation, Action.isRound]

theorem of_multicasts {env : ProtocolEnv} {queryNum : ℤ} (h : Multicasts env queryNum s t) :
    SameRound s t := by
  obtain ⟨_, _, rfl⟩ := h
  exact of_fields rfl rfl rfl rfl

end SameRound

/-- `f` does nothing but operations below the rounds, and may then leave for the first
round, given a function that ends one. -/
def MayStart (s : ProtocolState ι)
    (f : (ProtocolState ι → Outcome Fault (ProtocolState ι)) → Outcome Fault (ProtocolState ι)) :
    Prop :=
  ∀ (endRound : ProtocolState ι → Outcome Fault (ProtocolState ι)) (I H : ProtocolState ι → Prop),
    (∀ t, SameRound s t → I t) → (∀ t, SameRound s t → H t) →
    (∀ t, SameRound s t → (endRound (t.leaving .start)).Ends I H) → (f endRound).Ends I H

theorem encryptedMulticastToProxies_mayStart {env : ProtocolEnv} {s t : ProtocolState ι}
    (h : SameRound s t) (contribution : ValueContribution) :
    MayStart s fun endRound => encryptedMulticastToProxies env endRound contribution t := by
  intro endRound I H _ hH hstart
  unfold encryptedMulticastToProxies
  dsimp only
  split
  · exact hH t h
  · exact hstart _ (h.trans (.of_fields rfl rfl rfl rfl))

/-- A protocol whose handlers work below the rounds, except that they leave a round after
its final message and for the first round of a query. -/
structure Layered (P : Protocol ι) where
  handleBody : ProtocolEnv → OverlayMessage → ProtocolState ι → Outcome Fault (ProtocolState ι)
  handles : ∀ env endRound message s, P.handleOverlayMessageImpl env endRound message s =
    (handleBody env message.body s).andThen fun s =>
      if message.isFinalMessage && P.isInOverlayPhase s.impl then
        endRound (s.leaving (.finalMessage message.senderRound))
      else .done s
  body : ∀ env message s, (handleBody env message s).Holds (SameRound s)
  ends : ∀ env s, (P.endOverlayRoundImpl env s).Holds (SameRound s)
  start : ∀ env request s, MayStart s fun endRound => P.startQueryImpl env endRound request s
  signature : ∀ env message s,
    MayStart s fun endRound => P.handleSignatureResponse env endRound message s

end ProtocolState

namespace CtProtocolState
open ProtocolState (SameRound)
variable {env : ProtocolEnv}

theorem handleBody_sameRound (message : OverlayMessage) (s : State) :
    (handleBody env message s).Holds (SameRound s) := by
  have heffect (t : State) (ht : BodyEffect env message s t) : SameRound s t := by
    cases ht with
    | ignored => exact .refl s
    | forwarded enclosed => exact .wait s enclosed
    | accepted contribution => exact .emplaceProxyValue s contribution
  exact (handleBody_effect message s).mono heffect heffect

theorem endOverlayRoundImpl_sameRound (s : State) :
    (endOverlayRoundImpl env s).Holds (SameRound s) := by
  have heffect (t : State) (ht : EndEffect env s t) : SameRound s t := by
    cases ht with
    | kept _ h => exact .of_multicasts h
    | echoed u h => exact (SameRound.of_multicasts h).trans (.of_fields rfl rfl rfl rfl)
    | entered _ h => exact .of_sameOverlay h
  exact (endOverlayRoundImpl_effect s).mono heffect heffect

def layered : ProtocolState.Layered protocol where
  handleBody := handleBody
  handles _ _ _ _ := rfl
  body _ := handleBody_sameRound
  ends _ := endOverlayRoundImpl_sameRound
  start env request s := by
    intro endRound I H hI hH hstart
    have hshuffle : SameRound s (s.onImpl fun _ => ⟨0, .shuffle⟩) := .of_fields rfl rfl rfl rfl
    change (startQueryImpl env endRound request s).Ends I H
    unfold startQueryImpl
    dsimp only
    split
    · exact hH _ hshuffle
    · exact ProtocolState.encryptedMulticastToProxies_mayStart hshuffle _ endRound I H hI hH hstart
  signature _ _ s := fun _ _ _ hI _ _ => hI s (.refl s)

end CtProtocolState

namespace HftProtocolState
open ProtocolState (SameRound)
variable {env : ProtocolEnv}

theorem handleBody_sameRound (message : OverlayMessage) (s : State) :
    (handleBody env message s).Holds (SameRound s) := by
  have heffect (t : State) (ht : BodyEffect env message s t) : SameRound s t := by
    cases ht with
    | ignored => exact .refl s
    | relayed => exact .of_fields rfl rfl rfl rfl
    | accepted contribution => exact .emplaceProxyValue s contribution
    | flooded => exact .of_fields rfl rfl rfl rfl
  exact (handleBody_effect message s).mono heffect heffect

theorem endOverlayRoundImpl_sameRound (s : State) :
    (endOverlayRoundImpl env s).Holds (SameRound s) := by
  have heffect (t : State) (ht : PhaseEffect s t) : SameRound s t := by
    cases ht with
    | kept => exact .refl s
    | gathered => exact .of_fields rfl rfl rfl rfl
    | entered _ h =>
      refine SameRound.trans ?_ (SameRound.of_sameOverlay h)
      exact .of_fields rfl rfl rfl rfl
  unfold endOverlayRoundImpl
  refine ((endPhase_effect s).mono heffect heffect).andThen fun t ht => ht.trans ?_
  unfold flood
  split_ifs
  · exact .of_fields rfl rfl rfl rfl
  · exact .refl t

def layered : ProtocolState.Layered protocol where
  handleBody := handleBody
  handles _ _ _ _ := rfl
  body _ := handleBody_sameRound
  ends _ := endOverlayRoundImpl_sameRound
  start env request s := by
    intro endRound I H hI hH hstart
    change (startQueryImpl env endRound request s).Ends I H
    unfold startQueryImpl
    split
    · exact hH _ (.refl s)
    · exact hstart _ (.of_fields rfl rfl rfl rfl)
  signature _ _ s := fun _ _ _ hI _ _ => hI s (.refl s)

end HftProtocolState

namespace BftProtocolState
open ProtocolState (SameRound)
variable {env : ProtocolEnv}

theorem handleBody_sameRound (message : OverlayMessage) (s : State) :
    (handleBody env message s).Holds (SameRound s) := by
  have heffect (t : State) (ht : BodyEffect env message s t) : SameRound s t := by
    cases ht with
    | ignored => exact .refl s
    | forwarded enclosed => exact .wait s enclosed
    | accepted contribution => exact .emplaceProxyValue s contribution
    | agreed agreement u _ hlogged =>
      have hu : SameRound s u := by
        rcases hlogged with rfl | ⟨_, _, rfl⟩
        · exact .refl u
        · exact .act s rfl
      exact hu.trans (.of_fields rfl rfl rfl rfl)
  exact (handleBody_effect message s).mono heffect heffect

theorem endOverlayRoundImpl_sameRound (s : State) :
    (endOverlayRoundImpl env s).Holds (SameRound s) := by
  have heffect (t : State) (ht : EndEffect env s t) : SameRound s t := by
    cases ht with
    | kept _ h => exact .of_multicasts h
    | agreeing _ h => exact (SameRound.of_multicasts h).trans (.of_fields rfl rfl rfl rfl)
    | accepting _ _ _ h => exact (SameRound.of_multicasts h).trans (.of_fields rfl rfl rfl rfl)
    | entered _ _ h =>
      refine SameRound.trans ?_ (SameRound.of_sameOverlay h)
      exact .of_fields rfl rfl rfl rfl
  exact (endOverlayRoundImpl_effect s).mono heffect heffect

def layered : ProtocolState.Layered protocol where
  handleBody := handleBody
  handles _ _ _ _ := rfl
  body _ := handleBody_sameRound
  ends _ := endOverlayRoundImpl_sameRound
  start env request s := by
    intro endRound I H hI hH _
    change (startQueryImpl env endRound request s).Ends I H
    unfold startQueryImpl
    dsimp only
    split
    · exact hH _ (.of_fields rfl rfl rfl rfl)
    · refine hI _ (SameRound.concat ?_ rfl)
      exact .of_fields rfl rfl rfl rfl
  signature env message s := by
    intro endRound I H hI hH hstart
    have hshuffle : SameRound s (s.onImpl fun i => { i with protocolPhase := .shuffle }) :=
      .of_fields rfl rfl rfl rfl
    change (handleSignatureResponse env endRound message s).Ends I H
    unfold handleSignatureResponse
    split
    · exact hH _ (.refl s)
    · exact ProtocolState.encryptedMulticastToProxies_mayStart hshuffle _ endRound I H hI hH hstart

end BftProtocolState
namespace ProtocolState
variable {ι : Type} {env : ProtocolEnv} {P : Protocol ι} {s t : ProtocolState ι}

structure Ordered (env : ProtocolEnv) (s : ProtocolState ι) : Prop where
  entries : InOrder env s.trace
  timers : ∀ e ∈ s.timers.pending, e = (s.roundTimeoutTimer, s.overlayRound)

def RoundInv (env : ProtocolEnv) (s : ProtocolState ι) : Prop :=
  BatchesFit s.trace → Ordered env s

def OrderKept (env : ProtocolEnv) (s : ProtocolState ι) : Prop :=
  BatchesFit s.trace → InOrder env s.trace

theorem RoundInv.orderKept (h : RoundInv env s) : OrderKept env s := fun hfits => (h hfits).entries

theorem SameRound.grows (h : SameRound s t) : s.trace <+: t.trace := by
  obtain ⟨ext, htrace, -⟩ := h.trace
  exact ⟨ext, htrace.symm⟩

theorem RoundInv.same (hs : RoundInv env s) (h : SameRound s t) : RoundInv env t := by
  intro hfits
  obtain ⟨hentries, htimers⟩ := hs (hfits.earlier h.grows)
  obtain ⟨ext, htrace, hext⟩ := h.trace
  refine ⟨fun a ha => ?_, fun e he => ?_⟩
  · rw [htrace] at ha
    rcases List.mem_append.mp ha with ha | ha
    · exact hentries a ha
    · have hother := hext a ha
      cases a <;> trivial
  · rw [h.roundTimeoutTimer, h.overlayRound]
    exact htimers e (h.timers e he)

/-- An entry that keeps the order, if the conditions on the run hold so far. -/
theorem RoundInv.act (hs : RoundInv env s) {a : Action}
    (ha : BatchesFit (s.act a).trace → a.InOrder env) : RoundInv env (s.act a) := by
  intro hfits
  obtain ⟨hentries, htimers⟩ := hs (hfits.earlier (List.prefix_append _ _))
  refine ⟨fun b hb => ?_, htimers⟩
  rcases List.mem_append.mp hb with hb | hb
  · exact hentries b hb
  · rw [List.mem_singleton.mp hb]
    exact ha hfits

theorem Ordered.cancelTimer (hs : Ordered env s) : s.cancelTimer.timers.pending = [] := by
  refine List.eq_nil_iff_forall_not_mem.mpr fun e he => ?_
  obtain ⟨hpending, hne⟩ := Timers.mem_cancel.mp he
  exact hne (congrArg Prod.fst (hs.timers e hpending))

/-- What holds while no timer is pending. -/
def Untimed (env : ProtocolEnv) (s : ProtocolState ι) : Prop :=
  BatchesFit s.trace → InOrder env s.trace ∧ s.timers.pending = []

theorem RoundInv.untimed (hs : RoundInv env s) : Untimed env s.cancelTimer :=
  fun hfits => ⟨(hs hfits).entries, (hs hfits).cancelTimer⟩

theorem Untimed.roundInv (hs : Untimed env s) : RoundInv env s :=
  fun hfits => ⟨(hs hfits).1, by simp [(hs hfits).2]⟩

theorem Untimed.same (hs : Untimed env s) (h : SameRound s t) : Untimed env t := by
  intro hfits
  refine ⟨(hs.roundInv.same h hfits).entries, List.eq_nil_iff_forall_not_mem.mpr fun e he => ?_⟩
  have hmem := h.timers e he
  rw [(hs (hfits.earlier h.grows)).2] at hmem
  cases hmem

theorem Untimed.setRoundTimeout (hs : Untimed env s) : RoundInv env s.setRoundTimeout := by
  intro hfits
  obtain ⟨hentries, hpending⟩ := hs hfits
  refine ⟨hentries, fun e he => ?_⟩
  have hregistered : s.setRoundTimeout.timers.pending =
      s.timers.pending ++ [(s.timers.nextId, s.overlayRound)] := rfl
  rw [hregistered, hpending] at he
  exact List.mem_singleton.mp he

theorem sendOverlayMessageBatch_sameRound (s : ProtocolState ι) :
    SameRound s (sendOverlayMessageBatch env s) := by
  unfold sendOverlayMessageBatch
  refine SameRound.trans ?_ (SameRound.sendTo _ env rfl _)
  exact .of_fields rfl rfl rfl rfl

theorem Untimed.beginRound (hs : Untimed env s) :
    RoundInv env (beginRound env s) ∧ s.trace <+: (ProtocolState.beginRound env s).trace := by
  have hnext : Untimed env
      { s with overlayRound := s.overlayRound + 1, pingResponseFromPredecessor := false } := hs
  have hsend : SameRound _ (sendOverlayMessageBatch env
      { s with overlayRound := s.overlayRound + 1, pingResponseFromPredecessor := false }) :=
    sendOverlayMessageBatch_sameRound _
  have htimeout := (hnext.same hsend).setRoundTimeout
  have hgrows : s.trace <+: (sendOverlayMessageBatch env { s with
      overlayRound := s.overlayRound + 1
      pingResponseFromPredecessor := false }).setRoundTimeout.trace := hsend.grows
  unfold ProtocolState.beginRound
  dsimp only
  split_ifs
  · exact ⟨htimeout, hgrows⟩
  · refine ⟨htimeout.same ?_, hgrows.trans (SameRound.grows ?_)⟩
    · exact .sendTo _ env rfl _
    · exact .sendTo _ env rfl _

section Rounds
variable (L : Layered P) {endRound : ProtocolState ι → Outcome Fault (ProtocolState ι)}

/-- The state goes on from `s`, in order. -/
def GoesOn (env : ProtocolEnv) (s t : ProtocolState ι) : Prop :=
  RoundInv env t ∧ s.trace <+: t.trace

def StopsAfter (env : ProtocolEnv) (s t : ProtocolState ι) : Prop :=
  OrderKept env t ∧ s.trace <+: t.trace

/-- What the function that ends a round is taken to do. -/
def EndsRounds (env : ProtocolEnv)
    (endRound : ProtocolState ι → Outcome Fault (ProtocolState ι)) : Prop :=
  ∀ s, RoundInv env s → (endRound s).Ends (GoesOn env s) (StopsAfter env s)

include L

omit L in
theorem GoesOn.stops (h : GoesOn env s t) : StopsAfter env s t := ⟨h.1.orderKept, h.2⟩

omit L in
theorem EndsRounds.after (hend : EndsRounds env endRound) (h : GoesOn env s t) :
    (endRound t).Ends (GoesOn env s) (StopsAfter env s) :=
  (hend t h.1).mono (fun _ hu => ⟨hu.1, h.2.trans hu.2⟩) fun _ hu => ⟨hu.1, h.2.trans hu.2⟩

theorem handleOverlayMessage_goesOn (hend : EndsRounds env endRound) (hs : RoundInv env s)
    {message : OverlayTransportMessage}
    (hround : BatchesFit s.trace → message.senderRound = s.overlayRound) :
    (handleOverlayMessage env P endRound message s).Ends
      (fun t => GoesOn env s t ∧
        (message.isFinalMessage = false → t.overlayRound = s.overlayRound))
      (StopsAfter env s) := by
  let logged := s.act (.handleOverlay s.overlayRound message)
  let timed := if P.isInOverlayPhase s.impl then logged.cancelTimer.setRoundTimeout else logged
  have hlogged : RoundInv env logged :=
    hs.act fun hfits => hround (hfits.earlier (List.prefix_append _ _))
  have htimed : GoesOn env s timed ∧ timed.overlayRound = s.overlayRound := by
    by_cases hphase : P.isInOverlayPhase s.impl = true
    · simp only [timed, if_pos hphase]
      exact ⟨⟨hlogged.untimed.setRoundTimeout, List.prefix_append _ _⟩, rfl⟩
    · simp only [timed, if_neg hphase]
      exact ⟨⟨hlogged, List.prefix_append _ _⟩, rfl⟩
  have hbody : ∀ (body : OverlayMessage) (t : ProtocolState ι), SameRound timed t →
      (P.handleOverlayMessageImpl env endRound { message with body := body } t).Ends
        (fun t => GoesOn env s t ∧
          (message.isFinalMessage = false → t.overlayRound = s.overlayRound))
        (StopsAfter env s) := by
    intro body t ht
    have hgoes : ∀ u, SameRound t u → GoesOn env s u ∧ u.overlayRound = s.overlayRound := by
      intro u hu
      have hsame := ht.trans hu
      exact ⟨⟨htimed.1.1.same hsame, htimed.1.2.trans hsame.grows⟩,
        hsame.overlayRound.trans htimed.2⟩
    rw [L.handles]
    refine ((L.body env body t).mono (fun _ => hgoes _) fun _ hu => (hgoes _ hu).1.stops).andThen
      fun u hu => ?_
    split_ifs with hfinal
    · have hleave : GoesOn env s (u.leaving (.finalMessage message.senderRound)) := by
        refine ⟨hu.1.1.act fun hfits _ => ?_, hu.1.2.trans (List.prefix_append _ _)⟩
        have hgrows : s.trace <+: (u.leaving (.finalMessage message.senderRound)).trace :=
          hu.1.2.trans (List.prefix_append _ _)
        exact (hround (hfits.earlier hgrows)).trans hu.2.symm
      refine (hend.after hleave).mono (fun v hv => ⟨hv, fun hnot => ?_⟩) fun _ hv => hv
      simp [hnot] at hfinal
    · exact ⟨hu.1, fun _ => hu.2⟩
  unfold handleOverlayMessage
  dsimp only
  split
  · exact hbody _ _ (.wait _ _)
  · exact hbody _ _ (.refl _)

theorem replay_goesOn (hend : EndsRounds env endRound) (messages : List OverlayTransportMessage)
    (hs : RoundInv env s)
    (hround : BatchesFit s.trace → ∀ m ∈ messages, m.senderRound = s.overlayRound)
    (hfinal : BatchesFit s.trace → ∀ m ∈ messages.dropLast, m.isFinalMessage = false) :
    (Outcome.forEach messages (handleOverlayMessage env P endRound) s).Ends
      (GoesOn env s) (StopsAfter env s) := by
  induction messages generalizing s with
  | nil => exact ⟨hs, List.prefix_rfl⟩
  | cons m ms ih =>
    refine (handleOverlayMessage_goesOn L hend hs fun hfits => hround hfits m (by simp)).andThen
      fun t ht => ?_
    obtain ⟨⟨ht, hgrows⟩, hsame⟩ := ht
    refine (ih ht ?_ ?_).mono (fun _ hu => ⟨hu.1, hgrows.trans hu.2⟩)
      fun _ hu => ⟨hu.1, hgrows.trans hu.2⟩
    · intro hfits m' hm'
      have hne : ms ≠ [] := List.ne_nil_of_mem hm'
      have hnot := hfinal (hfits.earlier hgrows) m (by simp [List.dropLast_cons_of_ne_nil hne])
      rw [hsame hnot]
      exact hround (hfits.earlier hgrows) m' (List.mem_cons_of_mem _ hm')
    · intro hfits m' hm'
      have hne : ms ≠ [] := by
        rintro rfl
        simp at hm'
      refine hfinal (hfits.earlier hgrows) m' ?_
      rw [List.dropLast_cons_of_ne_nil hne]
      exact List.mem_cons_of_mem _ hm'

theorem superEndOverlayRound_goesOn (hend : EndsRounds env endRound) (hs : RoundInv env s) :
    (superEndOverlayRound env P endRound s).Ends (GoesOn env s) (StopsAfter env s) := by
  unfold superEndOverlayRound
  dsimp only
  split_ifs with hlast
  · exact ⟨hs.untimed.roundInv, List.prefix_rfl⟩
  · obtain ⟨hbegun, hgrows⟩ := hs.untimed.beginRound
    generalize beginRound env s.cancelTimer = u at hbegun hgrows ⊢
    let batch := u.futureOverlayMessages.filter u.isForRound
    let v : ProtocolState ι := { u.act (.replayOverlay u.overlayRound batch) with
      futureOverlayMessages := u.futureOverlayMessages.filter fun m => !u.isForRound m }
    have hv : GoesOn env s v := by
      have hlogged : RoundInv env (u.act (.replayOverlay u.overlayRound batch)) :=
        hbegun.act fun _ => trivial
      exact ⟨hlogged.same (.of_fields rfl rfl rfl rfl), hgrows.trans (List.prefix_append _ _)⟩
    have hreplay := replay_goesOn L hend batch hv.1 ?_ ?_
    · refine (hreplay.mono (fun _ ht => (⟨ht.1, hv.2.trans ht.2⟩ : GoesOn env s _))
        fun _ ht => ⟨ht.1, hv.2.trans ht.2⟩).andThen fun t ht => ?_
      split_ifs with hdead
      · refine hend.after ⟨ht.1.act fun _ _ => ?_, ht.2.trans (List.prefix_append _ _)⟩
        exact ⟨congrArg (gossipPredecessor env.meterId · env.numMeters) hdead.1, hdead.2⟩
      · exact ht
    · intro _ m hm
      have hfor : u.isForRound m = true := (List.mem_filter.mp hm).2
      unfold isForRound at hfor
      exact of_decide_eq_true (Bool.and_eq_true_iff.mp hfor).1
    · intro hfits
      exact hfits (.replayOverlay u.overlayRound batch) (by simp [v, act])

theorem endOverlayRound_endsRounds (fuel : ℕ) : EndsRounds env (endOverlayRound env P fuel) := by
  induction fuel with
  | zero => exact fun s hs => ⟨hs.orderKept, List.prefix_rfl⟩
  | succ fuel ih =>
    intro s hs
    refine ((L.ends env s).mono (fun _ ht => (⟨hs.same ht, ht.grows⟩ : GoesOn env s _))
      fun _ ht => ⟨(hs.same ht).orderKept, ht.grows⟩).andThen fun t ht => ?_
    exact (superEndOverlayRound_goesOn L ih ht.1).mono (fun _ hu => ⟨hu.1, ht.2.trans hu.2⟩)
      fun _ hu => ⟨hu.1, ht.2.trans hu.2⟩

end Rounds

theorem untimed_startQuery (hs : RoundInv env s) (queryNum : ℤ)
    (htimers : t.timers = s.cancelTimer.timers)
    (htrace : t.trace = s.trace ++ [.startQuery queryNum]) : Untimed env t := by
  intro hfits
  have hlogged : RoundInv env (s.act (.startQuery queryNum)) := hs.act fun _ => trivial
  rw [htrace] at hfits
  have hordered := hlogged hfits
  refine ⟨htrace ▸ hordered.entries, ?_⟩
  rw [htimers]
  exact (hs (hfits.earlier (List.prefix_append _ _))).cancelTimer

theorem startQuery_roundInv (L : Layered P) (fuel : ℕ) (request : QueryRequest)
    (data : List FixedPoint) (hs : RoundInv env s) :
    (startQuery env P fuel request data s).Ends (RoundInv env) (OrderKept env) := by
  have hopened : ∀ t : ProtocolState ι, t.timers = s.cancelTimer.timers →
      t.trace = s.trace ++ [.startQuery request.queryNumber] → t.overlayRound = -1 →
      (P.startQueryImpl env (endOverlayRound env P fuel) request t).Ends (RoundInv env)
        (OrderKept env) := by
    intro t htimers htrace hround
    have ht := (untimed_startQuery hs request.queryNumber htimers htrace).roundInv
    refine L.start env request t _ _ _ (fun u hu => ht.same hu)
      (fun u hu => (ht.same hu).orderKept) fun u hu => ?_
    have hbefore : u.overlayRound = -1 := hu.overlayRound.trans hround
    have hleave : RoundInv env (u.leaving .start) := by
      refine (ht.same hu).act fun _ hnonneg => ?_
      omega
    exact (endOverlayRound_endsRounds L fuel _ hleave).mono (fun _ hv => hv.1) fun _ hv => hv.1
  unfold startQuery
  dsimp only
  split
  · refine (Untimed.roundInv (untimed_startQuery hs request.queryNumber ?_ ?_)).orderKept
    · rfl
    · rfl
  · exact hopened _ rfl rfl rfl

theorem receiveOverlay_roundInv (L : Layered P) (fuel : ℕ) (message : OverlayTransportMessage)
    (hs : RoundInv env s) :
    (receiveOverlay env P fuel message s).Ends (RoundInv env) (OrderKept env) := by
  have hbuffer : RoundInv env (s.bufferOverlay message) := hs.same (.of_fields rfl rfl rfl rfl)
  unfold receiveOverlay
  split_ifs with hfuture hpast hround
  · exact hbuffer
  · exact hs
  · exact (handleOverlayMessage_goesOn L (endOverlayRound_endsRounds L fuel) hs
      fun _ => hround).mono (fun _ ht => ht.1.1) fun _ ht => ht.1
  · exact hbuffer
  · exact hs

theorem handlePingMessage_sameRound (message : PingMessage) (s : ProtocolState ι) :
    SameRound s (s.handlePingMessage env message) := by
  unfold handlePingMessage
  split_ifs
  · exact .act s rfl
  · exact .of_fields rfl rfl rfl rfl
  · exact .refl s

theorem timerExpires_roundInv (L : Layered P) (fuel : ℕ) (id : ℤ) (hs : RoundInv env s) :
    (timerExpires env P fuel id s).Ends (RoundInv env) (OrderKept env) := by
  unfold timerExpires
  cases hfind : s.timers.find id with
  | none => exact hs
  | some registeredIn =>
    have hfired : RoundInv env { s with timers := s.timers.cancel id } := by
      intro hfits
      obtain ⟨hentries, htimers⟩ := hs hfits
      exact ⟨hentries, fun e he => htimers e (Timers.mem_cancel.mp he).1⟩
    have huntimed : Untimed env { s with timers := s.timers.cancel id } := by
      intro hfits
      refine ⟨(hs hfits).entries, List.eq_nil_iff_forall_not_mem.mpr fun e he => ?_⟩
      obtain ⟨hpending, hne⟩ := Timers.mem_cancel.mp he
      have hsame := ((hs hfits).timers e hpending).trans
        ((hs hfits).timers _ (Timers.mem_of_find hfind)).symm
      exact hne (congrArg Prod.fst hsame)
    dsimp only
    unfold handleRoundTimeout
    split_ifs
    · have hanswered : Untimed env { s with
          timers := s.timers.cancel id
          pingResponseFromPredecessor := false } := huntimed
      exact hanswered.setRoundTimeout.same (.sendTo _ env rfl _)
    · have hleave : RoundInv env
          ({ s with timers := s.timers.cancel id }.leaving (.timeout registeredIn)) := by
        refine hfired.act fun hfits _ => ?_
        have htimer := (hs (hfits.earlier (List.prefix_append _ _))).timers _
          (Timers.mem_of_find hfind)
        exact congrArg Prod.snd htimer
      exact (endOverlayRound_endsRounds L fuel _ hleave).mono (fun _ ht => ht.1) fun _ ht => ht.1

theorem roundInv_survives (L : Layered P) (env : ProtocolEnv) (fuel : ℕ) :
    Survives env P fuel (fun _ _ => True) (fun _ => True) (RoundInv env) (OrderKept env) where
  weaken _ hs := hs.orderKept
  init _ := ⟨fun _ ha => absurd ha List.not_mem_nil, fun _ he => absurd he List.not_mem_nil⟩
  start request data _ hs _ := startQuery_roundInv L fuel request data hs
  overlay message _ hs _ := receiveOverlay_roundInv L fuel message hs
  aggregation message s hs := (SameOverlay.receiveAggregation message s).mono
    (fun _ h => hs.same (.of_sameOverlay h)) fun _ h => (hs.same (.of_sameOverlay h)).orderKept
  ping message s hs := hs.same (handlePingMessage_sameRound message s)
  signature message s hs := by
    refine L.signature env message s _ _ _ (fun t ht => hs.same ht)
      (fun t ht => (hs.same ht).orderKept) fun t ht => ?_
    have hleave : RoundInv env (t.leaving .start) := by
      refine (hs.same ht).act fun hfits hround => ?_
      have hbefore : t.overlayRound < 0 :=
        hfits (.leaveRound t.overlayRound .start) (List.mem_append_right _ (List.mem_singleton_self _))
      omega
    exact (endOverlayRound_endsRounds L fuel _ hleave).mono (fun _ hu => hu.1) fun _ hu => hu.1
  timer id _ hs := timerExpires_roundInv L fuel id hs

end ProtocolState
namespace MeterClient

/-- As long as batches fit, a client of any protocol handles every message in its round and
leaves every round for a reason of that round, under each of its IDs. -/
theorem rounds_in_order_of_batches_fit (env : ClientEnv) (fuel : ℕ) (es : List Event) :
    Throughout (step env CtProtocolState.protocol fuel)
        (fun o => Both env (fun env s => BatchesFit s.trace → InOrder env s.trace) o.state)
        (.done (init CtProtocolState.protocol)) es ∧
      Throughout (step env HftProtocolState.protocol fuel)
        (fun o => Both env (fun env s => BatchesFit s.trace → InOrder env s.trace) o.state)
        (.done (init HftProtocolState.protocol)) es ∧
      Throughout (step env BftProtocolState.protocol fuel)
        (fun o => Both env (fun env s => BatchesFit s.trace → InOrder env s.trace) o.state)
        (.done (init BftProtocolState.protocol)) es :=
  ⟨throughout_survives (fun env => ProtocolState.roundInv_survives CtProtocolState.layered env fuel)
      (allowed_of_true es),
    throughout_survives
      (fun env => ProtocolState.roundInv_survives HftProtocolState.layered env fuel)
      (allowed_of_true es),
    throughout_survives
      (fun env => ProtocolState.roundInv_survives BftProtocolState.layered env fuel)
      (allowed_of_true es)⟩

/-- Two final messages for round 1 reach meter 0 in round 0. -/
def twoFinals : List Event :=
  [sampleQuery 0, .overlay ⟨9, 1, true, .make 0 0 .null false⟩,
    .overlay ⟨9, 1, true, .make 0 0 .null false⟩, .timerExpires 0]

/-- The second one is handled in round 2, which it ends. -/
theorem second_final_ends_next_round :
    ¬ Both (sampleEnv 0 11 (by decide) 4 5 fun _ => true) (fun env s => InOrder env s.trace)
      (run (sampleEnv 0 11 (by decide) 4 5 fun _ => true) CtProtocolState.protocol 100
        twoFinals).state := by
  intro h
  have hleft : .leaveRound 2 (.finalMessage 1) ∈
      (run (sampleEnv 0 11 (by decide) 4 5 fun _ => true) CtProtocolState.protocol 100
        twoFinals).state.primary.trace := by
    decide +kernel
  have hround : (1 : ℤ) = 2 := h.primary _ hleft (by decide)
  exact absurd hround (by decide)

end MeterClient
end Pddm
