import Pddm.GossipRounds
import Pddm.RoundRules

/-!
# Waiting messages

A message that waits for another meter leaves in the round in which that meter is the
target. In a network of prime size this is one of the next rounds.
-/
namespace Pddm

def Action.isStart : Action → Bool
  | .startQuery .. => true
  | _ => false

def IsSent (m : OverlayMessage) (trace : List Action) : Prop :=
  ∃ messages, .sendOverlay messages m.destination ∈ trace ∧ ∃ x ∈ messages, x.body = m

theorem IsSent.append_right {m : OverlayMessage} {trace : List Action} (h : IsSent m trace)
    (ext : List Action) : IsSent m (trace ++ ext) := by
  obtain ⟨messages, hmem, hx⟩ := h
  exact ⟨messages, List.mem_append_left _ hmem, hx⟩

theorem IsSent.append_left {m : OverlayMessage} {ext : List Action} (h : IsSent m ext)
    (trace : List Action) : IsSent m (trace ++ ext) := by
  obtain ⟨messages, hmem, hx⟩ := h
  exact ⟨messages, List.mem_append_right _ hmem, hx⟩

/-- The round from which the rounds of a piece of a run are counted: a new query starts
them afresh. -/
def countedFrom (round : ℤ) (ext : List Action) : ℤ :=
  if ext.any Action.isStart then -1 else round

theorem countedFrom_append (round : ℤ) (ext ext' : List Action) :
    countedFrom round (ext ++ ext') = countedFrom (countedFrom round ext) ext' := by
  unfold countedFrom
  rw [List.any_append]
  cases ext.any Action.isStart <;> cases ext'.any Action.isStart <;> rfl

theorem countedFrom_of_forall {ext : List Action} (hext : ∀ a ∈ ext, a.isStart = false)
    (round : ℤ) : countedFrom round ext = round := by
  have hnone : ext.any Action.isStart = false := List.any_eq_false.mpr fun a ha => by simp [hext a ha]
  rw [countedFrom, hnone]
  rfl

namespace ProtocolState
variable {ι : Type}

/-- Between `s` and `t` every waiting message was sent, or waits on, its destination not
being the target of any round in between. -/
def Conveys (env : ProtocolEnv) (s t : ProtocolState ι) : Prop :=
  ∃ ext, t.trace = s.trace ++ ext ∧ countedFrom s.overlayRound ext ≤ t.overlayRound ∧
    ∀ m ∈ s.waitingMessages, IsSent m ext ∨ m ∈ t.waitingMessages ∧
      ∀ r, countedFrom s.overlayRound ext < r → r ≤ t.overlayRound →
        gossipTarget env.meterId r env.numMeters ≠ m.destination

/-- The operations between two rounds: they add to the waiting messages at most. -/
structure AddsWaiting (s t : ProtocolState ι) : Prop where
  overlayRound : t.overlayRound = s.overlayRound
  waitingMessages : s.waitingMessages ⊆ t.waitingMessages
  trace : ∃ ext, t.trace = s.trace ++ ext ∧ ∀ a ∈ ext, a.isStart = false

namespace AddsWaiting
variable {s t u : ProtocolState ι}

theorem of_fields (overlayRound : t.overlayRound = s.overlayRound)
    (waitingMessages : t.waitingMessages = s.waitingMessages) (trace : t.trace = s.trace) :
    AddsWaiting s t :=
  ⟨overlayRound, by simp [waitingMessages], [], by simp [trace], by simp⟩

theorem refl (s : ProtocolState ι) : AddsWaiting s s := of_fields rfl rfl rfl

theorem trans (h : AddsWaiting s t) (h' : AddsWaiting t u) : AddsWaiting s u := by
  obtain ⟨ext, htrace, hext⟩ := h.trace
  obtain ⟨ext', htrace', hext'⟩ := h'.trace
  refine ⟨h'.overlayRound.trans h.overlayRound,
    List.Subset.trans h.waitingMessages h'.waitingMessages, ext ++ ext', ?_, ?_⟩
  · rw [htrace', htrace, List.append_assoc]
  · intro a ha
    rcases List.mem_append.mp ha with ha | ha
    · exact hext a ha
    · exact hext' a ha

theorem act (s : ProtocolState ι) {a : Action} (ha : a.isStart = false) :
    AddsWaiting s (s.act a) :=
  ⟨rfl, List.Subset.refl _, [a], rfl, by simpa using ha⟩

theorem bufferOverlay (s : ProtocolState ι) (message : OverlayTransportMessage) :
    AddsWaiting s (s.bufferOverlay message) := of_fields rfl rfl rfl

theorem leaving (s : ProtocolState ι) (cause : RoundEnd) : AddsWaiting s (s.leaving cause) :=
  act s rfl

theorem wait (s : ProtocolState ι) (message : OverlayMessage) : AddsWaiting s (s.wait message) :=
  ⟨rfl, List.subset_append_left _ _, [], by simp [ProtocolState.wait], by simp⟩

theorem emplaceProxyValue (s : ProtocolState ι) (contribution : ValueContribution) :
    AddsWaiting s (s.emplaceProxyValue contribution) := by
  unfold ProtocolState.emplaceProxyValue
  split_ifs
  · exact refl s
  · exact of_fields rfl rfl rfl

theorem of_bookkeeping (h : Bookkeeping s t) : AddsWaiting s t := by
  obtain ⟨ext, htrace, hext⟩ := h.trace
  refine ⟨h.overlayRound, by rw [h.waitingMessages]; exact List.Subset.refl _, ext, htrace,
    fun a ha => ?_⟩
  have hnote := hext a ha
  cases a <;> simp_all [Action.isNote, Action.isStart]

theorem of_sameOverlay {ph : AggregatePhase ι} (h : SameOverlay ph s t) : AddsWaiting s t := by
  obtain ⟨ext, htrace, hext⟩ := h.trace
  refine ⟨h.overlayRound, by rw [h.waitingMessages]; exact List.Subset.refl _, ext, htrace,
    fun a ha => ?_⟩
  have haggregation := hext a ha
  cases a <;> simp_all [Action.isAggregation, Action.isStart]

theorem of_multicasts {env : ProtocolEnv} {queryNum : ℤ} (h : Multicasts env queryNum s t) :
    AddsWaiting s t := by
  obtain ⟨_, _, rfl⟩ := h
  exact of_fields rfl rfl rfl

theorem conveys (h : AddsWaiting s t) (env : ProtocolEnv) : Conveys env s t := by
  obtain ⟨ext, htrace, hext⟩ := h.trace
  refine ⟨ext, htrace, ?_, fun m hm => .inr ⟨h.waitingMessages hm, fun r hr hle => ?_⟩⟩
  · rw [countedFrom_of_forall hext]
    exact h.overlayRound.ge
  · rw [countedFrom_of_forall hext] at hr
    have hsame := h.overlayRound
    omega

end AddsWaiting

theorem Conveys.refl (env : ProtocolEnv) (s : ProtocolState ι) : Conveys env s s :=
  (AddsWaiting.refl s).conveys env

theorem Conveys.trans {env : ProtocolEnv} {s t u : ProtocolState ι} (h : Conveys env s t)
    (h' : Conveys env t u) : Conveys env s u := by
  obtain ⟨ext, htrace, hle, hwaits⟩ := h
  obtain ⟨ext', htrace', hle', hwaits'⟩ := h'
  have hcount : countedFrom s.overlayRound (ext ++ ext') ≤ countedFrom t.overlayRound ext' ∧
      (countedFrom s.overlayRound (ext ++ ext') = countedFrom t.overlayRound ext' ∨
        countedFrom s.overlayRound (ext ++ ext') = countedFrom s.overlayRound ext ∧
          countedFrom t.overlayRound ext' = t.overlayRound) := by
    rw [countedFrom_append]
    unfold countedFrom at hle ⊢
    cases ext'.any Action.isStart
    · exact ⟨hle, .inr ⟨rfl, rfl⟩⟩
    · exact ⟨le_rfl, .inl rfl⟩
  refine ⟨ext ++ ext', by rw [htrace', htrace, List.append_assoc], hcount.1.trans hle', ?_⟩
  intro m hm
  rcases hwaits m hm with hsent | ⟨hwaiting, hother⟩
  · exact .inl (hsent.append_right ext')
  · rcases hwaits' m hwaiting with hsent | ⟨hstill, hother'⟩
    · exact .inl (hsent.append_left ext)
    · refine .inr ⟨hstill, fun r hr hrle => ?_⟩
      rcases hcount.2 with hfrom | ⟨hfrom, hfrom'⟩
      · exact hother' r (hfrom ▸ hr) hrle
      · rcases le_or_gt r t.overlayRound with hbefore | hafter
        · exact hother r (hfrom ▸ hr) hbefore
        · exact hother' r (hfrom'.symm ▸ hafter) hrle

theorem Conveys.sends (env : ProtocolEnv) (s : ProtocolState ι) :
    Conveys env s (sendOverlayMessageBatch env
      { s with overlayRound := s.overlayRound + 1, pingResponseFromPredecessor := false }) := by
  obtain ⟨failed, hbatch⟩ := sendOverlayMessageBatch_next env s
  rw [hbatch]
  refine ⟨[.sendOverlay (nextBatch env s) (nextTarget env s)], rfl, ?_, fun m hm => ?_⟩
  · change s.overlayRound ≤ s.overlayRound + 1
    omega
  · by_cases hdue : m.destination = nextTarget env s
    · have hmem : m ∈ dueMessages env s :=
        List.mem_append_left _ (List.mem_filter.mpr ⟨hm, by simpa using hdue⟩)
      have hbody : m ∈ (nextBatch env s).map (·.body) := by
        rw [bodies_nextBatch, if_neg (List.ne_nil_of_mem hmem)]
        exact hmem
      obtain ⟨x, hx, hxm⟩ := List.mem_map.mp hbody
      exact .inl ⟨nextBatch env s, by simp [hdue], x, hx, hxm⟩
    · refine .inr ⟨List.mem_append_left _ (List.mem_filter.mpr ⟨hm, by simpa using hdue⟩), ?_⟩
      intro r hr hle
      change s.overlayRound < r at hr
      change r ≤ s.overlayRound + 1 at hle
      obtain rfl : r = s.overlayRound + 1 := by omega
      exact fun htarget => hdue htarget.symm

/-- A protocol whose handlers only add to the waiting messages. -/
structure KeepsWaiting {P : Protocol ι} (L : Layered P) : Prop where
  body : ∀ env message s, (L.handleBody env message s).Holds (AddsWaiting s)
  ends : ∀ env s, (P.endOverlayRoundImpl env s).Holds (AddsWaiting s)
  start : ∀ env endRound request s (I : ProtocolState ι → Prop), (∀ t, AddsWaiting s t → I t) →
    (∀ t, AddsWaiting s t → (endRound t).Holds I) →
    (P.startQueryImpl env endRound request s).Holds I
  signature : ∀ env endRound message s (I : ProtocolState ι → Prop),
    (∀ t, AddsWaiting s t → I t) → (∀ t, AddsWaiting s t → (endRound t).Holds I) →
    (P.handleSignatureResponse env endRound message s).Holds I

theorem encryptedMulticastToProxies_addsWaiting {env : ProtocolEnv} {s t : ProtocolState ι}
    {endRound : ProtocolState ι → Outcome Fault (ProtocolState ι)} {I : ProtocolState ι → Prop}
    (h : AddsWaiting s t) (contribution : ValueContribution) (hI : ∀ t, AddsWaiting s t → I t)
    (hend : ∀ t, AddsWaiting s t → (endRound t).Holds I) :
    (encryptedMulticastToProxies env endRound contribution t).Holds I := by
  refine encryptedMulticastToProxies_ends (hI t h) fun onions _ => hend _ (h.trans ?_)
  refine AddsWaiting.trans ?_ (.leaving _ _)
  exact .of_fields rfl rfl rfl

section Protocols
variable {P : Protocol ι} {L : Layered P}

theorem absorb_addsWaiting (K : KeepsWaiting L) (env : ProtocolEnv)
    (message : OverlayTransportMessage) (s : ProtocolState ι) :
    (L.absorb env message s).Holds (AddsWaiting s) := by
  have hnote : AddsWaiting s (noteOverlay env P message s) := by
    obtain ⟨timer, timers, hnote⟩ := noteOverlay_fields env P message s
    rw [hnote]
    exact ⟨rfl, List.subset_append_left _ _, [.handleOverlay s.overlayRound message], rfl, by simp [Action.isStart]⟩
  exact (K.body env _ _).mono (fun _ ht => hnote.trans ht) fun _ ht => hnote.trans ht

theorem conveys_maintains (K : KeepsWaiting L) (env : ProtocolEnv) (first : ProtocolState ι) :
    Maintains L env (fun _ => True) (Conveys env first) (Conveys env first) (Conveys env first) where
  weaken _ hs := hs
  frame _ _ hs h := hs.trans ((AddsWaiting.of_bookkeeping h).conveys env)
  buffers message s hs _ := hs.trans ((AddsWaiting.bufferOverlay s message).conveys env)
  buffered _ _ _ _ := trivial
  absorbs message s hs _ := (absorb_addsWaiting K env message s).mono
    (fun _ ht => hs.trans (ht.conveys env)) fun _ ht => hs.trans (ht.conveys env)
  ends s hs := (K.ends env s).mono (fun _ ht => hs.trans (ht.conveys env))
    fun _ ht => hs.trans (ht.conveys env)
  rests s hs _ := hs.trans ((AddsWaiting.of_bookkeeping (.cancelTimer s)).conveys env)
  sends s hs _ := hs.trans (.sends env s)

theorem conveys_startQuery (K : KeepsWaiting L) (env : ProtocolEnv) {first s : ProtocolState ι}
    (fuel : ℕ) (request : QueryRequest) (data : List FixedPoint) (hs : Conveys env first s) :
    (startQuery env P fuel request data s).Holds (Conveys env first) := by
  have hopened : ∀ t : ProtocolState ι, t.waitingMessages = s.waitingMessages →
      t.trace = s.trace ++ [.startQuery request.queryNumber] → t.overlayRound = -1 →
      Conveys env first t := by
    intro t hwaiting htrace hround
    refine hs.trans ⟨_, htrace, hround.ge, fun m hm => .inr ⟨hwaiting ▸ hm, fun r hr hle => ?_⟩⟩
    change -1 < r at hr
    omega
  have hconveys {t u : ProtocolState ι} (ht : Conveys env first t) (h : AddsWaiting t u) :
      Conveys env first u := ht.trans (h.conveys env)
  unfold startQuery
  dsimp only
  split
  · exact hopened _ rfl rfl rfl
  · refine K.start env _ request _ _ (fun u hu => hconveys (hopened _ ?_ ?_ ?_) hu)
      fun u hu => (conveys_maintains K env first).endOverlayRound fuel
        (hconveys (hopened _ ?_ ?_ ?_) hu)
    all_goals rfl

theorem conveys_maintainsAll (K : KeepsWaiting L) (env : ProtocolEnv) (fuel : ℕ)
    (first : ProtocolState ι) :
    MaintainsAll L env fuel (fun _ => True) (fun _ _ => True) (Conveys env first)
      (Conveys env first) (Conveys env first) where
  toMaintains := conveys_maintains K env first
  overlay _ _ _ := trivial
  start request data _ hs _ := conveys_startQuery K env fuel request data hs
  signature message s hs _ := K.signature env _ message s _
    (fun _ ht => hs.trans (ht.conveys env)) fun _ ht =>
      (conveys_maintains K env first).endOverlayRound fuel (hs.trans (ht.conveys env))
  aggregation message s hs _ := (SameOverlay.receiveAggregation message s).mono
    (fun _ ht => hs.trans ((AddsWaiting.of_sameOverlay ht).conveys env))
    fun _ ht => hs.trans ((AddsWaiting.of_sameOverlay ht).conveys env)

theorem conveys_of_run (K : KeepsWaiting L) (env : ProtocolEnv) (fuel : ℕ) (es es' : List Event) :
    Conveys env (run env P fuel es).state (run env P fuel (es ++ es')).state := by
  have hrun := (conveys_maintainsAll K env fuel (run env P fuel es).state).run
    (along_of_forall es' fun _ _ => trivial)
    (Outcome.holds_iff.mpr (Conveys.refl env _) : (run env P fuel es).Holds _)
  rw [run_append]
  exact Outcome.holds_iff.mp hrun

theorem overlayRound_of_run (K : KeepsWaiting L) (env : ProtocolEnv) (fuel : ℕ) (es : List Event) :
    -1 ≤ (run env P fuel es).state.overlayRound := by
  obtain ⟨ext, -, hle, -⟩ := conveys_of_run K env fuel [] es
  refine le_trans ?_ hle
  unfold countedFrom
  split_ifs
  · exact le_rfl
  · change (-1 : ℤ) ≤ 0
    decide

/-- Messages for other meters leave before as many rounds of a query have begun as there
are other meters. -/
def SendsInTime (env : ProtocolEnv) (s t : ProtocolState ι) : Prop :=
  ∃ ext, t.trace = s.trace ++ ext ∧ ∀ m ∈ s.waitingMessages, 0 ≤ m.destination →
    m.destination < env.numMeters → m.destination ≠ env.meterId →
    IsSent m ext ∨ m ∈ t.waitingMessages ∧
      t.overlayRound < countedFrom s.overlayRound ext + (env.numMeters - 1)

theorem sendsInTime_of_run (K : KeepsWaiting L) (env : ProtocolEnv) (fuel : ℕ)
    (es es' : List Event) (hprime : GossipPrime env.numMeters) (hle : env.numMeters ≤ 65535)
    (hid : 0 ≤ env.meterId) (hidlt : env.meterId < env.numMeters)
    (hround : (run env P fuel (es ++ es')).state.overlayRound < 2 ^ 31) :
    SendsInTime env (run env P fuel es).state (run env P fuel (es ++ es')).state := by
  obtain ⟨ext, htrace, hcount, hwaits⟩ := conveys_of_run K env fuel es es'
  have hfirst : -1 ≤ countedFrom (run env P fuel es).state.overlayRound ext := by
    unfold countedFrom
    split_ifs
    · exact le_rfl
    · exact overlayRound_of_run K env fuel es
  refine ⟨ext, htrace, fun m hm hdest hdestlt hother => ?_⟩
  rcases hwaits m hm with hsent | ⟨hwaiting, hnot⟩
  · exact .inl hsent
  · refine .inr ⟨hwaiting, ?_⟩
    by_contra hlate
    obtain ⟨r, hr, hrlt, htarget⟩ := hprime.existsUnique_round hle hid hidlt hdest hdestlt
      hother.symm (t := countedFrom (run env P fuel es).state.overlayRound ext + 1) (by omega)
      (by omega)
    exact hnot r (by omega) (by omega) ((htarget r hr hrlt).mpr rfl)

end Protocols
end ProtocolState

namespace CtProtocolState
open ProtocolState (AddsWaiting KeepsWaiting)

theorem keepsWaiting : KeepsWaiting layered where
  body env message s := by
    have heffect (t : State) (ht : BodyEffect env message s t) : AddsWaiting s t := by
      cases ht with
      | ignored => exact .refl s
      | forwarded enclosed => exact .wait s enclosed
      | accepted contribution => exact .emplaceProxyValue s contribution
    exact (handleBody_effect message s).mono heffect heffect
  ends env s := by
    have heffect (t : State) (ht : EndEffect env s t) : AddsWaiting s t := by
      cases ht with
      | kept _ h => exact .of_multicasts h
      | echoed u h => exact (AddsWaiting.of_multicasts h).trans (.of_fields rfl rfl rfl)
      | entered _ h => exact .of_sameOverlay h
    exact (endOverlayRoundImpl_effect s).mono heffect heffect
  start env endRound request s I hI hend := by
    have hshuffle : AddsWaiting s (s.onImpl fun _ => ⟨0, .shuffle⟩) := .of_fields rfl rfl rfl
    change (startQueryImpl env endRound request s).Holds I
    unfold startQueryImpl
    dsimp only
    split
    · exact hI _ hshuffle
    · exact ProtocolState.encryptedMulticastToProxies_addsWaiting hshuffle _ hI hend
  signature _ _ _ s _ hI _ := hI s (.refl s)

end CtProtocolState

namespace HftProtocolState
open ProtocolState (AddsWaiting KeepsWaiting)

theorem keepsWaiting : KeepsWaiting layered where
  body env message s := by
    have heffect (t : State) (ht : BodyEffect env message s t) : AddsWaiting s t := by
      cases ht with
      | ignored => exact .refl s
      | relayed => exact .of_fields rfl rfl rfl
      | accepted contribution => exact .emplaceProxyValue s contribution
      | flooded => exact .of_fields rfl rfl rfl
    exact (handleBody_effect message s).mono heffect heffect
  ends env s := by
    have heffect (t : State) (ht : PhaseEffect s t) : AddsWaiting s t := by
      cases ht with
      | kept => exact .refl s
      | gathered => exact .of_fields rfl rfl rfl
      | entered _ h =>
        refine AddsWaiting.trans ?_ (AddsWaiting.of_sameOverlay h)
        exact .of_fields rfl rfl rfl
    change (endOverlayRoundImpl env s).Holds (AddsWaiting s)
    unfold endOverlayRoundImpl
    refine ((endPhase_effect s).mono heffect heffect).andThen fun t ht => ht.trans ?_
    unfold flood
    split_ifs
    · exact .of_fields rfl rfl rfl
    · exact .refl t
  start env endRound request s I hI hend := by
    change (startQueryImpl env endRound request s).Holds I
    unfold startQueryImpl
    split
    · exact hI _ (.refl s)
    · refine hend _ (AddsWaiting.trans ?_ (.leaving _ _))
      exact .of_fields rfl rfl rfl
  signature _ _ _ s _ hI _ := hI s (.refl s)

end HftProtocolState

namespace BftProtocolState
open ProtocolState (AddsWaiting KeepsWaiting)

theorem keepsWaiting : KeepsWaiting layered where
  body env message s := by
    have heffect (t : State) (ht : BodyEffect env message s t) : AddsWaiting s t := by
      cases ht with
      | ignored => exact .refl s
      | forwarded enclosed => exact .wait s enclosed
      | accepted contribution => exact .emplaceProxyValue s contribution
      | agreed agreement u _ hlogged =>
        have hu : AddsWaiting s u := by
          rcases hlogged with rfl | ⟨_, _, rfl⟩
          · exact .refl u
          · exact .act s rfl
        exact hu.trans (.of_fields rfl rfl rfl)
    exact (handleBody_effect message s).mono heffect heffect
  ends env s := by
    have heffect (t : State) (ht : EndEffect env s t) : AddsWaiting s t := by
      cases ht with
      | kept _ h => exact .of_multicasts h
      | agreeing _ h => exact (AddsWaiting.of_multicasts h).trans (.of_fields rfl rfl rfl)
      | accepting _ _ _ h => exact (AddsWaiting.of_multicasts h).trans (.of_fields rfl rfl rfl)
      | entered _ _ h =>
        refine AddsWaiting.trans ?_ (AddsWaiting.of_sameOverlay h)
        exact .of_fields rfl rfl rfl
    exact (endOverlayRoundImpl_effect s).mono heffect heffect
  start env endRound request s I hI hend := by
    change (startQueryImpl env endRound request s).Holds I
    unfold startQueryImpl
    dsimp only
    split
    · exact hI _ (.of_fields rfl rfl rfl)
    · refine hI _ (AddsWaiting.trans ?_ (.act _ rfl))
      exact .of_fields rfl rfl rfl
  signature env endRound message s I hI hend := by
    have hshuffle : AddsWaiting s (s.onImpl fun i => { i with protocolPhase := .shuffle }) :=
      .of_fields rfl rfl rfl
    change (handleSignatureResponse env endRound message s).Holds I
    unfold handleSignatureResponse
    split
    · exact hI _ (.refl s)
    · exact ProtocolState.encryptedMulticastToProxies_addsWaiting hshuffle _ hI hend

end BftProtocolState

/-- In any piece of one round less than there are meters, each meter sends to each other one
exactly once and is its predecessor exactly then, and no message waits for longer. -/
theorem GossipPrime.meets_every_meter {n : ℤ} (h : GossipPrime n) (hle : n ≤ 65535) :
    (∀ i j t, 0 ≤ i → i < n → 0 ≤ j → j < n → i ≠ j → 0 ≤ t → t + (n - 1) ≤ 2 ^ 31 →
      ∃ r, t ≤ r ∧ r < t + (n - 1) ∧ ∀ r', t ≤ r' → r' < t + (n - 1) →
        (gossipTarget i r' n = j ↔ r' = r) ∧ (gossipPredecessor j r' n = i ↔ r' = r)) ∧
      (∀ (env : ProtocolEnv) (fuel : ℕ) (es es' : List ProtocolState.Event),
        env.numMeters = n → 0 ≤ env.meterId → env.meterId < n →
        ((ProtocolState.run env CtProtocolState.protocol fuel (es ++ es')).state.overlayRound <
            2 ^ 31 → ProtocolState.SendsInTime env
          (ProtocolState.run env CtProtocolState.protocol fuel es).state
          (ProtocolState.run env CtProtocolState.protocol fuel (es ++ es')).state) ∧
        ((ProtocolState.run env HftProtocolState.protocol fuel (es ++ es')).state.overlayRound <
            2 ^ 31 → ProtocolState.SendsInTime env
          (ProtocolState.run env HftProtocolState.protocol fuel es).state
          (ProtocolState.run env HftProtocolState.protocol fuel (es ++ es')).state) ∧
        ((ProtocolState.run env BftProtocolState.protocol fuel (es ++ es')).state.overlayRound <
            2 ^ 31 → ProtocolState.SendsInTime env
          (ProtocolState.run env BftProtocolState.protocol fuel es).state
          (ProtocolState.run env BftProtocolState.protocol fuel (es ++ es')).state)) := by
  constructor
  · intro i j t hi hilt hj hjlt hne ht hlast
    obtain ⟨r, hr, hrlt, htarget⟩ :=
      h.existsUnique_round hle hi hilt hj hjlt hne ht hlast
    refine ⟨r, hr, hrlt, fun r' hr' hr'lt => ⟨htarget r' hr' hr'lt, ?_⟩⟩
    rw [gossipPredecessor_eq_iff h.two_le (by omega) hi hilt hj hjlt]
    exact htarget r' hr' hr'lt
  · rintro env fuel es es' rfl hid hidlt
    refine ⟨fun hround => ?_, fun hround => ?_, fun hround => ?_⟩
    · exact ProtocolState.sendsInTime_of_run CtProtocolState.keepsWaiting env fuel es es' h hle hid
        hidlt hround
    · exact ProtocolState.sendsInTime_of_run HftProtocolState.keepsWaiting env fuel es es' h hle hid
        hidlt hround
    · exact ProtocolState.sendsInTime_of_run BftProtocolState.keepsWaiting env fuel es es' h hle hid
        hidlt hround

theorem gossipPrime_eleven : GossipPrime 11 where
  two_le := by decide
  prime := by decide
  primitive := by
    change IsPrimitiveRoot (2 : ZMod 11) 10
    refine .mk_of_lt 2 (by decide) (by decide) fun l hpos hlt => ?_
    interval_cases l <;> decide

/-- A message for meter 1 waits at meter 0 of 11. -/
def waitingSample : List ProtocolState.Event :=
  [.startQuery ⟨.currUsageSum, 1, 0⟩ [5],
    .overlay ⟨10, 0, false, .make 0 0 (OverlayMessage.make 0 1 .null false).toBody false⟩]

theorem sample_meets_every_meter :
    (∃ r : ℤ, 3 ≤ r ∧ r < 3 + (11 - 1) ∧ ∀ r', 3 ≤ r' → r' < 3 + (11 - 1) →
      (gossipTarget 0 r' 11 = 1 ↔ r' = r) ∧ (gossipPredecessor 1 r' 11 = 0 ↔ r' = r)) ∧
      ProtocolState.SendsInTime (MeterClient.sampleEnv 0 11 (by decide) 4 5 fun _ => true).toProtocolEnv
        (ProtocolState.run (MeterClient.sampleEnv 0 11 (by decide) 4 5 fun _ => true).toProtocolEnv
          CtProtocolState.protocol 100 waitingSample).state
        (ProtocolState.run (MeterClient.sampleEnv 0 11 (by decide) 4 5 fun _ => true).toProtocolEnv
          CtProtocolState.protocol 100 (waitingSample ++ [.timerExpires 1])).state := by
  have hmeets := gossipPrime_eleven.meets_every_meter (by decide)
  refine ⟨hmeets.1 0 1 3 (by decide) (by decide) (by decide) (by decide) (by decide) (by decide)
    (by decide), ?_⟩
  exact (hmeets.2 (MeterClient.sampleEnv 0 11 (by decide) 4 5 fun _ => true).toProtocolEnv 100
    waitingSample [.timerExpires 1] rfl (by decide) (by decide)).1 (by decide +kernel)

end Pddm
