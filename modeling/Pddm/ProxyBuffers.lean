import Pddm.CrusaderSignatures
import Pddm.RoundRules

/-!
# The buffers of other proxies

A value is sent on to its proxies other than the meter that holds it. The buffer for them
has room for all proxies but one.
-/
namespace Pddm

/-- The meter is one of the proxies, once, so that the others fill their buffer. -/
def FillsExactly (nodeId : ℤ) (proxies : List ℤ) : Prop :=
  proxies.count nodeId = 1 ∧ otherProxies proxies nodeId = .ok (proxies.erase nodeId)

def NamesOnce (nodeId : ℤ) (v : ValueContribution) : Prop := v.value.proxies.count nodeId = 1

instance (nodeId : ℤ) (proxies : List ℤ) : Decidable (FillsExactly nodeId proxies) :=
  inferInstanceAs (Decidable (_ ∧ _))

instance (nodeId : ℤ) (v : ValueContribution) : Decidable (NamesOnce nodeId v) :=
  inferInstanceAs (Decidable (_ = _))

theorem filter_ne_of_count_eq_one {nodeId : ℤ} {proxies : List ℤ}
    (h : proxies.count nodeId = 1) : proxies.filter (· ≠ nodeId) = proxies.erase nodeId := by
  induction proxies with
  | nil => simp at h
  | cons p ps ih =>
    by_cases hp : p = nodeId
    · subst hp
      have hnone : p ∉ ps := List.count_eq_zero.mp (by simpa using h)
      have hall : ps.filter (· ≠ p) = ps := by
        refine List.filter_eq_self.mpr fun q hq => ?_
        simpa using ne_of_mem_of_not_mem hq hnone
      simp only [List.filter_cons, List.erase_cons_head, hall]
      simp
    · have hrest : ps.count nodeId = 1 := by simpa [List.count_cons, hp] using h
      simp only [List.filter_cons, List.erase_cons, ih hrest]
      simp [hp]

theorem NamesOnce.fillsExactly {nodeId : ℤ} {v : ValueContribution} (h : NamesOnce nodeId v) :
    FillsExactly nodeId v.value.proxies := by
  have hmem : nodeId ∈ v.value.proxies := List.count_pos_iff.mp (h ▸ Nat.one_pos)
  have hlength := List.length_erase_of_mem hmem
  have hpos := List.length_pos_of_mem hmem
  refine ⟨h, ?_⟩
  unfold otherProxies
  rw [filter_ne_of_count_eq_one h]
  simp only
  rw [if_neg (by omega), if_neg (by omega), hlength, Nat.sub_self, List.replicate_zero,
    List.append_nil]

namespace ProtocolState
variable {ι : Type}

theorem sendOverlayMessageBatch_values (env : ProtocolEnv) (s : ProtocolState ι) :
    (sendOverlayMessageBatch env s).proxyValues = s.proxyValues ∧
      (sendOverlayMessageBatch env s).impl = s.impl ∧
      (sendOverlayMessageBatch env s).futureOverlayMessages = s.futureOverlayMessages := by
  unfold sendOverlayMessageBatch sendTo
  dsimp only
  split_ifs <;> exact ⟨rfl, rfl, rfl⟩

theorem mem_emplaceProxyValue {s : ProtocolState ι} {contribution v : ValueContribution}
    (hv : v ∈ (s.emplaceProxyValue contribution).proxyValues) :
    v ∈ s.proxyValues ∨ v = contribution := by
  unfold emplaceProxyValue at hv
  split_ifs at hv
  · exact .inl hv
  · exact (List.mem_append.mp hv).imp_right List.mem_singleton.mp

end ProtocolState

namespace CtProtocolState
open ProtocolState (SameOverlay Multicasts Bookkeeping)
variable {env : ProtocolEnv}

/-- Shuffle is about to accept a contribution that does not name this meter exactly once. -/
def admitsStranger (env : ProtocolEnv) (message : OverlayMessage) (s : State) : Bool :=
  s.impl.protocolPhase = .shuffle && message.destination = env.meterId &&
    match message.body.asValueContribution, s.myContribution with
    | some contribution, some mine =>
        contribution.value.queryNum = mine.queryNum && !decide (NamesOnce env.meterId contribution)
    | _, _ => false

/-- The values that are echoed when Shuffle ends name this meter exactly once. -/
def ShufflesOwn (env : ProtocolEnv) (s : State) : Prop :=
  s.impl.protocolPhase = .shuffle → ∀ v ∈ s.proxyValues, NamesOnce env.meterId v

theorem ShufflesOwn.same {s t : State} (hs : ShufflesOwn env s)
    (hvalues : t.proxyValues = s.proxyValues)
    (himpl : t.impl.protocolPhase = .shuffle → s.impl.protocolPhase = .shuffle) :
    ShufflesOwn env t := by
  intro hphase
  rw [hvalues]
  exact hs (himpl hphase)

theorem ShufflesOwn.sameOverlay {s t : State} (hs : ShufflesOwn env s)
    (h : SameOverlay aggregatePhase s t) : ShufflesOwn env t :=
  hs.same h.proxyValues (h.impl
    (fun i => i.protocolPhase = .shuffle → s.impl.protocolPhase = .shuffle)
    (fun _ _ hphase => by cases hphase) (fun _ _ hphase => by cases hphase) id)

theorem handleBody_shufflesOwn {message : OverlayMessage} {s : State} (hs : ShufflesOwn env s)
    (hguard : admitsStranger env message s = false) :
    (handleBody env message s).Holds (ShufflesOwn env) := by
  rw [handleBody_eq]
  split
  · exact hs
  · split_ifs with hreceived
    · unfold acceptContribution
      split
      · exact hs
      · next contribution hbody =>
        split
        · exact hs
        · next mine hmine =>
          split_ifs with hquery
          · intro hphase v hv
            have himpl : (s.emplaceProxyValue contribution).impl = s.impl :=
              (ProtocolState.SameCore.emplaceProxyValue s contribution).impl
            rw [himpl] at hphase
            rcases ProtocolState.mem_emplaceProxyValue hv with hv | rfl
            · exact hs hphase v hv
            · simpa [admitsStranger, hphase, hreceived.1, hbody, hmine, hquery] using hguard
          · exact hs
    · exact hs

theorem endOverlayRoundImpl_shufflesOwn {s : State} (hs : ShufflesOwn env s) :
    (endOverlayRoundImpl env s).Holds (ShufflesOwn env) := by
  have heffect (t : State) (ht : EndEffect env s t) : ShufflesOwn env t := by
    cases ht with
    | kept _ h =>
      obtain ⟨_, _, rfl⟩ := h
      exact hs
    | echoed u h => exact fun hphase => by cases hphase
    | entered _ h => exact hs.sameOverlay h
  exact (endOverlayRoundImpl_effect s).mono heffect heffect

theorem shufflesOwn_maintains (env : ProtocolEnv) :
    ProtocolState.Maintains (layered.guarded admitsStranger) env (fun _ => True)
      (ShufflesOwn env) (ShufflesOwn env) (ShufflesOwn env) where
  weaken _ hs := hs
  frame _ _ hs h := hs.same h.proxyValues fun hphase => h.impl ▸ hphase
  buffers _ _ hs _ := hs
  buffered _ _ _ _ := trivial
  absorbs message s hs _ := by
    have hnote : ShufflesOwn env
        (ProtocolState.noteOverlay env (protocol.guarded admitsStranger) message s) := by
      obtain ⟨timer, timers, hnote⟩ :=
        ProtocolState.noteOverlay_fields env (protocol.guarded admitsStranger) message s
      rw [hnote]
      exact hs
    change (if admitsStranger env (message.body.received env.crypto) _ then _ else _ :
      Outcome Fault State).Holds (ShufflesOwn env)
    split_ifs with hguard
    · exact hnote
    · exact handleBody_shufflesOwn hnote (by simpa using hguard)
  ends _ hs := endOverlayRoundImpl_shufflesOwn hs
  rests _ hs _ := hs
  sends s hs _ := by
    obtain ⟨hvalues, himpl, -⟩ := ProtocolState.sendOverlayMessageBatch_values env
      { s with overlayRound := s.overlayRound + 1, pingResponseFromPredecessor := false }
    exact hs.same hvalues fun hphase => himpl ▸ hphase

theorem shufflesOwn_nil {s : State} (h : s.proxyValues = []) : ShufflesOwn env s := by
  intro _ v hv
  rw [h] at hv
  cases hv

theorem shufflesOwn_maintainsAll (env : ProtocolEnv) (fuel : ℕ) :
    ProtocolState.MaintainsAll (layered.guarded admitsStranger) env fuel (fun _ => True)
      (fun _ _ => True) (ShufflesOwn env) (ShufflesOwn env) (ShufflesOwn env) where
  toMaintains := shufflesOwn_maintains env
  overlay _ _ _ := trivial
  start request data s _ _ := by
    unfold ProtocolState.startQuery
    dsimp only
    split
    · exact shufflesOwn_nil rfl
    · rw [show (protocol.guarded admitsStranger).startQueryImpl = startQueryImpl from rfl]
      refine ProtocolState.encryptedMulticastToProxies_ends (shufflesOwn_nil rfl) fun onions _ => ?_
      exact (shufflesOwn_maintains env).endOverlayRound fuel (shufflesOwn_nil rfl)
  signature _ _ hs _ := hs
  aggregation message s hs _ :=
    (ProtocolState.SameOverlay.receiveAggregation message s).mono (fun _ h => hs.sameOverlay h)
      fun _ h => hs.sameOverlay h

/-- Every value that the end of this round echoes to its other proxies fills its buffer. -/
def fillsBuffers (env : ProtocolEnv) (s : State) : Bool :=
  decide (s.impl.protocolPhase = .shuffle →
    s.overlayRound ≥ env.failuresTolerated + 2 * env.log2n + 1 →
      ∀ v ∈ s.proxyValues, FillsExactly env.meterId v.value.proxies)

theorem ShufflesOwn.fillsBuffers {s : State} (hs : ShufflesOwn env s) :
    fillsBuffers env s = true := by
  refine decide_eq_true fun hphase _ v hv => ?_
  exact (hs hphase v hv).fillsExactly

/-- In a run that admits no stranger's value, the buffers are filled exactly. -/
theorem run_fillsBuffers (env : ProtocolEnv) (fuel : ℕ) (error : Fault)
    (es : List (ProtocolState.Event)) :
    ProtocolState.run env ((protocol.guarded admitsStranger).checked fillsBuffers error) fuel es =
      ProtocolState.run env (protocol.guarded admitsStranger) fuel es := by
  have hmaintains := shufflesOwn_maintainsAll env fuel
  have hcheck (s : State) (hs : ShufflesOwn env s) : fillsBuffers env s = true := hs.fillsBuffers
  refine hmaintains.run_checked (fun s hs e he => ?_) (along_of_forall es fun _ _ => trivial)
    (shufflesOwn_nil rfl)
  refine hmaintains.handle_checked hcheck (fun request data t _ _ => ?_) (fun _ _ _ _ => rfl) hs he
  unfold ProtocolState.startQuery
  dsimp only
  split
  · rfl
  · refine ProtocolState.encryptedMulticastToProxies_congr (I := ShufflesOwn env) (fun u hu => ?_)
      fun onions => shufflesOwn_nil rfl
    exact hmaintains.endOverlayRound_checked hcheck error fuel hu

end CtProtocolState

namespace CrusaderAgreementState
variable {crypto : CryptoLibrary} {s : CrusaderAgreementState}

/-- A message brings the signatures on a value that does not name this node exactly once up
to those that are enough, while phase 1 goes on. -/
def acceptsStranger (crypto : CryptoLibrary) (message : OverlayMessage)
    (s : CrusaderAgreementState) : Bool :=
  !s.phase1Finished &&
    match s.admitted crypto message with
    | some value => !decide (NamesOnce s.nodeId value) &&
        ((s.handleMessage crypto message).held value).any fun signed =>
          s.log2n + 1 ≤ signed.signatures.size
    | none => false

/-- The values that phase 1 would accept now name this node exactly once. -/
def AcceptsOwn (s : CrusaderAgreementState) : Prop :=
  s.phase1Finished = false → ∀ value signed, s.held value = some signed →
    s.log2n + 1 ≤ signed.signatures.size → NamesOnce s.nodeId value

theorem handleMessage_fields (crypto : CryptoLibrary) (message : OverlayMessage)
    (s : CrusaderAgreementState) :
    (s.handleMessage crypto message).nodeId = s.nodeId ∧
      (s.handleMessage crypto message).log2n = s.log2n ∧
      (s.handleMessage crypto message).phase1Finished = s.phase1Finished := by
  unfold handleMessage
  split
  · unfold handlePhase1Message
    split
    · exact ⟨rfl, rfl, rfl⟩
    · split_ifs
      · split <;> exact ⟨rfl, rfl, rfl⟩
      · exact ⟨rfl, rfl, rfl⟩
  · unfold handlePhase2Message
    split_ifs
    · dsimp only
      split <;> exact ⟨rfl, rfl, rfl⟩
    · exact ⟨rfl, rfl, rfl⟩
    · exact ⟨rfl, rfl, rfl⟩
  · exact ⟨rfl, rfl, rfl⟩

theorem held_handleMessage {message : OverlayMessage} {value : ValueContribution}
    (h : s.admitted crypto message ≠ some value) :
    (s.handleMessage crypto message).held value = s.held value := by
  unfold admitted at h
  unfold handleMessage
  cases hbody : message.body with
  | signedValue signed =>
    simp only [hbody] at h
    simp only [handlePhase1Message]
    cases hfirst : signed.signatures.first with
    | none => rfl
    | some pair =>
      simp only [hfirst] at h
      dsimp only
      split_ifs with hverify
      · have hne : value ≠ signed.value := fun heq => h (by rw [if_pos hverify, heq])
        split <;> rw [held_store, if_neg hne]
      · rfl
  | agreementValue agreed =>
    simp only [hbody] at h
    simp only [handlePhase2Message]
    split_ifs with hverify hcount
    · have hne : value ≠ agreed.signedValue.value := fun heq =>
        h (by rw [if_pos ⟨hverify, hcount⟩, heq])
      split <;> rw [held_store, if_neg hne]
    · rfl
    · rfl
  | _ => rfl

theorem AcceptsOwn.handleMessage (hs : s.AcceptsOwn) {message : OverlayMessage}
    (hguard : s.acceptsStranger crypto message = false) :
    (s.handleMessage crypto message).AcceptsOwn := by
  obtain ⟨hnode, hlog, hphase⟩ := handleMessage_fields crypto message s
  intro hfinished value signed hheld hsize
  rw [hphase] at hfinished
  rw [hlog] at hsize
  rw [hnode]
  by_cases hadmitted : s.admitted crypto message = some value
  · by_contra hnames
    simp [acceptsStranger, hfinished, hadmitted, hnames, hheld] at hguard
    omega
  · rw [held_handleMessage hadmitted] at hheld
    exact hs hfinished value signed hheld hsize

theorem keyed_handleMessage (hs : s.Keyed) (message : OverlayMessage) :
    (s.handleMessage crypto message).Keyed :=
  keyed_step hs (.handle message)

theorem AcceptsOwn.fillsExactly (hs : s.AcceptsOwn) (hkeyed : s.Keyed)
    (hfinished : s.phase1Finished = false) {π : IterationOrder} {agreed : AgreementValue}
    (hagreed : agreed ∈ s.acceptedValues π crypto) :
    FillsExactly s.nodeId agreed.signedValue.value.value.proxies := by
  obtain ⟨⟨value, hheld⟩, hsize, -, -⟩ := mem_acceptedValues.mp hagreed
  have hvalue : agreed.signedValue.value = value := hkeyed value _ hheld
  rw [hvalue]
  exact (hs hfinished value _ hheld hsize).fillsExactly

end CrusaderAgreementState

namespace BftProtocolState
open ProtocolState (SameOverlay Multicasts Bookkeeping)
variable {env : ProtocolEnv}

/-- A value that does not name this meter exactly once is about to be accepted, in Shuffle or
in phase 1 of the agreement. -/
def admitsStranger (env : ProtocolEnv) (message : OverlayMessage) (s : State) : Bool :=
  message.destination = env.meterId &&
    match s.impl.protocolPhase with
    | .shuffle =>
        match message.body.asValueContribution, s.myContribution with
        | some contribution, some mine =>
            contribution.value.queryNum = mine.queryNum &&
              env.crypto.rsaVerify (.ofTuple contribution.value) contribution.signature (-1) &&
              !decide (NamesOnce env.meterId contribution)
        | _, _ => false
    | .agreement => s.impl.agreementPhaseState.any (·.acceptsStranger env.crypto message)
    | _ => false

/-- What the meter holds for its other proxies names the meter exactly once. -/
structure HoldsOwn (env : ProtocolEnv) (s : State) : Prop where
  values : ∀ v ∈ s.proxyValues, NamesOnce env.meterId v
  agreement : ∀ a, s.impl.agreementPhaseState = some a →
    a.nodeId = env.meterId ∧ a.Keyed ∧ a.AcceptsOwn

theorem HoldsOwn.same {s t : State} (hs : HoldsOwn env s)
    (hvalues : t.proxyValues = s.proxyValues)
    (hagreement : t.impl.agreementPhaseState = s.impl.agreementPhaseState) : HoldsOwn env t :=
  ⟨hvalues ▸ hs.values, hagreement ▸ hs.agreement⟩

theorem HoldsOwn.sameOverlay {s t : State} (hs : HoldsOwn env s)
    (h : SameOverlay aggregatePhase s t) : HoldsOwn env t :=
  hs.same h.proxyValues (h.impl
    (fun i => i.agreementPhaseState = s.impl.agreementPhaseState) (fun _ hi => hi)
    (fun _ hi => hi) rfl)

theorem handleBody_holdsOwn {message : OverlayMessage} {s : State} (hs : HoldsOwn env s)
    (hguard : admitsStranger env message s = false) :
    (handleBody env message s).Holds (HoldsOwn env) := by
  unfold handleBody
  split
  · exact hs
  · split
    · exact hs.same rfl rfl
    · split_ifs with hdestination
      · split
        · next hphase =>
          unfold handleShufflePhaseMessage
          split
          · exact hs
          · next contribution hbody =>
            split
            · exact hs
            · next mine hmine =>
              split_ifs with hvalid
              · refine ⟨fun v hv => ?_, ?_⟩
                · rcases ProtocolState.mem_emplaceProxyValue hv with hv | rfl
                  · exact hs.values v hv
                  · simpa [admitsStranger, hphase, hdestination, hbody, hmine, hvalid]
                      using hguard
                · rw [(ProtocolState.SameCore.emplaceProxyValue s contribution).impl]
                  exact hs.agreement
              · exact hs
        · next hphase =>
          unfold handleAgreementPhaseMessage
          split
          · exact hs
          · next a ha =>
            obtain ⟨hnode, hkeyed, haccepts⟩ := hs.agreement a ha
            have hallowed : a.acceptsStranger env.crypto message = false := by
              simpa [admitsStranger, hdestination, hphase, ha] using hguard
            have hnext : ∀ a', some (a.handleMessage env.crypto message) = some a' →
                a'.nodeId = env.meterId ∧ a'.Keyed ∧ a'.AcceptsOwn := by
              intro a' ha'
              obtain rfl := Option.some.inj ha'
              exact ⟨(CrusaderAgreementState.handleMessage_fields env.crypto message a).1.trans hnode,
                CrusaderAgreementState.keyed_handleMessage hkeyed message,
                haccepts.handleMessage hallowed⟩
            dsimp only
            split
            · exact ⟨hs.values, hnext⟩
            · exact ⟨hs.values, hnext⟩
        · exact hs
      · exact hs

theorem endOverlayRoundImpl_holdsOwn {s : State} (hs : HoldsOwn env s) :
    (endOverlayRoundImpl env s).Holds (HoldsOwn env) := by
  have heffect (t : State) (ht : EndEffect env s t) : HoldsOwn env t := by
    cases ht with
    | kept _ h =>
      obtain ⟨_, _, rfl⟩ := h
      exact hs.same rfl rfl
    | agreeing u h =>
      obtain ⟨_, _, rfl⟩ := h
      exact hs.same rfl rfl
    | accepting a u ha h =>
      obtain ⟨_, _, rfl⟩ := h
      obtain ⟨hnode, hkeyed, -⟩ := hs.agreement a ha
      refine ⟨hs.values, fun a' ha' => ?_⟩
      obtain rfl := Option.some.inj ha'
      exact ⟨hnode, hkeyed, fun hfinished => by cases hfinished⟩
    | entered values _ h =>
      have haccepted : HoldsOwn env (s.onImpl fun i => { i with acceptedProxyValues := values }) :=
        hs.same rfl rfl
      exact haccepted.sameOverlay h
  exact (endOverlayRoundImpl_effect s).mono heffect heffect

theorem holdsOwn_maintains (env : ProtocolEnv) :
    ProtocolState.Maintains (layered.guarded admitsStranger) env (fun _ => True)
      (HoldsOwn env) (HoldsOwn env) (HoldsOwn env) where
  weaken _ hs := hs
  frame _ _ hs h := hs.same h.proxyValues (congrArg agreementPhaseState h.impl)
  buffers _ _ hs _ := hs.same rfl rfl
  buffered _ _ _ _ := trivial
  absorbs message s hs _ := by
    have hnote : HoldsOwn env
        (ProtocolState.noteOverlay env (protocol.guarded admitsStranger) message s) := by
      obtain ⟨timer, timers, hnote⟩ :=
        ProtocolState.noteOverlay_fields env (protocol.guarded admitsStranger) message s
      rw [hnote]
      exact hs.same rfl rfl
    change (if admitsStranger env (message.body.received env.crypto) _ then _ else _ :
      Outcome Fault State).Holds (HoldsOwn env)
    split_ifs with hguard
    · exact hnote
    · exact handleBody_holdsOwn hnote (by simpa using hguard)
  ends _ hs := endOverlayRoundImpl_holdsOwn hs
  rests _ hs _ := hs.same rfl rfl
  sends s hs _ := by
    obtain ⟨hvalues, himpl, -⟩ := ProtocolState.sendOverlayMessageBatch_values env
      { s with overlayRound := s.overlayRound + 1, pingResponseFromPredecessor := false }
    exact hs.same hvalues (congrArg agreementPhaseState himpl)

theorem holdsOwn_maintainsAll (env : ProtocolEnv) (fuel : ℕ) :
    ProtocolState.MaintainsAll (layered.guarded admitsStranger) env fuel (fun _ => True)
      (fun _ _ => True) (HoldsOwn env) (HoldsOwn env) (HoldsOwn env) where
  toMaintains := holdsOwn_maintains env
  overlay _ _ _ := trivial
  start request data s hs _ := by
    unfold ProtocolState.startQuery
    dsimp only
    split
    · exact ⟨by simp, hs.agreement⟩
    · rw [show (protocol.guarded admitsStranger).startQueryImpl = startQueryImpl from rfl]
      have hnew : ∀ a, some (CrusaderAgreementState.init env.meterId env.numMeters
          request.queryNumber) = some a → a.nodeId = env.meterId ∧ a.Keyed ∧ a.AcceptsOwn := by
        intro a ha
        obtain rfl := Option.some.inj ha
        refine ⟨rfl, CrusaderAgreementState.keyed_init _ _ _, fun _ value signed hheld => ?_⟩
        simp at hheld
      unfold startQueryImpl
      dsimp only
      split
      · exact ⟨by simp [ProtocolState.onImpl], hnew⟩
      · exact ⟨by simp [ProtocolState.onImpl, ProtocolState.act], hnew⟩
  signature message s hs _ := by
    have hshuffle : HoldsOwn env (s.onImpl fun i => { i with protocolPhase := .shuffle }) :=
      hs.same rfl rfl
    change (handleSignatureResponse env _ message s).Ends _ _
    unfold handleSignatureResponse
    split
    · exact hs
    · refine ProtocolState.encryptedMulticastToProxies_ends hshuffle fun onions _ => ?_
      exact (holdsOwn_maintains env).endOverlayRound fuel (hshuffle.same rfl rfl)
  aggregation message s hs _ :=
    (ProtocolState.SameOverlay.receiveAggregation message s).mono (fun _ h => hs.sameOverlay h)
      fun _ h => hs.sameOverlay h

/-- Every value that the end of this round sends to its other proxies, signed or accepted,
fills its buffer. -/
def fillsBuffers (env : ProtocolEnv) (s : State) : Bool :=
  let rounds := 2 * env.failuresTolerated + env.log2n * env.log2n + 1
  decide (s.impl.protocolPhase = .shuffle → s.overlayRound ≥ rounds →
    ∀ v ∈ s.proxyValues, FillsExactly env.meterId v.value.proxies) &&
  decide (s.impl.protocolPhase = .agreement → ∀ a ∈ s.impl.agreementPhaseState,
    s.overlayRound ≥ s.impl.agreementStartRound + rounds → a.phase1Finished = false →
      ∀ agreed ∈ a.acceptedValues env.π env.crypto,
        FillsExactly a.nodeId agreed.signedValue.value.value.proxies)

theorem HoldsOwn.fillsBuffers {s : State} (hs : HoldsOwn env s) : fillsBuffers env s = true := by
  refine Bool.and_eq_true_iff.mpr ⟨decide_eq_true fun _ _ v hv => ?_,
    decide_eq_true fun _ a ha _ hfinished agreed hagreed => ?_⟩
  · exact (hs.values v hv).fillsExactly
  · obtain ⟨-, hkeyed, haccepts⟩ := hs.agreement a ha
    exact haccepts.fillsExactly hkeyed hfinished hagreed

theorem run_fillsBuffers (env : ProtocolEnv) (fuel : ℕ) (error : Fault)
    (es : List ProtocolState.Event) :
    ProtocolState.run env ((protocol.guarded admitsStranger).checked fillsBuffers error) fuel es =
      ProtocolState.run env (protocol.guarded admitsStranger) fuel es := by
  have hmaintains := holdsOwn_maintainsAll env fuel
  have hcheck (s : State) (hs : HoldsOwn env s) : fillsBuffers env s = true := hs.fillsBuffers
  have hinit : HoldsOwn env (.init init) := ⟨by simp [ProtocolState.init], by simp [init,
    ProtocolState.init]⟩
  refine hmaintains.run_checked (fun s hs e he => ?_) (along_of_forall es fun _ _ => trivial) hinit
  refine hmaintains.handle_checked hcheck (fun request data t _ _ => rfl) (fun message t ht _ => ?_)
    hs he
  change handleSignatureResponse env _ message t = handleSignatureResponse env _ message t
  unfold handleSignatureResponse
  split
  · rfl
  · refine ProtocolState.encryptedMulticastToProxies_congr (I := HoldsOwn env) (fun u hu => ?_)
      fun onions => ht.same rfl rfl
    exact hmaintains.endOverlayRound_checked hcheck error fuel hu

end BftProtocolState

namespace ProtocolState

/-- Neither the check of the crash-tolerant protocol nor that of the Byzantine-tolerant one
fails in a run that accepts no stranger's value, whatever error it would raise. -/
theorem buffers_filled_exactly (env : ProtocolEnv) (fuel : ℕ) (error : Fault) (es : List Event) :
    (run env (CtProtocolState.protocol.guarded CtProtocolState.admitsStranger) fuel es =
        run env CtProtocolState.protocol fuel es →
      run env ((CtProtocolState.protocol.guarded CtProtocolState.admitsStranger).checked
          CtProtocolState.fillsBuffers error) fuel es =
        run env CtProtocolState.protocol fuel es) ∧
    (run env (BftProtocolState.protocol.guarded BftProtocolState.admitsStranger) fuel es =
        run env BftProtocolState.protocol fuel es →
      run env ((BftProtocolState.protocol.guarded BftProtocolState.admitsStranger).checked
          BftProtocolState.fillsBuffers error) fuel es =
        run env BftProtocolState.protocol fuel es) :=
  ⟨fun hguard => (CtProtocolState.run_fillsBuffers env fuel error es).trans hguard,
    fun hguard => (BftProtocolState.run_fillsBuffers env fuel error es).trans hguard⟩

/-- Meter 0 of 11 gets a value of query 0 for some proxies in round 0, and Shuffle ends. -/
def valueRun (proxies : List ℤ) : List Event :=
  [.startQuery ⟨.currUsageSum, 1, 0⟩ [5], .signatureResponse ⟨-1, ""⟩,
    .overlay ⟨10, 0, false, .make 0 0 (.valueContribution (.ofTuple ⟨0, [7], proxies⟩)) false⟩] ++
  (List.range 21).map fun i : ℕ => .timerExpires i

def valueEnv : ProtocolEnv := (MeterClient.sampleEnv 0 11 MeterClient.eleven_meters 1 2 fun _ => true).toProtocolEnv

theorem sample_buffers_filled_exactly :
    run valueEnv ((CtProtocolState.protocol.guarded CtProtocolState.admitsStranger).checked
        CtProtocolState.fillsBuffers .exception) 100 (valueRun [0, 8]) =
      run valueEnv CtProtocolState.protocol 100 (valueRun [0, 8]) ∧
    run valueEnv ((BftProtocolState.protocol.guarded BftProtocolState.admitsStranger).checked
        BftProtocolState.fillsBuffers .exception) 100 (valueRun [0, 8]) =
      run valueEnv BftProtocolState.protocol 100 (valueRun [0, 8]) :=
  ⟨(buffers_filled_exactly valueEnv 100 .exception (valueRun [0, 8])).1 (by decide +kernel),
    (buffers_filled_exactly valueEnv 100 .exception (valueRun [0, 8])).2 (by decide +kernel)⟩

/-- A value whose proxies are the meters 3 and 8 is accepted, and overruns the buffer. -/
theorem stranger_overruns_buffer :
    ¬ ∀ error, run valueEnv (BftProtocolState.protocol.checked BftProtocolState.fillsBuffers error)
        100 (valueRun [3, 8]) = run valueEnv BftProtocolState.protocol 100 (valueRun [3, 8]) := by
  intro h
  have hexception := h .exception
  revert hexception
  decide +kernel

end ProtocolState
end Pddm
