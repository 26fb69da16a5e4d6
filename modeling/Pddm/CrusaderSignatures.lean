import Pddm.CrusaderAgreement

/-!
# Signatures stored during Crusader Agreement

Which messages keep every stored signature verified, and what that gives for the
values accepted at the end of phase 2.
-/
namespace Pddm.CrusaderAgreementState

def Verified (crypto : CryptoLibrary) (s : CrusaderAgreementState) : Prop :=
  ∀ value signed, s.held value = some signed →
    ∀ e ∈ signed.signatures, crypto.rsaVerify value e.2 e.1 = true

def Keyed (s : CrusaderAgreementState) : Prop :=
  ∀ value signed, s.held value = some signed → signed.value = value

/-- The distinct IDs whose stored signature on the value verifies. -/
def validSigners (crypto : CryptoLibrary) (signed : SignedValue) : Finset ℤ :=
  (signed.signatures.filter fun e => crypto.rsaVerify signed.value e.2 e.1).keys.toFinset

/-- Only verified signatures are stored, and every value accepted in phase 2 has
enough of them. -/
structure SignaturesSound (crypto : CryptoLibrary) (s : CrusaderAgreementState) : Prop where
  stored : s.Verified crypto
  accepted : ∀ π, ∀ v ∈ s.finishPhase2 π, ∃ signed, s.held v = some signed ∧
    s.log2n + 1 ≤ (validSigners crypto signed).card

/-- The messages that bring no unverified signature in. A signed value that is
taken in whole carries only signatures that verify; in an agreement value that is
taken in, the accepter's own entry verifies too, unless one of its is held already. -/
def VerifiedStep (crypto : CryptoLibrary) (s : CrusaderAgreementState) : Event → Prop
  | .finishPhase1 => True
  | .handle message =>
      match message.body with
      | .signedValue signed =>
          ∀ pair, signed.signatures.first = some pair →
            crypto.rsaVerify signed.value pair.2 pair.1 = true → s.held signed.value = none →
            ∀ e ∈ signed.signatures, crypto.rsaVerify signed.value e.2 e.1 = true
      | .agreementValue agreed =>
          crypto.rsaVerifySignedValue agreed.signedValue agreed.accepterSignature
              agreed.accepterId = true →
            s.log2n ≤ countValid crypto agreed →
            (∀ h, s.held agreed.signedValue.value = some h →
              agreed.accepterId ∉ h.signatures.keys) →
            ∀ signature, (agreed.accepterId, signature) ∈ agreed.signedValue.signatures →
              crypto.rsaVerify agreed.signedValue.value signature agreed.accepterId = true
      | _ => True

variable {crypto : CryptoLibrary} {s : CrusaderAgreementState}

theorem verified_init (nodeId numNodes queryNum : ℤ) :
    Verified crypto (init nodeId numNodes queryNum) := by
  intro value signed h
  simp at h

theorem keyed_init (nodeId numNodes queryNum : ℤ) : Keyed (init nodeId numNodes queryNum) := by
  intro value signed h
  simp at h

theorem verified_store_iff (hs : s.Verified crypto) (value : ValueContribution)
    (signed : SignedValue) : (s.store value signed).Verified crypto ↔
      ∀ e ∈ signed.signatures, crypto.rsaVerify value e.2 e.1 = true := by
  constructor
  · intro h
    exact h value signed (by simp [held_store])
  · intro h v signed' hheld
    rw [held_store] at hheld
    split_ifs at hheld with hv
    · cases hheld
      exact hv ▸ h
    · exact hs v signed' hheld

theorem keyed_store (hs : s.Keyed) {value : ValueContribution} {signed : SignedValue}
    (h : signed.value = value) : (s.store value signed).Keyed := by
  intro v signed' hheld
  rw [held_store] at hheld
  split_ifs at hheld with hv
  · cases hheld
    exact h.trans hv.symm
  · exact hs v signed' hheld

theorem keyed_phase1 (hs : s.Keyed) (signed : SignedValue) :
    (s.handlePhase1Message crypto signed).Keyed := by
  unfold handlePhase1Message
  cases signed.signatures.first with
  | none => exact hs
  | some pair =>
    dsimp only
    split_ifs
    · cases hheld : s.held signed.value with
      | none => exact keyed_store hs rfl
      | some h => exact keyed_store hs (hs signed.value h hheld)
    · exact hs

theorem keyed_phase2 (hs : s.Keyed) (agreed : AgreementValue) :
    (s.handlePhase2Message crypto agreed).Keyed := by
  unfold handlePhase2Message
  split_ifs
  · dsimp only
    cases hheld : s.held agreed.signedValue.value with
    | none => exact keyed_store hs rfl
    | some h => exact keyed_store hs (hs agreed.signedValue.value h hheld)
  · exact hs
  · exact hs

theorem keyed_step (hs : s.Keyed) (e : Event) : (s.step crypto e).Keyed := by
  cases e with
  | finishPhase1 => exact hs
  | handle message =>
    simp only [step, handleMessage]
    split
    · exact keyed_phase1 hs _
    · exact keyed_phase2 hs _
    · exact hs

theorem verified_insertNew (hs : s.Verified crypto) {value : ValueContribution} {h : SignedValue}
    (hheld : s.held value = some h) {id : ℤ} {signature : SignatureArray}
    (hv : crypto.rsaVerify value signature id = true) :
    ∀ e ∈ h.signatures.insertNew id signature, crypto.rsaVerify value e.2 e.1 = true := by
  intro e he
  rcases OrderedMap.mem_insertNew.mp he with he | ⟨rfl, -⟩
  · exact hs value h hheld e he
  · exact hv

theorem verified_phase1_iff (hs : s.Verified crypto) (signed : SignedValue) :
    (s.handlePhase1Message crypto signed).Verified crypto ↔
      ∀ pair, signed.signatures.first = some pair →
        crypto.rsaVerify signed.value pair.2 pair.1 = true → s.held signed.value = none →
        ∀ e ∈ signed.signatures, crypto.rsaVerify signed.value e.2 e.1 = true := by
  unfold handlePhase1Message
  cases hfirst : signed.signatures.first with
  | none => simp [hs]
  | some pair =>
    simp only [Option.some.injEq, forall_eq']
    split_ifs with hv
    · cases hheld : s.held signed.value with
      | none => simp [verified_store_iff hs, hv]
      | some h =>
        rw [verified_store_iff hs]
        exact iff_of_true (verified_insertNew hs hheld hv) (by simp)
    · simp [hs, hv]

theorem verified_validSignatures_iff (agreed : AgreementValue) :
    (∀ e ∈ validSignatures crypto agreed,
        crypto.rsaVerify agreed.signedValue.value e.2 e.1 = true) ↔
      ∀ signature, (agreed.accepterId, signature) ∈ agreed.signedValue.signatures →
        crypto.rsaVerify agreed.signedValue.value signature agreed.accepterId = true := by
  constructor
  · intro h signature hmem
    exact h _ (OrderedMap.mem_filter.mpr ⟨hmem, by simp⟩)
  · rintro h ⟨id, signature⟩ hmem
    obtain ⟨hmem, hp⟩ := OrderedMap.mem_filter.mp hmem
    simp only [Bool.or_eq_true, decide_eq_true_eq] at hp
    rcases hp with rfl | hv
    · exact h signature hmem
    · exact hv

theorem verified_insertAll_iff (hs : s.Verified crypto) {agreed : AgreementValue}
    {h : SignedValue} (hheld : s.held agreed.signedValue.value = some h) :
    (∀ e ∈ h.signatures.insertAll (validSignatures crypto agreed).entries,
        crypto.rsaVerify agreed.signedValue.value e.2 e.1 = true) ↔
      (agreed.accepterId ∉ h.signatures.keys →
        ∀ signature, (agreed.accepterId, signature) ∈ agreed.signedValue.signatures →
          crypto.rsaVerify agreed.signedValue.value signature agreed.accepterId = true) := by
  constructor
  · intro hall hnew signature hmem
    have hvalid : (agreed.accepterId, signature) ∈ validSignatures crypto agreed :=
      OrderedMap.mem_filter.mpr ⟨hmem, by simp⟩
    exact hall _ (OrderedMap.mem_insertAll_of_new hvalid hnew)
  · rintro hown ⟨id, signature⟩ hmem
    rcases OrderedMap.mem_of_mem_insertAll hmem with hmem | ⟨hmem, hnew⟩
    · exact hs _ _ hheld _ hmem
    · obtain ⟨hmem, hp⟩ := OrderedMap.mem_filter.mp hmem
      simp only [Bool.or_eq_true, decide_eq_true_eq] at hp
      rcases hp with rfl | hv
      · exact hown hnew signature hmem
      · exact hv

theorem verified_phase2_iff (hs : s.Verified crypto) (agreed : AgreementValue) :
    (s.handlePhase2Message crypto agreed).Verified crypto ↔
      (crypto.rsaVerifySignedValue agreed.signedValue agreed.accepterSignature
          agreed.accepterId = true →
        s.log2n ≤ countValid crypto agreed →
        (∀ h, s.held agreed.signedValue.value = some h →
          agreed.accepterId ∉ h.signatures.keys) →
        ∀ signature, (agreed.accepterId, signature) ∈ agreed.signedValue.signatures →
          crypto.rsaVerify agreed.signedValue.value signature agreed.accepterId = true) := by
  unfold handlePhase2Message
  split_ifs with hv hcount
  · dsimp only
    cases hheld : s.held agreed.signedValue.value with
    | none =>
      simp only [verified_store_iff hs, verified_validSignatures_iff, hv, hcount, reduceCtorEq,
        false_imp_iff, implies_true, true_imp_iff]
    | some h =>
      simp only [verified_store_iff hs, verified_insertAll_iff hs hheld, hv, hcount,
        Option.some.injEq, forall_eq', true_imp_iff]
  · simp [hs, hcount]
  · simp [hs, hv]

/-- One step keeps every stored signature verified exactly under `VerifiedStep`. -/
theorem verified_step_iff (hs : s.Verified crypto) (e : Event) :
    (s.step crypto e).Verified crypto ↔ s.VerifiedStep crypto e := by
  cases e with
  | finishPhase1 => exact iff_of_true hs trivial
  | handle message =>
    simp only [step, handleMessage, VerifiedStep]
    cases message.body with
    | signedValue signed => exact verified_phase1_iff hs signed
    | agreementValue agreed => exact verified_phase2_iff hs agreed
    | _ => exact iff_of_true hs trivial

/-- Verified entries are signatures of as many distinct meters. -/
theorem validSigners_card (hs : s.Verified crypto) (hk : s.Keyed) {value : ValueContribution}
    {signed : SignedValue} (hheld : s.held value = some signed) :
    (validSigners crypto signed).card = signed.signatures.size := by
  obtain rfl := hk value signed hheld
  rw [validSigners, List.toFinset_card_of_nodup (OrderedMap.keys_nodup _), OrderedMap.keys_length,
    OrderedMap.filter_eq_self (hs _ _ hheld)]

theorem signaturesSound_iff (hk : s.Keyed) :
    s.SignaturesSound crypto ↔ s.Verified crypto := by
  refine ⟨SignaturesSound.stored, fun hs => ⟨hs, ?_⟩⟩
  intro π v hv
  obtain ⟨value, signed, hheld, rfl, hsize⟩ := mem_finishPhase2.mp hv
  obtain rfl := hk value signed hheld
  exact ⟨signed, hheld, by rwa [validSigners_card hs hk hheld]⟩

theorem throughout_keyed (hs : s.Keyed) (es : List Event) :
    Throughout (step crypto) Keyed s es :=
  throughout_of_step hs fun _ e h => keyed_step h e

theorem throughout_signaturesSound_iff (hs : s.Keyed) (es : List Event) :
    Throughout (step crypto) (SignaturesSound crypto) s es ↔
      Throughout (step crypto) (Verified crypto) s es := by
  induction es generalizing s with
  | nil => exact signaturesSound_iff hs
  | cons e es ih => exact and_congr (signaturesSound_iff hs) (ih (keyed_step hs e))

/-- In a run from the initial state, every stored signature verifies and every
accepted value has its `log2n + 1` valid signers, at each moment, exactly when no
step brings an unverified signature in. -/
theorem signatures_sound_iff (crypto : CryptoLibrary) (nodeId numNodes queryNum : ℤ)
    (es : List Event) :
    Throughout (step crypto) (SignaturesSound crypto) (init nodeId numNodes queryNum) es ↔
      Along (step crypto) (VerifiedStep crypto) (init nodeId numNodes queryNum) es := by
  rw [throughout_signaturesSound_iff (keyed_init nodeId numNodes queryNum)]
  exact throughout_iff_along (verified_init nodeId numNodes queryNum) (fun _ hs => hs)
    (fun _ e hs => (verified_step_iff hs e).mpr) fun _ e hs => (verified_step_iff hs e).mp

section Forgery

/-- A meter's signature is the array filled with its ID. -/
def stampCrypto : CryptoLibrary :=
  { dummyCrypto with
    rsaVerify := fun _ signature id => signature = SignatureArray.fill (UInt8.ofNat id.toNat) }

def forgedContribution : ValueContribution := .ofTuple ⟨1, [7], [0, 3]⟩

/-- A genuine signature of meter 1, with arrays of zeros under three other IDs. -/
def forgedSignedValue : SignedValue where
  value := forgedContribution
  signatures := (((OrderedMap.empty.insertNew 1 (SignatureArray.fill 1)).insertNew 2
    (SignatureArray.fill 0)).insertNew 3 (SignatureArray.fill 0)).insertNew 4
    (SignatureArray.fill 0)

def forgedMessage : OverlayMessage := .make 1 0 (.signedValue forgedSignedValue) false

/-- At meter 0 of five, one message of a single faulty meter is enough. -/
theorem forged_signatures_stored :
    ¬ SignaturesSound stampCrypto (run stampCrypto (init 0 5 1) [.handle forgedMessage]) ∧
      (run stampCrypto (init 0 5 1) [.handle forgedMessage]).finishPhase2 .insertion =
        [forgedContribution] := by
  have hheld : (run stampCrypto (init 0 5 1) [.handle forgedMessage]).held forgedContribution =
      some forgedSignedValue := by decide +kernel
  refine ⟨fun h => ?_, by decide +kernel⟩
  have hbad := h.stored _ _ hheld (2, SignatureArray.fill 0) (by decide +kernel)
  exact absurd hbad (by decide +kernel)

end Forgery

end Pddm.CrusaderAgreementState
