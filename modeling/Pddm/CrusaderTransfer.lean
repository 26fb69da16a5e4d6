import Pddm.CrusaderSignatures

/-!
# Transfer of acceptance

A value accepted by one proxy at the end of phase 1 and relayed to another. The
relaying proxy counts the signatures it holds; the receiving one checks them again.
-/
namespace Pddm.CrusaderAgreementState

def EmitsAgreement (π : IterationOrder) (crypto : CryptoLibrary) (round : ℤ)
    (s : CrusaderAgreementState) (agreed : AgreementValue) : Prop :=
  (∃ messages s', s.finishPhase1 π crypto round = .ok (messages, s')) ∧
    agreed ∈ s.acceptedValues π crypto

/-- Of the signatures held for a value, enough verify: `log2n` without the node's
own, and `log2n + 1` when its own, verified or not, is counted with them. -/
def Transferable (crypto : CryptoLibrary) (nodeId : ℤ) (log2n : ℕ) (signed : SignedValue) :
    Prop :=
  log2n ≤ signed.signatures.count
      (fun e => e.1 ≠ nodeId && crypto.rsaVerify signed.value e.2 e.1) ∧
    log2n + 1 ≤ signed.signatures.count
      (fun e => e.1 = nodeId || crypto.rsaVerify signed.value e.2 e.1)

variable {crypto : CryptoLibrary} {s : CrusaderAgreementState}

theorem log2n_step (crypto : CryptoLibrary) (s : CrusaderAgreementState) (e : Event) :
    (s.step crypto e).log2n = s.log2n ∧ (s.step crypto e).nodeId = s.nodeId := by
  cases e with
  | finishPhase1 => exact ⟨rfl, rfl⟩
  | handle message =>
    simp only [step, handleMessage]
    split
    · unfold handlePhase1Message
      split
      · exact ⟨rfl, rfl⟩
      · split_ifs
        · split <;> exact ⟨rfl, rfl⟩
        · exact ⟨rfl, rfl⟩
    · unfold handlePhase2Message
      split_ifs
      · dsimp only
        split <;> exact ⟨rfl, rfl⟩
      · exact ⟨rfl, rfl⟩
      · exact ⟨rfl, rfl⟩
    · exact ⟨rfl, rfl⟩

theorem log2n_run (crypto : CryptoLibrary) (s : CrusaderAgreementState) (es : List Event) :
    (run crypto s es).log2n = s.log2n ∧ (run crypto s es).nodeId = s.nodeId := by
  have h : Throughout (step crypto) (fun t => t.log2n = s.log2n ∧ t.nodeId = s.nodeId) s es :=
    throughout_of_step ⟨rfl, rfl⟩ fun t e ht =>
      ⟨(log2n_step crypto t e).1.trans ht.1, (log2n_step crypto t e).2.trans ht.2⟩
  exact h.last

def HoldsSigners (value : ValueContribution) (ids : List ℤ) (s : CrusaderAgreementState) : Prop :=
  ∃ signed, s.held value = some signed ∧ ids ⊆ signed.signatures.keys

theorem holdsSigners_store {value v : ValueContribution} {signed : SignedValue} {ids : List ℤ}
    (hs : s.HoldsSigners v ids) (h : v = value → ids ⊆ signed.signatures.keys) :
    (s.store value signed).HoldsSigners v ids := by
  obtain ⟨held, hheld, hids⟩ := hs
  by_cases hv : v = value
  · exact ⟨signed, by simp [held_store, hv], h hv⟩
  · exact ⟨held, by simp [held_store, hv, hheld], hids⟩

theorem keys_subset_insertNew {m : OrderedMap ℤ SignatureArray} {id : ℤ}
    {signature : SignatureArray} : m.keys ⊆ (m.insertNew id signature).keys := by
  intro k hk
  obtain ⟨v, hv⟩ := OrderedMap.mem_keys.mp hk
  exact OrderedMap.mem_keys.mpr ⟨v, OrderedMap.mem_insertNew.mpr (Or.inl hv)⟩

theorem keys_subset_insertAll {m : OrderedMap ℤ SignatureArray}
    {es : List (ℤ × SignatureArray)} : m.keys ⊆ (m.insertAll es).keys := by
  intro k hk
  obtain ⟨v, hv⟩ := OrderedMap.mem_keys.mp hk
  exact OrderedMap.mem_keys.mpr ⟨v, OrderedMap.mem_insertAll_of_mem hv⟩

theorem holdsSigners_step {v : ValueContribution} {ids : List ℤ} (hs : s.HoldsSigners v ids)
    (e : Event) : (s.step crypto e).HoldsSigners v ids := by
  have hmem : ∀ value h, s.held value = some h → v = value → ids ⊆ h.signatures.keys := by
    rintro value h hheld rfl
    obtain ⟨held, hheld', hids⟩ := hs
    rw [hheld'] at hheld
    cases hheld
    exact hids
  cases e with
  | finishPhase1 => exact hs
  | handle message =>
    simp only [step, handleMessage]
    split
    · rename_i signed _
      unfold handlePhase1Message
      split
      · exact hs
      · split_ifs
        · cases hheld : s.held signed.value with
          | none =>
            refine holdsSigners_store hs fun hv => ?_
            obtain ⟨held, hheld', -⟩ := hs
            rw [hv, hheld] at hheld'
            cases hheld'
          | some h =>
            exact holdsSigners_store hs fun hv =>
              List.Subset.trans (hmem _ h hheld hv) keys_subset_insertNew
        · exact hs
    · rename_i agreed _
      unfold handlePhase2Message
      split_ifs
      · dsimp only
        cases hheld : s.held agreed.signedValue.value with
        | none =>
          refine holdsSigners_store hs fun hv => ?_
          obtain ⟨held, hheld', -⟩ := hs
          rw [hv, hheld] at hheld'
          cases hheld'
        | some h =>
          exact holdsSigners_store hs fun hv =>
            List.Subset.trans (hmem _ h hheld hv) keys_subset_insertAll
      · exact hs
      · exact hs
    · exact hs

theorem holdsSigners_run {v : ValueContribution} {ids : List ℤ} (hs : s.HoldsSigners v ids)
    (es : List Event) : (run crypto s es).HoldsSigners v ids :=
  (throughout_of_step hs fun _ e h => holdsSigners_step h e).last

theorem holdsSigners_phase2 {agreed : AgreementValue}
    (hsigned : crypto.rsaVerifySignedValue agreed.signedValue agreed.accepterSignature
      agreed.accepterId = true)
    (hcount : s.log2n ≤ countValid crypto agreed) :
    (s.handlePhase2Message crypto agreed).HoldsSigners agreed.signedValue.value
      (validSignatures crypto agreed).keys := by
  unfold handlePhase2Message
  rw [if_pos hsigned, if_pos hcount]
  dsimp only
  have hstored : ∀ signed, (s.store agreed.signedValue.value signed).held
      agreed.signedValue.value = some signed := fun signed => by simp [held_store]
  cases hheld : s.held agreed.signedValue.value with
  | none => exact ⟨_, hstored _, fun _ h => h⟩
  | some h => exact ⟨_, hstored _, fun _ hk => OrderedMap.key_mem_insertAll hk⟩

theorem validSignatures_size (crypto : CryptoLibrary) (agreed : AgreementValue) :
    (validSignatures crypto agreed).size = agreed.signedValue.signatures.count fun e =>
      e.1 = agreed.accepterId || crypto.rsaVerify agreed.signedValue.value e.2 e.1 := by
  rw [validSignatures, OrderedMap.size, OrderedMap.filter, OrderedMap.count,
    List.countP_eq_length_filter]

theorem held_keyed_run (nodeId numNodes queryNum : ℤ) (es : List Event) :
    (run crypto (init nodeId numNodes queryNum) es).Keyed :=
  (throughout_keyed (keyed_init nodeId numNodes queryNum) es).last

/-- A transferable value is accepted wherever the agreement value arrives in the run. -/
theorem accepted_of_transferable {agreed : AgreementValue} {nodeId numNodes queryNum : ℤ}
    (hsigned : crypto.rsaVerifySignedValue agreed.signedValue agreed.accepterSignature
      agreed.accepterId = true)
    (ht : Transferable crypto agreed.accepterId (ceilLog2 numNodes) agreed.signedValue)
    (pre post : List Event) {message : OverlayMessage} (hbody : message.body = .agreementValue agreed)
    (π : IterationOrder) :
    agreed.signedValue.value ∈ (run crypto (init nodeId numNodes queryNum)
      (pre ++ .handle message :: post)).finishPhase2 π := by
  set before := run crypto (init nodeId numNodes queryNum) pre with hbefore
  have hlog : before.log2n = ceilLog2 numNodes := (log2n_run crypto _ pre).1
  have hrun : run crypto (init nodeId numNodes queryNum) (pre ++ .handle message :: post) =
      run crypto (before.handlePhase2Message crypto agreed) post := by
    simp [run, hbefore, step, handleMessage, hbody]
  have hheld : (run crypto (before.handlePhase2Message crypto agreed) post).HoldsSigners
      agreed.signedValue.value (validSignatures crypto agreed).keys :=
    holdsSigners_run (holdsSigners_phase2 hsigned (hlog ▸ ht.1)) post
  rw [← hrun] at hheld
  obtain ⟨signed, hheld, hids⟩ := hheld
  refine mem_finishPhase2.mpr ⟨_, signed, hheld, held_keyed_run _ _ _ _ _ _ hheld, ?_⟩
  rw [(log2n_run crypto _ _).1]
  calc ceilLog2 numNodes + 1 ≤ (validSignatures crypto agreed).size := by
        rw [validSignatures_size]
        exact ht.2
    _ ≤ signed.signatures.size := OrderedMap.size_le_of_keys_subset hids

/-- A proxy with no history of its own accepts nothing less. -/
theorem transferable_of_accepted {agreed : AgreementValue} {nodeId numNodes queryNum : ℤ}
    {π : IterationOrder} (h : agreed.signedValue.value ∈ (run crypto (init nodeId numNodes queryNum)
      [.handle (.make queryNum nodeId (.agreementValue agreed) false)]).finishPhase2 π) :
    Transferable crypto agreed.accepterId (ceilLog2 numNodes) agreed.signedValue := by
  obtain ⟨value, signed, hheld, -, hsize⟩ := mem_finishPhase2.mp h
  simp only [run, List.foldl_cons, List.foldl_nil, step, handleMessage, OverlayMessage.make,
    handlePhase2Message, held_init] at hheld hsize
  split_ifs at hheld hsize with hv hcount
  · rw [held_store] at hheld
    split_ifs at hheld with hvalue
    · cases hheld
      refine ⟨hcount, ?_⟩
      rw [← validSignatures_size]
      exact hsize
    · simp at hheld
  · simp at hheld
  · simp at hheld

/-- When all the signatures held verify, there are enough to transfer. -/
theorem transferable_of_verified {agreed : AgreementValue} {π : IterationOrder}
    (hs : s.Verified crypto) (hk : s.Keyed) (h : agreed ∈ s.acceptedValues π crypto) :
    Transferable crypto s.nodeId s.log2n agreed.signedValue := by
  obtain ⟨⟨value, hheld⟩, hsize, -, -⟩ := mem_acceptedValues.mp h
  obtain rfl := hk _ _ hheld
  have hall := hs _ _ hheld
  have hne : agreed.signedValue.signatures.count (fun e => e.1 ≠ s.nodeId &&
      crypto.rsaVerify agreed.signedValue.value e.2 e.1) =
      agreed.signedValue.signatures.count (fun e => e.1 ≠ s.nodeId) :=
    List.countP_congr fun e he => by simp [hall e he]
  have hfull : agreed.signedValue.signatures.count (fun e => e.1 = s.nodeId ||
      crypto.rsaVerify agreed.signedValue.value e.2 e.1) = agreed.signedValue.signatures.size :=
    List.countP_eq_length.mpr fun e he => by simp [hall e he]
  have hone := agreed.signedValue.signatures.size_le_count_ne s.nodeId
  exact ⟨by omega, by omega⟩

/-- An agreement value that one proxy emits makes every other proxy accept its
value, whatever else that proxy handles, exactly when the signatures held by the
first are transferable; and so they are in every run that stored verified
signatures only. -/
theorem acceptance_transfers_iff {cryptoA cryptoB : CryptoLibrary}
    {nodeA numNodes queryNum round : ℤ} {esA : List Event} {π : IterationOrder}
    {agreed : AgreementValue} (hverify : cryptoA.rsaVerify = cryptoB.rsaVerify)
    (hsign : ∀ signed, cryptoB.rsaVerifySignedValue signed (cryptoA.rsaSignSignedValue signed)
      nodeA = true)
    (hemit : (run cryptoA (init nodeA numNodes queryNum) esA).EmitsAgreement π cryptoA round agreed) :
    ((∀ nodeB pre post message π', message.body = .agreementValue agreed →
        agreed.signedValue.value ∈ (run cryptoB (init nodeB numNodes queryNum)
          (pre ++ .handle message :: post)).finishPhase2 π') ↔
      Transferable cryptoA nodeA (ceilLog2 numNodes) agreed.signedValue) ∧
    (Along (step cryptoA) (VerifiedStep cryptoA) (init nodeA numNodes queryNum) esA →
      Transferable cryptoA nodeA (ceilLog2 numNodes) agreed.signedValue) := by
  obtain ⟨-, hmem⟩ := hemit
  obtain ⟨hlog, hnode⟩ := log2n_run cryptoA (init nodeA numNodes queryNum) esA
  obtain ⟨-, -, haccepter, hsignature⟩ := mem_acceptedValues.mp hmem
  rw [hnode] at haccepter
  have hsame : Transferable cryptoA = Transferable cryptoB := by
    funext nodeId log2n signed
    simp only [Transferable, hverify]
  refine ⟨⟨fun h => ?_, fun ht => ?_⟩, fun halong => ?_⟩
  · have hB := h nodeA [] [] (.make queryNum nodeA (.agreementValue agreed) false) .insertion rfl
    have ht := transferable_of_accepted hB
    rw [hsame]
    rwa [haccepter] at ht
  · intro nodeB pre post message π' hbody
    refine accepted_of_transferable ?_ ?_ pre post hbody π'
    · rw [haccepter, hsignature]
      exact hsign _
    · rw [haccepter]
      rwa [hsame] at ht
  · have hverified := (halong.throughout (verified_init nodeA numNodes queryNum)
      fun t e ht hp => (verified_step_iff ht e).mpr hp).last
    have ht := transferable_of_verified hverified (held_keyed_run _ _ _ _) hmem
    rwa [hlog, hnode] at ht

section Examples

/-- Stamps on signed values as well; every meter stamps with its own ID. -/
def stampCryptoOf (nodeId : ℤ) : CryptoLibrary :=
  { stampCrypto with
    rsaSignSignedValue := fun _ => SignatureArray.fill (UInt8.ofNat nodeId.toNat)
    rsaVerifySignedValue := fun _ signature id =>
      signature = SignatureArray.fill (UInt8.ofNat id.toNat) }

def stampedSignatures (ids : List ℤ) : OrderedMap ℤ SignatureArray :=
  ids.foldl (fun m id => m.insertNew id (SignatureArray.fill (UInt8.ofNat id.toNat)))
    OrderedMap.empty

/-- What meter 0 relays after it took the forged map in whole. -/
def forgedAgreement : AgreementValue := ⟨forgedSignedValue, 0, SignatureArray.fill 0⟩

def forgedAgreementMessage : OverlayMessage := .make 1 3 (.agreementValue forgedAgreement) false

theorem stampCryptoOf_sign (nodeA nodeB : ℤ) (signed : SignedValue) :
    (stampCryptoOf nodeB).rsaVerifySignedValue signed
      ((stampCryptoOf nodeA).rsaSignSignedValue signed) nodeA = true := by
  simp [stampCryptoOf]

theorem emitsAgreement_of_isOk {π : IterationOrder} {round : ℤ} {agreed : AgreementValue}
    (hok : (s.finishPhase1 π crypto round).isOk = true)
    (hmem : agreed ∈ s.acceptedValues π crypto) : s.EmitsAgreement π crypto round agreed := by
  refine ⟨?_, hmem⟩
  cases h : s.finishPhase1 π crypto round with
  | ok result => exact ⟨result.1, result.2, rfl⟩
  | error e =>
    rw [h] at hok
    cases hok

/-- Meter 0 accepts and relays the forged value, and meter 3 drops it. -/
theorem forged_acceptance_not_transferred :
    (run (stampCryptoOf 0) (init 0 5 1) [.handle forgedMessage]).EmitsAgreement .insertion
        (stampCryptoOf 0) 7 forgedAgreement ∧
      forgedContribution ∉ (run (stampCryptoOf 3) (init 3 5 1)
        [.handle forgedAgreementMessage]).finishPhase2 .insertion :=
  ⟨emitsAgreement_of_isOk (by decide +kernel) (by decide +kernel), by decide +kernel⟩

/-- The signed values that meters 1 to 4 send about the same contribution. -/
def honestEvents : List Event :=
  [1, 2, 3, 4].map fun id =>
    .handle (.make 1 0 (.signedValue ⟨forgedContribution, stampedSignatures [id]⟩) false)

def honestAgreement : AgreementValue :=
  ⟨⟨forgedContribution, stampedSignatures [1, 2, 3, 4]⟩, 0, SignatureArray.fill 0⟩

def honestAgreementMessage : OverlayMessage := .make 1 3 (.agreementValue honestAgreement) false

theorem honestAgreement_emitted : (run (stampCryptoOf 0) (init 0 5 1) honestEvents).EmitsAgreement
    .insertion (stampCryptoOf 0) 7 honestAgreement :=
  emitsAgreement_of_isOk (by decide +kernel) (by decide +kernel)

theorem honest_acceptance_transferred :
    honestAgreement.signedValue.value ∈ (run (stampCryptoOf 3) (init 3 5 1)
      ([] ++ .handle honestAgreementMessage :: [.finishPhase1])).finishPhase2 .insertion := by
  have hverify : (stampCryptoOf 0).rsaVerify = (stampCryptoOf 3).rsaVerify := rfl
  have h := @acceptance_transfers_iff (stampCryptoOf 0) (stampCryptoOf 3) 0 5 1 7 honestEvents
    .insertion honestAgreement hverify (stampCryptoOf_sign 0 3) honestAgreement_emitted
  have ht : Transferable (stampCryptoOf 0) 0 (ceilLog2 5) honestAgreement.signedValue :=
    ⟨by decide +kernel, by decide +kernel⟩
  have hbody : honestAgreementMessage.body = .agreementValue honestAgreement := by
    unfold honestAgreementMessage OverlayMessage.make
    dsimp only
  exact h.1.mpr ht 3 [] [.finishPhase1] honestAgreementMessage .insertion hbody

end Examples

end Pddm.CrusaderAgreementState
