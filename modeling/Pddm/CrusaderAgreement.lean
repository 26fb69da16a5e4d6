import Pddm.Outcome
import Pddm.Multicast

/-!
# Crusader Agreement

The two-phase agreement of a Byzantine-tolerant query at one meter. Signatures
on a value are collected in a map; a value with enough of them is accepted at the
end of either phase.
-/
namespace Pddm

structure CrusaderAgreementState where
  nodeId : ℤ
  numNodes : ℤ
  log2n : ℕ
  queryNum : ℤ
  phase1Finished : Bool
  /-- Keyed by the contribution itself; the signed value repeats it. -/
  signedProxyValues : AList (fun _ : ValueContribution => SignedValue)

/-- The maps are compared by their entries, which the kernel can evaluate. -/
instance : DecidableEq CrusaderAgreementState := fun s t =>
  decidable_of_iff (s.signedProxyValues.entries = t.signedProxyValues.entries ∧
    (s.nodeId, s.numNodes, s.log2n, s.queryNum, s.phase1Finished) =
      (t.nodeId, t.numNodes, t.log2n, t.queryNum, t.phase1Finished)) <| by
    cases s
    cases t
    simp [AList.ext_iff, and_assoc, and_comm, and_left_comm]

namespace CrusaderAgreementState

def init (nodeId numNodes queryNum : ℤ) : CrusaderAgreementState :=
  ⟨nodeId, numNodes, ceilLog2 numNodes, queryNum, false, ∅⟩

def held (s : CrusaderAgreementState) (value : ValueContribution) : Option SignedValue :=
  s.signedProxyValues.lookup value

def store (s : CrusaderAgreementState) (value : ValueContribution) (signed : SignedValue) :
    CrusaderAgreementState :=
  { s with signedProxyValues := s.signedProxyValues.insert value signed }

def heldValues (π : IterationOrder) (s : CrusaderAgreementState) : List SignedValue :=
  (π.order s.signedProxyValues.entries).map Sigma.snd

def acceptedValues (π : IterationOrder) (crypto : CryptoLibrary) (s : CrusaderAgreementState) :
    List AgreementValue :=
  ((s.heldValues π).filter fun signed => s.log2n + 1 ≤ signed.signatures.size).map fun signed =>
    ⟨signed, s.nodeId, crypto.rsaSignSignedValue signed⟩

/-- Completes phase 1: multicasts every accepted value to its other proxies. -/
def finishPhase1 (π : IterationOrder) (crypto : CryptoLibrary) (currentRound : ℤ)
    (s : CrusaderAgreementState) : Except Fault (List OverlayMessage × CrusaderAgreementState) := do
  let acceptMessages ← (s.acceptedValues π crypto).mapM fun accepted =>
    multicastToOtherProxies π crypto s.nodeId s.numNodes (currentRound + 1) s.queryNum
      accepted.signedValue.value.value.proxies (.agreementValue accepted)
  .ok (acceptMessages.flatten, { s with phase1Finished := true })

/-- Completes phase 2: the contributions that have enough distinct signatures. -/
def finishPhase2 (π : IterationOrder) (s : CrusaderAgreementState) : List ValueContribution :=
  (((s.heldValues π).filter fun signed => s.log2n + 1 ≤ signed.signatures.size).map
    SignedValue.value).dedup

/-- The first entry of the signature map is verified; on the first message for a
value the whole message is kept, later on that entry alone. -/
def handlePhase1Message (crypto : CryptoLibrary) (signed : SignedValue)
    (s : CrusaderAgreementState) : CrusaderAgreementState :=
  match signed.signatures.first with
  | none => s
  | some pair =>
      if crypto.rsaVerify signed.value pair.2 pair.1 then
        match s.held signed.value with
        | none => s.store signed.value signed
        | some h =>
            s.store signed.value { h with signatures := h.signatures.insertNew pair.1 pair.2 }
      else s

/-- The entries that stay in the message: the accepter's own, which is not looked
at, and those that verify. -/
def validSignatures (crypto : CryptoLibrary) (agreed : AgreementValue) :
    OrderedMap ℤ SignatureArray :=
  agreed.signedValue.signatures.filter fun e =>
    e.1 = agreed.accepterId || crypto.rsaVerify agreed.signedValue.value e.2 e.1

/-- How many entries other than the accepter's own verify. -/
def countValid (crypto : CryptoLibrary) (agreed : AgreementValue) : ℕ :=
  agreed.signedValue.signatures.count fun e =>
    e.1 ≠ agreed.accepterId && crypto.rsaVerify agreed.signedValue.value e.2 e.1

def handlePhase2Message (crypto : CryptoLibrary) (agreed : AgreementValue)
    (s : CrusaderAgreementState) : CrusaderAgreementState :=
  if crypto.rsaVerifySignedValue agreed.signedValue agreed.accepterSignature agreed.accepterId then
    if s.log2n ≤ countValid crypto agreed then
      let value := agreed.signedValue.value
      let valid := validSignatures crypto agreed
      match s.held value with
      | none => s.store value ⟨value, valid⟩
      | some h => s.store value { h with signatures := h.signatures.insertAll valid.entries }
    else s
  else s

/-- The type of the body decides which phase's logic applies. -/
def handleMessage (crypto : CryptoLibrary) (message : OverlayMessage)
    (s : CrusaderAgreementState) : CrusaderAgreementState :=
  match message.body with
  | .signedValue signed => s.handlePhase1Message crypto signed
  | .agreementValue agreed => s.handlePhase2Message crypto agreed
  | _ => s

inductive Event
  | handle (message : OverlayMessage)
  | finishPhase1

/-- The effect of an event on the state; a `finishPhase1` that does not return
leaves nothing to continue with, and one that does changes the flag only. -/
def step (crypto : CryptoLibrary) (s : CrusaderAgreementState) : Event → CrusaderAgreementState
  | .handle message => s.handleMessage crypto message
  | .finishPhase1 => { s with phase1Finished := true }

abbrev run (crypto : CryptoLibrary) (s : CrusaderAgreementState) (es : List Event) :
    CrusaderAgreementState :=
  es.foldl (step crypto) s

theorem finishPhase1_eq_ok {π : IterationOrder} {crypto : CryptoLibrary} {round : ℤ}
    {s s' : CrusaderAgreementState} {messages : List OverlayMessage}
    (h : s.finishPhase1 π crypto round = .ok (messages, s')) :
    ∃ batches, ((s.acceptedValues π crypto).mapM fun accepted =>
        multicastToOtherProxies π crypto s.nodeId s.numNodes (round + 1) s.queryNum
          accepted.signedValue.value.value.proxies (.agreementValue accepted)) = .ok batches ∧
      messages = batches.flatten ∧ s' = { s with phase1Finished := true } := by
  obtain ⟨batches, hbatches, h⟩ := exists_of_bind_eq_ok h
  obtain ⟨rfl, rfl⟩ := Prod.mk.inj (Except.ok.inj h)
  exact ⟨batches, hbatches, rfl, rfl⟩

theorem finishPhase1_state {π : IterationOrder} {crypto : CryptoLibrary} {round : ℤ}
    {s s' : CrusaderAgreementState} {messages : List OverlayMessage}
    (h : s.finishPhase1 π crypto round = .ok (messages, s')) :
    s' = s.step crypto .finishPhase1 := by
  obtain ⟨_, -, -, rfl⟩ := finishPhase1_eq_ok h
  rfl

@[simp] theorem step_finishPhase1_held (crypto : CryptoLibrary) (s : CrusaderAgreementState)
    (value : ValueContribution) : (s.step crypto .finishPhase1).held value = s.held value := rfl

theorem held_store (s : CrusaderAgreementState) (value v : ValueContribution)
    (signed : SignedValue) :
    (s.store value signed).held v = if v = value then some signed else s.held v := by
  by_cases h : v = value
  · subst h
    simp [held, store]
  · simp [held, store, h]

@[simp] theorem store_log2n (s : CrusaderAgreementState) (value : ValueContribution)
    (signed : SignedValue) : (s.store value signed).log2n = s.log2n := rfl

@[simp] theorem held_init (nodeId numNodes queryNum : ℤ) (value : ValueContribution) :
    (init nodeId numNodes queryNum).held value = none :=
  AList.lookup_empty value

theorem mem_heldValues {π : IterationOrder} {s : CrusaderAgreementState} {signed : SignedValue} :
    signed ∈ s.heldValues π ↔ ∃ value, s.held value = some signed := by
  simp only [heldValues, List.mem_map, π.mem_order, held]
  constructor
  · rintro ⟨e, he, rfl⟩
    exact ⟨e.1, AList.mem_lookup_iff.mpr he⟩
  · rintro ⟨value, h⟩
    exact ⟨⟨value, signed⟩, AList.mem_lookup_iff.mp h, rfl⟩

theorem mem_acceptedValues {π : IterationOrder} {crypto : CryptoLibrary}
    {s : CrusaderAgreementState} {agreed : AgreementValue} :
    agreed ∈ s.acceptedValues π crypto ↔
      (∃ value, s.held value = some agreed.signedValue) ∧
      s.log2n + 1 ≤ agreed.signedValue.signatures.size ∧ agreed.accepterId = s.nodeId ∧
      agreed.accepterSignature = crypto.rsaSignSignedValue agreed.signedValue := by
  obtain ⟨signed, accepter, signature⟩ := agreed
  simp only [acceptedValues, List.mem_map, List.mem_filter, mem_heldValues, decide_eq_true_eq,
    AgreementValue.mk.injEq]
  constructor
  · rintro ⟨signed', ⟨hheld, hsize⟩, rfl, rfl, rfl⟩
    exact ⟨hheld, hsize, rfl, rfl⟩
  · rintro ⟨hheld, hsize, rfl, rfl⟩
    exact ⟨signed, ⟨hheld, hsize⟩, rfl, rfl, rfl⟩

theorem mem_finishPhase2 {π : IterationOrder} {s : CrusaderAgreementState}
    {v : ValueContribution} : v ∈ s.finishPhase2 π ↔
      ∃ value signed, s.held value = some signed ∧ signed.value = v ∧
        s.log2n + 1 ≤ signed.signatures.size := by
  simp only [finishPhase2, List.mem_dedup, List.mem_map, List.mem_filter, mem_heldValues,
    decide_eq_true_eq]
  constructor
  · rintro ⟨signed, ⟨⟨value, hheld⟩, hsize⟩, hv⟩
    exact ⟨value, signed, hheld, hv, hsize⟩
  · rintro ⟨value, signed, hheld, hv, hsize⟩
    exact ⟨signed, ⟨⟨value, hheld⟩, hsize⟩, hv⟩

end CrusaderAgreementState
end Pddm
