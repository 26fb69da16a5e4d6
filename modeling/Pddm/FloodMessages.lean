import Pddm.RoundRules

/-!
# Flood messages

A meter keeps the messages that it floods, and those that it relays, in sets. A received
copy has a body of its own, by whose address its hash differs from that of an equal message.
-/
namespace Pddm

/-- Messages that are not encrypted yet and differ still do so afterwards. -/
def CryptoLibrary.KeepsApart (crypto : CryptoLibrary) : Prop :=
  ∀ m m' id id', m.isEncrypted = false → m'.isEncrypted = false →
    (crypto.rsaEncrypt m id).equal (crypto.rsaEncrypt m' id') = true → m.equal m' = true

theorem dummyCrypto_keepsApart : dummyCrypto.KeepsApart := by
  intro m m' _ _ hm hm' hequal
  obtain ⟨hquery, hdestination, -, hflood, hbody⟩ := OverlayMessage.equal_iff.mp hequal
  exact OverlayMessage.equal_iff.mpr ⟨hquery, hdestination, hm.trans hm'.symm, hflood, hbody⟩

theorem OverlayMessage.equal_of_toBody {m m' : OverlayMessage}
    (h : m.toBody.withoutPaths = m'.toBody.withoutPaths) : m.equal m' = true := by
  obtain ⟨q, d, enc, fl, path, body⟩ := m
  obtain ⟨q', d', enc', fl', path', body'⟩ := m'
  rw [OverlayMessage.equal_iff]
  cases path <;> cases path' <;> simpa [toBody, MessageBody.withoutPaths] using h

namespace HftProtocolState

def Distinct (messages : List OverlayMessage) : Prop :=
  messages.Pairwise fun a b => a.equal b = false

def DistinctMessages (i : HftProtocolState) : Prop :=
  Distinct i.currentFloodMessages ∧ Distinct i.relayMessages

/-- A message with a body is about to be put where an equal one is held. -/
def emplacesAgain (env : ProtocolEnv) (message : OverlayMessage) (s : State) : Bool :=
  message.body ≠ .null &&
    if message.destination = env.meterId then
      s.impl.protocolPhase = .scatter &&
        match message.body.asOverlayMessage with
        | some wrapped => wrapped.body ≠ .null && s.impl.relayMessages.any (·.equal wrapped)
        | none => false
    else s.impl.currentFloodMessages.any (·.equal message)

theorem Distinct.concat {messages : List OverlayMessage} {message : OverlayMessage}
    (h : Distinct messages) (hnew : messages.any (·.equal message) = false) :
    Distinct (messages ++ [message]) := by
  refine List.pairwise_append.mpr ⟨h, List.pairwise_singleton _ _, fun a ha b hb => ?_⟩
  rw [List.mem_singleton.mp hb]
  simpa using List.any_eq_false.mp hnew a ha

/-- Messages without a body are found where they are held already. -/
theorem Distinct.emplace {messages : List OverlayMessage} {message : OverlayMessage}
    (h : Distinct messages)
    (hnew : message.body ≠ .null → messages.any (·.equal message) = false) :
    Distinct (emplaceMessage messages message) := by
  unfold emplaceMessage
  split_ifs with hheld
  · exact h
  · refine h.concat ?_
    by_cases hnull : message.body = .null
    · simpa [hnull] using hheld
    · exact hnew hnull

theorem foldl_emplaceMessage {stored messages : List OverlayMessage}
    (h : Distinct (stored ++ messages)) :
    messages.foldl emplaceMessage stored = stored ++ messages := by
  induction messages generalizing stored with
  | nil => simp
  | cons message messages ih =>
    have hnew : stored.any (·.equal message) = false := by
      refine List.any_eq_false.mpr fun a ha => ?_
      simp [(List.pairwise_append.mp h).2.2 a ha message (by simp)]
    have hadded : emplaceMessage stored message = stored ++ [message] := by
      unfold emplaceMessage
      rw [hnew]
      simp
    rw [List.foldl_cons, hadded, ih (by simpa using h), List.append_assoc, List.singleton_append]

/-- The onions for different proxies differ in the inner layer. -/
theorem distinct_scatterMessages {env : ProtocolEnv} (hcrypto : env.crypto.KeepsApart)
    (queryNum : ℤ) (contribution : ValueContribution) (relays : OrderedMap ℤ ℤ) :
    Distinct (relays.entries.map (scatterMessage env queryNum contribution)) := by
  refine List.pairwise_map.mpr (relays.sorted.imp fun {e e'} hlt => ?_)
  rw [Bool.eq_false_iff]
  intro hequal
  have houter := OverlayMessage.equal_iff.mp (hcrypto _ _ _ _ rfl rfl hequal)
  have hinner := hcrypto _ _ _ _ rfl rfl (OverlayMessage.equal_of_toBody houter.2.2.2.2)
  exact absurd (OverlayMessage.equal_iff.mp hinner).2.1 hlt.ne

section Rounds
variable {env : ProtocolEnv}

theorem handleBody_distinct {message : OverlayMessage} {s : State} (hs : DistinctMessages s.impl)
    (hnew : emplacesAgain env message s = false) :
    (handleBody env message s).Holds fun t => DistinctMessages t.impl := by
  unfold handleBody
  split_ifs with hnull hdestination
  · exact hs
  · split
    · next hphase =>
      unfold handleScatterPhaseMessage
      split
      · next wrapped hwrapped =>
        refine ⟨hs.1, hs.2.emplace fun hbody => ?_⟩
        simpa [emplacesAgain, hnull, hdestination, hphase, hwrapped, hbody] using hnew
      · exact hs
    · have hsame (t : State) (ht : t.impl = s.impl) : DistinctMessages t.impl := ht ▸ hs
      unfold handleGatherPhaseMessage
      split
      · exact hs
      · split
        · exact hs
        · split_ifs
          · exact hsame _ (ProtocolState.SameCore.emplaceProxyValue s _).impl
          · exact hs
    · exact hs
  · refine ⟨hs.1.emplace fun _ => ?_, hs.2⟩
    simpa [emplacesAgain, hnull, hdestination] using hnew

theorem endOverlayRoundImpl_distinct {s : State} (hs : DistinctMessages s.impl) :
    (endOverlayRoundImpl env s).Holds fun t => DistinctMessages t.impl := by
  have heffect (t : State) (ht : PhaseEffect s t) : DistinctMessages t.impl := by
    cases ht with
    | kept => exact hs
    | gathered => exact ⟨hs.2, List.Pairwise.nil⟩
    | entered _ h =>
      exact h.impl DistinctMessages (fun _ hi => hi) (fun _ hi => ⟨List.Pairwise.nil, hi.2⟩)
        ⟨List.Pairwise.nil, hs.2⟩
  unfold endOverlayRoundImpl
  refine ((endPhase_effect s).mono heffect heffect).andThen fun t ht => ?_
  unfold flood
  split_ifs
  · exact ⟨ht.1.filter _, ht.2⟩
  · exact ht

theorem startQueryImpl_distinct (hcrypto : env.crypto.KeepsApart)
    {endRound : State → Outcome Fault State}
    (hrec : ∀ t : State, DistinctMessages t.impl →
      (endRound t).Holds fun u => DistinctMessages u.impl)
    (request : QueryRequest) {s : State} (hs : DistinctMessages s.impl) :
    (startQueryImpl env endRound request s).Holds fun t => DistinctMessages t.impl := by
  have hdistinct := distinct_scatterMessages hcrypto
  unfold startQueryImpl
  split
  · exact hs
  · refine hrec _ ⟨?_, List.Pairwise.nil⟩
    change Distinct (List.foldl emplaceMessage [] _)
    rw [foldl_emplaceMessage (by simpa using hdistinct _ _ _)]
    exact hdistinct _ _ _

/-- No round and no message brings equal messages together, unless one is put where an equal
one is held. -/
theorem distinct_keepsAll (hcrypto : env.crypto.KeepsApart) :
    ProtocolState.KeepsAll env (protocol.guarded emplacesAgain)
      (fun s => DistinctMessages s.impl) fun s => DistinctMessages s.impl := by
  have hkeeps : ProtocolState.Keeps env (protocol.guarded emplacesAgain)
      (fun s => DistinctMessages s.impl) fun s => DistinctMessages s.impl := by
    refine ⟨fun _ hs => hs, fun _ _ hs h => h.impl ▸ hs, fun _ hs _ => hs,
      fun _ hs => endOverlayRoundImpl_distinct hs, fun endRound message s hrec hs => ?_⟩
    change (if emplacesAgain env message.body s then Outcome.halted Fault.assertion s
      else handleOverlayMessageImpl env endRound message s).Ends _ _
    split_ifs with hagain
    · exact hs
    · unfold handleOverlayMessageImpl
      refine (handleBody_distinct hs (by simpa using hagain)).andThen fun t ht => ?_
      split_ifs
      · exact hrec _ ht
      · exact ht
  refine ⟨hkeeps, ⟨List.Pairwise.nil, List.Pairwise.nil⟩, fun fuel request data s hs => ?_,
    fun _ _ _ _ hs => hs, fun message s hs => ?_⟩
  · unfold ProtocolState.startQuery
    dsimp only
    split
    · exact hs
    · rw [show (protocol.guarded emplacesAgain).startQueryImpl = startQueryImpl from rfl]
      exact startQueryImpl_distinct hcrypto (fun _ ht => hkeeps.endOverlayRound fuel ht) request hs
  · have heffect (t : State) (ht : ProtocolState.SameOverlay aggregatePhase s t) :
        DistinctMessages t.impl :=
      ht.impl DistinctMessages (fun _ hi => hi) (fun _ hi => ⟨List.Pairwise.nil, hi.2⟩) hs
    exact (ProtocolState.SameOverlay.receiveAggregation message s).mono heffect heffect

end Rounds
end HftProtocolState

namespace MeterClient
open HftProtocolState (DistinctMessages emplacesAgain)

/-- A client holds no two equal messages, under each of its IDs, after every run in which no
message with a body is put where an equal one is held. -/
theorem flood_messages_distinct {env : ClientEnv} (hcrypto : env.crypto.KeepsApart) {fuel : ℕ}
    {es : List Event} (hguard : run env (HftProtocolState.protocol.guarded emplacesAgain) fuel es =
      run env HftProtocolState.protocol fuel es) :
    Both env (fun _ s => DistinctMessages s.impl)
      (run env HftProtocolState.protocol fuel es).state := by
  have hsurvives (env : ProtocolEnv) :
      ProtocolState.Survives env (HftProtocolState.protocol.guarded emplacesAgain) fuel
        (fun _ _ => True) (fun _ => True) (fun s => env.crypto.KeepsApart → DistinctMessages s.impl)
        fun s => env.crypto.KeepsApart → DistinctMessages s.impl :=
    ProtocolState.Survives.assuming fun h => (HftProtocolState.distinct_keepsAll h).survives fuel
  have hlast : Both env (fun env s => env.crypto.KeepsApart → DistinctMessages s.impl)
      (run env (HftProtocolState.protocol.guarded emplacesAgain) fuel es).state :=
    (throughout_survives hsurvives (allowed_of_true es)).last
  rw [hguard] at hlast
  exact ⟨hlast.primary hcrypto, fun id s hs => hlast.secondary id s hs hcrypto⟩

/-- A flood message for meter 3 that reaches meter 0 in round 0. -/
def floodedCopy : Event :=
  .overlay ⟨10, 0, false, .make 0 3 (.string "onion") true⟩

theorem sample_flood_messages_distinct :
    Both (sampleEnv 0 11 (by decide) 1 2 fun _ => true) (fun _ s => DistinctMessages s.impl)
      (run (sampleEnv 0 11 (by decide) 1 2 fun _ => true) HftProtocolState.protocol 100
        [sampleQuery 0, floodedCopy]).state :=
  flood_messages_distinct dummyCrypto_keepsApart (by decide +kernel)

/-- A second copy is put next to the first. -/
theorem copies_held_twice :
    ¬ Both (sampleEnv 0 11 (by decide) 1 2 fun _ => true) (fun _ s => DistinctMessages s.impl)
      (run (sampleEnv 0 11 (by decide) 1 2 fun _ => true) HftProtocolState.protocol 100
        [sampleQuery 0, floodedCopy, floodedCopy]).state := by
  intro h
  have hheld : (run (sampleEnv 0 11 (by decide) 1 2 fun _ => true) HftProtocolState.protocol 100
      [sampleQuery 0, floodedCopy, floodedCopy]).state.primary.impl.currentFloodMessages.Pairwise
        (fun a b => a.equal b = false) := h.primary.1
  revert hheld
  decide +kernel

end MeterClient
end Pddm
