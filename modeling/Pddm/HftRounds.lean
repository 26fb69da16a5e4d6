import Pddm.Lockstep

/-!
# Rounds of the protocol for heavy failures

What a meter in lockstep holds after a round, from the messages that it handles in it.
-/
namespace Pddm

theorem OverlayMessage.opened_dummy (m : OverlayMessage) :
    m.opened dummyCrypto = { m with isEncrypted := false } := by
  unfold opened dummyCrypto
  split_ifs with h
  · rfl
  · obtain ⟨q, d, enc, fl, path, body⟩ := m
    simp only [Bool.not_eq_true] at h
    rw [h]

namespace HftProtocolState
open ProtocolState
variable {env : ProtocolEnv}

theorem handleBody_sameStep (message : OverlayMessage) (s : State) :
    (handleBody env message s).Holds (SameStep protocol s) := by
  have heffect (t : State) (ht : BodyEffect env message s t) : SameStep protocol s t := by
    cases ht with
    | ignored => exact .refl s
    | relayed wrapped => exact .onImpl s rfl
    | accepted contribution => exact .emplaceProxyValue s contribution
    | flooded => exact .onImpl s rfl
  exact (handleBody_effect message s).mono heffect heffect

def steady : Steady protocol where
  toLayered := layered
  steady _ := handleBody_sameStep

/-- The messages that are handled in a run without failures have no path, and enclose none that
is without a body. -/
structure Known (m : OverlayMessage) : Prop where
  path : m.remainingPath = none
  enclosed : ∀ w, m.body.asOverlayMessage = some w → w.body ≠ .null

/-- A message of the query that is flooded. -/
structure Floods (query : ℤ) (m : OverlayMessage) : Prop extends Known m where
  flood : m.flood = true
  queryNum : m.queryNum = query
  body : m.body ≠ .null

theorem Floods.opened {query : ℤ} {m : OverlayMessage} (h : Floods query m) :
    Floods query (m.opened dummyCrypto) := by
  rw [OverlayMessage.opened_dummy]
  exact ⟨⟨h.path, h.enclosed⟩, h.flood, h.queryNum, h.body⟩

section Contents
variable (i : ℤ) (phase : HftProtocolPhase) (query : ℤ)

/-- What a message adds to those that a meter floods. -/
def newFloods (m : OverlayMessage) : List OverlayMessage :=
  if m.body ≠ .null ∧ m.destination ≠ i then [m.opened dummyCrypto] else []

/-- What it adds to those that the meter relays. -/
def newRelays (m : OverlayMessage) : List OverlayMessage :=
  if phase = .scatter ∧ m.destination = i then m.body.asOverlayMessage.toList else []

/-- What it adds to the values of a proxy. -/
def newValues (m : OverlayMessage) : List ValueContribution :=
  if phase = .gather ∧ m.destination = i then
    m.body.asValueContribution.toList.filter fun v => v.value.queryNum = query
  else []

/-- What a meter holds after these messages, in the round that began in `s`. -/
structure Collected (s : State) (ms : List OverlayMessage) (t : State) : Prop where
  waiting : t.waitingMessages = s.waitingMessages
  outgoing : t.outgoingMessages = s.outgoingMessages
  phase : t.impl.protocolPhase = s.impl.protocolPhase
  gatherStart : t.impl.gatherStartRound = s.impl.gatherStartRound
  floods : t.impl.currentFloodMessages = s.impl.currentFloodMessages ++ ms.flatMap (newFloods i)
  relays : t.impl.relayMessages =
    s.impl.relayMessages ++ ms.flatMap (newRelays i s.impl.protocolPhase)
  values : ∀ v, v ∈ t.proxyValues ↔
    v ∈ s.proxyValues ∨ v ∈ ms.flatMap (newValues i s.impl.protocolPhase query)

end Contents

theorem emplaceMessage_of_body {messages : List OverlayMessage} {message : OverlayMessage}
    (h : message.body ≠ .null) : emplaceMessage messages message = messages ++ [message] :=
  if_neg fun hnull => h hnull.1

theorem mem_values_emplace {s : State} {contribution v : ValueContribution} :
    v ∈ (s.emplaceProxyValue contribution).proxyValues ↔ v ∈ s.proxyValues ∨ v = contribution := by
  unfold emplaceProxyValue
  split_ifs with h
  · constructor
    · exact Or.inl
    · rintro (hv | rfl)
      · exact hv
      · exact h
  · simp

section Handling
variable {i query : ℤ} {s t u : State} {m : OverlayMessage} {ms ms' : List OverlayMessage}

theorem Collected.refl (i query : ℤ) (s : State) : Collected i query s [] s := by
  constructor <;> simp

theorem Collected.trans (h : Collected i query s ms t) (h' : Collected i query t ms' u) :
    Collected i query s (ms ++ ms') u where
  waiting := h'.waiting.trans h.waiting
  outgoing := h'.outgoing.trans h.outgoing
  phase := h'.phase.trans h.phase
  gatherStart := h'.gatherStart.trans h.gatherStart
  floods := by rw [h'.floods, h.floods, List.flatMap_append, List.append_assoc]
  relays := by rw [h'.relays, h.relays, h.phase, List.flatMap_append, List.append_assoc]
  values := by
    intro v
    rw [h'.values, h.values, h.phase, List.flatMap_append, List.mem_append, or_assoc]

theorem newFloods_of_null (h : m.body = .null) : newFloods i m = [] := by
  simp [newFloods, h]

theorem newRelays_of_null {phase : HftProtocolPhase} (h : m.body = .null) :
    newRelays i phase m = [] := by
  simp [newRelays, h, MessageBody.asOverlayMessage]

theorem newValues_of_null {phase : HftProtocolPhase} (h : m.body = .null) :
    newValues i phase query m = [] := by
  simp [newValues, h, MessageBody.asValueContribution]

theorem handleBody_collected (hm : Known m) (hcurrent : s.getCurrentQueryNum = query)
    (h : handleBody env (m.opened dummyCrypto) s = .done t) :
    Collected env.meterId query s [m] t := by
  have hbody : (m.opened dummyCrypto).body = m.body := by rw [OverlayMessage.opened_dummy]
  have hdestination : (m.opened dummyCrypto).destination = m.destination := by
    rw [OverlayMessage.opened_dummy]
  unfold handleBody at h
  rw [hbody, hdestination] at h
  by_cases hnull : m.body = .null
  · rw [if_pos hnull] at h
    cases h
    constructor <;> simp [newFloods_of_null hnull, newRelays_of_null hnull, newValues_of_null hnull]
  · rw [if_neg hnull] at h
    by_cases hhere : m.destination = env.meterId
    · have hfloods : newFloods env.meterId m = [] := by simp [newFloods, hhere]
      rw [if_pos hhere] at h
      cases hphase : s.impl.protocolPhase with
      | scatter =>
        rw [hphase] at h
        unfold handleScatterPhaseMessage at h
        rw [hbody] at h
        cases hwrapped : m.body.asOverlayMessage with
        | none =>
          rw [hwrapped] at h
          cases h
          constructor <;> simp [hfloods, newRelays, newValues, hwrapped, hphase]
        | some w =>
          rw [hwrapped] at h
          cases h
          have hemplace : emplaceMessage s.impl.relayMessages w = s.impl.relayMessages ++ [w] :=
            emplaceMessage_of_body (hm.enclosed w hwrapped)
          constructor <;>
            simp [hfloods, newRelays, newValues, hwrapped, hphase, hhere, hemplace, onImpl]
      | gather =>
        rw [hphase] at h
        unfold handleGatherPhaseMessage at h
        rw [hbody] at h
        cases hvalue : m.body.asValueContribution with
        | none =>
          rw [hvalue] at h
          cases h
          constructor <;> simp [hfloods, newRelays, newValues, hvalue, hphase]
        | some v =>
          rw [hvalue] at h
          cases hmine : s.myContribution with
          | none => simp [hmine] at h
          | some mine =>
            have hquery : mine.queryNum = query := by
              rw [← hcurrent, getCurrentQueryNum, hmine]
            simp only [hmine, hquery] at h
            split_ifs at h with heq
            · cases h
              have hvalues : [m].flatMap (newValues env.meterId .gather query) = [v] := by
                simp [newValues, hhere, hvalue, heq]
              constructor
              case values =>
                intro v'
                rw [mem_values_emplace, hphase, hvalues, List.mem_singleton]
              all_goals
                unfold emplaceProxyValue
                split_ifs <;> simp [hfloods, newRelays, hphase]
            · cases h
              constructor <;> simp [hfloods, newRelays, newValues, hvalue, hphase, heq]
      | idle | aggregate =>
        rw [hphase] at h
        cases h
        constructor <;> simp [hfloods, newRelays, newValues, hphase]
    · rw [if_neg hhere] at h
      cases h
      have hopened : (m.opened dummyCrypto).body ≠ .null := by rwa [hbody]
      have hemplace : emplaceMessage s.impl.currentFloodMessages (m.opened dummyCrypto) =
          s.impl.currentFloodMessages ++ [m.opened dummyCrypto] := emplaceMessage_of_body hopened
      constructor <;> simp [newFloods, newRelays, newValues, hnull, hhere, hemplace, onImpl]

theorem absorb_collected {message : OverlayTransportMessage} (hcrypto : env.crypto = dummyCrypto)
    (hm : Known message.body) (hcurrent : s.getCurrentQueryNum = query)
    (h : steady.absorb env message s = .done t) :
    Collected env.meterId query s [message.body] t := by
  obtain ⟨timer, timers, hnote⟩ := noteOverlay_fields env protocol message s
  have hpath : (message.body.opened dummyCrypto).remainingPath = none := by
    rw [OverlayMessage.opened_dummy]
    exact hm.path
  have hreceived : message.body.received dummyCrypto = message.body.opened dummyCrypto := by
    rw [OverlayMessage.received, hpath]
  have hnone : message.body.readdressed dummyCrypto = [] := by
    rw [OverlayMessage.readdressed, hpath]
  have hbody : handleBody env (message.body.opened dummyCrypto) (noteOverlay env protocol message s)
      = .done t := by
    rw [← hreceived, ← hcrypto]
    exact h
  have hnoted : (noteOverlay env protocol message s).getCurrentQueryNum = query := by
    rw [hnote]
    exact hcurrent
  have hcollected := handleBody_collected hm hnoted hbody
  rw [hnote, hcrypto, hnone, List.append_nil] at hcollected
  exact ⟨hcollected.waiting, hcollected.outgoing, hcollected.phase, hcollected.gatherStart,
    hcollected.floods, hcollected.relays, hcollected.values⟩

end Handling

section Rounds
variable {n query start stop : ℤ} {run : Lockstep protocol n query start stop}

theorem closed_collected (hn : 2 ≤ n) (hlt : n < 2 ^ 31) {r i : ℤ} (hr : start ≤ r) (hrs : r < stop)
    (hi : 0 ≤ i) (hin : i < n) (hknown : ∀ m ∈ run.inbox r i, Known m) :
    Collected i query (run.begun r i) (run.inbox r i) (run.closed r i) := by
  let Q (ms : List OverlayMessage) (s : State) : Prop :=
    (∀ m ∈ ms, Known m) → Collected i query (run.begun r i) ms s
  have hQ : KeptInRound steady (run.env i) query r Q := by
    constructor
    · intro ms s t hs hidle hms
      obtain ⟨hwaiting, houtgoing, hphase, hgather, hfloods, hrelays, hvalues⟩ := hs hms
      exact ⟨hidle.waitingMessages.trans hwaiting, hidle.outgoingMessages.trans houtgoing,
        hidle.impl ▸ hphase, hidle.impl ▸ hgather, hidle.impl ▸ hfloods, hidle.impl ▸ hrelays,
        by rw [hidle.proxyValues]; exact hvalues⟩
    · intro ms s t m hs hstep _ _ habsorb hms
      have hbefore := hs fun m' hm' => hms m' (List.mem_append_left _ hm')
      have hlast := absorb_collected (run.crypto i) (hms m.body (by simp)) hstep.current habsorb
      rw [run.meterId i] at hlast
      exact hbefore.trans hlast
  obtain ⟨s, ⟨-, -, hs⟩, hclosed, -⟩ := run.closing hn hlt hr hrs hi hin hQ fun _ => .refl i query _
  obtain ⟨hwaiting, houtgoing, hphase, hgather, hfloods, hrelays, hvalues⟩ := hs hknown
  rw [hclosed]
  exact ⟨hwaiting, houtgoing, hphase, hgather, hfloods, hrelays, hvalues⟩

end Rounds
end HftProtocolState
end Pddm
