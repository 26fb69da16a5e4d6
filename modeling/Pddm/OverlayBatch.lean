import Pddm.ProtocolState

/-!
# The batch of a round

At the start of a round its messages are sorted into those that leave now and those that
wait. None is lost on the way, and the target always gets a final message.
-/
namespace Pddm

section Sorting
variable (wrap : OverlayMessage → OverlayTransportMessage) (commTarget : ℤ)

/-- The loop over the waiting messages, with those that the iterator has passed. It erases the
messages for the target as it goes. -/
def takeWaiting : List OverlayMessage → List OverlayMessage → List OverlayTransportMessage →
    List OverlayMessage × List OverlayTransportMessage
  | passed, [], toSend => (passed, toSend)
  | passed, m :: ahead, toSend =>
      if m.destination = commTarget then takeWaiting passed ahead (toSend ++ [wrap m])
      else takeWaiting (passed ++ [m]) ahead toSend

def sortOutgoing : List OverlayMessage → List OverlayMessage → List OverlayTransportMessage →
    List OverlayMessage × List OverlayTransportMessage
  | [], waiting, toSend => (waiting, toSend)
  | m :: outgoing, waiting, toSend =>
      if m.flood || m.destination = commTarget then
        sortOutgoing outgoing waiting (toSend ++ [wrap m])
      else sortOutgoing outgoing (waiting ++ [m]) toSend

def markBack : List OverlayTransportMessage → List OverlayTransportMessage
  | [] => []
  | [m] => [{ m with isFinalMessage := true }]
  | m :: m' :: ms => m :: markBack (m' :: ms)

def isDue (m : OverlayMessage) : Bool := m.flood || m.destination = commTarget

theorem takeWaiting_eq (passed ahead : List OverlayMessage)
    (toSend : List OverlayTransportMessage) : takeWaiting wrap commTarget passed ahead toSend =
      (passed ++ ahead.filter (fun m => !decide (m.destination = commTarget)),
        toSend ++ (ahead.filter fun m => m.destination = commTarget).map wrap) := by
  induction ahead generalizing passed toSend with
  | nil => simp [takeWaiting]
  | cons m ahead ih =>
    rw [takeWaiting]
    split_ifs with hdue
    · simp [ih, hdue]
    · simp [ih, hdue]

theorem sortOutgoing_eq (outgoing waiting : List OverlayMessage)
    (toSend : List OverlayTransportMessage) : sortOutgoing wrap commTarget outgoing waiting toSend =
      (waiting ++ outgoing.filter (fun m => !isDue commTarget m),
        toSend ++ (outgoing.filter (isDue commTarget)).map wrap) := by
  induction outgoing generalizing waiting toSend with
  | nil => simp [sortOutgoing]
  | cons m outgoing ih =>
    rw [sortOutgoing]
    split_ifs with hdue
    · have hdue' : isDue commTarget m = true := hdue
      simp [ih, hdue']
    · have hdue' : ¬ isDue commTarget m = true := hdue
      simp [ih, hdue']

end Sorting

theorem markBack_append (front : List OverlayTransportMessage) (last : OverlayTransportMessage) :
    markBack (front ++ [last]) = front ++ [{ last with isFinalMessage := true }] := by
  induction front with
  | nil => rfl
  | cons m front ih =>
    cases front with
    | nil => rfl
    | cons m' front => exact congrArg (m :: ·) ih

namespace ProtocolState
variable {ι : Type} (env : ProtocolEnv)

/-- `send_overlay_message_batch` with its loops. -/
def sendOverlayMessageBatchLoop (s : ProtocolState ι) : ProtocolState ι :=
  let commTarget := gossipTarget env.meterId s.overlayRound env.numMeters
  let wrap (m : OverlayMessage) : OverlayTransportMessage := ⟨env.meterId, s.overlayRound, false, m⟩
  let (waiting, toSend) := takeWaiting wrap commTarget [] s.waitingMessages []
  let (waiting, toSend) := sortOutgoing wrap commTarget s.outgoingMessages waiting toSend
  let s := { s with waitingMessages := waiting, outgoingMessages := [] }
  if toSend.isEmpty then
    let dummy : OverlayMessage := .make s.getCurrentQueryNum commTarget .null false
    s.sendTo env (.sendOverlay [⟨env.meterId, s.overlayRound, true, dummy⟩] commTarget) commTarget
  else s.sendTo env (.sendOverlay (markBack toSend) commTarget) commTarget

section Transports
variable (s : ProtocolState ι) (commTarget : ℤ) (messages : List OverlayMessage)

theorem transports_of_ne_nil (h : messages ≠ []) : transports env s commTarget messages =
    markBack (messages.map fun m => ⟨env.meterId, s.overlayRound, false, m⟩) := by
  obtain ⟨others, last, hmessages⟩ := (List.eq_nil_or_concat messages).resolve_left h
  rw [List.concat_eq_append] at hmessages
  rw [hmessages, List.map_append, List.map_singleton, markBack_append]
  simp [transports]

theorem transports_final : ∃ front final, transports env s commTarget messages = front ++ [final] ∧
    (∀ m ∈ front, m.isFinalMessage = false) ∧ final.isFinalMessage = true := by
  unfold transports
  split
  · exact ⟨[], _, rfl, by simp, rfl⟩
  · refine ⟨_, _, rfl, fun m hm => ?_, rfl⟩
    obtain ⟨x, -, rfl⟩ := List.mem_map.mp hm
    rfl

theorem bodies_transports : (transports env s commTarget messages).map (·.body) =
    if messages = [] then [.make s.getCurrentQueryNum commTarget .null false] else messages := by
  unfold transports
  cases hreverse : messages.reverse with
  | nil =>
    rw [if_pos (List.reverse_eq_nil_iff.mp hreverse)]
    rfl
  | cons last others =>
    have hmessages : messages = others.reverse ++ [last] := by
      rw [← List.reverse_reverse messages, hreverse, List.reverse_cons]
    rw [if_neg (by simp [hmessages]), hmessages]
    simp [Function.comp_def]

theorem sender_of_mem_transports {m : OverlayTransportMessage}
    (hm : m ∈ transports env s commTarget messages) :
    m.senderId = env.meterId ∧ m.senderRound = s.overlayRound := by
  unfold transports at hm
  split at hm
  · rw [List.mem_singleton.mp hm]
    exact ⟨rfl, rfl⟩
  · rcases List.mem_append.mp hm with hm | hm
    · obtain ⟨x, -, rfl⟩ := List.mem_map.mp hm
      exact ⟨rfl, rfl⟩
    · rw [List.mem_singleton.mp hm]
      exact ⟨rfl, rfl⟩

end Transports

section Conservation
variable (s : ProtocolState ι)

def batchTarget : ℤ := gossipTarget env.meterId s.overlayRound env.numMeters

def batchMessages : List OverlayMessage :=
  s.waitingMessages.filter (fun m => m.destination = batchTarget env s) ++
    s.outgoingMessages.filter (isDue (batchTarget env s))

def heldMessages : List OverlayMessage :=
  s.waitingMessages.filter (fun m => !decide (m.destination = batchTarget env s)) ++
    s.outgoingMessages.filter fun m => !isDue (batchTarget env s) m

theorem sendOverlayMessageBatch_eq : sendOverlayMessageBatch env s =
    sendTo env (.sendOverlay (transports env s (batchTarget env s) (batchMessages env s))
      (batchTarget env s)) (batchTarget env s)
      { s with waitingMessages := heldMessages env s, outgoingMessages := [] } := rfl

theorem sendOverlayMessageBatchLoop_eq :
    sendOverlayMessageBatchLoop env s = sendOverlayMessageBatch env s := by
  rw [sendOverlayMessageBatch_eq]
  unfold sendOverlayMessageBatchLoop
  simp only [takeWaiting_eq, sortOutgoing_eq, List.nil_append, ← List.map_append]
  split_ifs with hempty
  · rw [List.isEmpty_iff, List.map_eq_nil_iff] at hempty
    rw [show batchMessages env s = [] from hempty]
    rfl
  · rw [List.isEmpty_iff, List.map_eq_nil_iff] at hempty
    rw [transports_of_ne_nil env s _ _ (show batchMessages env s ≠ [] from hempty)]
    rfl

theorem sendTo_trace (a : Action) (recipientId : ℤ) :
    (s.sendTo env a recipientId).trace = s.trace ++ [a] := by
  unfold sendTo
  split <;> rfl

theorem sendTo_waitingMessages (a : Action) (recipientId : ℤ) :
    (s.sendTo env a recipientId).waitingMessages = s.waitingMessages := by
  unfold sendTo
  split <;> rfl

theorem sendTo_outgoingMessages (a : Action) (recipientId : ℤ) :
    (s.sendTo env a recipientId).outgoingMessages = s.outgoingMessages := by
  unfold sendTo
  split <;> rfl

/-- What was there is sent or held. -/
theorem batchMessages_add_heldMessages :
    (batchMessages env s + heldMessages env s : Multiset OverlayMessage) =
      s.waitingMessages + s.outgoingMessages := by
  simp only [batchMessages, heldMessages, ← Multiset.coe_add]
  rw [add_add_add_comm]
  congr 1
  · exact Multiset.coe_eq_coe.mpr (List.filter_append_perm _ s.waitingMessages)
  · exact Multiset.coe_eq_coe.mpr (List.filter_append_perm _ s.outgoingMessages)

theorem destination_of_mem_heldMessages {m : OverlayMessage} (hm : m ∈ heldMessages env s) :
    m.destination ≠ batchTarget env s := by
  rw [heldMessages, List.mem_append, List.mem_filter, List.mem_filter] at hm
  rcases hm with ⟨-, hheld⟩ | ⟨-, hheld⟩
  · simpa using hheld
  · have hnot : m.flood = false ∧ m.destination ≠ batchTarget env s := by
      simpa [isDue] using hheld
    exact hnot.2

/-- No message is lost and none is doubled, and the target always gets a final message. -/
theorem sendOverlayMessageBatch_conserves : ∃ batch,
    (sendOverlayMessageBatchLoop env s).trace =
        s.trace ++ [.sendOverlay batch (batchTarget env s)] ∧
      batch.map (·.body) = (if batchMessages env s = [] then
        [.make s.getCurrentQueryNum (batchTarget env s) .null false] else batchMessages env s) ∧
      (batchMessages env s + (sendOverlayMessageBatchLoop env s).waitingMessages :
        Multiset OverlayMessage) = s.waitingMessages + s.outgoingMessages ∧
      (∀ m ∈ (sendOverlayMessageBatchLoop env s).waitingMessages,
        m.destination ≠ batchTarget env s) ∧
      (sendOverlayMessageBatchLoop env s).outgoingMessages = [] ∧
      (∃ front final, batch = front ++ [final] ∧ (∀ m ∈ front, m.isFinalMessage = false) ∧
        final.isFinalMessage = true) ∧
      ∀ m ∈ batch, m.senderId = env.meterId ∧ m.senderRound = s.overlayRound := by
  have hwaiting : (sendOverlayMessageBatch env s).waitingMessages = heldMessages env s := by
    rw [sendOverlayMessageBatch_eq]
    exact sendTo_waitingMessages env _ _ _
  rw [sendOverlayMessageBatchLoop_eq, hwaiting]
  refine ⟨transports env s (batchTarget env s) (batchMessages env s), ?_,
    bodies_transports env s _ _, batchMessages_add_heldMessages env s,
    fun m hm => destination_of_mem_heldMessages env s hm, ?_, transports_final env s _ _,
    fun m hm => sender_of_mem_transports env s _ _ hm⟩
  · rw [sendOverlayMessageBatch_eq]
    exact sendTo_trace env _ _ _
  · rw [sendOverlayMessageBatch_eq]
    exact sendTo_outgoingMessages env _ _ _

end Conservation

end ProtocolState
end Pddm
