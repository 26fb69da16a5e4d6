import Pddm.WireFormat

/-!
# Frames of a connection

A sender puts the length before the messages, and for meters their number as well. The
receiver goes from message to message by the size of what it has just decoded. Between them lies
what the system takes in one piece.
-/
namespace Pddm
variable (m : Mutils)

/-- The buffer for the messages has the size that they say; it is sent behind that size. -/
def frame (hasCount : Bool) (messages : List Message) : List UInt8 :=
  let sendSize := (if hasCount then 8 else 0) + (messages.map (Message.bytesSize m)).sum
  let payload := (if hasCount then Codec.size.toBytes messages.length else []) ++
    messages.flatMap (Message.toBytes m)
  Codec.size.toBytes sendSize ++ payload.take sendSize

namespace TcpNetworkClient

def sendOverlay (messages : List OverlayTransportMessage) : List UInt8 :=
  frame m true (messages.map .overlay)

/-- The utility takes one message only, and needs no number. -/
def sendAggregation (message : AggregationMessage) (recipientId : ℤ) : List UInt8 :=
  frame m (recipientId ≠ utilityNodeId) [.aggregation message]

def sendPing (message : PingMessage) : List UInt8 := frame m true [.ping message]

def sendSignatureRequest (message : SignatureRequest) : List UInt8 :=
  frame m false [.signatureRequest message]

def handles : MessageType → Bool
  | .overlay | .ping | .aggregation | .queryRequest | .signatureResponse => true
  | .signatureRequest => false

/-- The messages handled before pass `i`, and what is left of the buffer. The index has 32
bits and is compared with the full number; `fuel` bounds the passes. -/
def receiveLoop (numMessages : ℕ) : ℕ → ℕ → List UInt8 → List Message →
    Option (List Message × List UInt8)
  | fuel, i, buffer, handled =>
      if i < numMessages then
        match fuel with
        | 0 => none
        | fuel + 1 => do
            let (code, _) ← Codec.tag.next buffer
            match (MessageType.ofCode code).filter handles with
            | some type =>
                let message ← Message.fromBytesAs m type buffer
                receiveLoop numMessages fuel ((i + 1) % 2 ^ 32)
                  (buffer.drop (message.bytesSize m)) (handled ++ [message])
            | none =>
                -- dropped with a warning, and not skipped
                receiveLoop numMessages fuel ((i + 1) % 2 ^ 32) buffer handled
      else some (handled, buffer)

def receiveMessage (fuel : ℕ) (messageBytes : List UInt8) :
    Option (List Message × List UInt8) := do
  let (numMessages, buffer) ← Codec.size.next messageBytes
  receiveLoop m numMessages fuel 0 buffer []

end TcpNetworkClient

namespace TcpUtilityClient

def sendQueryRequest (request : QueryRequest) : List UInt8 := frame m true [.queryRequest request]

def sendSignatureResponse (response : SignatureResponse) : List UInt8 :=
  frame m true [.signatureResponse response]

def handles : MessageType → Bool
  | .aggregation | .signatureRequest => true
  | _ => false

def receiveMessage (messageBytes : List UInt8) : Option (List Message × List UInt8) := do
  let (code, _) ← Codec.tag.next messageBytes
  match (MessageType.ofCode code).filter handles with
  | some type =>
      let message ← Message.fromBytesAs m type messageBytes
      some ([message], messageBytes.drop (message.bytesSize m))
  | none => some ([], messageBytes)

end TcpUtilityClient

/-- An array on the stack has up to `stackSize` bytes, and one `recv` returns up to `recvSize` of
those that are asked for. The system itself returns fewer than 2³¹. -/
structure SystemLimits where
  stackSize : ℕ
  recvSize : ℕ
  recvSize_lt : recvSize < 2 ^ 31

namespace BaseTcpClient
variable (limits : SystemLimits)

def recv (size : ℕ) (stream : List UInt8) : List UInt8 := stream.take (min size limits.recvSize)

/-- The messages handled from a connection, and what is left of the bytes read. -/
def monitorIncomingMessages (receiveMessage : List UInt8 → Option (List Message × List UInt8))
    (stream : List UInt8) : Option (List Message × List UInt8) := do
  let (messageSize, stream) ← Codec.size.next stream
  let messageBytes := recv limits messageSize stream
  -- what does not come in one piece is given up
  if messageBytes.length = messageSize then receiveMessage messageBytes
  else some ([], messageBytes)

theorem monitorIncomingMessages_eq {receiveMessage : List UInt8 → Option (List Message × List UInt8)}
    {stream payload : List UInt8} (hnext : Codec.size.next stream = some (payload.length, payload))
    (hfits : payload.length ≤ limits.recvSize) :
    monitorIncomingMessages limits receiveMessage stream = receiveMessage payload := by
  have hrecv : recv limits payload.length payload = payload := by
    rw [recv, min_eq_left hfits, List.take_length]
  simp only [monitorIncomingMessages, hnext, Option.bind_eq_bind, Option.bind_some, hrecv, if_true]

end BaseTcpClient

/-- The prefix of the frame is the number of bytes behind it, and from these the receiver
handles the messages, in this order, and comes to the end. -/
def Delivers (receive : List UInt8 → Option (List Message × List UInt8)) (frame : List UInt8)
    (messages : List Message) : Prop :=
  ∃ payload, Codec.size.next frame = some (payload.length, payload) ∧
    receive payload = some (messages, [])

section Frames
variable {m} {messages : List Message}

/-- What can be sent: messages without signatures. -/
def Sendable (m : Mutils) (message : Message) : Prop :=
  message.Fits m ∧ message.carriesSignatures = false

theorem length_flatMap_toBytes (h : ∀ message ∈ messages, Sendable m message) :
    (messages.flatMap (Message.toBytes m)).length =
      (messages.map (Message.bytesSize m)).sum :=
  Codec.length_flatMap (c := Message.codec m) fun message hmem =>
    Message.sound (h message hmem).1 (h message hmem).2

theorem next_frame (hasCount : Bool) (h : ∀ message ∈ messages, Sendable m message)
    (hsize : (frame m hasCount messages).length < 2 ^ 64) :
    ∃ payload, Codec.size.next (frame m hasCount messages) = some (payload.length, payload) ∧
      payload.length < 2 ^ 64 ∧ payload = (if hasCount then Codec.size.toBytes messages.length else []) ++
        messages.flatMap (Message.toBytes m) := by
  have hlength : ((if hasCount then Codec.size.toBytes messages.length else []) ++
      messages.flatMap (Message.toBytes m)).length =
        (if hasCount then 8 else 0) + (messages.map (Message.bytesSize m)).sum := by
    rw [List.length_append, length_flatMap_toBytes h]
    cases hasCount <;> simp
  unfold frame at hsize ⊢
  simp only [← hlength, List.take_length] at hsize ⊢
  rw [List.length_append] at hsize
  have hlt := lt_of_le_of_lt (Nat.le_add_left _ _) hsize
  exact ⟨_, (Codec.size_sound hlt).next _, hlt, rfl⟩

theorem length_of_size_next {stream payload : List UInt8} {n : ℕ}
    (h : Codec.size.next stream = some (n, payload)) : payload.length = stream.length - 8 := by
  obtain ⟨k, -, hk⟩ := Option.map_eq_some_iff.mp h
  obtain rfl := congrArg Prod.snd hk
  exact List.length_drop

theorem Message.toBytes_ne_nil (message : Message) : message.toBytes m ≠ [] := by
  intro hnil
  obtain ⟨behind, htag⟩ : ∃ behind, Codec.tag.next (message.toBytes m ++ []) =
      some (message.type.code, behind) := message.next_tag_toBytes []
  rw [hnil] at htag
  cases htag

theorem length_le_flatMap (messages : List Message) :
    messages.length ≤ (messages.flatMap (Message.toBytes m)).length := by
  induction messages with
  | nil => simp
  | cons message messages ih =>
    have hpos := List.length_pos_iff.mpr (Message.toBytes_ne_nil (m := m) message)
    rw [List.length_cons, List.flatMap_cons, List.length_append]
    omega

theorem TcpNetworkClient.receiveLoop_message {message : Message} (h : Sendable m message)
    (hhandles : handles message.type = true) {n i : ℕ} (hi : i < n) (fuel : ℕ) (rest : List UInt8)
    (handled : List Message) :
    receiveLoop m n (fuel + 1) i (message.toBytes m ++ rest) handled =
      receiveLoop m n fuel ((i + 1) % 2 ^ 32) rest (handled ++ [message]) := by
  obtain ⟨behind, htag⟩ : ∃ behind, Codec.tag.next (message.toBytes m ++ rest) =
      some (message.type.code, behind) := Message.next_tag_toBytes message rest
  have htype : (MessageType.ofCode message.type.code).filter handles = some message.type := by
    simp [hhandles]
  have hdrop : (message.toBytes m ++ rest).drop (message.bytesSize m) = rest :=
    List.drop_left' (Message.length_toBytes h.1 h.2)
  rw [receiveLoop, if_pos hi]
  simp only [htag, Option.bind_eq_bind, Option.bind_some, htype,
    Message.fromBytesAs_toBytes h.1 h.2 rest, hdrop]

theorem TcpNetworkClient.receiveLoop_flatMap
    (h : ∀ message ∈ messages, Sendable m message ∧ handles message.type = true) {n i : ℕ}
    (hi : i + messages.length = n) (hn : n < 2 ^ 32) (handled : List Message) :
    receiveLoop m n messages.length i (messages.flatMap (Message.toBytes m)) handled =
      some (handled ++ messages, []) := by
  induction messages generalizing i handled with
  | nil =>
    have hend : ¬ i < n := by
      rw [List.length_nil] at hi
      omega
    simp [receiveLoop, hend]
  | cons message messages ih =>
    rw [List.length_cons] at hi
    obtain ⟨hsendable, hhandles⟩ := h message (by simp)
    have hindex : (i + 1) % 2 ^ 32 = i + 1 := Nat.mod_eq_of_lt (by omega)
    rw [List.length_cons, List.flatMap_cons,
      receiveLoop_message hsendable hhandles (by omega), hindex,
      ih (fun other hother => h other (by simp [hother])) (by omega), List.append_assoc,
      List.singleton_append]

/-- An index of 32 bits stays below a number of 2³² or more. -/
theorem TcpNetworkClient.receiveLoop_endless {n i : ℕ} (hn : 2 ^ 32 ≤ n) (hi : i < 2 ^ 32)
    (fuel : ℕ) (buffer : List UInt8) (handled : List Message) :
    receiveLoop m n fuel i buffer handled = none := by
  induction fuel generalizing i buffer handled with
  | zero =>
    rw [receiveLoop, if_pos (by omega)]
  | succ fuel ih =>
    have hnext : (i + 1) % 2 ^ 32 < 2 ^ 32 := Nat.mod_lt _ (by positivity)
    rw [receiveLoop, if_pos (by omega)]
    cases Codec.tag.next buffer with
    | none => rfl
    | some p =>
      simp only [Option.bind_eq_bind, Option.bind_some]
      split
      · next type _ =>
        cases Message.fromBytesAs m type buffer with
        | none => rfl
        | some message => exact ih hnext _ _
      · exact ih hnext _ _

/-- A meter handles all messages of a frame exactly if their number fits in 32 bits. -/
theorem TcpNetworkClient.delivers_iff
    (h : ∀ message ∈ messages, Sendable m message ∧ handles message.type = true)
    (hsize : (frame m true messages).length < 2 ^ 64) :
    (∃ fuel, Delivers (receiveMessage m fuel) (frame m true messages) messages) ↔
      messages.length < 2 ^ 32 := by
  have hsendable : ∀ message ∈ messages, Sendable m message := fun message hmem =>
    (h message hmem).1
  obtain ⟨payload, hnext, hlt, hpayload⟩ := next_frame true hsendable hsize
  rw [if_pos rfl] at hpayload
  have hcount : messages.length < 2 ^ 64 := by
    have hle : messages.length ≤ (messages.flatMap (Message.toBytes m)).length :=
      length_le_flatMap messages
    rw [hpayload, List.length_append] at hlt
    omega
  have hread (fuel : ℕ) : receiveMessage m fuel payload =
      receiveLoop m messages.length fuel 0 (messages.flatMap (Message.toBytes m)) [] := by
    simp only [receiveMessage, hpayload, (Codec.size_sound hcount).next, Option.bind_eq_bind,
      Option.bind_some]
  constructor
  · rintro ⟨fuel, payload', hnext', hreceive⟩
    obtain rfl : payload' = payload := by
      rw [hnext] at hnext'
      exact (congrArg Prod.snd (Option.some.inj hnext')).symm
    by_contra hlarge
    rw [hread, receiveLoop_endless (by omega) (by positivity)] at hreceive
    cases hreceive
  · intro hlt
    refine ⟨messages.length, payload, hnext, ?_⟩
    rw [hread, receiveLoop_flatMap h (by omega) hlt, List.nil_append]

/-- The utility handles the one message of a frame. -/
theorem TcpUtilityClient.delivers {message : Message} (h : Sendable m message)
    (hhandles : handles message.type = true) (hsize : (frame m false [message]).length < 2 ^ 64) :
    Delivers (receiveMessage m) (frame m false [message]) [message] := by
  obtain ⟨payload, hnext, -, hpayload⟩ := next_frame false (by simpa using h) hsize
  have hbytes : payload = message.toBytes m ++ [] := by
    simpa using hpayload
  refine ⟨payload, hnext, ?_⟩
  obtain ⟨behind, htag⟩ : ∃ behind, Codec.tag.next (message.toBytes m ++ []) =
      some (message.type.code, behind) := Message.next_tag_toBytes message []
  have htype : (MessageType.ofCode message.type.code).filter handles = some message.type := by
    simp [hhandles]
  have hdrop : (message.toBytes m ++ []).drop (message.bytesSize m) = [] :=
    List.drop_left' (Message.length_toBytes h.1 h.2)
  rw [receiveMessage, hbytes]
  simp only [htag, Option.bind_eq_bind, Option.bind_some, htype,
    Message.fromBytesAs_toBytes h.1 h.2 [], hdrop]

theorem length_frame_le (hasCount : Bool) (messages : List Message) :
    (frame m hasCount messages).length ≤ 16 + (messages.map (Message.bytesSize m)).sum := by
  simp only [frame, List.length_append, Codec.length_size, List.length_take]
  cases hasCount <;> simp <;> omega

end Frames

inductive Sending
  | overlay (messages : List OverlayTransportMessage)
  | aggregation (message : AggregationMessage) (recipientId : ℤ)
  | ping (message : PingMessage)
  | signatureRequest (message : SignatureRequest)
  | queryRequest (request : QueryRequest)
  | signatureResponse (response : SignatureResponse)

namespace Sending

def messages : Sending → List Message
  | .overlay messages => messages.map .overlay
  | .aggregation message _ => [.aggregation message]
  | .ping message => [.ping message]
  | .signatureRequest message => [.signatureRequest message]
  | .queryRequest request => [.queryRequest request]
  | .signatureResponse response => [.signatureResponse response]

def frame (m : Mutils) : Sending → List UInt8
  | .overlay messages => TcpNetworkClient.sendOverlay m messages
  | .aggregation message recipientId => TcpNetworkClient.sendAggregation m message recipientId
  | .ping message => TcpNetworkClient.sendPing m message
  | .signatureRequest message => TcpNetworkClient.sendSignatureRequest m message
  | .queryRequest request => TcpUtilityClient.sendQueryRequest m request
  | .signatureResponse response => TcpUtilityClient.sendSignatureResponse m response

def toUtility : Sending → Bool
  | .aggregation _ recipientId => recipientId = utilityNodeId
  | .signatureRequest _ => true
  | _ => false

/-- The array for the frame is on the stack. -/
def send (limits : SystemLimits) (m : Mutils) (sending : Sending) : Option (List UInt8) :=
  if (sending.frame m).length ≤ limits.stackSize then some (sending.frame m) else none

def receiveMessage (m : Mutils) (fuel : ℕ) (sending : Sending) :
    List UInt8 → Option (List Message × List UInt8) :=
  if sending.toUtility then TcpUtilityClient.receiveMessage m
  else TcpNetworkClient.receiveMessage m fuel

/-- What is sent says how long it is, and the recipient returns from handling the messages with
nothing left. -/
def Arrives (limits : SystemLimits) (m : Mutils) (sending : Sending) : Prop :=
  ∃ sent payload fuel, sending.send limits m = some sent ∧
    Codec.size.next sent = some (payload.length, payload) ∧
    BaseTcpClient.monitorIncomingMessages limits (sending.receiveMessage m fuel) sent =
      some (sending.messages, [])

/-- The frame can be built, and all behind its prefix comes with one `recv`. -/
def Fits (limits : SystemLimits) (m : Mutils) (sending : Sending) : Prop :=
  (sending.frame m).length ≤ limits.stackSize ∧ (sending.frame m).length ≤ 8 + limits.recvSize

section Arrivals
variable {m : Mutils} {sending : Sending}

theorem delivers_of_toUtility {message : Message} (hutility : sending.toUtility = true)
    (hmessages : sending.messages = [message]) (hframe : sending.frame m = Pddm.frame m false [message])
    (hhandles : TcpUtilityClient.handles message.type = true) (h : Sendable m message)
    (hsize : (sending.frame m).length < 2 ^ 32) :
    ∃ fuel, Delivers (sending.receiveMessage m fuel) (sending.frame m) sending.messages := by
  refine ⟨0, ?_⟩
  rw [receiveMessage, if_pos hutility, hmessages, hframe]
  rw [hframe] at hsize
  exact TcpUtilityClient.delivers h hhandles (by omega)

theorem delivers_of_toMeter (hmeter : sending.toUtility = false)
    (hframe : sending.frame m = Pddm.frame m true sending.messages)
    (hhandles : ∀ message ∈ sending.messages, TcpNetworkClient.handles message.type = true)
    (h : ∀ message ∈ sending.messages, Sendable m message)
    (hsize : (sending.frame m).length < 2 ^ 32) :
    ∃ fuel, Delivers (sending.receiveMessage m fuel) (sending.frame m) sending.messages := by
  simp only [receiveMessage, hmeter, Bool.false_eq_true, if_false, hframe]
  rw [hframe] at hsize
  refine (TcpNetworkClient.delivers_iff (fun message hmem => ⟨h message hmem, hhandles message hmem⟩)
    (by omega)).mpr ?_
  -- there are no more messages than bytes
  obtain ⟨payload, hnext, -, hpayload⟩ := next_frame true h (by omega)
  have hle : sending.messages.length ≤ payload.length := by
    rw [hpayload, List.length_append]
    exact (length_le_flatMap _).trans (Nat.le_add_left _ _)
  rw [length_of_size_next hnext] at hle
  omega

theorem delivers (h : ∀ message ∈ sending.messages, Sendable m message)
    (hsize : (sending.frame m).length < 2 ^ 32) :
    ∃ fuel, Delivers (sending.receiveMessage m fuel) (sending.frame m) sending.messages := by
  cases sending with
  | overlay messages =>
    refine delivers_of_toMeter rfl rfl (fun message hmem => ?_) h hsize
    obtain ⟨transport, -, rfl⟩ := List.mem_map.mp hmem
    rfl
  | aggregation message recipientId =>
    by_cases hutility : recipientId = utilityNodeId
    · exact delivers_of_toUtility (by simp [toUtility, hutility]) rfl
        (by simp [frame, TcpNetworkClient.sendAggregation, hutility]) rfl (h _ (by simp [messages]))
        hsize
    · refine delivers_of_toMeter (by simp [toUtility, hutility])
        (by simp [frame, TcpNetworkClient.sendAggregation, hutility, messages]) ?_ h hsize
      simp [messages, TcpNetworkClient.handles, Message.type]
  | signatureRequest message =>
    exact delivers_of_toUtility rfl rfl rfl rfl (h _ (by simp [messages])) hsize
  | ping message | queryRequest message | signatureResponse message =>
    exact delivers_of_toMeter rfl rfl (by simp [messages, TcpNetworkClient.handles, Message.type])
      h hsize

end Arrivals

/-- What is sent in a frame that fits arrives. -/
theorem arrives_of_fits (limits : SystemLimits) (m : Mutils) (sending : Sending)
    (h : ∀ message ∈ sending.messages, Sendable m message) (hfits : sending.Fits limits m) :
    sending.Arrives limits m := by
  obtain ⟨hstack, hrecv⟩ := hfits
  have hlimit := limits.recvSize_lt
  obtain ⟨fuel, payload, hnext, hreceive⟩ := delivers h (by omega)
  have hlength := length_of_size_next hnext
  refine ⟨_, payload, fuel, if_pos hstack, hnext, ?_⟩
  rw [BaseTcpClient.monitorIncomingMessages_eq limits hnext (by omega), hreceive]

def dummy : OverlayTransportMessage := ⟨0, 0, true, .make 0 0 .null false⟩

theorem sendable_dummy (m : Mutils) : Sendable m (.overlay dummy) :=
  ⟨⟨by decide, by decide, by decide, by decide, trivial⟩, rfl⟩

/-- A stack of 8 MB, and as much from one `recv` as Linux returns. -/
def sampleLimits : SystemLimits := ⟨2 ^ 23, 0x7ffff000, by decide⟩

theorem dummies_arrive : (overlay [dummy, dummy]).Arrives sampleLimits sampleMutils := by
  have hlength : ((overlay [dummy, dummy]).frame sampleMutils).length ≤ 64 :=
    length_frame_le (m := sampleMutils) true [.overlay dummy, .overlay dummy]
  refine arrives_of_fits sampleLimits sampleMutils (overlay [dummy, dummy]) (fun message hmem => ?_)
    ⟨hlength.trans (by decide), hlength.trans (by decide)⟩
  have hdummy : message = .overlay dummy := by simpa [messages] using hmem
  rw [hdummy]
  exact sendable_dummy sampleMutils

end Sending
end Pddm
