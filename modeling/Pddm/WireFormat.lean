import Pddm.BodyRoundTrips

/-!
# The bytes of messages

A message begins with the tag of its class. The classes put their own fields before or
around those of the base class, and read themselves back in the same order.
-/
namespace Pddm

inductive MessageType
  | overlay | ping | aggregation | queryRequest | signatureRequest | signatureResponse
  deriving DecidableEq, Repr

namespace MessageType

def code : MessageType → ℕ
  | overlay => 0
  | ping => 1
  | aggregation => 2
  | queryRequest => 3
  | signatureRequest => 4
  | signatureResponse => 5

def ofCode : ℕ → Option MessageType
  | 0 => some overlay
  | 1 => some ping
  | 2 => some aggregation
  | 3 => some queryRequest
  | 4 => some signatureRequest
  | 5 => some signatureResponse
  | _ => none

@[simp] theorem ofCode_code (t : MessageType) : ofCode t.code = some t := by
  cases t <;> rfl

def toBytes (t : MessageType) : List UInt8 := Codec.tag.toBytes t.code

@[simp] theorem length_toBytes (t : MessageType) : t.toBytes.length = 2 := Codec.length_tag _

@[simp] theorem next_tag (t : MessageType) (rest : List UInt8) :
    Codec.tag.next (t.toBytes ++ rest) = some (t.code, rest) :=
  (Codec.tag_sound (by cases t <;> decide)).next rest

end MessageType

namespace OverlayTransportMessage
variable (m : Mutils)

def bytesSize (message : OverlayTransportMessage) : ℕ :=
  2 + 4 + 1 + (4 + message.body.toBody.bytesSize m)

def toBytes (message : OverlayTransportMessage) : List UInt8 :=
  MessageType.overlay.toBytes ++ Codec.int.toBytes message.senderRound ++
    Codec.bool.toBytes message.isFinalMessage ++ Codec.int.toBytes message.senderId ++
    message.body.toBody.toBytes m

def postObject (message : OverlayTransportMessage) : List (List UInt8) :=
  [MessageType.overlay.toBytes] ++ Codec.int.postObject message.senderRound ++
    Codec.bool.postObject message.isFinalMessage ++ Codec.int.postObject message.senderId ++
    message.body.toBody.postObject m

/-- The tag of the body tells an overlay message from one with a path. -/
def bodyFromBytes (buffer : List UInt8) : Option OverlayMessage := do
  let (type, _) ← Codec.tag.next buffer
  match MessageBodyType.ofCode type with
  | some .overlay => MessageBody.overlayFromBytes (MessageBody.fromBytes m) buffer
  | some .pathOverlay => MessageBody.pathOverlayFromBytes m (MessageBody.fromBytes m) buffer
  | _ => none

def fromBytes (buffer : List UInt8) : Option OverlayTransportMessage := do
  let (_, buffer) ← Codec.tag.next buffer
  let (senderRound, buffer) ← Codec.int.next buffer
  let (isFinalMessage, buffer) ← Codec.bool.next buffer
  let (senderId, buffer) ← Codec.int.next buffer
  let body ← bodyFromBytes m buffer
  some ⟨senderId, senderRound, isFinalMessage, body⟩

end OverlayTransportMessage

namespace PingMessage

def toBytes (message : PingMessage) : List UInt8 :=
  MessageType.ping.toBytes ++ Codec.int.toBytes message.senderId ++
    Codec.bool.toBytes message.isResponse

def postObject (message : PingMessage) : List (List UInt8) :=
  [MessageType.ping.toBytes] ++ Codec.int.postObject message.senderId ++
    Codec.bool.postObject message.isResponse

def fromBytes (buffer : List UInt8) : Option PingMessage := do
  let (type, buffer) ← Codec.tag.next buffer
  if type = MessageType.ping.code then
    let (senderId, buffer) ← Codec.int.next buffer
    let (isResponse, _) ← Codec.bool.next buffer
    some ⟨senderId, isResponse⟩
  else none

end PingMessage

namespace AggregationMessage
variable (m : Mutils)

def bytesSize (message : AggregationMessage) : ℕ :=
  2 + 4 + 4 + (4 + (AggregationMessageValue.codec m).bytesSize message.body)

def toBytes (message : AggregationMessage) : List UInt8 :=
  MessageType.aggregation.toBytes ++ Codec.int.toBytes message.numContributors ++
    Codec.int.toBytes message.queryNum ++ Codec.int.toBytes message.senderId ++
    (AggregationMessageValue.codec m).toBytes message.body

def postObject (message : AggregationMessage) : List (List UInt8) :=
  [MessageType.aggregation.toBytes] ++ Codec.int.postObject message.numContributors ++
    Codec.int.postObject message.queryNum ++ Codec.int.postObject message.senderId ++
    (AggregationMessageValue.codec m).postObject message.body

def fromBytes (buffer : List UInt8) : Option AggregationMessage := do
  let (_, buffer) ← Codec.tag.next buffer
  let (numContributors, buffer) ← Codec.int.next buffer
  let (queryNum, buffer) ← Codec.int.next buffer
  let (senderId, buffer) ← Codec.int.next buffer
  let body ← (AggregationMessageValue.codec m).fromBytes buffer
  some ⟨senderId, queryNum, body, numContributors⟩

end AggregationMessage

namespace QueryType

def code : QueryType → ℤ
  | .currUsageSum => 0
  | .currUsageHistogram => 1
  | .availableOffsetBreakdown => 2
  | .cumulativeUsage => 3
  | .projectedSum => 4
  | .projectedHistogram => 5

def ofCode (i : ℤ) : Option QueryType :=
  [.currUsageSum, .currUsageHistogram, .availableOffsetBreakdown, .cumulativeUsage, .projectedSum,
    .projectedHistogram].find? fun t => t.code = i

@[simp] theorem ofCode_code (t : QueryType) : ofCode t.code = some t := by
  cases t <;> rfl

theorem isInt_code (t : QueryType) : Codec.IsInt t.code := by
  cases t <;> decide

end QueryType

namespace QueryRequest

/-- The sender of a query is the utility. -/
def toBytes (request : QueryRequest) : List UInt8 :=
  MessageType.queryRequest.toBytes ++ Codec.int.toBytes utilityNodeId ++
    Codec.int.toBytes request.requestType.code ++ Codec.int.toBytes request.timeWindow ++
    Codec.int.toBytes request.queryNumber

def postObject (request : QueryRequest) : List (List UInt8) :=
  [MessageType.queryRequest.toBytes] ++ Codec.int.postObject utilityNodeId ++
    Codec.int.postObject request.requestType.code ++ Codec.int.postObject request.timeWindow ++
    Codec.int.postObject request.queryNumber

/-- The sender is read, and not kept. -/
def fromBytes (buffer : List UInt8) : Option QueryRequest := do
  let (_, buffer) ← Codec.tag.next buffer
  let (_, buffer) ← Codec.int.next buffer
  let (type, buffer) ← Codec.int.next buffer
  let (timeWindow, buffer) ← Codec.int.next buffer
  let (queryNumber, _) ← Codec.int.next buffer
  let requestType ← QueryType.ofCode type
  some ⟨requestType, timeWindow, queryNumber⟩

end QueryRequest

def stringMessageCodec (m : Mutils) (type : MessageType) : Codec (ℤ × String) where
  bytesSize message := 2 + (4 + (StringBody.codec m).bytesSize message.2)
  toBytes message := type.toBytes ++ Codec.int.toBytes message.1 ++
    (StringBody.codec m).toBytes message.2
  postObject message := [type.toBytes] ++ Codec.int.postObject message.1 ++
    (StringBody.codec m).postObject message.2
  fromBytes buffer := do
    let (_, buffer) ← Codec.tag.next buffer
    let (senderId, buffer) ← Codec.int.next buffer
    let body ← (StringBody.codec m).fromBytes buffer
    some (senderId, body)

inductive Message
  | overlay (message : OverlayTransportMessage)
  | ping (message : PingMessage)
  | aggregation (message : AggregationMessage)
  | queryRequest (request : QueryRequest)
  | signatureRequest (request : SignatureRequest)
  | signatureResponse (response : SignatureResponse)
  deriving DecidableEq

namespace Message

def type : Message → MessageType
  | .overlay _ => .overlay
  | .ping _ => .ping
  | .aggregation _ => .aggregation
  | .queryRequest _ => .queryRequest
  | .signatureRequest _ => .signatureRequest
  | .signatureResponse _ => .signatureResponse

section Classes
variable (m : Mutils)

def bytesSize : Message → ℕ
  | .overlay message => message.bytesSize m
  | .ping _ => 2 + 4 + 1
  | .aggregation message => message.bytesSize m
  | .queryRequest _ => 2 + 4 + 4 + 4 + 4
  | .signatureRequest request =>
      (stringMessageCodec m .signatureRequest).bytesSize (request.senderId, request.body)
  | .signatureResponse response =>
      (stringMessageCodec m .signatureResponse).bytesSize (response.senderId, response.body)

def toBytes : Message → List UInt8
  | .overlay message => message.toBytes m
  | .ping message => message.toBytes
  | .aggregation message => message.toBytes m
  | .queryRequest request => request.toBytes
  | .signatureRequest request =>
      (stringMessageCodec m .signatureRequest).toBytes (request.senderId, request.body)
  | .signatureResponse response =>
      (stringMessageCodec m .signatureResponse).toBytes (response.senderId, response.body)

def postObject : Message → List (List UInt8)
  | .overlay message => message.postObject m
  | .ping message => message.postObject
  | .aggregation message => message.postObject m
  | .queryRequest request => request.postObject
  | .signatureRequest request =>
      (stringMessageCodec m .signatureRequest).postObject (request.senderId, request.body)
  | .signatureResponse response =>
      (stringMessageCodec m .signatureResponse).postObject (response.senderId, response.body)

def fromBytesAs (type : MessageType) (buffer : List UInt8) : Option Message :=
  match type with
  | .overlay => (OverlayTransportMessage.fromBytes m buffer).map .overlay
  | .ping => (PingMessage.fromBytes buffer).map .ping
  | .aggregation => (AggregationMessage.fromBytes m buffer).map .aggregation
  | .queryRequest => (QueryRequest.fromBytes buffer).map .queryRequest
  | .signatureRequest =>
      ((stringMessageCodec m .signatureRequest).fromBytes buffer).map fun p =>
        .signatureRequest ⟨p.1, p.2⟩
  | .signatureResponse =>
      ((stringMessageCodec m .signatureResponse).fromBytes buffer).map fun p =>
        .signatureResponse ⟨p.1, p.2⟩

/-- `from_bytes` of the base class looks at the tag. -/
def fromBytes (buffer : List UInt8) : Option Message := do
  let (code, _) ← Codec.tag.next buffer
  match MessageType.ofCode code with
  | some type => fromBytesAs m type buffer
  | none => none

def codec : Codec Message := ⟨bytesSize m, toBytes m, postObject m, fromBytes m⟩

/-- The numbers are within the range of their types, and the library handles vectors, lists
and strings. -/
def Fits : Message → Prop
  | .overlay message => Codec.IsInt message.senderId ∧ Codec.IsInt message.senderRound ∧
      message.body.toBody.Fits m
  | .ping message => Codec.IsInt message.senderId
  | .aggregation message => Codec.IsInt message.senderId ∧ Codec.IsInt message.queryNum ∧
      Codec.IsInt message.numContributors ∧ m.fixedPoints.Sound message.body
  | .queryRequest request => Codec.IsInt request.timeWindow ∧ Codec.IsInt request.queryNumber
  | .signatureRequest request => Codec.IsInt request.senderId ∧ m.string.Sound request.body
  | .signatureResponse response => Codec.IsInt response.senderId ∧ m.string.Sound response.body

end Classes

def carriesSignatures : Message → Bool
  | .overlay message => message.body.toBody.carriesSignatures
  | _ => false

end Message

section Sound
variable {m : Mutils}

theorem OverlayMessage.toBody_ne_null (message : OverlayMessage) : message.toBody ≠ .null := by
  unfold toBody
  split <;> simp

theorem OverlayTransportMessage.bodyFromBytes_toBytes {body : OverlayMessage}
    (h : body.toBody.Fits m) (hfree : body.toBody.carriesSignatures = false) (rest : List UInt8) :
    bodyFromBytes m (body.toBody.toBytes m ++ rest) = some body := by
  have hinner (b : MessageBody) (hb : b.Fits m) (hfree : b.carriesSignatures = false)
      (hnull : b ≠ .null) : MessageBody.fromBytes m (b.toBytes m ++ rest) = some b :=
    (MessageBody.sound hb hfree hnull).decode rest
  obtain ⟨queryNum, destination, isEncrypted, flood, path, body⟩ := body
  cases path with
  | none =>
    obtain ⟨hquery, hdestination, hbody⟩ := h
    simp only [bodyFromBytes, OverlayMessage.toBody, MessageBody.toBytes,
      MessageBody.overlayFromBytes, List.append_assoc, MessageBodyType.next_tag,
      MessageBodyType.ofCode_code, Option.bind_eq_bind, Option.bind_some,
      MessageBody.fromBytesCommon_headerBytes hquery hdestination isEncrypted flood none
        (hinner body hbody hfree)]
  | some path =>
    obtain ⟨hquery, hdestination, hpath, hbody⟩ := h
    simp only [bodyFromBytes, OverlayMessage.toBody, MessageBody.toBytes,
      MessageBody.pathOverlayFromBytes, List.append_assoc, MessageBodyType.next_tag,
      MessageBodyType.ofCode_code, Option.bind_eq_bind, Option.bind_some, if_true, hpath.next,
      MessageBody.fromBytesCommon_headerBytes hquery hdestination isEncrypted flood (some path)
        (hinner body hbody hfree)]

/-- Each class reads its fields in the order in which it writes them. -/
theorem OverlayTransportMessage.decode (message : OverlayTransportMessage)
    (h : (Message.overlay message).Fits m)
    (hfree : (Message.overlay message).carriesSignatures = false) (rest : List UInt8) :
    fromBytes m (message.toBytes m ++ rest) = some message := by
  obtain ⟨hsender, hround, hbody⟩ := h
  have hread := bodyFromBytes_toBytes hbody hfree rest
  simp only [fromBytes, toBytes, List.append_assoc, MessageType.next_tag,
    (Codec.int_sound hround).next, (Codec.bool_sound _).next, (Codec.int_sound hsender).next,
    Option.bind_eq_bind, Option.bind_some, hread]

theorem PingMessage.decode (message : PingMessage) (h : Codec.IsInt message.senderId)
    (rest : List UInt8) : fromBytes (message.toBytes ++ rest) = some message := by
  simp only [fromBytes, toBytes, List.append_assoc, MessageType.next_tag, (Codec.int_sound h).next,
    (Codec.bool_sound _).next, Option.bind_eq_bind, Option.bind_some, if_true]

theorem AggregationMessage.decode (message : AggregationMessage)
    (h : (Message.aggregation message).Fits m) (rest : List UInt8) :
    fromBytes m (message.toBytes m ++ rest) = some message := by
  obtain ⟨hsender, hquery, hcount, hbody⟩ := h
  simp only [fromBytes, toBytes, List.append_assoc, MessageType.next_tag,
    (Codec.int_sound hcount).next, (Codec.int_sound hquery).next, (Codec.int_sound hsender).next,
    Option.bind_eq_bind, Option.bind_some, (AggregationMessageValue.sound hbody).decode rest]

theorem QueryRequest.fromBytes_of_fields {b₀ b₁ b₂ b₃ b₄ b₅ : List UInt8} {tag : ℕ}
    {senderId type timeWindow queryNumber : ℤ} (h₀ : Codec.tag.next b₀ = some (tag, b₁))
    (h₁ : Codec.int.next b₁ = some (senderId, b₂)) (h₂ : Codec.int.next b₂ = some (type, b₃))
    (h₃ : Codec.int.next b₃ = some (timeWindow, b₄))
    (h₄ : Codec.int.next b₄ = some (queryNumber, b₅)) :
    fromBytes b₀ = (QueryType.ofCode type).map fun t => ⟨t, timeWindow, queryNumber⟩ := by
  simp only [fromBytes, h₀, h₁, h₂, h₃, h₄, Option.bind_eq_bind, Option.bind_some]
  cases QueryType.ofCode type <;> rfl

theorem QueryRequest.decode (request : QueryRequest) (hwindow : Codec.IsInt request.timeWindow)
    (hquery : Codec.IsInt request.queryNumber) (rest : List UInt8) :
    fromBytes (request.toBytes ++ rest) = some request := by
  have hsender : Codec.int.Sound utilityNodeId := Codec.int_sound (by decide)
  have htype := Codec.int_sound request.requestType.isInt_code
  rw [toBytes, List.append_assoc, List.append_assoc, List.append_assoc, List.append_assoc,
    fromBytes_of_fields (MessageType.next_tag _ _) (hsender.next _) (htype.next _)
      ((Codec.int_sound hwindow).next _) ((Codec.int_sound hquery).next rest),
    QueryType.ofCode_code]
  rfl

theorem stringMessage_decode (type : MessageType) {senderId : ℤ} {body : String}
    (hsender : Codec.IsInt senderId) (hbody : m.string.Sound body) (rest : List UInt8) :
    (stringMessageCodec m type).fromBytes ((stringMessageCodec m type).toBytes (senderId, body) ++
      rest) = some (senderId, body) := by
  simp only [stringMessageCodec, List.append_assoc, MessageType.next_tag,
    (Codec.int_sound hsender).next, Option.bind_eq_bind, Option.bind_some,
    (StringBody.sound hbody).decode rest]

namespace Message
variable {message : Message}

theorem length_toBytes (h : message.Fits m) (hfree : message.carriesSignatures = false) :
    (message.toBytes m).length = message.bytesSize m := by
  cases message with
  | overlay message =>
    obtain ⟨-, -, hbody⟩ := h
    have hlength := (MessageBody.sound hbody hfree message.body.toBody_ne_null).length
    change (message.body.toBody.toBytes m).length = message.body.toBody.bytesSize m at hlength
    simp only [toBytes, bytesSize, OverlayTransportMessage.toBytes,
      OverlayTransportMessage.bytesSize, List.length_append, MessageType.length_toBytes,
      Codec.length_int, Codec.length_bool, hlength]
    ring
  | ping message => simp [toBytes, bytesSize, PingMessage.toBytes]
  | aggregation message =>
    have hlength := (AggregationMessageValue.sound h.2.2.2).length
    simp only [toBytes, bytesSize, AggregationMessage.toBytes, AggregationMessage.bytesSize,
      List.length_append, MessageType.length_toBytes, Codec.length_int, hlength]
    ring
  | queryRequest request => simp [toBytes, bytesSize, QueryRequest.toBytes]
  | signatureRequest request =>
    have hlength := (StringBody.sound h.2).length
    simp [toBytes, bytesSize, stringMessageCodec, hlength]
  | signatureResponse response =>
    have hlength := (StringBody.sound h.2).length
    simp [toBytes, bytesSize, stringMessageCodec, hlength]

theorem flatten_postObject (h : message.Fits m) (hfree : message.carriesSignatures = false) :
    (message.postObject m).flatten = message.toBytes m := by
  cases message with
  | overlay message =>
    obtain ⟨hsender, hround, hbody⟩ := h
    have hchunks := (MessageBody.sound hbody hfree message.body.toBody_ne_null).chunks
    change (message.body.toBody.postObject m).flatten = message.body.toBody.toBytes m at hchunks
    simp only [postObject, toBytes, OverlayTransportMessage.postObject,
      OverlayTransportMessage.toBytes, List.flatten_append, (Codec.int_sound hsender).chunks,
      (Codec.int_sound hround).chunks, (Codec.bool_sound _).chunks, hchunks, List.flatten_singleton]
  | ping message =>
    simp only [postObject, toBytes, PingMessage.postObject, PingMessage.toBytes,
      List.flatten_append, (Codec.int_sound h).chunks, (Codec.bool_sound _).chunks,
      List.flatten_singleton]
  | aggregation message =>
    obtain ⟨hsender, hquery, hcount, hbody⟩ := h
    simp only [postObject, toBytes, AggregationMessage.postObject, AggregationMessage.toBytes,
      List.flatten_append, (Codec.int_sound hsender).chunks, (Codec.int_sound hquery).chunks,
      (Codec.int_sound hcount).chunks, (AggregationMessageValue.sound hbody).chunks,
      List.flatten_singleton]
  | queryRequest request =>
    obtain ⟨hwindow, hquery⟩ := h
    simp only [postObject, toBytes, QueryRequest.postObject, QueryRequest.toBytes,
      List.flatten_append, (Codec.int_sound hwindow).chunks, (Codec.int_sound hquery).chunks,
      (Codec.int_sound request.requestType.isInt_code).chunks,
      (Codec.int_sound (i := utilityNodeId) (by decide)).chunks, List.flatten_singleton]
  | signatureRequest request =>
    simp only [postObject, toBytes, stringMessageCodec, List.flatten_append,
      (Codec.int_sound h.1).chunks, (StringBody.sound h.2).chunks, List.flatten_singleton]
  | signatureResponse response =>
    simp only [postObject, toBytes, stringMessageCodec, List.flatten_append,
      (Codec.int_sound h.1).chunks, (StringBody.sound h.2).chunks, List.flatten_singleton]

theorem fromBytesAs_toBytes (h : message.Fits m) (hfree : message.carriesSignatures = false)
    (rest : List UInt8) :
    fromBytesAs m message.type (message.toBytes m ++ rest) = some message := by
  cases message with
  | overlay message =>
    simp only [type, fromBytesAs, toBytes, message.decode h hfree rest, Option.map_some]
  | ping message => simp only [type, fromBytesAs, toBytes, message.decode h rest, Option.map_some]
  | aggregation message =>
    simp only [type, fromBytesAs, toBytes, message.decode h rest, Option.map_some]
  | queryRequest request =>
    simp only [type, fromBytesAs, toBytes, request.decode h.1 h.2 rest, Option.map_some]
  | signatureRequest request =>
    simp only [type, fromBytesAs, toBytes, stringMessage_decode .signatureRequest h.1 h.2 rest,
      Option.map_some]
  | signatureResponse response =>
    simp only [type, fromBytesAs, toBytes, stringMessage_decode .signatureResponse h.1 h.2 rest,
      Option.map_some]

theorem next_tag_toBytes (message : Message) (rest : List UInt8) :
    ∃ behind, Codec.tag.next (message.toBytes m ++ rest) = some (message.type.code, behind) := by
  have htag (t : MessageType) (fields : List UInt8) :
      ∃ behind, Codec.tag.next (t.toBytes ++ fields) = some (t.code, behind) :=
    ⟨fields, MessageType.next_tag t fields⟩
  cases message with
  | overlay message =>
    simpa only [type, toBytes, OverlayTransportMessage.toBytes, List.append_assoc] using htag _ _
  | ping message => simpa only [type, toBytes, PingMessage.toBytes, List.append_assoc] using htag _ _
  | aggregation message =>
    simpa only [type, toBytes, AggregationMessage.toBytes, List.append_assoc] using htag _ _
  | queryRequest request =>
    simpa only [type, toBytes, QueryRequest.toBytes, List.append_assoc] using htag _ _
  | signatureRequest request =>
    simpa only [type, toBytes, stringMessageCodec, List.append_assoc] using htag _ _
  | signatureResponse response =>
    simpa only [type, toBytes, stringMessageCodec, List.append_assoc] using htag _ _

theorem sound (h : message.Fits m) (hfree : message.carriesSignatures = false) :
    (codec m).Sound message where
  length := length_toBytes h hfree
  decode rest := by
    obtain ⟨behind, htag⟩ : ∃ behind, Codec.tag.next (message.toBytes m ++ rest) =
        some (message.type.code, behind) := next_tag_toBytes message rest
    change fromBytes m (message.toBytes m ++ rest) = some message
    simp only [fromBytes, htag, Option.bind_eq_bind, Option.bind_some, MessageType.ofCode_code,
      fromBytesAs_toBytes h hfree rest]
  chunks := flatten_postObject h hfree

/-- Every message without signatures takes the bytes that it says, in one piece and in chunks,
and is read back by its class and by the base class. -/
theorem wire_format (m : Mutils) (message : Message) (h : message.Fits m)
    (hfree : message.carriesSignatures = false) :
    (message.toBytes m).length = message.bytesSize m ∧
      (message.postObject m).flatten = message.toBytes m ∧
      ∀ rest, fromBytesAs m message.type (message.toBytes m ++ rest) = some message ∧
        fromBytes m (message.toBytes m ++ rest) = some message :=
  ⟨length_toBytes h hfree, flatten_postObject h hfree, fun rest =>
    ⟨fromBytesAs_toBytes h hfree rest, (sound h hfree).decode rest⟩⟩

/-- A contribution in an overlay message, on a path of which three hops are left. -/
def pathSample : Message :=
  .overlay ⟨1, 3, true, ⟨2, 1, true, false, some [2, 3, 4],
    .overlay 2 4 false true (.valueContribution ⟨⟨2, [10], [5, 15]⟩, .fill 0⟩)⟩⟩

theorem fits_pathSample : pathSample.Fits sampleMutils := by
  have hints (is : List ℤ) (hlength : is.length < 2 ^ 31) (his : ∀ i ∈ is, Codec.IsInt i) :
      (Codec.counted .int).Sound is :=
    Codec.counted_sound hlength fun i hi => Codec.int_sound (his i hi)
  have hvalue : (Codec.counted (.signed 8)).Sound ([10] : List ℤ) := by
    refine Codec.counted_sound (by decide) fun i hi => ?_
    obtain rfl := List.mem_singleton.mp hi
    exact Codec.signed_sound (by norm_num) (by norm_num)
  exact ⟨by decide, by decide, by decide, by decide, hints [2, 3, 4] (by decide) (by decide),
    by decide, by decide, ⟨by decide, hvalue, hints [5, 15] (by decide) (by decide)⟩⟩

theorem pathSample_wire_format :
    (pathSample.toBytes sampleMutils).length = pathSample.bytesSize sampleMutils ∧
      (pathSample.postObject sampleMutils).flatten = pathSample.toBytes sampleMutils ∧
      ∀ rest, fromBytesAs sampleMutils .overlay (pathSample.toBytes sampleMutils ++ rest) =
          some pathSample ∧
        fromBytes sampleMutils (pathSample.toBytes sampleMutils ++ rest) = some pathSample :=
  wire_format sampleMutils pathSample fits_pathSample rfl

end Message
end Sound
end Pddm
