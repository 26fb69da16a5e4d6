import Pddm.Codecs
import Pddm.Messages

/-!
# The bytes of message bodies

Each class computes its size, writes its bytes, hands them on in chunks and reads itself back.
Containers and strings go through routines that are not part of the program.
-/
namespace Pddm

/-- The serialization library: vectors, lists and strings. -/
structure Mutils where
  fixedPoints : Codec (List FixedPoint)
  ints : Codec (List ℤ)
  intList : Codec (List ℤ)
  string : Codec String

/-- Characters up to a zero byte. -/
def cString : Codec String where
  bytesSize s := s.length + 1
  toBytes s := s.toList.map (fun ch => UInt8.ofNat ch.toNat) ++ [0]
  postObject s := [s.toList.map (fun ch => UInt8.ofNat ch.toNat) ++ [0]]
  fromBytes buffer :=
    some (String.ofList ((buffer.takeWhile (· ≠ 0)).map fun b => Char.ofNat b.toNat))

def sampleMutils : Mutils where
  fixedPoints := .counted (.signed 8)
  ints := .counted .int
  intList := .counted .int
  string := cString

inductive MessageBodyType
  | overlay | pathOverlay | agreementValue | signedValue | valueContribution | aggregationValue
  | string
  deriving DecidableEq, Repr

namespace MessageBodyType

def code : MessageBodyType → ℕ
  | overlay => 0
  | pathOverlay => 1
  | agreementValue => 2
  | signedValue => 3
  | valueContribution => 4
  | aggregationValue => 5
  | string => 6

def ofCode : ℕ → Option MessageBodyType
  | 0 => some overlay
  | 1 => some pathOverlay
  | 2 => some agreementValue
  | 3 => some signedValue
  | 4 => some valueContribution
  | 5 => some aggregationValue
  | 6 => some string
  | _ => none

@[simp] theorem ofCode_code (t : MessageBodyType) : ofCode t.code = some t := by
  cases t <;> rfl

def toBytes (t : MessageBodyType) : List UInt8 := Codec.tag.toBytes t.code

@[simp] theorem length_toBytes (t : MessageBodyType) : t.toBytes.length = 2 := Codec.length_tag _

@[simp] theorem next_tag (t : MessageBodyType) (rest : List UInt8) :
    Codec.tag.next (t.toBytes ++ rest) = some (t.code, rest) :=
  (Codec.tag_sound (by cases t <;> decide)).next rest

end MessageBodyType

namespace SignatureArray

def codec : Codec SignatureArray where
  bytesSize _ := rsaSignatureSize
  toBytes a := a.bytes
  postObject a := [a.bytes]
  fromBytes buffer :=
    if h : (buffer.take rsaSignatureSize).length = rsaSignatureSize then
      some ⟨buffer.take rsaSignatureSize, h⟩
    else none

theorem sound (a : SignatureArray) : codec.Sound a where
  length := a.size
  decode rest := by
    have htake : (a.bytes ++ rest).take rsaSignatureSize = a.bytes := List.take_left' a.size
    simp only [codec, htake, a.size, dite_true]
  chunks := by simp [codec]

@[simp] theorem length_bytes (a : SignatureArray) : a.bytes.length = rsaSignatureSize := a.size

end SignatureArray

namespace ValueContribution
variable (m : Mutils)

def bytesSize (v : ValueContribution) : ℕ :=
  2 + 4 + m.fixedPoints.bytesSize v.value.value + m.ints.bytesSize v.value.proxies +
    rsaSignatureSize

def toBytes (v : ValueContribution) : List UInt8 :=
  MessageBodyType.valueContribution.toBytes ++ Codec.int.toBytes v.value.queryNum ++
    m.fixedPoints.toBytes v.value.value ++ m.ints.toBytes v.value.proxies ++ v.signature.bytes

def postObject (v : ValueContribution) : List (List UInt8) :=
  [MessageBodyType.valueContribution.toBytes] ++ Codec.int.postObject v.value.queryNum ++
    m.fixedPoints.postObject v.value.value ++ m.ints.postObject v.value.proxies ++
    [v.signature.bytes]

/-- The tag is read, and not looked at. -/
def fromBytes (buffer : List UInt8) : Option ValueContribution := do
  let (_, buffer) ← Codec.tag.next buffer
  let (queryNum, buffer) ← Codec.int.next buffer
  let (value, buffer) ← m.fixedPoints.next buffer
  let (proxies, buffer) ← m.ints.next buffer
  let (signature, _) ← SignatureArray.codec.next buffer
  some ⟨⟨queryNum, value, proxies⟩, signature⟩

def codec : Codec ValueContribution := ⟨bytesSize m, toBytes m, postObject m, fromBytes m⟩

/-- The numbers are within the range of their types, and the library handles the vectors. -/
structure Fits (v : ValueContribution) : Prop where
  queryNum : Codec.IsInt v.value.queryNum
  value : m.fixedPoints.Sound v.value.value
  proxies : m.ints.Sound v.value.proxies

end ValueContribution

namespace SignedValue
variable (m : Mutils)

/-- The size of the map of signatures counts an `int` for the number of entries. -/
def mapBytesSize (signatures : OrderedMap ℤ SignatureArray) : ℕ :=
  4 + signatures.size * (4 + rsaSignatureSize)

/-- What is written is a `size_t`. -/
def mapToBytes (signatures : OrderedMap ℤ SignatureArray) : List UInt8 :=
  Codec.size.toBytes signatures.size ++
    signatures.entries.flatMap fun e => Codec.int.toBytes e.1 ++ e.2.bytes

def readEntries : ℕ → List UInt8 → OrderedMap ℤ SignatureArray →
    Option (OrderedMap ℤ SignatureArray)
  | 0, _, signatures => some signatures
  | count + 1, buffer, signatures => do
      let (key, buffer) ← Codec.int.next buffer
      let (value, buffer) ← SignatureArray.codec.next buffer
      readEntries count buffer (signatures.insertNew key value)

/-- What is read is an `int`. -/
def fromBytesMap (buffer : List UInt8) : Option (OrderedMap ℤ SignatureArray) := do
  let (size, buffer) ← Codec.int.next buffer
  readEntries size.toNat buffer .empty

def bytesSize (v : SignedValue) : ℕ := v.value.bytesSize m + mapBytesSize v.signatures

/-- The contribution, with the tag in it written over, and the signatures behind it. -/
def toBytes (v : SignedValue) : List UInt8 :=
  MessageBodyType.signedValue.toBytes ++ (v.value.toBytes m).drop 2 ++ mapToBytes v.signatures

/-- As many bytes as the size says are handed on. -/
def postObject (v : SignedValue) : List (List UInt8) := [(v.toBytes m).take (v.bytesSize m)]

def fromBytes (buffer : List UInt8) : Option SignedValue := do
  let (contribution, buffer) ← (ValueContribution.codec m).next buffer
  let signatures ← fromBytesMap buffer
  some ⟨contribution, signatures⟩

def codec : Codec SignedValue := ⟨bytesSize m, toBytes m, postObject m, fromBytes m⟩

end SignedValue

namespace AgreementValue
variable (m : Mutils)

def bytesSize (v : AgreementValue) : ℕ := v.signedValue.bytesSize m + 4 + rsaSignatureSize

def toBytes (v : AgreementValue) : List UInt8 :=
  MessageBodyType.agreementValue.toBytes ++ (v.signedValue.toBytes m).drop 2 ++
    Codec.int.toBytes v.accepterId ++ v.accepterSignature.bytes

def postObject (v : AgreementValue) : List (List UInt8) := [(v.toBytes m).take (v.bytesSize m)]

def fromBytes (buffer : List UInt8) : Option AgreementValue := do
  let (signedValue, buffer) ← (SignedValue.codec m).next buffer
  let (accepterId, buffer) ← Codec.int.next buffer
  let (signature, _) ← SignatureArray.codec.next buffer
  some ⟨signedValue, accepterId, signature⟩

def codec : Codec AgreementValue := ⟨bytesSize m, toBytes m, postObject m, fromBytes m⟩

end AgreementValue

/-- The decorator of a vector puts a tag before it. -/
def AggregationMessageValue.codec (m : Mutils) : Codec (List FixedPoint) where
  bytesSize data := 2 + m.fixedPoints.bytesSize data
  toBytes data := MessageBodyType.aggregationValue.toBytes ++ m.fixedPoints.toBytes data
  postObject data := [MessageBodyType.aggregationValue.toBytes] ++ m.fixedPoints.postObject data
  fromBytes buffer := do
    let (_, buffer) ← Codec.tag.next buffer
    m.fixedPoints.fromBytes buffer

def StringBody.codec (m : Mutils) : Codec String where
  bytesSize data := 2 + m.string.bytesSize data
  toBytes data := MessageBodyType.string.toBytes ++ m.string.toBytes data
  postObject data := [MessageBodyType.string.toBytes] ++ m.string.postObject data
  fromBytes buffer := do
    let (_, buffer) ← Codec.tag.next buffer
    m.string.fromBytes buffer

namespace MessageBody
variable (m : Mutils)

def bytesSize : MessageBody → ℕ
  | .null => 0
  | .overlay _ _ _ _ body => 2 + 4 + 4 + 1 + 1 + 1 + body.bytesSize
  | .pathOverlay _ _ _ _ path body =>
      2 + 4 + 4 + 1 + 1 + 1 + body.bytesSize + m.intList.bytesSize path
  | .agreementValue value => value.bytesSize m
  | .signedValue value => value.bytesSize m
  | .valueContribution value => value.bytesSize m
  | .aggregationValue data => (AggregationMessageValue.codec m).bytesSize data
  | .string data => (StringBody.codec m).bytesSize data

def headerBytes (queryNum destination : ℤ) (isEncrypted flood remainingBody : Bool) : List UInt8 :=
  Codec.int.toBytes queryNum ++ Codec.int.toBytes destination ++ Codec.bool.toBytes isEncrypted ++
    Codec.bool.toBytes flood ++ Codec.bool.toBytes remainingBody

def toBytes : MessageBody → List UInt8
  | .null => []
  | .overlay queryNum destination isEncrypted flood body =>
      MessageBodyType.overlay.toBytes ++
        headerBytes queryNum destination isEncrypted flood (body ≠ .null) ++ body.toBytes
  | .pathOverlay queryNum destination isEncrypted flood path body =>
      MessageBodyType.pathOverlay.toBytes ++ m.intList.toBytes path ++
        headerBytes queryNum destination isEncrypted flood (body ≠ .null) ++ body.toBytes
  | .agreementValue value => value.toBytes m
  | .signedValue value => value.toBytes m
  | .valueContribution value => value.toBytes m
  | .aggregationValue data => (AggregationMessageValue.codec m).toBytes data
  | .string data => (StringBody.codec m).toBytes data

def postObject (body : MessageBody) : List (List UInt8) :=
  match body with
  | .null => []
  | .overlay .. | .pathOverlay .. => [(body.toBytes m).take (body.bytesSize m)]
  | .agreementValue value => value.postObject m
  | .signedValue value => value.postObject m
  | .valueContribution value => value.postObject m
  | .aggregationValue data => (AggregationMessageValue.codec m).postObject data
  | .string data => (StringBody.codec m).postObject data

/-- Reads the fields of an overlay message, with `fromBody` for its body. -/
def fromBytesCommon (fromBody : List UInt8 → Option MessageBody) (remainingPath : Option (List ℤ))
    (buffer : List UInt8) : Option OverlayMessage := do
  let (queryNum, buffer) ← Codec.int.next buffer
  let (destination, buffer) ← Codec.int.next buffer
  let (isEncrypted, buffer) ← Codec.bool.next buffer
  let (flood, buffer) ← Codec.bool.next buffer
  let (remainingBody, buffer) ← Codec.bool.next buffer
  let body ← if remainingBody then fromBody buffer else some .null
  some ⟨queryNum, destination, isEncrypted, flood, remainingPath, body⟩

def overlayFromBytes (fromBody : List UInt8 → Option MessageBody) (buffer : List UInt8) :
    Option OverlayMessage := do
  let (_, buffer) ← Codec.tag.next buffer
  fromBytesCommon fromBody none buffer

/-- The path comes first; the tag is asserted. -/
def pathOverlayFromBytes (fromBody : List UInt8 → Option MessageBody) (buffer : List UInt8) :
    Option OverlayMessage := do
  let (type, buffer) ← Codec.tag.next buffer
  if type = MessageBodyType.pathOverlay.code then
    let (remainingPath, buffer) ← m.intList.next buffer
    fromBytesCommon fromBody (some remainingPath) buffer
  else none

/-- Dispatches on the tag, to at most `fuel` layers. -/
def fromBytesWithin : ℕ → List UInt8 → Option MessageBody
  | 0, _ => none
  | fuel + 1, buffer => do
      let (type, _) ← Codec.tag.next buffer
      match MessageBodyType.ofCode type with
      | some .overlay => (overlayFromBytes (fromBytesWithin fuel) buffer).map OverlayMessage.toBody
      | some .pathOverlay =>
          (pathOverlayFromBytes m (fromBytesWithin fuel) buffer).map OverlayMessage.toBody
      | some .aggregationValue =>
          ((AggregationMessageValue.codec m).fromBytes buffer).map .aggregationValue
      | some .valueContribution => (ValueContribution.fromBytes m buffer).map .valueContribution
      | some .signedValue => (SignedValue.fromBytes m buffer).map .signedValue
      | some .agreementValue => (AgreementValue.fromBytes m buffer).map .agreementValue
      | some .string => ((StringBody.codec m).fromBytes buffer).map .string
      | none => none

/-- Each layer takes up bytes, so there are no more layers than bytes. -/
def fromBytes (buffer : List UInt8) : Option MessageBody :=
  fromBytesWithin m buffer.length buffer

def codec : Codec MessageBody := ⟨bytesSize m, toBytes m, postObject m, fromBytes m⟩

end MessageBody
end Pddm
