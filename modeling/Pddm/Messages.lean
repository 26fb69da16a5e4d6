import Pddm.OrderedMap

/-!
# Messages

The values that meters and the utility exchange, and the cryptographic interface
through which they are sealed, signed and verified. A message is a value here:
every receiver works on its own decoded copy.
-/
namespace Pddm

/-- The node ID by which messages refer to the utility. -/
def utilityNodeId : ℤ := -1

/-- The stored integer of a fixed-point number; sums are those that fit its 64 bits. -/
abbrev FixedPoint := ℤ

def rsaStrength : ℕ := 2048
def rsaSignatureSize : ℕ := rsaStrength / 8

structure SignatureArray where
  bytes : List UInt8
  size : bytes.length = rsaSignatureSize
  deriving DecidableEq

def SignatureArray.fill (b : UInt8) : SignatureArray :=
  ⟨List.replicate rsaSignatureSize b, List.length_replicate⟩

inductive QueryType
  | currUsageSum | currUsageHistogram | availableOffsetBreakdown
  | cumulativeUsage | projectedSum | projectedHistogram
  deriving DecidableEq, Repr

def QueryType.isSingleValuedQuery : QueryType → Bool
  | .currUsageSum | .cumulativeUsage | .projectedSum => true
  | _ => false

/-- The price function of a query is read by the meter interface only. -/
structure QueryRequest where
  requestType : QueryType
  timeWindow : ℤ
  queryNumber : ℤ
  deriving DecidableEq, Repr

structure ValueTuple where
  queryNum : ℤ
  value : List FixedPoint
  proxies : List ℤ
  deriving DecidableEq, Repr

/-- Equality compares the tuple and the signature, with no record of the owner. -/
structure ValueContribution where
  value : ValueTuple
  signature : SignatureArray
  deriving DecidableEq

/-- The implicit conversion of a tuple leaves an all-zero signature. -/
def ValueContribution.ofTuple (value : ValueTuple) : ValueContribution :=
  ⟨value, SignatureArray.fill 0⟩

structure SignedValue where
  value : ValueContribution
  signatures : OrderedMap ℤ SignatureArray
  deriving DecidableEq

structure AgreementValue where
  signedValue : SignedValue
  accepterId : ℤ
  /-- The accepter's signature over the entire signed value. -/
  accepterSignature : SignatureArray
  deriving DecidableEq

/-- The bodies a message can carry, with `null` for the null pointer. The two
overlay constructors are an `OverlayMessage` and its subclass with a path. -/
inductive MessageBody
  | null
  | overlay (queryNum destination : ℤ) (isEncrypted flood : Bool) (body : MessageBody)
  | pathOverlay (queryNum destination : ℤ) (isEncrypted flood : Bool)
      (remainingPath : List ℤ) (body : MessageBody)
  | agreementValue (value : AgreementValue)
  | signedValue (value : SignedValue)
  | valueContribution (value : ValueContribution)
  | aggregationValue (data : List FixedPoint)
  | string (data : String)
  deriving DecidableEq

/-- An `OverlayMessage`; `remainingPath` is there exactly on a `PathOverlayMessage`. -/
structure OverlayMessage where
  queryNum : ℤ
  destination : ℤ
  isEncrypted : Bool
  flood : Bool
  remainingPath : Option (List ℤ)
  body : MessageBody
  deriving DecidableEq

def OverlayMessage.make (queryNum destId : ℤ) (body : MessageBody) (flood : Bool) :
    OverlayMessage :=
  ⟨queryNum, destId, false, flood, none, body⟩

def OverlayMessage.toBody (m : OverlayMessage) : MessageBody :=
  match m.remainingPath with
  | none => .overlay m.queryNum m.destination m.isEncrypted m.flood m.body
  | some path => .pathOverlay m.queryNum m.destination m.isEncrypted m.flood path m.body

/-- The cast of a body to `OverlayMessage`, which succeeds on the subclass as well. -/
def MessageBody.asOverlayMessage : MessageBody → Option OverlayMessage
  | .overlay q d enc fl body => some ⟨q, d, enc, fl, none, body⟩
  | .pathOverlay q d enc fl path body => some ⟨q, d, enc, fl, some path, body⟩
  | _ => none

def MessageBody.asValueContribution : MessageBody → Option ValueContribution
  | .valueContribution v => some v
  | _ => none

@[simp] theorem OverlayMessage.asOverlayMessage_toBody (m : OverlayMessage) :
    m.toBody.asOverlayMessage = some m := by
  obtain ⟨q, d, enc, fl, path, body⟩ := m
  cases path <;> rfl

/-- `operator==` on bodies, null pointers included. A message equals one of the subclass, and
the remaining path does not count. -/
def MessageBody.equal : MessageBody → MessageBody → Bool
  | .overlay q d enc fl body, rhs | .pathOverlay q d enc fl _ body, rhs =>
      match rhs.asOverlayMessage with
      | some r => q = r.queryNum && d = r.destination && enc = r.isEncrypted && fl = r.flood &&
          body.equal r.body
      | none => false
  | lhs, rhs => lhs = rhs

def OverlayMessage.equal (lhs rhs : OverlayMessage) : Bool :=
  lhs.queryNum = rhs.queryNum && lhs.destination = rhs.destination &&
    lhs.isEncrypted = rhs.isEncrypted && lhs.flood = rhs.flood && lhs.body.equal rhs.body

/-- What equality looks at: the body without the paths in it. -/
def MessageBody.withoutPaths : MessageBody → MessageBody
  | .overlay q d enc fl body | .pathOverlay q d enc fl _ body =>
      .overlay q d enc fl body.withoutPaths
  | body => body

theorem MessageBody.equal_iff (lhs rhs : MessageBody) :
    lhs.equal rhs = true ↔ lhs.withoutPaths = rhs.withoutPaths := by
  induction lhs generalizing rhs with
  | overlay q d enc fl body ih | pathOverlay q d enc fl _ body ih =>
    cases rhs <;> simp [equal, withoutPaths, asOverlayMessage, ih, and_assoc]
  | _ => cases rhs <;> simp [equal, withoutPaths]

theorem OverlayMessage.equal_iff {lhs rhs : OverlayMessage} : lhs.equal rhs = true ↔
    lhs.queryNum = rhs.queryNum ∧ lhs.destination = rhs.destination ∧
      lhs.isEncrypted = rhs.isEncrypted ∧ lhs.flood = rhs.flood ∧
      lhs.body.withoutPaths = rhs.body.withoutPaths := by
  simp [equal, MessageBody.equal_iff, and_assoc]

structure OverlayTransportMessage where
  senderId : ℤ
  senderRound : ℤ
  isFinalMessage : Bool
  body : OverlayMessage
  deriving DecidableEq

structure AggregationMessage where
  senderId : ℤ
  queryNum : ℤ
  body : List FixedPoint
  numContributors : ℤ
  deriving DecidableEq, Repr

namespace AggregationMessage

/-- The public constructor starts the count of contributors at one. -/
def make (senderId queryNum : ℤ) (value : List FixedPoint) : AggregationMessage :=
  ⟨senderId, queryNum, value, 1⟩

/-- `operator==`, which leaves the sender out. -/
def equal (lhs rhs : AggregationMessage) : Bool :=
  lhs.numContributors = rhs.numContributors && lhs.queryNum = rhs.queryNum && lhs.body = rhs.body

theorem equal_iff {lhs rhs : AggregationMessage} : lhs.equal rhs = true ↔
    lhs.numContributors = rhs.numContributors ∧ lhs.queryNum = rhs.queryNum ∧
      lhs.body = rhs.body := by
  simp [equal, and_assoc]

end AggregationMessage

structure PingMessage where
  senderId : ℤ
  isResponse : Bool
  deriving DecidableEq, Repr

structure SignatureRequest where
  senderId : ℤ
  body : String
  deriving DecidableEq, Repr

structure SignatureResponse where
  senderId : ℤ
  body : String
  deriving DecidableEq, Repr

/-- The cryptography library of one client: its operations under that client's
own key, and verification and encryption under the keys of others. -/
structure CryptoLibrary where
  rsaEncrypt : OverlayMessage → ℤ → OverlayMessage
  rsaDecrypt : OverlayMessage → OverlayMessage
  rsaEncryptTuple : ValueTuple → ℤ → String
  rsaSignEncrypted : String → String
  rsaDecryptSignature : String → SignatureArray
  rsaSign : ValueContribution → SignatureArray
  rsaVerify : ValueContribution → SignatureArray → ℤ → Bool
  rsaSignSignedValue : SignedValue → SignatureArray
  rsaVerifySignedValue : SignedValue → SignatureArray → ℤ → Bool

/-- The library that makes every operation a no-op. The text it prints of a tuple,
which nothing reads back, is left out. -/
def dummyCrypto : CryptoLibrary where
  rsaEncrypt m _ := { m with isEncrypted := true }
  rsaDecrypt m := { m with isEncrypted := false }
  rsaEncryptTuple _ _ := ""
  rsaSignEncrypted s := s
  rsaDecryptSignature _ := SignatureArray.fill 0
  rsaSign _ := SignatureArray.fill 0
  rsaVerify _ _ _ := true
  rsaSignSignedValue _ := SignatureArray.fill 0
  rsaVerifySignedValue _ _ _ := true

end Pddm
