import Pddm.BodyBytes

/-!
# Bodies that are read back

A body without signatures is read back from its bytes. The number of signatures of a signed
value is written in eight bytes, and counted and read in four.
-/
namespace Pddm

namespace ValueContribution
variable {m : Mutils} {v : ValueContribution}

theorem Fits.length_toBytes (h : v.Fits m) : (v.toBytes m).length = v.bytesSize m := by
  have hvalue := h.value.length
  have hproxies := h.proxies.length
  simp only [toBytes, bytesSize, List.length_append, MessageBodyType.length_toBytes,
    Codec.length_int, SignatureArray.length_bytes]
  omega

theorem toBytes_eq (m : Mutils) (v : ValueContribution) :
    v.toBytes m = MessageBodyType.valueContribution.toBytes ++ (v.toBytes m).drop 2 := by
  simp [toBytes]

/-- The tag plays no part in what is read. -/
theorem Fits.fromBytes_retagged (h : v.Fits m) (t : MessageBodyType) (rest : List UInt8) :
    fromBytes m (t.toBytes ++ ((v.toBytes m).drop 2 ++ rest)) = some v := by
  have hdrop : (v.toBytes m).drop 2 = Codec.int.toBytes v.value.queryNum ++
      m.fixedPoints.toBytes v.value.value ++ m.ints.toBytes v.value.proxies ++
        v.signature.bytes := by
    simp [toBytes]
  have hsignature : SignatureArray.codec.next (v.signature.bytes ++ rest) =
      some (v.signature, rest) := v.signature.sound.next rest
  simp only [fromBytes, hdrop, List.append_assoc, MessageBodyType.next_tag,
    (Codec.int_sound h.queryNum).next, h.value.next, h.proxies.next, hsignature,
    Option.bind_eq_bind, Option.bind_some]

theorem Fits.sound (h : v.Fits m) : (codec m).Sound v where
  length := h.length_toBytes
  decode rest := by
    change fromBytes m (v.toBytes m ++ rest) = some v
    rw [toBytes_eq, List.append_assoc]
    exact h.fromBytes_retagged .valueContribution rest
  chunks := by
    simp only [codec, postObject, toBytes, List.flatten_append, h.value.chunks, h.proxies.chunks,
      (Codec.int_sound h.queryNum).chunks]
    simp

end ValueContribution

namespace SignedValue
variable {m : Mutils} {v : SignedValue}

theorem length_mapToBytes (signatures : OrderedMap ℤ SignatureArray) :
    (mapToBytes signatures).length = mapBytesSize signatures + 4 := by
  have hentries : ∀ es : List (ℤ × SignatureArray),
      (es.flatMap fun e => Codec.int.toBytes e.1 ++ e.2.bytes).length =
        es.length * (4 + rsaSignatureSize) := by
    intro es
    induction es with
    | nil => simp
    | cons e es ih =>
      simp only [List.flatMap_cons, List.length_append, Codec.length_int,
        SignatureArray.length_bytes, ih, List.length_cons]
      ring
  simp only [mapToBytes, mapBytesSize, List.length_append, Codec.length_size, hentries,
    OrderedMap.size]
  omega

/-- Four bytes more are written than the size says. -/
theorem length_toBytes (h : v.value.Fits m) : (v.toBytes m).length = v.bytesSize m + 4 := by
  have hlength := h.length_toBytes
  have htwo : 2 ≤ v.value.bytesSize m := by
    unfold ValueContribution.bytesSize
    omega
  simp only [toBytes, bytesSize, List.length_append, List.length_drop,
    MessageBodyType.length_toBytes, length_mapToBytes, hlength]
  omega

end SignedValue

namespace AgreementValue
variable {m : Mutils} {v : AgreementValue}

theorem length_toBytes (h : v.signedValue.value.Fits m) :
    (v.toBytes m).length = v.bytesSize m + 4 := by
  have hlength := SignedValue.length_toBytes h
  have htwo : 2 ≤ v.signedValue.bytesSize m := by
    unfold SignedValue.bytesSize ValueContribution.bytesSize
    omega
  simp only [toBytes, bytesSize, List.length_append, List.length_drop, Codec.length_int,
    MessageBodyType.length_toBytes, SignatureArray.length_bytes, hlength]
  omega

end AgreementValue

theorem AggregationMessageValue.sound {m : Mutils} {data : List FixedPoint}
    (h : m.fixedPoints.Sound data) : (AggregationMessageValue.codec m).Sound data where
  length := by
    simp [AggregationMessageValue.codec, h.length]
  decode rest := by
    simp only [AggregationMessageValue.codec, List.append_assoc, MessageBodyType.next_tag,
      Option.bind_eq_bind, Option.bind_some, h.decode]
  chunks := by
    simp [AggregationMessageValue.codec, h.chunks]

theorem StringBody.sound {m : Mutils} {data : String} (h : m.string.Sound data) :
    (StringBody.codec m).Sound data where
  length := by
    simp [StringBody.codec, h.length]
  decode rest := by
    simp only [StringBody.codec, List.append_assoc, MessageBodyType.next_tag,
      Option.bind_eq_bind, Option.bind_some, h.decode]
  chunks := by
    simp [StringBody.codec, h.chunks]

namespace MessageBody

def carriesSignatures : MessageBody → Bool
  | .overlay _ _ _ _ body | .pathOverlay _ _ _ _ _ body => body.carriesSignatures
  | .agreementValue _ | .signedValue _ => true
  | _ => false

/-- The numbers are within the range of their types, and the library handles vectors, lists
and strings. -/
def Fits (m : Mutils) : MessageBody → Prop
  | .null => True
  | .overlay queryNum destination _ _ body =>
      Codec.IsInt queryNum ∧ Codec.IsInt destination ∧ body.Fits m
  | .pathOverlay queryNum destination _ _ path body =>
      Codec.IsInt queryNum ∧ Codec.IsInt destination ∧ m.intList.Sound path ∧ body.Fits m
  | .agreementValue value => value.signedValue.value.Fits m
  | .signedValue value => value.value.Fits m
  | .valueContribution value => value.Fits m
  | .aggregationValue data => m.fixedPoints.Sound data
  | .string data => m.string.Sound data

def layers : MessageBody → ℕ
  | .overlay _ _ _ _ body | .pathOverlay _ _ _ _ _ body => body.layers + 1
  | _ => 0

variable {m : Mutils} {body : MessageBody}

@[simp] theorem length_headerBytes (queryNum destination : ℤ)
    (isEncrypted flood remainingBody : Bool) :
    (headerBytes queryNum destination isEncrypted flood remainingBody).length = 11 := by
  simp [headerBytes]

theorem length_toBytes (h : body.Fits m) :
    (body.toBytes m).length = body.bytesSize m + bif body.carriesSignatures then 4 else 0 := by
  induction body with
  | null => rfl
  | overlay queryNum destination isEncrypted flood body ih =>
    simp only [toBytes, bytesSize, carriesSignatures, List.length_append, length_headerBytes,
      MessageBodyType.length_toBytes, ih h.2.2]
    omega
  | pathOverlay queryNum destination isEncrypted flood path body ih =>
    simp only [toBytes, bytesSize, carriesSignatures, List.length_append, length_headerBytes,
      MessageBodyType.length_toBytes, ih h.2.2.2, h.2.2.1.length]
    omega
  | agreementValue value => exact AgreementValue.length_toBytes h
  | signedValue value => exact SignedValue.length_toBytes h
  | valueContribution value => exact ValueContribution.Fits.length_toBytes h
  | aggregationValue data => exact (AggregationMessageValue.sound h).length
  | string data => exact (StringBody.sound h).length

theorem layers_lt_length (hnull : body ≠ .null) : body.layers < (body.toBytes m).length := by
  have hlayer (b : MessageBody) (hb : b ≠ .null → b.layers < (b.toBytes m).length) :
      b.layers + 1 < 13 + (b.toBytes m).length := by
    by_cases h : b = .null
    · subst h
      exact Nat.lt_add_right _ (by decide)
    · have := hb h
      omega
  induction body with
  | null => exact absurd rfl hnull
  | overlay queryNum destination isEncrypted flood body ih =>
    simp only [toBytes, layers, List.length_append, length_headerBytes,
      MessageBodyType.length_toBytes]
    exact hlayer body ih
  | pathOverlay queryNum destination isEncrypted flood path body ih =>
    have := hlayer body ih
    simp only [toBytes, layers, List.length_append, length_headerBytes,
      MessageBodyType.length_toBytes]
    omega
  | agreementValue value => simp [toBytes, layers, AgreementValue.toBytes]
  | signedValue value => simp [toBytes, layers, SignedValue.toBytes]
  | valueContribution value => simp [toBytes, layers, ValueContribution.toBytes]
  | aggregationValue data => simp [toBytes, layers, AggregationMessageValue.codec]
  | string data => simp [toBytes, layers, StringBody.codec]

theorem fromBytesCommon_headerBytes {fromBody : List UInt8 → Option MessageBody}
    {queryNum destination : ℤ} (hqueryNum : Codec.IsInt queryNum)
    (hdestination : Codec.IsInt destination) (isEncrypted flood : Bool)
    (path : Option (List ℤ)) {rest : List UInt8}
    (hbody : body ≠ .null → fromBody (body.toBytes m ++ rest) = some body) :
    fromBytesCommon fromBody path
        (headerBytes queryNum destination isEncrypted flood (body ≠ .null) ++
          (body.toBytes m ++ rest)) =
      some ⟨queryNum, destination, isEncrypted, flood, path, body⟩ := by
  simp only [fromBytesCommon, headerBytes, List.append_assoc, (Codec.int_sound hqueryNum).next,
    (Codec.int_sound hdestination).next, (Codec.bool_sound _).next, Option.bind_eq_bind,
    Option.bind_some]
  by_cases h : body = .null
  · simp [h]
  · simp [h, hbody h]

/-- Reading goes one layer further in with each step. -/
theorem fromBytesWithin_toBytes (h : body.Fits m) (hfree : body.carriesSignatures = false)
    (hnull : body ≠ .null) {fuel : ℕ} (hfuel : body.layers < fuel) (rest : List UInt8) :
    fromBytesWithin m fuel (body.toBytes m ++ rest) = some body := by
  induction body generalizing fuel with
  | null => exact absurd rfl hnull
  | overlay queryNum destination isEncrypted flood body ih =>
    obtain _ | fuel := fuel
    · exact absurd hfuel (Nat.not_lt_zero _)
    · have hbody (hb : body ≠ .null) :
          fromBytesWithin m fuel (body.toBytes m ++ rest) = some body :=
        ih h.2.2 hfree hb (by simpa [layers] using hfuel)
      simp only [fromBytesWithin, toBytes, overlayFromBytes, List.append_assoc,
        MessageBodyType.next_tag, MessageBodyType.ofCode_code, Option.bind_eq_bind,
        Option.bind_some, fromBytesCommon_headerBytes h.1 h.2.1 isEncrypted flood none hbody]
      rfl
  | pathOverlay queryNum destination isEncrypted flood path body ih =>
    obtain _ | fuel := fuel
    · exact absurd hfuel (Nat.not_lt_zero _)
    · have hbody (hb : body ≠ .null) :
          fromBytesWithin m fuel (body.toBytes m ++ rest) = some body :=
        ih h.2.2.2 hfree hb (by simpa [layers] using hfuel)
      simp only [fromBytesWithin, toBytes, pathOverlayFromBytes, List.append_assoc,
        MessageBodyType.next_tag, MessageBodyType.ofCode_code, Option.bind_eq_bind,
        Option.bind_some, if_true, h.2.2.1.next,
        fromBytesCommon_headerBytes h.1 h.2.1 isEncrypted flood (some path) hbody]
      rfl
  | agreementValue value => cases hfree
  | signedValue value => cases hfree
  | valueContribution value =>
    obtain _ | fuel := fuel
    · exact absurd hfuel (Nat.not_lt_zero _)
    · have hread := (ValueContribution.Fits.sound h).decode rest
      change ValueContribution.fromBytes m (value.toBytes m ++ rest) = some value at hread
      have htag : Codec.tag.next (value.toBytes m ++ rest) =
          some (MessageBodyType.valueContribution.code, (value.toBytes m).drop 2 ++ rest) := by
        rw [ValueContribution.toBytes_eq, List.append_assoc, MessageBodyType.next_tag]
        simp
      simp only [fromBytesWithin, toBytes, htag, MessageBodyType.ofCode_code, Option.bind_eq_bind,
        Option.bind_some, hread, Option.map_some]
  | aggregationValue data =>
    obtain _ | fuel := fuel
    · exact absurd hfuel (Nat.not_lt_zero _)
    · have hread := (AggregationMessageValue.sound h).decode rest
      simp only [fromBytesWithin, toBytes, hread, Option.map_some]
      simp [AggregationMessageValue.codec]
  | string data =>
    obtain _ | fuel := fuel
    · exact absurd hfuel (Nat.not_lt_zero _)
    · have hread := (StringBody.sound h).decode rest
      simp only [fromBytesWithin, toBytes, hread, Option.map_some]
      simp [StringBody.codec]

theorem sound (h : body.Fits m) (hfree : body.carriesSignatures = false) (hnull : body ≠ .null) :
    (codec m).Sound body := by
  have hlength : (body.toBytes m).length = body.bytesSize m := by
    rw [length_toBytes h, hfree]
    rfl
  refine ⟨⟨hlength, fun rest => ?_⟩, ?_⟩
  · refine fromBytesWithin_toBytes h hfree hnull ?_ rest
    have hlayers : body.layers < (body.toBytes m).length := layers_lt_length hnull
    change body.layers < (body.toBytes m ++ rest).length
    rw [List.length_append]
    omega
  · have htake : (body.toBytes m).take (body.bytesSize m) = body.toBytes m := by
      rw [← hlength, List.take_length]
    cases body with
    | null => rfl
    | overlay => simp only [codec, postObject, htake, List.flatten_singleton]
    | pathOverlay => simp only [codec, postObject, htake, List.flatten_singleton]
    | agreementValue value => cases hfree
    | signedValue value => cases hfree
    | valueContribution value => exact (ValueContribution.Fits.sound h).chunks
    | aggregationValue data => exact (AggregationMessageValue.sound h).chunks
    | string data => exact (StringBody.sound h).chunks

end MessageBody

/-- Signed values and agreed values take more bytes than they say, alone and in layers. -/
theorem signed_never_serializes (m : Mutils) :
    (∀ v : SignedValue, v.value.Fits m → ¬ (SignedValue.codec m).Serializes v) ∧
    (∀ v : AgreementValue, v.signedValue.value.Fits m → ¬ (AgreementValue.codec m).Serializes v) ∧
    ∀ body : MessageBody, body.Fits m → body.carriesSignatures = true →
      ¬ (MessageBody.codec m).Serializes body := by
  refine ⟨fun v h hserializes => ?_, fun v h hserializes => ?_, fun body h hcarries hserializes => ?_⟩
  · have hlength : (v.toBytes m).length = v.bytesSize m := hserializes.length
    rw [SignedValue.length_toBytes h] at hlength
    omega
  · have hlength : (v.toBytes m).length = v.bytesSize m := hserializes.length
    rw [AgreementValue.length_toBytes h] at hlength
    omega
  · have hlength : (body.toBytes m).length = body.bytesSize m := hserializes.length
    rw [MessageBody.length_toBytes h, hcarries, cond_true] at hlength
    omega

/-- A contribution of meter 1 with that meter's own signature. -/
def signedSample : SignedValue :=
  ⟨⟨⟨0, [5], [1, 4]⟩, .fill 0⟩, OrderedMap.empty.insertNew 1 (.fill 7)⟩

theorem fits_signedSample : signedSample.value.Fits sampleMutils where
  queryNum := by decide
  value := by
    refine Codec.counted_sound (by decide) fun i hi => ?_
    obtain rfl := List.mem_singleton.mp hi
    exact Codec.signed_sound (by norm_num) (by norm_num)
  proxies := by
    refine Codec.counted_sound (by decide) fun i hi => Codec.int_sound ?_
    revert i
    decide

theorem signedSample_never_serializes :
    ¬ (SignedValue.codec sampleMutils).Serializes signedSample ∧
    ¬ (AgreementValue.codec sampleMutils).Serializes ⟨signedSample, 1, .fill 0⟩ ∧
    ¬ (MessageBody.codec sampleMutils).Serializes
      (.overlay 0 4 false false (.signedValue signedSample)) :=
  ⟨(signed_never_serializes sampleMutils).1 signedSample fits_signedSample,
    (signed_never_serializes sampleMutils).2.1 ⟨signedSample, 1, .fill 0⟩ fits_signedSample,
    (signed_never_serializes sampleMutils).2.2 (.overlay 0 4 false false (.signedValue signedSample))
      ⟨by decide, by decide, fits_signedSample⟩ rfl⟩

/-- It is longer than it says, and another value is read back. -/
theorem signedSample_misread :
    (signedSample.toBytes sampleMutils).length ≠ signedSample.bytesSize sampleMutils ∧
      SignedValue.fromBytes sampleMutils (signedSample.toBytes sampleMutils) ≠ some signedSample := by
  decide +kernel

end Pddm
