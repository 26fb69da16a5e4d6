import Pddm.Lockstep

/-!
# The law of onions

An onion is sealed for the first meter of its path. Each meter that opens it with its own
key and hands it to the protocol gets the onion for the next one, and the last meter gets
the payload.
-/
namespace Pddm

/-- Encryption seals a message for a meter, whose own library alone opens it. The libraries
of all meters encrypt alike, and leave the header of the message as it is. -/
structure Sealing (crypto : ℤ → CryptoLibrary) : Prop where
  encrypts : ∀ i j, (crypto i).rsaEncrypt = (crypto j).rsaEncrypt
  isEncrypted : ∀ i m id, ((crypto i).rsaEncrypt m id).isEncrypted = true
  queryNum : ∀ i m id, ((crypto i).rsaEncrypt m id).queryNum = m.queryNum
  destination : ∀ i m id, ((crypto i).rsaEncrypt m id).destination = m.destination
  opens : ∀ id m, m.isEncrypted = false → (crypto id).rsaDecrypt ((crypto id).rsaEncrypt m id) = m
  sealedFor : ∀ i m m' id id', (crypto i).rsaEncrypt m id = (crypto i).rsaEncrypt m' id' → id = id'

/-- What anyone can read of a message. -/
inductive Shows : OverlayMessage → MessageBody → Prop
  | body {m : OverlayMessage} (hplain : m.isEncrypted = false) : Shows m m.body
  | enclosed {m inner : OverlayMessage} {b : MessageBody} (hplain : m.isEncrypted = false)
      (hbody : m.body.asOverlayMessage = some inner) (h : Shows inner b) : Shows m b

theorem Shows.plain {m : OverlayMessage} {b : MessageBody} (h : Shows m b) :
    m.isEncrypted = false := by
  cases h with
  | body hplain => exact hplain
  | enclosed hplain => exact hplain

/-- What a meter can read of a message with its own key. -/
inductive CanRead (crypto : ℤ → CryptoLibrary) (id : ℤ) : OverlayMessage → MessageBody → Prop
  | body {m : OverlayMessage} (hplain : m.isEncrypted = false) : CanRead crypto id m m.body
  | enclosed {m inner : OverlayMessage} {b : MessageBody} (hplain : m.isEncrypted = false)
      (hbody : m.body.asOverlayMessage = some inner) (h : CanRead crypto id inner b) :
      CanRead crypto id m b
  | opened {m : OverlayMessage} {b : MessageBody} (hplain : m.isEncrypted = false)
      (h : CanRead crypto id m b) : CanRead crypto id ((crypto id).rsaEncrypt m id) b

def onionFor (crypto : CryptoLibrary) (payload : MessageBody) (queryNum : ℤ) :
    ℤ → List ℤ → OverlayMessage
  | hop, [] => crypto.rsaEncrypt (.make queryNum hop payload false) hop
  | hop, next :: rest =>
      crypto.rsaEncrypt
        (.make queryNum hop (onionFor crypto payload queryNum next rest).toBody false) hop

section Onions
variable {crypto : CryptoLibrary} {payload : MessageBody} {queryNum : ℤ}

theorem foldl_layers (hops : List ℤ) (w : ℤ) (rest : List ℤ) (hop : ℤ) (path : List ℤ)
    (hpath : hop :: path = hops.reverse ++ w :: rest) :
    hops.foldl (fun layer hop => crypto.rsaEncrypt (.make queryNum hop layer.toBody false) hop)
      (onionFor crypto payload queryNum w rest) = onionFor crypto payload queryNum hop path := by
  induction hops generalizing w rest with
  | nil =>
    obtain ⟨rfl, rfl⟩ := List.cons.inj hpath
    rfl
  | cons layer hops ih =>
    rw [List.foldl_cons]
    refine ih layer (w :: rest) ?_
    rw [hpath, List.reverse_cons, List.append_assoc]
    rfl

theorem buildEncryptedOnion_eq (hop : ℤ) (path : List ℤ) :
    buildEncryptedOnion crypto (hop :: path) payload queryNum =
      .ok (onionFor crypto payload queryNum hop path) := by
  unfold buildEncryptedOnion
  cases hreverse : (hop :: path).reverse with
  | nil => simp at hreverse
  | cons last hops =>
    have hpath : hop :: path = hops.reverse ++ [last] := by
      rw [← List.reverse_reverse (hop :: path), hreverse, List.reverse_cons]
    exact congrArg Except.ok (foldl_layers hops last [] hop path hpath)

end Onions

section Reading
variable {crypto : ℤ → CryptoLibrary} {payload : MessageBody} {queryNum : ℤ} {i id : ℤ}

theorem Sealing.canRead_seal_iff (hcrypto : Sealing crypto) {m : OverlayMessage} {target : ℤ}
    {b : MessageBody} (hplain : m.isEncrypted = false) :
    CanRead crypto id ((crypto i).rsaEncrypt m target) b ↔ id = target ∧ CanRead crypto id m b := by
  constructor
  · intro h
    generalize hsealed : (crypto i).rsaEncrypt m target = c at h
    have hencrypted : c.isEncrypted = true := hsealed ▸ hcrypto.isEncrypted i m target
    cases h with
    | body hc => exact absurd (hencrypted.symm.trans hc) (by decide)
    | enclosed hc => exact absurd (hencrypted.symm.trans hc) (by decide)
    | @opened m' _ hplain' h =>
      rw [hcrypto.encrypts i id] at hsealed
      obtain rfl := hcrypto.sealedFor id m m' target id hsealed
      have hsame := congrArg (crypto target).rsaDecrypt hsealed
      rw [hcrypto.opens target m hplain, hcrypto.opens target m' hplain'] at hsame
      exact ⟨rfl, hsame ▸ h⟩
  · rintro ⟨rfl, h⟩
    rw [hcrypto.encrypts i id]
    exact .opened hplain h

theorem Sealing.canRead_layer_iff (hcrypto : Sealing crypto) (hop : ℤ) (inner : OverlayMessage)
    (hinner : inner.toBody ≠ payload) :
    CanRead crypto id (.make queryNum hop inner.toBody false) payload ↔
      CanRead crypto id inner payload := by
  constructor
  · intro h
    generalize hlayer : OverlayMessage.make queryNum hop inner.toBody false = m at h
    cases h with
    | body hplain =>
      subst hlayer
      exact absurd rfl hinner
    | @enclosed _ m' _ hplain hbody h =>
      subst hlayer
      rw [OverlayMessage.make, OverlayMessage.asOverlayMessage_toBody, Option.some.injEq] at hbody
      rwa [hbody]
    | @opened m' _ hplain h =>
      have hencrypted := hcrypto.isEncrypted id m' id
      rw [← hlayer, OverlayMessage.make] at hencrypted
      contradiction
  · exact fun h => .enclosed rfl (OverlayMessage.asOverlayMessage_toBody inner) h

/-- Only a meter that has the keys of all meters of the path can read the payload. -/
theorem Sealing.canRead_onion_iff (hcrypto : Sealing crypto)
    (hpayload : payload.asOverlayMessage = none) (hop : ℤ) (path : List ℤ) :
    CanRead crypto id (onionFor (crypto i) payload queryNum hop path) payload ↔
      ∀ h ∈ hop :: path, h = id := by
  have hne (inner : OverlayMessage) : inner.toBody ≠ payload := by
    rintro rfl
    rw [OverlayMessage.asOverlayMessage_toBody] at hpayload
    contradiction
  induction path generalizing hop with
  | nil =>
    rw [onionFor, hcrypto.canRead_seal_iff rfl, and_iff_left (.body rfl)]
    simp [eq_comm]
  | cons next rest ih =>
    rw [onionFor, hcrypto.canRead_seal_iff rfl, hcrypto.canRead_layer_iff hop _ (hne _),
      List.forall_mem_cons, eq_comm]
    exact and_congr_right fun _ => ih next

/-- The header of an onion, whose only readable part it is for most. -/
theorem Sealing.onion_header (hcrypto : Sealing crypto) (hop : ℤ) (path : List ℤ) :
    (onionFor (crypto i) payload queryNum hop path).destination = hop ∧
      (onionFor (crypto i) payload queryNum hop path).queryNum = queryNum ∧
      (onionFor (crypto i) payload queryNum hop path).isEncrypted = true := by
  cases path <;> exact ⟨hcrypto.destination _ _ _, hcrypto.queryNum _ _ _,
    hcrypto.isEncrypted _ _ _⟩

/-- What the hop obtains with its own key. -/
def obtained (crypto : CryptoLibrary) (payload : MessageBody) (queryNum hop : ℤ) : List ℤ → OverlayMessage
  | [] => .make queryNum hop payload false
  | next :: rest => .make queryNum hop (onionFor crypto payload queryNum next rest).toBody false

theorem Sealing.not_shows_obtained (hcrypto : Sealing crypto)
    (hpayload : payload.asOverlayMessage = none) (hop next : ℤ) (rest : List ℤ) :
    ¬ Shows (obtained (crypto i) payload queryNum hop (next :: rest)) payload := by
  intro h
  generalize hm : obtained (crypto i) payload queryNum hop (next :: rest) = m at h
  have hinner : m.body.asOverlayMessage =
      some (onionFor (crypto i) payload queryNum next rest) := by
    rw [← hm]
    exact OverlayMessage.asOverlayMessage_toBody _
  cases h with
  | body => simp [hpayload] at hinner
  | enclosed hplain hbody h =>
    obtain rfl := Option.some.inj (hinner.symm.trans hbody)
    have hencrypted : (onionFor (crypto i) payload queryNum next rest).isEncrypted = true :=
      (hcrypto.onion_header next rest).2.2
    exact absurd (hencrypted.symm.trans h.plain) (by decide)

theorem Sealing.received_onion (hcrypto : Sealing crypto) (hop : ℤ) (path : List ℤ) :
    (onionFor (crypto i) payload queryNum hop path).received (crypto hop) =
      obtained (crypto i) payload queryNum hop path ∧
      (onionFor (crypto i) payload queryNum hop path).readdressed (crypto hop) = [] := by
  have hopened : (onionFor (crypto i) payload queryNum hop path).opened (crypto hop) =
      obtained (crypto i) payload queryNum hop path := by
    rw [OverlayMessage.opened, if_pos (hcrypto.onion_header hop path).2.2]
    cases path <;> rw [onionFor, hcrypto.encrypts i hop, hcrypto.opens _ _ rfl, obtained]
  have hpath : (obtained (crypto i) payload queryNum hop path).remainingPath = none := by
    cases path <;> rfl
  unfold OverlayMessage.received OverlayMessage.readdressed
  rw [hopened, hpath]
  exact ⟨rfl, rfl⟩

end Reading
namespace CtProtocolState
open ProtocolState (noteOverlay)

theorem handleBody_layer {env : ProtocolEnv} (queryNum hop : ℤ) (inner : OverlayMessage) (s : State) :
    handleBody env (.make queryNum hop inner.toBody false) s = .done (s.wait inner) := by
  rw [handleBody_eq, OverlayMessage.make, OverlayMessage.asOverlayMessage_toBody]

theorem handleBody_payload {env : ProtocolEnv} {message : OverlayMessage}
    (hpayload : message.body.asOverlayMessage = none) (s : State) :
    (handleBody env message s).Holds fun t => t.waitingMessages = s.waitingMessages := by
  have heffect (t : State) (ht : BodyEffect env message s t) :
      t.waitingMessages = s.waitingMessages := by
    cases ht with
    | ignored => rfl
    | forwarded enclosed hbody => simp [hpayload] at hbody
    | accepted contribution =>
      unfold ProtocolState.emplaceProxyValue
      split_ifs <;> rfl
  exact (handleBody_effect message s).mono heffect heffect

/-- Whoever builds an onion, it is sealed for the first meter of its path; every meter but the
last obtains with its own key exactly the onion for the rest of the path, which does not show
the payload, and lets it wait to be sent on; the last one hands the payload to its protocol.
With all its key opens, a meter reads the payload only if no other meter is still to come. -/
theorem onion_law {crypto : ℤ → CryptoLibrary} (hcrypto : Sealing crypto) {payload : MessageBody}
    (hpayload : payload.asOverlayMessage = none) (sender queryNum : ℤ) {path : List ℤ}
    (hpath : path ≠ []) :
    (∃ onion, buildEncryptedOnion (crypto sender) path payload queryNum = .ok onion) ∧
    ∀ hop rest, hop :: rest <:+ path → ∀ layer,
      buildEncryptedOnion (crypto sender) (hop :: rest) payload queryNum = .ok layer →
      (∃ m, layer = (crypto sender).rsaEncrypt m hop) ∧ layer.destination = hop ∧
      layer.queryNum = queryNum ∧
      (∀ id, CanRead crypto id layer payload ↔ ∀ h ∈ hop :: rest, h = id) ∧
      ∀ (env : ProtocolEnv) (endRound : State → Outcome Fault State)
        (message : OverlayTransportMessage) (s : State), env.meterId = hop →
        env.crypto = crypto hop → message.body = layer →
        let finish := fun t : State =>
          if message.isFinalMessage && isInOverlayPhase t.impl then
            endRound (t.leaving (.finalMessage message.senderRound))
          else .done t
        (noteOverlay env protocol message s).waitingMessages = s.waitingMessages ∧
        (rest ≠ [] → ∃ inner,
          buildEncryptedOnion (crypto sender) rest payload queryNum = .ok inner ∧
          (layer.received env.crypto).body = inner.toBody ∧
          ¬ Shows (layer.received env.crypto) payload ∧
          ProtocolState.handleOverlayMessage env protocol endRound message s =
            finish ((noteOverlay env protocol message s).wait inner)) ∧
        (rest = [] → ProtocolState.handleOverlayMessage env protocol endRound message s =
          (handleBody env (.make queryNum hop payload false)
            (noteOverlay env protocol message s)).andThen finish ∧
          (handleBody env (.make queryNum hop payload false)
            (noteOverlay env protocol message s)).Holds
              fun t => t.waitingMessages = s.waitingMessages) := by
  constructor
  · obtain ⟨hop, rest, rfl⟩ := List.exists_cons_of_ne_nil hpath
    exact ⟨_, buildEncryptedOnion_eq hop rest⟩
  intro hop rest _ layer hlayer
  rw [buildEncryptedOnion_eq] at hlayer
  obtain rfl := Except.ok.inj hlayer
  have hheader : (onionFor (crypto sender) payload queryNum hop rest).destination = hop ∧ _ :=
    hcrypto.onion_header hop rest
  refine ⟨?_, hheader.1, hheader.2.1, fun id => hcrypto.canRead_onion_iff hpayload hop rest, ?_⟩
  · cases rest <;> exact ⟨_, rfl⟩
  rintro env endRound message s rfl hkey hbody finish
  obtain ⟨hreceived, hreaddressed⟩ := hcrypto.received_onion (i := sender) env.meterId rest
  rw [← hkey, ← hbody] at hreceived hreaddressed
  have hwaiting : (noteOverlay env protocol message s).waitingMessages = s.waitingMessages := by
    obtain ⟨timer, timers, hnote⟩ := ProtocolState.noteOverlay_fields env protocol message s
    rw [hnote, hreaddressed, List.append_nil]
  have hhandle : ProtocolState.handleOverlayMessage env protocol endRound message s =
      (handleBody env (obtained (crypto sender) payload queryNum env.meterId rest)
        (noteOverlay env protocol message s)).andThen finish := by
    rw [layered.handleOverlayMessage_eq, ProtocolState.Layered.absorb, hreceived]
    rfl
  refine ⟨hwaiting, fun hrest => ?_, fun hrest => ?_⟩
  · obtain ⟨next, rest, rfl⟩ := List.exists_cons_of_ne_nil hrest
    refine ⟨_, buildEncryptedOnion_eq next rest, ?_, ?_, ?_⟩
    · rw [← hbody, hreceived]
      rfl
    · rw [← hbody, hreceived]
      exact hcrypto.not_shows_obtained hpayload _ next rest
    · rw [hhandle, obtained, handleBody_layer]
      rfl
  · subst hrest
    refine ⟨hhandle, ?_⟩
    rw [← hwaiting]
    exact handleBody_payload hpayload _

/-- A library that puts the body of a message into a box for a meter. -/
def boxes (id : ℤ) : CryptoLibrary :=
  { dummyCrypto with
    rsaEncrypt := fun m target =>
      { m with isEncrypted := true, body := .overlay 0 target false false m.body }
    rsaDecrypt := fun m =>
      match m.body with
      | .overlay _ target _ _ body =>
          if target = id then { m with isEncrypted := false, body := body } else m
      | _ => m }

theorem boxes_sealing : Sealing boxes where
  encrypts _ _ := rfl
  isEncrypted _ _ _ := rfl
  queryNum _ _ _ := rfl
  destination _ _ _ := rfl
  opens id m hplain := by
    obtain ⟨queryNum, destination, isEncrypted, flood, remainingPath, body⟩ := m
    obtain rfl : isEncrypted = false := hplain
    exact if_pos rfl
  sealedFor i m m' id id' h := by
    have hbody := congrArg OverlayMessage.body h
    injection hbody

/-- Of three meters on a path, the first two cannot read what is for the third. -/
theorem onion_law_boxes : ([3, 5, 4] : List ℤ) ≠ [] ∧
    (MessageBody.string "7").asOverlayMessage = none ∧
    (∃ onion, buildEncryptedOnion (boxes 9) [3, 5, 4] (.string "7") 2 = .ok onion) ∧
    ∀ layer, buildEncryptedOnion (boxes 9) [3, 5, 4] (.string "7") 2 = .ok layer →
      layer.destination = 3 ∧ ∀ id, CanRead boxes id layer (.string "7") ↔
        ∀ h ∈ ([3, 5, 4] : List ℤ), h = id := by
  have hlaw : (∃ onion, buildEncryptedOnion (boxes 9) [3, 5, 4] (.string "7") 2 = .ok onion) ∧ _ :=
    onion_law boxes_sealing rfl 9 2 (by decide)
  refine ⟨by decide, rfl, hlaw.1, fun layer hlayer => ?_⟩
  obtain ⟨-, hdestination, -, hread, -⟩ := hlaw.2 3 [5, 4] List.suffix_rfl layer hlayer
  exact ⟨hdestination, hread⟩

end CtProtocolState
end Pddm
