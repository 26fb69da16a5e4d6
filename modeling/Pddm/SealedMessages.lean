import Pddm.OnionLaw
import Pddm.PathRounds

/-!
# Sealed messages

Whom the messages of the protocols are sealed for: an onion for its next hop, a flooded message
for its destination, but a path message for the last hop of its path.
-/
namespace Pddm

/-- Encryption leaves the whole header of a message as it is. -/
structure SealsBody (crypto : ℤ → CryptoLibrary) : Prop extends Sealing crypto where
  flood : ∀ i m id, ((crypto i).rsaEncrypt m id).flood = m.flood
  remainingPath : ∀ i m id, ((crypto i).rsaEncrypt m id).remainingPath = m.remainingPath

def SealedFor (crypto : ℤ → CryptoLibrary) (id : ℤ) (m : OverlayMessage) : Prop :=
  ∃ plain, m = (crypto id).rsaEncrypt plain id

namespace OverlayMessage

/-- The last meter on the way of a message. -/
def addressee (m : OverlayMessage) : ℤ :=
  (m.destination :: m.remainingPath.getD []).getLast?.getD 0

theorem addressee_of_direct {m : OverlayMessage} (h : m.remainingPath.getD [] = []) :
    m.addressee = m.destination := by
  rw [addressee, h]
  rfl

/-- No meter is met twice on the way of a message, and messages with a path are not flooded. -/
structure GoesStraight (m : OverlayMessage) : Prop where
  nodup : (m.destination :: m.remainingPath.getD []).Nodup
  flood : m.remainingPath.getD [] ≠ [] → m.flood = false

theorem GoesStraight.addressee_eq_iff {m : OverlayMessage} (h : m.GoesStraight) :
    m.addressee = m.destination ↔ m.remainingPath.getD [] = [] := by
  constructor
  · intro haddressee
    by_contra hpath
    have hlast : m.addressee = (m.remainingPath.getD []).getLast hpath := by
      rw [addressee, List.getLast?_cons_of_ne_nil hpath, List.getLast?_eq_some_getLast hpath]
      rfl
    have hmem := List.getLast_mem hpath
    rw [← hlast, haddressee] at hmem
    exact (List.nodup_cons.mp h.nodup).1 hmem
  · exact addressee_of_direct

end OverlayMessage

/-- Whatever is sealed in a message, or in one that it encloses, is sealed for its addressee. -/
inductive WellSealed (crypto : ℤ → CryptoLibrary) : OverlayMessage → Prop
  | plain {m : OverlayMessage} (hplain : m.isEncrypted = false)
      (henclosed : ∀ inner, m.body.asOverlayMessage = some inner → WellSealed crypto inner) :
      WellSealed crypto m
  | sealed {m : OverlayMessage} (hplain : m.isEncrypted = false) (hstraight : m.GoesStraight)
      (henclosed : ∀ inner, m.body.asOverlayMessage = some inner → WellSealed crypto inner) :
      WellSealed crypto ((crypto m.addressee).rsaEncrypt m m.addressee)

section Messages
variable {crypto : ℤ → CryptoLibrary} (hcrypto : SealsBody crypto) {m inner : OverlayMessage}
  {i : ℤ}

theorem WellSealed.of_payload (hplain : m.isEncrypted = false)
    (hpayload : m.body.asOverlayMessage = none) : WellSealed crypto m :=
  .plain hplain fun inner hinner => by simp [hpayload] at hinner

include hcrypto

theorem WellSealed.seal (sender : ℤ) (hplain : m.isEncrypted = false) (hstraight : m.GoesStraight)
    (henclosed : ∀ inner, m.body.asOverlayMessage = some inner → WellSealed crypto inner) :
    WellSealed crypto ((crypto sender).rsaEncrypt m m.addressee) := by
  rw [hcrypto.encrypts sender m.addressee]
  exact .sealed hplain hstraight henclosed

theorem WellSealed.enclosed (h : WellSealed crypto m) (hplain : m.isEncrypted = false)
    (hinner : m.body.asOverlayMessage = some inner) : WellSealed crypto inner := by
  cases h with
  | plain _ henclosed => exact henclosed inner hinner
  | sealed => simp [hcrypto.isEncrypted] at hplain

theorem WellSealed.sealedFor_iff (h : WellSealed crypto m) (hsealed : m.isEncrypted = true) :
    SealedFor crypto i m ↔ m.addressee = i := by
  cases h with
  | plain hplain => simp [hplain] at hsealed
  | @sealed m' hplain =>
    have hsame : ((crypto m'.addressee).rsaEncrypt m' m'.addressee).addressee = m'.addressee := by
      rw [OverlayMessage.addressee, hcrypto.destination, hcrypto.remainingPath,
        OverlayMessage.addressee]
    rw [hsame]
    constructor
    · rintro ⟨other, hother⟩
      rw [hcrypto.encrypts i m'.addressee] at hother
      exact hcrypto.sealedFor _ _ _ _ _ hother
    · rintro rfl
      exact ⟨m', rfl⟩

theorem WellSealed.goesStraight (h : WellSealed crypto m) (hsealed : m.isEncrypted = true) :
    m.GoesStraight := by
  cases h with
  | plain hplain => simp [hplain] at hsealed
  | @sealed m' hplain hstraight =>
    constructor
    · rw [hcrypto.destination, hcrypto.remainingPath]
      exact hstraight.nodup
    · rw [hcrypto.flood, hcrypto.remainingPath]
      exact hstraight.flood

theorem WellSealed.opened (h : WellSealed crypto m)
    (hkey : m.isEncrypted = true → SealedFor crypto i m) :
    WellSealed crypto (m.opened (crypto i)) ∧ (m.opened (crypto i)).isEncrypted = false := by
  unfold OverlayMessage.opened
  split_ifs with hsealed
  · have haddressee := (h.sealedFor_iff hcrypto hsealed).mp (hkey hsealed)
    cases h with
    | plain hplain => simp [hplain] at hsealed
    | @sealed m' hplain _ henclosed =>
      have hsame : m'.addressee = i := by
        rw [← haddressee, OverlayMessage.addressee, OverlayMessage.addressee, hcrypto.destination,
          hcrypto.remainingPath]
      rw [hsame, hcrypto.opens i m' hplain]
      exact ⟨.plain hplain henclosed, hplain⟩
  · exact ⟨h, by simpa using hsealed⟩

theorem WellSealed.received (h : WellSealed crypto m)
    (hkey : m.isEncrypted = true → SealedFor crypto i m) :
    WellSealed crypto (m.received (crypto i)) ∧ (m.received (crypto i)).isEncrypted = false ∧
      ∀ w ∈ m.readdressed (crypto i), WellSealed crypto w := by
  obtain ⟨hopened, hplain⟩ := h.opened hcrypto hkey
  unfold OverlayMessage.received OverlayMessage.readdressed
  split
  · next hop rest hpath =>
    have hforward : WellSealed crypto { m.opened (crypto i) with
        destination := hop, remainingPath := some rest } :=
      .plain hplain fun inner hinner => hopened.enclosed hcrypto hplain hinner
    refine ⟨hforward, hplain, fun w hw => ?_⟩
    have hsame : w = m.received (crypto i) := List.mem_singleton.mp hw
    rw [hsame, OverlayMessage.received, hpath]
    exact hforward
  · exact ⟨hopened, hplain, by simp⟩

theorem wellSealed_onionFor {payload : MessageBody} (hpayload : payload.asOverlayMessage = none)
    (queryNum sender hop : ℤ) (path : List ℤ) :
    WellSealed crypto (onionFor (crypto sender) payload queryNum hop path) := by
  have hstraight (hop : ℤ) (body : MessageBody) :
      (OverlayMessage.make queryNum hop body false).GoesStraight :=
    ⟨by simp [OverlayMessage.make], by simp [OverlayMessage.make]⟩
  induction path generalizing hop with
  | nil =>
    refine WellSealed.seal hcrypto sender rfl (hstraight hop payload) fun inner hinner => ?_
    change payload.asOverlayMessage = some inner at hinner
    simp [hpayload] at hinner
  | cons next rest ih =>
    refine WellSealed.seal hcrypto sender rfl (hstraight hop _) fun inner hinner => ?_
    rw [OverlayMessage.make, OverlayMessage.asOverlayMessage_toBody] at hinner
    obtain rfl := Option.some.inj hinner
    exact ih next

theorem wellSealed_onion {payload : MessageBody} (hpayload : payload.asOverlayMessage = none)
    {queryNum sender : ℤ} {path : List ℤ}
    (h : buildEncryptedOnion (crypto sender) path payload queryNum = .ok m) :
    WellSealed crypto m := by
  cases path with
  | nil => simp [buildEncryptedOnion] at h
  | cons hop path =>
    rw [buildEncryptedOnion_eq] at h
    obtain rfl := Except.ok.inj h
    exact wellSealed_onionFor hcrypto hpayload queryNum sender hop path

omit hcrypto in
theorem nodup_of_findPaths {π : IterationOrder} {source n start : ℤ} {targets path : List ℤ}
    {paths : List (List ℤ)} (h : findPaths π source targets n start = .ok paths)
    (hpath : path ∈ paths) : path.Nodup := by
  rw [findPaths_eq] at h
  obtain ⟨k, hk⟩ := List.getElem?_of_mem hpath
  obtain ⟨_, _, _, found, hfound, rfl, -⟩ := exists_planned h hk
  exact hfound.nodup

theorem wellSealed_multicast {π : IterationOrder} {sender nodeId n start queryNum : ℤ}
    {proxies : List ℤ} {body : MessageBody} {messages : List OverlayMessage}
    (hpayload : body.asOverlayMessage = none)
    (h : multicastToOtherProxies π (crypto sender) nodeId n start queryNum proxies body =
      .ok messages) (hm : m ∈ messages) : WellSealed crypto m := by
  obtain ⟨others, paths, hop, rest, hpaths, hpath, rfl⟩ := exists_path_of_multicast h hm
  refine WellSealed.seal (m := ⟨queryNum, hop, false, false, some rest, body⟩) hcrypto sender rfl
    ⟨nodup_of_findPaths hpaths hpath, fun _ => rfl⟩ fun inner hinner => ?_
  simp [hpayload] at hinner

end Messages
end Pddm
