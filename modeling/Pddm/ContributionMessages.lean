import Pddm.ProxyBuffers
import Pddm.SealedMessages

/-!
# Contributions on their way

A message brings a contribution to a proxy that the contribution names, whatever layers and
detours there are on its way.
-/
namespace Pddm

/-- Encryption and decryption do no more than to mark a message, as in a simulation. -/
structure CryptoLibrary.OnlyMarks (crypto : CryptoLibrary) : Prop where
  encrypt : ∀ m id, ∃ mark, crypto.rsaEncrypt m id = { m with isEncrypted := mark }
  decrypt : ∀ m, ∃ mark, crypto.rsaDecrypt m = { m with isEncrypted := mark }

theorem dummyCrypto_onlyMarks : dummyCrypto.OnlyMarks :=
  ⟨fun _ _ => ⟨true, rfl⟩, fun _ => ⟨false, rfl⟩⟩

def MessageBody.contributed : MessageBody → Option ValueContribution
  | .valueContribution v => some v
  | .signedValue signed => some signed.value
  | .agreementValue agreed => some agreed.signedValue.value
  | _ => none

theorem MessageBody.contributed_of_asValueContribution {body : MessageBody} {v : ValueContribution}
    (h : body.asValueContribution = some v) : body.contributed = some v := by
  cases body with
  | valueContribution => exact h
  | _ => cases h

theorem MessageBody.asOverlayMessage_of_contributed {body : MessageBody} {v : ValueContribution}
    (h : body.contributed = some v) : body.asOverlayMessage = none := by
  cases body with
  | valueContribution | signedValue | agreementValue => rfl
  | _ => cases h

/-- The message, or the innermost one that it encloses, brings a good contribution to one of the
proxies that this contribution names. -/
inductive Destined (good : ValueContribution → Prop) : OverlayMessage → Prop
  | intro {m : OverlayMessage} (hstraight : m.GoesStraight)
      (hcontributed : ∀ v, m.body.contributed = some v →
        good v ∧ m.addressee ∈ v.value.proxies)
      (henclosed : ∀ inner, m.body.asOverlayMessage = some inner → Destined good inner) :
      Destined good m

structure GoesTo (good : ValueContribution → Prop) (recipientId : ℤ) (m : OverlayMessage) :
    Prop where
  destined : Destined good m
  destination : m.flood = false → m.destination = recipientId

section Handling
variable {good : ValueContribution → Prop} {crypto : CryptoLibrary} {m inner w : OverlayMessage}
  {i : ℤ} {v : ValueContribution}

theorem Destined.straight (h : Destined good m) : m.GoesStraight := by
  cases h with
  | intro hstraight => exact hstraight

theorem Destined.contributed (h : Destined good m) (hv : m.body.contributed = some v) :
    good v ∧ m.addressee ∈ v.value.proxies := by
  cases h with
  | intro _ hcontributed => exact hcontributed v hv

theorem Destined.enclosed (h : Destined good m) (hinner : m.body.asOverlayMessage = some inner) :
    Destined good inner := by
  cases h with
  | intro _ _ henclosed => exact henclosed inner hinner

theorem Destined.of_fields (h : Destined good m) (hstraight : w.GoesStraight)
    (haddressee : w.addressee = m.addressee) (hbody : w.body = m.body) : Destined good w := by
  refine .intro hstraight (fun v hv => ?_) fun inner hinner => ?_
  · rw [haddressee]
    exact h.contributed (hbody ▸ hv)
  · exact h.enclosed (hbody ▸ hinner)

theorem Destined.mark (h : Destined good m) (isEncrypted : Bool) :
    Destined good { m with isEncrypted := isEncrypted } :=
  h.of_fields ⟨h.straight.nodup, h.straight.flood⟩ rfl rfl

theorem destined_of_empty (hpath : m.remainingPath = none) (hcontributed : m.body.contributed = none)
    (hinner : m.body.asOverlayMessage = none) : Destined good m := by
  refine .intro ⟨by simp [hpath], by simp [hpath]⟩ ?_ ?_
  · simp [hcontributed]
  · simp [hinner]

theorem OverlayMessage.opened_eq (hcrypto : crypto.OnlyMarks) (m : OverlayMessage) :
    ∃ mark, m.opened crypto = { m with isEncrypted := mark } := by
  unfold OverlayMessage.opened
  split_ifs
  · exact hcrypto.decrypt m
  · exact ⟨m.isEncrypted, rfl⟩

/-- The next hop has the same addressee ahead. -/
theorem Destined.forward (h : Destined good m) {hop : ℤ} {rest : List ℤ}
    (hpath : m.remainingPath = some (hop :: rest)) :
    Destined good { m with destination := hop, remainingPath := some rest } := by
  have hnodup := h.straight.nodup
  have hflood : m.flood = false := h.straight.flood (by simp [hpath])
  rw [hpath, Option.getD_some, List.nodup_cons] at hnodup
  refine h.of_fields ⟨hnodup.2, fun _ => hflood⟩ ?_ rfl
  simp [OverlayMessage.addressee, hpath, List.getLast?_cons_cons]

/-- What is handed to the protocol, and what is put aside, is on the way as before. -/
theorem Destined.received (hcrypto : crypto.OnlyMarks) (h : Destined good m) :
    Destined good (m.received crypto) ∧ ∀ w ∈ m.readdressed crypto, Destined good w := by
  obtain ⟨mark, hopened⟩ := m.opened_eq hcrypto
  unfold OverlayMessage.readdressed OverlayMessage.received
  rw [hopened]
  split
  · next hop rest hpath =>
    have hforward := (h.mark mark).forward hpath
    exact ⟨hforward, fun w hw => List.mem_singleton.mp hw ▸ hforward⟩
  · exact ⟨h.mark mark, by simp⟩

/-- A meter reads the contributions only that name it as a proxy. -/
theorem GoesTo.names (hcrypto : crypto.OnlyMarks) (h : GoesTo good i m)
    (hdestination : (m.received crypto).destination = i)
    (hv : (m.received crypto).body.contributed = some v) : good v ∧ i ∈ v.value.proxies := by
  obtain ⟨mark, hopened⟩ := m.opened_eq hcrypto
  unfold OverlayMessage.received at hdestination hv
  rw [hopened] at hdestination hv
  split at hdestination
  · next hop rest hpath =>
    -- the next hop is not this meter, which the message has reached
    have hflood : m.flood = false := h.destined.straight.flood (by simp [show m.remainingPath = _ from hpath])
    have hnodup := h.destined.straight.nodup
    rw [show m.remainingPath = _ from hpath, h.destination hflood] at hnodup
    exact absurd hdestination (by simp at hnodup; tauto)
  · next hpath =>
    have hnone : m.remainingPath.getD [] = [] := by
      cases hremaining : m.remainingPath with
      | none => rfl
      | some path =>
        cases path with
        | nil => rfl
        | cons hop rest => exact absurd hremaining (hpath hop rest)
    rw [← hdestination, ← OverlayMessage.addressee_of_direct hnone]
    split at hv
    · next hop rest hpath' => exact absurd hpath' (hpath hop rest)
    · exact h.destined.contributed hv

end Handling

section Sending
variable {good : ValueContribution → Prop} {crypto : CryptoLibrary} {m : OverlayMessage}
  {v : ValueContribution} {body : MessageBody}

theorem mem_targets_of_findPaths {π : IterationOrder} {source n start : ℤ} {targets path : List ℤ}
    {paths : List (List ℤ)} (h : findPaths π source targets n start = .ok paths)
    (hpath : path ∈ paths) : ∃ target ∈ targets, path.getLast? = some target := by
  rw [findPaths_eq] at h
  generalize searchLimit n start targets = maxRound at h
  suffices hall : ∀ ts used, findPathsFrom π source n start maxRound ts used = .ok paths →
      ∃ target ∈ ts, path.getLast? = some target from hall _ _ h
  clear h
  intro ts
  induction ts generalizing paths with
  | nil =>
    intro used h
    obtain rfl := Except.ok.inj h
    cases hpath
  | cons target ts ih =>
    intro used h
    obtain ⟨found, used', rest, hsearch, hrest, rfl⟩ := findPathsFrom_cons_eq_ok h
    rcases List.mem_cons.mp hpath with rfl | hpath
    · obtain ⟨k, -, hfound, -⟩ := findAnother_ok hsearch
      obtain ⟨u, visited, _, -, -, -, hhops⟩ := hfound.hops
      refine ⟨target, by simp, ?_⟩
      have hreverse : found.tail.reverse.head? = some target := by
        cases hr : found.tail.reverse with
        | nil => simp [hr] at hhops
        | cons first others =>
          rw [hr] at hhops
          exact congrArg some (List.cons.inj hhops).1
      rwa [List.head?_reverse] at hreverse
    · obtain ⟨t, ht, hlast⟩ := ih hpath used' hrest
      exact ⟨t, List.mem_cons_of_mem _ ht, hlast⟩

variable (hcrypto : crypto.OnlyMarks)
include hcrypto

theorem Destined.seal (h : Destined good m) (id : ℤ) : Destined good (crypto.rsaEncrypt m id) := by
  obtain ⟨mark, hmark⟩ := hcrypto.encrypt m id
  rw [hmark]
  exact h.mark mark

theorem destined_direct {queryNum proxy : ℤ} {flood : Bool} (hbody : body.contributed = some v)
    (hgood : good v) (hproxy : proxy ∈ v.value.proxies) :
    Destined good (crypto.rsaEncrypt (.make queryNum proxy body flood) proxy) := by
  refine Destined.seal hcrypto (.intro ⟨by simp [OverlayMessage.make], by simp [OverlayMessage.make]⟩
    (fun w hw => ?_) fun inner hinner => ?_) proxy
  · obtain rfl := Option.some.inj (hbody.symm.trans hw)
    exact ⟨hgood, hproxy⟩
  · rw [show (OverlayMessage.make queryNum proxy body flood).body.asOverlayMessage = none from
      MessageBody.asOverlayMessage_of_contributed hbody] at hinner
    cases hinner

theorem Destined.layer (h : Destined good m) (queryNum hop : ℤ) (flood : Bool) :
    Destined good (crypto.rsaEncrypt (.make queryNum hop m.toBody flood) hop) := by
  refine Destined.seal hcrypto (.intro ⟨by simp [OverlayMessage.make], by simp [OverlayMessage.make]⟩
    (fun w hw => ?_) fun inner hinner => ?_) hop
  · have hnone := MessageBody.asOverlayMessage_of_contributed hw
    simp [OverlayMessage.make] at hnone
  · rw [OverlayMessage.make, OverlayMessage.asOverlayMessage_toBody] at hinner
    obtain rfl := Option.some.inj hinner
    exact h

theorem destined_onion {queryNum : ℤ} {path : List ℤ} (hbody : body.contributed = some v)
    (hgood : good v) (hlast : ∃ proxy ∈ v.value.proxies, path.getLast? = some proxy)
    (h : buildEncryptedOnion crypto path body queryNum = .ok m) : Destined good m := by
  obtain ⟨proxy, hproxy, hlast⟩ := hlast
  cases path with
  | nil => cases hlast
  | cons hop path =>
    rw [buildEncryptedOnion_eq] at h
    obtain rfl := Except.ok.inj h
    clear h
    induction path generalizing hop with
    | nil =>
      obtain rfl : hop = proxy := by simpa using hlast
      exact destined_direct hcrypto hbody hgood hproxy
    | cons next rest ih =>
      rw [List.getLast?_cons_cons] at hlast
      exact Destined.layer hcrypto (ih next hlast) queryNum hop false

theorem destined_multicast {π : IterationOrder} {nodeId n start queryNum : ℤ}
    {messages : List OverlayMessage} (hbody : body.contributed = some v) (hgood : good v)
    (hnodup : v.value.proxies.Nodup) (hproxy : nodeId ∈ v.value.proxies)
    (h : multicastToOtherProxies π crypto nodeId n start queryNum v.value.proxies body =
      .ok messages) (hm : m ∈ messages) : Destined good m := by
  obtain ⟨others, paths, hop, rest, hothers, hpaths, hpath, rfl⟩ := exists_others_of_multicast h hm
  have hcount : NamesOnce nodeId v := List.count_eq_one_of_mem hnodup hproxy
  obtain rfl := Except.ok.inj (hcount.fillsExactly.2.symm.trans hothers)
  obtain ⟨target, htarget, hlast⟩ := mem_targets_of_findPaths hpaths hpath
  refine Destined.seal hcrypto (.intro ⟨nodup_of_findPaths hpaths hpath, fun _ => rfl⟩
    (fun w hw => ?_) fun inner hinner => ?_) _
  · obtain rfl := Option.some.inj (hbody.symm.trans hw)
    refine ⟨hgood, ?_⟩
    simp only [OverlayMessage.addressee, Option.getD_some, hlast]
    exact List.mem_of_mem_erase htarget
  · rw [show (OverlayMessage.mk queryNum hop false false (some rest) body).body.asOverlayMessage =
      none from MessageBody.asOverlayMessage_of_contributed hbody] at hinner
    cases hinner

end Sending
end Pddm
