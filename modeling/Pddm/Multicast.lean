import Pddm.Messages
import Pddm.Outcome
import Pddm.PathFinder

/-!
# Multicast to proxies

The two carriers a contribution travels in: an onion with one sealed layer for
each hop, and a path message sealed for its last hop only.
-/
namespace Pddm

/-- This node's ID taken out of a list of proxies: `std::remove_copy` into a
zeroed buffer of one entry less, which it may overrun or fill in part. -/
def otherProxies (proxies : List ℤ) (nodeId : ℤ) : Except Fault (List ℤ) :=
  let kept := proxies.filter (· ≠ nodeId)
  -- the size of the buffer wraps around when there are no proxies
  if proxies.length = 0 then .error .exception
  else if proxies.length - 1 < kept.length then .error .undefinedBehaviour
  else .ok (kept ++ List.replicate (proxies.length - 1 - kept.length) 0)

/-- The constructor of `PathOverlayMessage`; it reads the front of the path. -/
def pathOverlayMessage (queryNum : ℤ) (path : List ℤ) (body : MessageBody) :
    Except Fault OverlayMessage :=
  match path with
  | [] => .error .undefinedBehaviour
  | hop :: rest => .ok ⟨queryNum, hop, false, false, some rest, body⟩

/-- Layers from the end of the path to its beginning, each sealed for its hop. -/
def buildEncryptedOnion (crypto : CryptoLibrary) (path : List ℤ) (payload : MessageBody)
    (queryNum : ℤ) : Except Fault OverlayMessage :=
  match path.reverse with
  | [] => .error .undefinedBehaviour
  | last :: hops =>
      .ok (hops.foldl
        (fun layer hop => crypto.rsaEncrypt (.make queryNum hop layer.toBody false) hop)
        (crypto.rsaEncrypt (.make queryNum last payload false) last))

/-- A path message to each of the other proxies, sealed for its last hop. -/
def multicastToOtherProxies (π : IterationOrder) (crypto : CryptoLibrary)
    (nodeId numNodes startRound queryNum : ℤ) (proxies : List ℤ) (body : MessageBody) :
    Except Fault (List OverlayMessage) := do
  let others ← otherProxies proxies nodeId
  let paths ← findPaths π nodeId others numNodes startRound
  paths.mapM fun path => do
    let message ← pathOverlayMessage queryNum path body
    .ok (crypto.rsaEncrypt message (path.getLast?.getD 0))

/-- Encryption and decryption are of the body: the query number stays readable. -/
structure CryptoLibrary.KeepsQueryNum (crypto : CryptoLibrary) : Prop where
  encrypt : ∀ m id, (crypto.rsaEncrypt m id).queryNum = m.queryNum
  decrypt : ∀ m, (crypto.rsaDecrypt m).queryNum = m.queryNum

theorem dummyCrypto_keepsQueryNum : dummyCrypto.KeepsQueryNum := ⟨fun _ _ => rfl, fun _ => rfl⟩

/-- A path message as it is sent, sealed for its last hop. -/
def IsPathMessage (crypto : CryptoLibrary) (queryNum : ℤ) (m : OverlayMessage) : Prop :=
  ∃ hop rest body, m = crypto.rsaEncrypt ⟨queryNum, hop, false, false, some rest, body⟩
    ((hop :: rest).getLast?.getD 0)

def IsOnion (crypto : CryptoLibrary) (queryNum : ℤ) (m : OverlayMessage) : Prop :=
  ∃ path payload, buildEncryptedOnion crypto path payload queryNum = .ok m

variable {crypto : CryptoLibrary} {queryNum : ℤ} {m : OverlayMessage}

theorem IsPathMessage.queryNum_eq (hcrypto : crypto.KeepsQueryNum)
    (h : IsPathMessage crypto queryNum m) : m.queryNum = queryNum := by
  obtain ⟨hop, rest, body, rfl⟩ := h
  exact hcrypto.encrypt _ _

theorem IsOnion.queryNum_eq (hcrypto : crypto.KeepsQueryNum) (h : IsOnion crypto queryNum m) :
    m.queryNum = queryNum := by
  obtain ⟨path, payload, h⟩ := h
  unfold buildEncryptedOnion at h
  split at h
  · cases h
  · obtain rfl := Except.ok.inj h
    refine List.foldlRecOn (motive := fun layer : OverlayMessage => layer.queryNum = queryNum) _ _
      (hcrypto.encrypt _ _) fun _ _ _ _ => hcrypto.encrypt _ _

/-- A multicast sends along the paths that it finds to the other proxies, each message sealed for
the last hop. -/
theorem exists_others_of_multicast {π : IterationOrder} {nodeId numNodes startRound : ℤ}
    {proxies : List ℤ} {body : MessageBody} {messages : List OverlayMessage}
    (h : multicastToOtherProxies π crypto nodeId numNodes startRound queryNum proxies body =
      .ok messages) (hm : m ∈ messages) : ∃ others paths hop rest,
        otherProxies proxies nodeId = .ok others ∧
        findPaths π nodeId others numNodes startRound = .ok paths ∧ hop :: rest ∈ paths ∧
        m = crypto.rsaEncrypt ⟨queryNum, hop, false, false, some rest, body⟩
          ((hop :: rest).getLast?.getD 0) := by
  obtain ⟨others, hothers, h⟩ := exists_of_bind_eq_ok h
  obtain ⟨paths, hpaths, h⟩ := exists_of_bind_eq_ok h
  obtain ⟨path, hfound, hpath⟩ := exists_of_mem_mapM h hm
  obtain ⟨message, hmessage, hpath⟩ := exists_of_bind_eq_ok hpath
  cases path with
  | nil => cases hmessage
  | cons hop rest =>
    obtain rfl := Except.ok.inj hmessage
    exact ⟨others, paths, hop, rest, hothers, hpaths, hfound, (Except.ok.inj hpath).symm⟩

theorem exists_path_of_multicast {π : IterationOrder} {nodeId numNodes startRound : ℤ}
    {proxies : List ℤ} {body : MessageBody} {messages : List OverlayMessage}
    (h : multicastToOtherProxies π crypto nodeId numNodes startRound queryNum proxies body =
      .ok messages) (hm : m ∈ messages) : ∃ others paths hop rest,
        findPaths π nodeId others numNodes startRound = .ok paths ∧ hop :: rest ∈ paths ∧
        m = crypto.rsaEncrypt ⟨queryNum, hop, false, false, some rest, body⟩
          ((hop :: rest).getLast?.getD 0) := by
  obtain ⟨others, paths, hop, rest, -, h⟩ := exists_others_of_multicast h hm
  exact ⟨others, paths, hop, rest, h⟩

theorem isPathMessage_of_multicast {π : IterationOrder} {nodeId numNodes startRound : ℤ}
    {proxies : List ℤ} {body : MessageBody} {messages : List OverlayMessage}
    (h : multicastToOtherProxies π crypto nodeId numNodes startRound queryNum proxies body =
      .ok messages) (hm : m ∈ messages) : IsPathMessage crypto queryNum m := by
  obtain ⟨_, _, hop, rest, -, -, hsealed⟩ := exists_path_of_multicast h hm
  exact ⟨hop, rest, body, hsealed⟩

end Pddm
