import Pddm.Lockstep
import Pddm.PathRounds
import Pddm.Relays

/-!
# Delivery along paths

Meters that go through the rounds together pass onions and path messages on, and every
carrier comes to the end of its path in the round planned for it, or before.
-/
namespace Pddm

/-- What a meter that relays messages puts aside when it handles one: the message for the
next hop of its path, and the message that it encloses. -/
def OverlayMessage.relayed (crypto : CryptoLibrary) (m : OverlayMessage) : List OverlayMessage :=
  m.readdressed crypto ++ (m.received crypto).body.asOverlayMessage.toList

namespace ProtocolState
variable {ι : Type} {P : Protocol ι}

/-- A protocol that relays messages whatever they are, and sends nothing but what waits or
is new at the end of a round. -/
structure Relaying (P : Protocol ι) extends Steady P where
  relays : ∀ env message s t, handleBody env message s = .done t →
    t.waitingMessages = s.waitingMessages ++ message.body.asOverlayMessage.toList
  keeps : ∀ env s t, P.endOverlayRoundImpl env s = .done t → t.waitingMessages = s.waitingMessages

namespace Lockstep
variable {n query start stop : ℤ} (run : Lockstep P n query start stop)

def held (r i : ℤ) : Multiset OverlayMessage :=
  ((run.ready r i).waitingMessages ++ (run.ready r i).outgoingMessages : List OverlayMessage)

def fresh (r i : ℤ) : Multiset OverlayMessage := ((run.ready r i).outgoingMessages : List OverlayMessage)

def handledIn (r i : ℤ) : Multiset OverlayMessage :=
  ((run.closed r i).handled.drop (run.begun r i).handled.length : List OverlayMessage)

/-- A message of the query that is sent to its destination only. -/
def IsPlain (query : ℤ) (m : OverlayMessage) : Prop := m.flood = false ∧ m.queryNum = query

/-- The message that is sent if nothing is due. -/
def IsDummy (query : ℤ) (m : OverlayMessage) : Prop :=
  ∃ target, m = .make query target .null false

def unwrapped (m : OverlayMessage) : Multiset OverlayMessage :=
  (m.relayed dummyCrypto : List OverlayMessage)

variable {run}

theorem closed_fields (L : Relaying P) (hn : 2 ≤ n) (hlt : n < 2 ^ 31) {r i : ℤ} (hr : start ≤ r)
    (hrs : r < stop) (hi : 0 ≤ i) (hin : i < n) :
    (run.closed r i).waitingMessages = keptMessages (run.env i) (run.ready r i) ++
        (run.inbox r i).flatMap (OverlayMessage.relayed dummyCrypto) ∧
      (run.closed r i).handled = (run.begun r i).handled ++ run.inbox r i := by
  let Q (ms : List OverlayMessage) (s : ProtocolState ι) : Prop :=
    s.waitingMessages = (run.begun r i).waitingMessages ++
        ms.flatMap (OverlayMessage.relayed dummyCrypto) ∧
      s.handled = (run.begun r i).handled ++ ms
  have hQ : KeptInRound L.toSteady (run.env i) query r Q := by
    constructor
    · rintro ms s t ⟨hwaiting, hhandled⟩ hidle
      exact ⟨hidle.waitingMessages.trans hwaiting, hidle.handled.trans hhandled⟩
    · rintro ms s t m ⟨hwaiting, hhandled⟩ hs - - habsorb
      obtain ⟨-, -, -, hlogged⟩ := absorb_spec L.toSteady hs habsorb
      obtain ⟨timer, timers, hnote⟩ := noteOverlay_fields (run.env i) P m s
      have hrelayed := L.relays _ _ _ _ habsorb
      constructor
      · rw [hrelayed, hnote, run.crypto i, List.flatMap_append, List.flatMap_singleton,
          OverlayMessage.relayed, hwaiting]
        simp only [List.append_assoc]
      · rw [hlogged, hhandled, List.append_assoc]
  obtain ⟨s, ⟨-, -, hwaiting, hhandled⟩, hclosed, -⟩ :=
    run.closing hn hlt hr hrs hi hin hQ ⟨by simp, by simp⟩
  rw [hclosed]
  constructor
  · rw [← (entered_fields (run.sendOk i) (run.ready r i)).2.1, ← run.begun_eq hr hrs hi hin]
    exact hwaiting
  · rw [← hhandled]
    simp [handled, leaving, act, Action.handledMessage]

theorem handledIn_eq (L : Relaying P) (hn : 2 ≤ n) (hlt : n < 2 ^ 31) {r i : ℤ} (hr : start ≤ r)
    (hrs : r < stop) (hi : 0 ≤ i) (hin : i < n) : run.handledIn r i = (run.inbox r i : List _) := by
  rw [handledIn, (closed_fields L hn hlt hr hrs hi hin).2, List.drop_left]

theorem nextTarget_eq {r i : ℤ} (hr : start ≤ r) (hrs : r < stop) (hi : 0 ≤ i) (hin : i < n) :
    nextTarget (run.env i) (run.ready r i) = gossip n r i := by
  rw [nextTarget, run.meterId, run.numMeters, (run.inStep r i hr hrs hi hin).overlayRound, gossip]
  ring_nf

theorem predecessor_gossip (hn : 2 ≤ n) (hlt : n < 2 ^ 31) {r i : ℤ} (hi : 0 ≤ i) (hin : i < n) :
    gossipPredecessor (gossip n r i) r n = i := by
  have hnext : 0 ≤ gossip n r i ∧ gossip n r i < n := gossip_mem (by omega) hlt hi hin
  obtain ⟨hj, hjn, heq⟩ := gossip_predecessor hn hlt r hnext.1 hnext.2
  exact gossip_injOn (by omega) hlt hj hjn hi hin heq

theorem inbox_gossip (hn : 2 ≤ n) (hlt : n < 2 ^ 31) {r i : ℤ} (hr : start ≤ r) (hrs : r < stop)
    (hi : 0 ≤ i) (hin : i < n) : run.inbox r (gossip n r i) =
      (if dueMessages (run.env i) (run.ready r i) = [] then
        [.make (run.ready r i).getCurrentQueryNum (gossip n r i) .null false]
      else dueMessages (run.env i) (run.ready r i)).filter fun m => m.queryNum = query := by
  rw [inbox, predecessor_gossip hn hlt hi hin, run.lastBatch_begun hr hrs hi hin, bodiesFor,
    bodies_nextBatch, nextTarget_eq hr hrs hi hin]

section Lists
variable (waiting outgoing : List OverlayMessage) (target : ℤ) {p : OverlayMessage → Prop}
  [DecidablePred p] (hplain : ∀ m ∈ waiting ++ outgoing, p m → IsPlain query m)
include hplain

theorem filter_due :
    ((waiting.filter (fun m => m.destination = target) ++
      outgoing.filter fun m => m.flood || decide (m.destination = target)).filter
        fun m => m.queryNum = query).filter p =
      (waiting ++ outgoing).filter fun m => p m ∧ m.destination = target := by
  rw [List.filter_append, List.filter_append, List.filter_append, List.filter_filter,
    List.filter_filter, List.filter_filter, List.filter_filter]
  congr 1
  · refine List.filter_congr fun m hm => ?_
    by_cases hp : p m
    · have hquery := (hplain m (List.mem_append_left _ hm) hp).2
      simp [hp, hquery]
    · simp [hp]
  · refine List.filter_congr fun m hm => ?_
    by_cases hp : p m
    · obtain ⟨hflood, hquery⟩ := hplain m (List.mem_append_right _ hm) hp
      simp [hp, hflood, hquery]
    · simp [hp]

theorem filter_kept :
    (waiting.filter (fun m => !decide (m.destination = target)) ++
      outgoing.filter fun m => !(m.flood || decide (m.destination = target))).filter p =
      (waiting ++ outgoing).filter fun m => p m ∧ m.destination ≠ target := by
  rw [List.filter_append, List.filter_append, List.filter_filter, List.filter_filter]
  congr 1
  · refine List.filter_congr fun m hm => ?_
    by_cases hp : p m <;> simp [hp]
  · refine List.filter_congr fun m hm => ?_
    by_cases hp : p m
    · have hflood := (hplain m (List.mem_append_right _ hm) hp).1
      simp [hp, hflood]
    · simp [hp]

end Lists

/-- Meters in lockstep relay messages. -/
theorem relayRun (L : Relaying P) (hn : 2 ≤ n) (hlt : n < 2 ^ 31) :
    RelayRun (gossip n) OverlayMessage.destination unwrapped {i | 0 ≤ i ∧ i < n} start stop
      (IsPlain query) (IsDummy query) run.held run.fresh run.handledIn where
  idle_unwrap := by
    rintro _ ⟨target, rfl⟩
    rfl
  next_mem r v hv := gossip_mem (by omega) hlt hv.1 hv.2
  onto r w hw := by
    obtain ⟨hj, hjn, heq⟩ := gossip_predecessor hn hlt r hw.1 hw.2
    exact ⟨_, ⟨hj, hjn⟩, heq⟩
  handles r v p hr hrs hv hplain hidle := by
    classical
    have hnext : 0 ≤ gossip n r v ∧ gossip n r v < n := gossip_mem (by omega) hlt hv.1 hv.2
    rw [handledIn_eq L hn hlt hr hrs hnext.1 hnext.2, inbox_gossip hn hlt hr hrs hv.1 hv.2, held,
      Multiset.filter_coe, Multiset.filter_coe]
    have htarget : nextTarget (run.env v) (run.ready r v) = gossip n r v :=
      nextTarget_eq hr hrs hv.1 hv.2
    have hdue := filter_due (run.ready r v).waitingMessages (run.ready r v).outgoingMessages
      (gossip n r v) fun m hm => hplain m (by simpa [held] using hm)
    refine congrArg _ (Eq.trans ?_ (hdue.trans
      (List.filter_congr fun m _ => decide_eq_decide.mpr Iff.rfl)))
    unfold dueMessages
    rw [htarget]
    split_ifs with hnone
    · have hdummy : ¬ p (.make (run.ready r v).getCurrentQueryNum (gossip n r v) .null false) := by
        intro hp
        refine hidle _ hp ⟨gossip n r v, ?_⟩
        rw [(run.inStep r v hr hrs hv.1 hv.2).current]
      rw [hnone]
      simp [List.filter_cons, hdummy]
    · rfl
  holds r v p hr hrs hv hplain := by
    classical
    have hwaiting : (run.ready (r + 1) v).waitingMessages =
        keptMessages (run.env v) (run.ready r v) ++
          (run.inbox r v).flatMap (OverlayMessage.relayed dummyCrypto) := by
      rw [L.keeps _ _ _ (run.ends r v hr hrs hv.1 hv.2)]
      exact (closed_fields L hn hlt hr (by omega) hv.1 hv.2).1
    rw [handledIn_eq L hn hlt hr (by omega) hv.1 hv.2]
    unfold held fresh
    rw [hwaiting, ← Multiset.coe_add, ← Multiset.coe_add, Multiset.filter_add, Multiset.filter_add]
    congr 2
    · rw [Multiset.filter_coe, Multiset.filter_coe, keptMessages,
        nextTarget_eq hr (by omega) hv.1 hv.2]
      have hkept := filter_kept (run.ready r v).waitingMessages (run.ready r v).outgoingMessages
        (gossip n r v) fun m hm => hplain m (by simpa [held] using hm)
      exact congrArg _ (hkept.trans (List.filter_congr fun m _ => decide_eq_decide.mpr Iff.rfl))
    · rw [← Multiset.coe_bind]
      rfl

end Lockstep
end ProtocolState

namespace CtProtocolState
open ProtocolState (SameStep)
variable {env : ProtocolEnv}

theorem handleBody_sameStep (message : OverlayMessage) (s : State) :
    (handleBody env message s).Holds (SameStep protocol s) := by
  have heffect (t : State) (ht : BodyEffect env message s t) : SameStep protocol s t := by
    cases ht with
    | ignored => exact .refl s
    | forwarded enclosed => exact .wait s enclosed
    | accepted contribution => exact .emplaceProxyValue s contribution
  exact (handleBody_effect message s).mono heffect heffect

theorem handleBody_waiting {message : OverlayMessage} {s t : State}
    (h : handleBody env message s = .done t) :
    t.waitingMessages = s.waitingMessages ++ message.body.asOverlayMessage.toList := by
  cases henclosed : message.body.asOverlayMessage with
  | some enclosed =>
    rw [handleBody_eq, henclosed] at h
    rw [← Outcome.done.inj h]
    rfl
  | none =>
    have heffect : (handleBody env message s).Holds (BodyEffect env message s) :=
      handleBody_effect message s
    rw [h] at heffect
    cases heffect with
    | ignored => simp
    | forwarded enclosed hbody => simp [henclosed] at hbody
    | accepted contribution =>
      unfold ProtocolState.emplaceProxyValue
      split_ifs <;> simp

theorem endOverlayRoundImpl_waiting {s t : State} (h : endOverlayRoundImpl env s = .done t) :
    t.waitingMessages = s.waitingMessages := by
  have heffect : (endOverlayRoundImpl env s).Holds (EndEffect env s) := endOverlayRoundImpl_effect s
  rw [h] at heffect
  cases heffect with
  | kept _ hsent =>
    obtain ⟨_, _, rfl⟩ := hsent
    rfl
  | echoed u hsent =>
    obtain ⟨_, _, rfl⟩ := hsent
    rfl
  | entered _ hsame => exact hsame.waitingMessages

def relaying : ProtocolState.Relaying protocol where
  toLayered := layered
  steady _ := handleBody_sameStep
  relays _ _ _ _ := handleBody_waiting
  keeps _ _ _ := endOverlayRoundImpl_waiting

end CtProtocolState

namespace BftProtocolState
open ProtocolState (SameStep)
variable {env : ProtocolEnv}

theorem handleBody_sameStep (message : OverlayMessage) (s : State) :
    (handleBody env message s).Holds (SameStep protocol s) := by
  have heffect (t : State) (ht : BodyEffect env message s t) : SameStep protocol s t := by
    cases ht with
    | ignored => exact .refl s
    | forwarded enclosed => exact .wait s enclosed
    | accepted contribution => exact .emplaceProxyValue s contribution
    | agreed agreement u _ hlogged =>
      have hu : SameStep protocol s u := by
        rcases hlogged with rfl | ⟨queryNum, value, rfl⟩
        · exact .refl u
        · exact ⟨rfl, rfl, rfl, rfl, rfl, rfl, rfl, [.agreeOn queryNum value], rfl,
            by simp [Action.handledMessage, Action.sentBatch]⟩
      exact hu.trans (.onImpl u rfl)
  exact (handleBody_effect message s).mono heffect heffect

theorem handleBody_waiting {message : OverlayMessage} {s t : State}
    (h : handleBody env message s = .done t) :
    t.waitingMessages = s.waitingMessages ++ message.body.asOverlayMessage.toList := by
  cases henclosed : message.body.asOverlayMessage with
  | some enclosed =>
    have hwait : handleBody env message s = .done (s.wait enclosed) := by
      unfold handleBody
      split
      · next hnull => simp [hnull, MessageBody.asOverlayMessage] at henclosed
      · rw [henclosed]
    rw [hwait] at h
    rw [← Outcome.done.inj h]
    rfl
  | none =>
    have heffect : (handleBody env message s).Holds (BodyEffect env message s) :=
      handleBody_effect message s
    rw [h] at heffect
    cases heffect with
    | ignored => simp
    | forwarded enclosed hbody => simp [henclosed] at hbody
    | accepted contribution =>
      unfold ProtocolState.emplaceProxyValue
      split_ifs <;> simp
    | agreed agreement u _ hlogged =>
      rcases hlogged with rfl | ⟨_, _, rfl⟩ <;> simp [ProtocolState.onImpl, ProtocolState.act]

theorem endOverlayRoundImpl_waiting {s t : State} (h : endOverlayRoundImpl env s = .done t) :
    t.waitingMessages = s.waitingMessages := by
  have heffect : (endOverlayRoundImpl env s).Holds (EndEffect env s) := endOverlayRoundImpl_effect s
  rw [h] at heffect
  cases heffect with
  | kept _ hsent =>
    obtain ⟨_, _, rfl⟩ := hsent
    rfl
  | agreeing u hsent =>
    obtain ⟨_, _, rfl⟩ := hsent
    rfl
  | accepting agreement u _ hsent =>
    obtain ⟨_, _, rfl⟩ := hsent
    rfl
  | entered _ _ hsame => exact hsame.waitingMessages

def relaying : ProtocolState.Relaying protocol where
  toLayered := layered
  steady _ := handleBody_sameStep
  relays _ _ _ _ := handleBody_waiting
  keeps _ _ _ := endOverlayRoundImpl_waiting

end BftProtocolState

section Carriers
open ProtocolState.Lockstep (IsPlain IsDummy unwrapped)
variable {query : ℤ} {path : List ℤ} {payload : MessageBody} {c : OverlayMessage}

/-- A message on its way along a path, as it is sent: an onion or a path message. -/
def IsCarrier (query : ℤ) (path : List ℤ) (payload : MessageBody) (c : OverlayMessage) : Prop :=
  buildEncryptedOnion dummyCrypto path payload query = .ok c ∨
    ∃ m, pathOverlayMessage query path payload = .ok m ∧
      c = dummyCrypto.rsaEncrypt m (path.getLast?.getD 0)

/-- What the last meter hands to its protocol is the payload, and is for that meter. -/
def Brings (payload : MessageBody) (m : OverlayMessage) : Prop :=
  (m.received dummyCrypto).body = payload ∧ (m.received dummyCrypto).destination = m.destination

theorem onion_carrier (hpayload : payload.asOverlayMessage = none)
    (h : buildEncryptedOnion dummyCrypto path payload query = .ok c) :
    Carrier OverlayMessage.destination unwrapped (IsPlain query) (IsDummy query) (Brings payload)
      path c := by
  have hlayers (hops : List ℤ) (w : ℤ) (rest : List ℤ) (layer : OverlayMessage)
      (hlayer : Carrier OverlayMessage.destination unwrapped (IsPlain query) (IsDummy query)
        (Brings payload) (w :: rest) layer) :
      Carrier OverlayMessage.destination unwrapped (IsPlain query) (IsDummy query) (Brings payload)
        (hops.reverse ++ w :: rest)
        (hops.foldl (fun layer hop =>
          dummyCrypto.rsaEncrypt (.make query hop layer.toBody false) hop) layer) := by
    induction hops generalizing w rest layer with
    | nil => exact hlayer
    | cons hop hops ih =>
      rw [List.reverse_cons, List.append_assoc, List.singleton_append, List.foldl_cons]
      refine ih hop (w :: rest) _ (.hop ⟨rfl, rfl⟩ ?_ rfl ?_ hlayer)
      · rintro ⟨target, htarget⟩
        cases congrArg OverlayMessage.isEncrypted htarget
      · have hbody := layer.asOverlayMessage_toBody
        simp [unwrapped, OverlayMessage.relayed, OverlayMessage.readdressed,
          OverlayMessage.received, OverlayMessage.opened, dummyCrypto, OverlayMessage.make, hbody]
  unfold buildEncryptedOnion at h
  cases hreverse : path.reverse with
  | nil => simp [hreverse] at h
  | cons last hops =>
    rw [hreverse] at h
    obtain rfl := Except.ok.inj h
    have hpath : path = hops.reverse ++ [last] := by
      rw [← List.reverse_reverse path, hreverse, List.reverse_cons]
    rw [hpath]
    refine hlayers hops last [] _ (.last ⟨rfl, rfl⟩ ?_ rfl ?_ ⟨rfl, rfl⟩)
    · rintro ⟨target, htarget⟩
      cases congrArg OverlayMessage.isEncrypted htarget
    · simp [unwrapped, OverlayMessage.relayed, OverlayMessage.readdressed, OverlayMessage.received,
        OverlayMessage.opened, dummyCrypto, OverlayMessage.make, hpayload]

theorem pathMessage_carrier (hpayload : payload.asOverlayMessage = none) (hop : ℤ) (rest : List ℤ)
    (encrypted : Bool) :
    Carrier OverlayMessage.destination unwrapped (IsPlain query) (IsDummy query) (Brings payload)
      (hop :: rest) ⟨query, hop, encrypted, false, some rest, payload⟩ := by
  induction rest generalizing hop encrypted with
  | nil =>
    refine .last ⟨rfl, rfl⟩ ?_ rfl ?_ ?_
    · rintro ⟨target, htarget⟩
      cases congrArg OverlayMessage.remainingPath htarget
    · cases encrypted <;> simp [unwrapped, OverlayMessage.relayed, OverlayMessage.readdressed,
        OverlayMessage.received, OverlayMessage.opened, dummyCrypto, hpayload]
    · cases encrypted <;> exact ⟨rfl, rfl⟩
  | cons next rest ih =>
    refine .hop ⟨rfl, rfl⟩ ?_ rfl ?_ (ih next false)
    · rintro ⟨target, htarget⟩
      cases congrArg OverlayMessage.remainingPath htarget
    · cases encrypted <;> simp [unwrapped, OverlayMessage.relayed, OverlayMessage.readdressed,
        OverlayMessage.received, OverlayMessage.opened, dummyCrypto, hpayload]

theorem IsCarrier.carrier (hpayload : payload.asOverlayMessage = none)
    (h : IsCarrier query path payload c) :
    Carrier OverlayMessage.destination unwrapped (IsPlain query) (IsDummy query) (Brings payload)
      path c := by
  rcases h with h | ⟨m, h, rfl⟩
  · exact onion_carrier hpayload h
  · unfold pathOverlayMessage at h
    cases path with
    | nil => cases h
    | cons hop rest =>
      obtain rfl := Except.ok.inj h
      exact pathMessage_carrier hpayload hop rest true

end Carriers
section Delivery
variable {ι : Type} {P : Protocol ι} {n source t query : ℤ} {path : List ℤ} {payload : MessageBody}
  {c : OverlayMessage}

theorem Found.planned {target : ℤ} {used found : List ℤ} {k : ℕ}
    (hfound : Found n source target t used k found) :
    Planned (gossip n) (t + k) source t found.tail := by
  obtain ⟨v, visited, j, hj, hforemost, hhit, hhops⟩ := hfound.hops
  have hplan : Journey (gossip n) source t (target :: v :: visited) (t + k + 1) :=
    hforemost.journey.pass (by omega) hhit
  have harrived : Planned (gossip n) (t + k) target (t + k + 1) [] := trivial
  obtain ⟨hops, heq, hplanned⟩ := hplan.planned le_rfl harrived
  have hsame : hops = found.tail := by
    rw [← hhops] at heq
    exact (List.reverse_injective (List.append_inj_left' heq rfl)).symm
  simpa [hsame] using hplanned

/-- When the round of the source begins, the carrier is the one message with its layers, and
none comes in later. -/
def ProtocolState.Lockstep.OnlyCopy {stop : ℤ} (run : Lockstep P n query t stop) (source : ℤ)
    (c : OverlayMessage) : Prop :=
  (∀ x, Leads Lockstep.unwrapped c x →
    Sole Lockstep.unwrapped {i | 0 ≤ i ∧ i < n} run.held x t source c) ∧
    NothingNew Lockstep.unwrapped {i | 0 ≤ i ∧ i < n} run.fresh t stop c

open ProtocolState Lockstep in
/-- The carrier visits the hops of its path in order and comes to the target in the planned round
or before. If there is no other like it, no meter handles it twice, or off the path. -/
def ProtocolState.CarriesAlong (P : Protocol ι) (n source t query : ℤ) (path : List ℤ)
    (payload : MessageBody) (c : OverlayMessage) (planned : ℤ) : Prop :=
  ∀ run : Lockstep P n query t (planned + 1), c ∈ (run.ready t source).outgoingMessages →
    Visits unwrapped (Brings payload) (fun r j m => m ∈ run.handledIn r j) planned t path c ∧
    (run.OnlyCopy source c → Visits unwrapped (Brings payload)
      (HandledOnly {j | 0 ≤ j ∧ j < n} run.handledIn t (planned + 1)) planned t path c)

open ProtocolState Lockstep in
theorem ProtocolState.Relaying.carriesAlong (L : Relaying P) (hn : 2 ≤ n) (hlt : n < 2 ^ 31)
    (hsource : 0 ≤ source) (hsourcelt : source < n) {target : ℤ} {used found : List ℤ} {k : ℕ}
    (hfound : Found n source target t used k found) (hpayload : payload.asOverlayMessage = none)
    (hc : IsCarrier query found.tail payload c) :
    CarriesAlong P n source t query found.tail payload c (t + k) := by
  intro run hout
  have hrelay := run.relayRun L hn hlt
  have hcarrier := hc.carrier hpayload
  have hheld : c ∈ run.held t source := by simp [held, hout]
  refine ⟨hrelay.visits hcarrier ⟨hsource, hsourcelt⟩ le_rfl hheld hfound.planned (by omega), ?_⟩
  rintro ⟨hsole, hnew⟩
  refine hrelay.visits_only hcarrier hfound.nodup ⟨hsource, hsourcelt⟩ le_rfl hfound.planned
    (by omega) hsole ?_ hnew
  intro x _ r' w hr' hlt'
  omega

end Delivery

namespace ProtocolState

/-- Carriers come to the targets of their paths in time, with and without signatures. -/
theorem carrier_delivered (π : IterationOrder) {n source t query : ℤ} {targets : List ℤ}
    {paths : List (List ℤ)} (hn : 2 ≤ n) (hlt : n < 2 ^ 31) (hsource : 0 ≤ source)
    (hsourcelt : source < n) (hpaths : findPaths π source targets n t = .ok paths) {i : ℕ}
    {path : List ℤ} (hpath : paths[i]? = some path) {payload : MessageBody}
    (hpayload : payload.asOverlayMessage = none) {c : OverlayMessage}
    (hc : IsCarrier query path payload c) :
    ∃ planned, (plannedRounds π source targets n t)[i]? = some planned ∧ path.Nodup ∧
      CarriesAlong CtProtocolState.protocol n source t query path payload c planned ∧
      CarriesAlong BftProtocolState.protocol n source t query path payload c planned := by
  rw [findPaths_eq] at hpaths
  obtain ⟨k, target, used, found, hfound, rfl, hplanned⟩ := exists_planned hpaths hpath
  exact ⟨t + k, hplanned, hfound.nodup,
    CtProtocolState.relaying.carriesAlong hn hlt hsource hsourcelt hfound hpayload hc,
    BftProtocolState.relaying.carriesAlong hn hlt hsource hsourcelt hfound hpayload hc⟩

end ProtocolState

namespace CtProtocolState
open ProtocolState Lockstep

section Samples

theorem samplePath_meters : (0 : ℤ) < 3 := by decide

/-- Three meters, of which the first has an onion for the second. -/
def samplePathEnv (i : ℤ) : ProtocolEnv where
  meterId := i
  numMeters := 3
  numMeters_pos := samplePath_meters
  failuresTolerated := 0
  numAggregationGroups := 1
  crypto := dummyCrypto
  π := .insertion
  sendOk _ := true
  draws _ _ := 0
  shuffle _ := .insertion

theorem samplePathEnv_meterId : ∀ i, (samplePathEnv i).meterId = i := fun _ => rfl
theorem samplePathEnv_numMeters : ∀ i, (samplePathEnv i).numMeters = 3 := fun _ => rfl

def samplePayload : MessageBody := .valueContribution (.ofTuple ⟨7, [5], [1]⟩)

def sampleOnion : OverlayMessage :=
  dummyCrypto.rsaEncrypt (.make 7 2
    (dummyCrypto.rsaEncrypt (.make 7 1 samplePayload false) 1).toBody false) 2

def sampleFirst (i : ℤ) : State :=
  { ProtocolState.init ⟨0, .shuffle⟩ with
    overlayRound := -1
    myContribution := some ⟨7, [5], [1]⟩
    outgoingMessages := if i = 0 then [sampleOnion] else [] }

def sampleArrivals (ready : ℤ → State) (r i : ℤ) : List Arrival :=
  (entered (samplePathEnv (gossipPredecessor i r 3))
    (ready (gossipPredecessor i r 3))).lastBatch.map .overlay

def sampleClosing (ready : ℤ → State) (r i : ℤ) : Outcome Fault State :=
  Outcome.forEach (sampleArrivals ready r i) (arrive (samplePathEnv i) protocol .done)
    (entered (samplePathEnv i) (ready i))

def sampleReady : ℕ → ℤ → State
  | 0, i => sampleFirst i
  | r + 1, i => (endOverlayRoundImpl (samplePathEnv i) (sampleClosing (sampleReady r) r i).state).state

def sampleRound (r : ℕ) (i : ℤ) : Prop :=
  (sampleReady r i).overlayRound = r - 1 ∧ (sampleReady r i).getCurrentQueryNum = 7 ∧
    (sampleReady r i).isLastRound = false ∧ (sampleReady r i).failedMeterIds = [] ∧
    (sampleReady r i).futureOverlayMessages = [] ∧
    isInOverlayPhase (entered (samplePathEnv i) (sampleReady r i)).impl = true ∧
    (∀ m ∈ (entered (samplePathEnv i) (sampleReady r i)).lastBatch, m.body.queryNum = 7) ∧
    (sampleClosing (sampleReady r) r i).isDone = true ∧
    (endOverlayRoundImpl (samplePathEnv i) (sampleClosing (sampleReady r) r i).state).isDone = true

instance (r : ℕ) (i : ℤ) : Decidable (sampleRound r i) := inferInstanceAs (Decidable (_ ∧ _))

theorem sampleRounds : ∀ r < 4, ∀ i < 3, sampleRound r (i : ℕ) := by decide +kernel

theorem sampleRound_of {r i : ℤ} (hr : 0 ≤ r) (hrs : r < 4) (hi : 0 ≤ i) (hin : i < 3) :
    sampleRound r.toNat i := by
  have hround := sampleRounds r.toNat (by omega) i.toNat (by omega)
  rwa [Int.toNat_of_nonneg hi] at hround

theorem sampleReady_ends {r i : ℤ} (hr : 0 ≤ r) (hrs : r + 1 < 4) (hi : 0 ≤ i) (hin : i < 3) :
    endOverlayRoundImpl (samplePathEnv i) (sampleClosing (sampleReady r.toNat) r i).state =
      .done (sampleReady (r + 1).toNat i) := by
  have hdone := (sampleRound_of hr (by omega) hi hin).2.2.2.2.2.2.2.2
  rw [Int.toNat_of_nonneg hr] at hdone
  have hnext : (r + 1).toNat = r.toNat + 1 := by omega
  rw [hnext, sampleReady, Int.toNat_of_nonneg hr]
  exact Outcome.eq_done hdone

def samplePathRun : Lockstep protocol 3 7 0 4 where
  env := samplePathEnv
  fuel := 0
  ready r i := sampleReady r.toNat i
  begun r i := entered (samplePathEnv i) (sampleReady r.toNat i)
  closed r i := (sampleClosing (sampleReady r.toNat) r i).state
  arrivals r i := sampleArrivals (sampleReady r.toNat) r i
  meterId := samplePathEnv_meterId
  numMeters := samplePathEnv_numMeters
  crypto _ := rfl
  sendOk _ _ := rfl
  inStep r i hr hrs hi hin := by
    obtain ⟨hround, hquery, hlast, hfailed, hfuture, -⟩ := sampleRound_of hr hrs hi hin
    exact ⟨by rw [hround]; omega, hquery, hlast, hfailed, by simp [hfuture]⟩
  begins r i hr hrs hi hin := by
    obtain ⟨hround, hquery, hlast, hfailed, hfuture, -⟩ := sampleRound_of hr hrs hi hin
    exact superEndOverlayRound_eq (fun _ => rfl) ⟨hround, hquery, hlast, hfailed, by simp [hfuture]⟩ _
  overlay r i hr hrs hi hin := (sampleRound_of hr hrs hi hin).2.2.2.2.2.1
  finals r i hr hrs hi hin m hm _ := (sampleRound_of hr hrs hi hin).2.2.2.2.2.2.1 m hm
  arrives r i hr hrs hi hin := by
    obtain ⟨front, final, hbatch, -⟩ := nextBatch_eq (samplePathEnv (gossipPredecessor i r 3))
      (sampleReady r.toNat (gossipPredecessor i r 3))
    refine ⟨front.map .overlay, final, ?_, ?_⟩
    · rw [sampleArrivals, (entered_fields (fun _ => rfl) _).2.2.2.2.2.2.1, hbatch]
      simp
    · simp [sampleArrivals, List.filterMap_map, Function.comp_def, Arrival.overlayMessage]
  closes r i hr hrs hi hin := by
    have hdone := (sampleRound_of hr hrs hi hin).2.2.2.2.2.2.2.1
    rw [Int.toNat_of_nonneg hr] at hdone
    exact Outcome.eq_done hdone
  ends r i hr hrs hi hin := sampleReady_ends hr hrs hi hin

theorem sampleReady_fresh : ∀ r < 4, 0 < r → ∀ i < 3,
    (sampleReady r (i : ℕ)).outgoingMessages.isEmpty := by decide +kernel

theorem samplePathRun_onlyCopy : samplePathRun.OnlyCopy 0 sampleOnion := by
  constructor
  · rintro x hx w -
    by_cases hw : w = 0
    · have hheld : samplePathRun.held 0 w = {sampleOnion} := by
        rw [hw]
        rfl
      rw [hheld, if_pos hw, Multiset.filter_singleton, if_pos hx]
    · have hheld : samplePathRun.held 0 w = 0 := by
        simp [held, samplePathRun, sampleReady, sampleFirst, ProtocolState.init, hw]
      rw [hheld, if_neg hw, Multiset.filter_zero]
  · rintro x - r w hr hrs ⟨hw, hwlt⟩
    have hempty := sampleReady_fresh r.toNat (by omega) (by omega) w.toNat (by omega)
    rw [Int.toNat_of_nonneg hw, List.isEmpty_iff] at hempty
    have hfresh : samplePathRun.fresh r w = 0 := congrArg _ hempty
    rw [hfresh, Multiset.filter_zero]

/-- The onion goes by way of meter 2, in rounds 1 and 3, and nowhere else. -/
theorem sample_carrier_delivered :
    Visits unwrapped (Brings samplePayload) (fun r j m => m ∈ samplePathRun.handledIn r j) 3 0
        [2, 1] sampleOnion ∧
      Visits unwrapped (Brings samplePayload)
        (HandledOnly {j | 0 ≤ j ∧ j < 3} samplePathRun.handledIn 0 4) 3 0 [2, 1] sampleOnion := by
  have hpaths : findPaths .insertion 0 [1] 3 0 = .ok [[2, 1]] := by decide +kernel
  have hpath : ([[2, 1]] : List (List ℤ))[0]? = some [2, 1] := rfl
  have honion : IsCarrier 7 [2, 1] samplePayload sampleOnion := .inl rfl
  obtain ⟨planned, hplanned, -, hcarries, -⟩ := carrier_delivered .insertion (by decide) (by decide)
    le_rfl (by decide) hpaths hpath rfl honion
  have hthree : (plannedRounds .insertion 0 [1] 3 0)[0]? = some 3 := by decide +kernel
  obtain rfl : planned = 3 := Option.some.inj (hplanned.symm.trans hthree)
  obtain ⟨hvisits, honly⟩ := hcarries samplePathRun (by decide +kernel)
  exact ⟨hvisits, honly samplePathRun_onlyCopy⟩

end Samples
end CtProtocolState
end Pddm
