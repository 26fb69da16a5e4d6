import Pddm.OrderedMap
import Pddm.SimMeter
import Pddm.SimNetworkClient

/-!
# The simulated network

All clients hand their messages to one network, which delivers them later through the event
manager. It knows which meters have failed, and what those send is lost.
-/
namespace Pddm.Simulation
variable {κ μ β : Type}

/-- The action of an event: the delivery of some messages, or that of another component. -/
inductive NetworkAction (μ β : Type)
  | deliver (recipientId : ℤ) (messages : List (TypeMessagePair μ))
  | other (action : β)
  deriving DecidableEq, Repr

def NetworkAction.isOther : NetworkAction μ β → Bool
  | .deliver .. => false
  | .other _ => true

/-- One client may be connected under several IDs. -/
inductive Receiver (κ : Type)
  | utility
  | meter (client : κ)
  deriving DecidableEq, Repr

structure Network (κ : Type) where
  meterClientsSetup : OrderedMap ℤ κ
  meterClients : List κ
  failed : List Bool
  utility : Bool

/-- Messages on their way, with the time of their delivery. -/
structure Batch (μ : Type) where
  due : ℤ
  recipientId : ℤ
  messages : List (TypeMessagePair μ)
  deriving DecidableEq, Repr

/-- What happens at the network. A send that puts messages on their way says when they are due. -/
inductive NetworkEntry (κ μ : Type)
  | connected (client : κ) (id : ℤ)
  | finished (clients : List κ)
  | marked (id : ℤ)
  | reset
  | sent (time : ℤ) (messages : List (TypeMessagePair μ)) (senderId recipientId : ℤ)
      (answer : Bool) (due : Option ℤ)
  | delayed (client : κ) (delayMicros : ℤ)
  | received (time recipientId : ℤ) (receiver : Receiver κ) (message : TypeMessagePair μ)
  deriving DecidableEq, Repr

/-- What clients and the simulator do. -/
inductive NetworkCommand (κ μ β : Type)
  | connectMeter (client : κ) (id : ℤ)
  | connectUtility
  | finishSetup
  | send (messages : List (TypeMessagePair μ)) (senderId recipientId : ℤ)
  | markFailed (id : ℤ)
  | resetFailures
  | submit (action : β) (delay : ℤ) (isTimeout : Bool)
  | cancel (id : ℕ)
  deriving DecidableEq, Repr

/-- `drawn` latencies have been generated. The log is not part of the source's state. -/
structure NetworkRun (κ μ β : Type) where
  network : Network κ
  manager : EventManager (NetworkAction μ β)
  drawn : ℕ
  log : List (NetworkEntry κ μ)

/-- The latencies that are drawn, what a client does with a message, and what the other events
do, in any run. -/
structure NetworkSurroundings (κ μ β : Type) where
  latency : ℕ → ℕ
  handler : NetworkRun κ μ β → Receiver κ → TypeMessagePair μ → List (NetworkCommand κ μ β)
  events : NetworkRun κ μ β → Event (NetworkAction μ β) → List (NetworkCommand κ μ β)

namespace Network

def initial : Network κ := ⟨.empty, [], [], false⟩

/-- The utility never fails. -/
def isFailed (meterId : ℤ) (n : Network κ) : Except Fault Bool :=
  if meterId > -1 then readAt n.failed meterId else .ok false

def setupClients (lastId : ℤ) (n : Network κ) : Option (List κ) :=
  (List.range (lastId + 1).toNat).mapM fun (id : ℕ) =>
    (n.meterClientsSetup.entries.find? fun entry => entry.1 = (id : ℤ)).map Prod.snd

def receiver (recipientId : ℤ) (n : Network κ) : Except Fault (Receiver κ) :=
  if recipientId = utilityNodeId then
    if n.utility then .ok .utility else .error .undefinedBehaviour
  else (readAt n.meterClients recipientId).map .meter

end Network

namespace NetworkRun

def start (m : EventManager (NetworkAction μ β)) : NetworkRun κ μ β := ⟨.initial, m, 0, []⟩

def note (entry : NetworkEntry κ μ) (s : NetworkRun κ μ β) : NetworkRun κ μ β :=
  { s with log := s.log ++ [entry] }

@[simp] theorem note_log (entry : NetworkEntry κ μ) (s : NetworkRun κ μ β) :
    (s.note entry).log = s.log ++ [entry] := rfl

@[simp] theorem note_network (entry : NetworkEntry κ μ) (s : NetworkRun κ μ β) :
    (s.note entry).network = s.network := rfl

@[simp] theorem note_manager (entry : NetworkEntry κ μ) (s : NetworkRun κ μ β) :
    (s.note entry).manager = s.manager := rfl

def connectMeter (client : κ) (id : ℤ) (s : NetworkRun κ μ β) :
    Outcome Fault (NetworkRun κ μ β) :=
  let resized :=
    s.network.failed ++ List.replicate ((id + 1).toNat - s.network.failed.length) false
  match writeAt resized id false with
  | .error fault => .halted fault s
  | .ok failed =>
      .done ({ s with network := { s.network with
        meterClientsSetup := s.network.meterClientsSetup.insertNew id client
        failed := failed } }.note (.connected client id))

def finishSetup (s : NetworkRun κ μ β) : Outcome Fault (NetworkRun κ μ β) :=
  if s.network.meterClients ≠ [] then .halted .exception s
  else
    match s.network.meterClientsSetup.entries.getLast? with
    | none => .halted .exception s
    | some (lastId, _) =>
        match s.network.setupClients lastId with
        | none => .halted .exception s
        | some clients =>
            .done ({ s with network := { s.network with
              meterClientsSetup := .empty
              meterClients := clients } }.note (.finished clients))

def post (latency : ℕ → ℕ) (messages : List (TypeMessagePair μ)) (senderId recipientId : ℤ)
    (s : NetworkRun κ μ β) : Outcome Fault (NetworkRun κ μ β) :=
  let due := s.manager.simulationTime + latency s.drawn
  match s.manager.submit (.deliver recipientId messages) due false with
  | .error fault => .halted fault s
  | .ok (_, m) =>
      .done ({ s with manager := m, drawn := s.drawn + 1 }.note
        (.sent s.manager.simulationTime messages senderId recipientId true (some due)))

/-- The recipient has failed, and a meter waits for as long as it takes to find that out. -/
def refuse (latency : ℕ → ℕ) (messages : List (TypeMessagePair μ)) (senderId recipientId : ℤ)
    (s : NetworkRun κ μ β) : Outcome Fault (NetworkRun κ μ β) :=
  let refused : NetworkEntry κ μ :=
    .sent s.manager.simulationTime messages senderId recipientId false none
  if senderId > -1 then
    match readAt s.network.meterClients senderId with
    | .error fault => .halted fault s
    | .ok client =>
        let delay : ℤ := (latency s.drawn + latency (s.drawn + 1)) * 1000
        .done (({ s with drawn := s.drawn + 2 }.note (.delayed client delay)).note refused)
  else .done (s.note refused)

def send (latency : ℕ → ℕ) (messages : List (TypeMessagePair μ)) (senderId recipientId : ℤ)
    (s : NetworkRun κ μ β) : Outcome Fault (NetworkRun κ μ β) :=
  let unsent (answer : Bool) : NetworkEntry κ μ :=
    .sent s.manager.simulationTime messages senderId recipientId answer none
  match s.network.isFailed senderId with
  | .error fault => .halted fault s
  | .ok true => .done (s.note (unsent true))
  | .ok false =>
      if recipientId = utilityNodeId then s.post latency messages senderId recipientId
      else if recipientId < s.network.meterClients.length then
        match readAt s.network.failed recipientId with
        | .error fault => .halted fault s
        | .ok true => s.refuse latency messages senderId recipientId
        | .ok false => s.post latency messages senderId recipientId
      else .done (s.note (unsent false))

def markFailed (id : ℤ) (s : NetworkRun κ μ β) : Outcome Fault (NetworkRun κ μ β) :=
  match writeAt s.network.failed id true with
  | .error fault => .halted fault s
  | .ok failed =>
      .done ({ s with network := { s.network with failed := failed } }.note (.marked id))

def resetFailures (s : NetworkRun κ μ β) : NetworkRun κ μ β :=
  { s with network := { s.network with
    failed := s.network.failed.map fun _ => false } }.note .reset

/-- Nothing but the network makes deliveries or has pointers to them. -/
def perform (latency : ℕ → ℕ) (command : NetworkCommand κ μ β) (s : NetworkRun κ μ β) :
    Outcome Fault (NetworkRun κ μ β) :=
  match command with
  | .connectMeter client id => s.connectMeter client id
  | .connectUtility => .done { s with network := { s.network with utility := true } }
  | .finishSetup => s.finishSetup
  | .send messages senderId recipientId => s.send latency messages senderId recipientId
  | .markFailed id => s.markFailed id
  | .resetFailures => .done s.resetFailures
  | .submit action delay isTimeout =>
      match s.manager.submit (.other action) (s.manager.simulationTime + delay) isTimeout with
      | .error fault => .halted fault s
      | .ok (_, m) => .done { s with manager := m }
  | .cancel id =>
      if s.manager.pending.any fun e => e.id = id && e.action.isOther then
        .done { s with manager := s.manager.cancel id }
      else .done s

def receive (env : NetworkSurroundings κ μ β) (recipientId : ℤ) (message : TypeMessagePair μ)
    (s : NetworkRun κ μ β) : Outcome Fault (NetworkRun κ μ β) :=
  match s.network.receiver recipientId with
  | .error fault => .halted fault s
  | .ok receiver =>
      let s := s.note (.received s.manager.simulationTime recipientId receiver message)
      Outcome.forEach (env.handler s receiver message) (perform env.latency) s

def act (env : NetworkSurroundings κ μ β) (event : Event (NetworkAction μ β))
    (s : NetworkRun κ μ β) : Outcome Fault (NetworkRun κ μ β) :=
  if event.cancelled then .done s
  else
    match event.action with
    | .deliver recipientId messages => Outcome.forEach messages (receive env recipientId) s
    | .other _ => Outcome.forEach (env.events s event) (perform env.latency) s

def pass (π : IterationOrder) (env : NetworkSurroundings κ μ β) (s : NetworkRun κ μ β) :
    Outcome Fault (NetworkRun κ μ β) :=
  match s.manager.turn π with
  | .error fault => .halted fault s
  | .ok (none, m) => .done { s with manager := m }
  | .ok (some event, m) => act env event { s with manager := m }

/-- The passes of `run_simulation` after what is done at first. -/
def simulate (m : EventManager (NetworkAction μ β)) (initial : List (NetworkCommand κ μ β))
    (π : ℕ → IterationOrder) (env : NetworkSurroundings κ μ β) (passes : ℕ) :
    Outcome Fault (NetworkRun κ μ β) :=
  (Outcome.forEach initial (perform env.latency) (start m)).andThen
    (Outcome.forEach (List.range passes) fun i => pass (π i) env)

end NetworkRun

section Law

def Batch.receipt (b : Batch μ) (message : TypeMessagePair μ) : ℤ × ℤ × TypeMessagePair μ :=
  (b.due, b.recipientId, message)

def Batch.receipts (b : Batch μ) : List (ℤ × ℤ × TypeMessagePair μ) := b.messages.map b.receipt

namespace NetworkEntry

def underway : NetworkEntry κ μ → Option (Batch μ)
  | .sent _ messages _ recipientId _ due => due.map fun due => ⟨due, recipientId, messages⟩
  | _ => none

def receipt : NetworkEntry κ μ → Option (ℤ × ℤ × TypeMessagePair μ)
  | .received time recipientId _ message => some (time, recipientId, message)
  | _ => none

def failure (id : ℤ) : NetworkEntry κ μ → Option Bool
  | .marked id' => if id' = id then some true else none
  | .connected _ id' => if id' = id then some false else none
  | .reset => some false
  | _ => none

/-- The meter has been marked, and has not been connected or reset since. -/
def FailedAt (log : List (NetworkEntry κ μ)) (id : ℤ) : Prop :=
  (log.filterMap (failure id)).getLast? = some true

def Reaches (log : List (NetworkEntry κ μ)) (id : ℤ) (client : κ) : Prop :=
  ∃ clients, .finished clients ∈ log ∧ 0 ≤ id ∧ clients[id.toNat]? = some client

/-- What is sent from a failed meter is lost without notice. What is sent to the utility or to a
meter that has not failed is on its way, and what is sent to any other ID is refused. Messages
reach the client under their ID. -/
def Fair (before : List (NetworkEntry κ μ)) : NetworkEntry κ μ → Prop
  | .sent time _ senderId recipientId answer due =>
      (∀ later ∈ due, time ≤ later) ∧
      (due.isSome ↔ ¬ FailedAt before senderId ∧ (recipientId = utilityNodeId ∨
        (∃ client, Reaches before recipientId client) ∧ ¬ FailedAt before recipientId)) ∧
      (answer = false ↔ ¬ FailedAt before senderId ∧ recipientId ≠ utilityNodeId ∧
        ((∃ client, Reaches before recipientId client) → FailedAt before recipientId))
  | .received _ recipientId .utility _ => recipientId = utilityNodeId
  | .received _ recipientId (.meter client) _ => Reaches before recipientId client
  | .finished clients => ∀ (id : ℕ) client, clients[id]? = some client →
      .connected client id ∈ before
  | _ => True

end NetworkEntry

/-- What a pending event will deliver. -/
def NetworkRun.flight (e : Event (NetworkAction μ β)) : Option (Batch μ) :=
  if e.cancelled then none
  else
    match e.action with
    | .deliver recipientId messages => some ⟨e.fireTime, recipientId, messages⟩
    | .other _ => none

namespace NetworkRun
open NetworkEntry (underway receipt FailedAt Reaches Fair)

def inFlight (m : EventManager (NetworkAction μ β)) : List (Batch μ) := m.pending.filterMap flight

/-- Every batch that was put on its way has been delivered at its time, is in the hands of the
event that fires, or is still on its way. -/
structure Carries (s : NetworkRun κ μ β) (delivered inHand : List (Batch μ))
    (taken : List (ℤ × ℤ × TypeMessagePair μ)) : Prop where
  posted : (s.log.filterMap underway).Perm (delivered ++ inHand ++ inFlight s.manager)
  received : s.log.filterMap receipt = delivered.flatMap Batch.receipts ++ taken
  ordered : delivered.Pairwise fun b b' => b.due ≤ b'.due
  past : ∀ b ∈ delivered, b.due ≤ s.manager.simulationTime
  hand : ∀ b ∈ inHand, b.due = s.manager.simulationTime
  punctual : s.manager.Punctual

structure Recorded (s : NetworkRun κ μ β) : Prop where
  failed : ∀ id, FailedAt s.log id ↔ 0 ≤ id ∧ s.network.failed[id.toNat]? = some true
  setup : ∀ id client, (id, client) ∈ s.network.meterClientsSetup → .connected client id ∈ s.log
  clients : ∀ id client, Reaches s.log id client ↔
    0 ≤ id ∧ s.network.meterClients[id.toNat]? = some client
  fair : EveryEntry Fair s.log

section Queues
variable {m m' : EventManager (NetworkAction μ β)} {e : Event (NetworkAction μ β)}

theorem flight_of_cancelled (h : e.cancelled = true) : flight e = none := if_pos h

theorem flight_of_other (h : e.action.isOther = true) : flight e = none := by
  unfold flight
  cases haction : e.action with
  | deliver recipientId messages => simp [haction, NetworkAction.isOther] at h
  | other action => simp

/-- Cancelled events deliver nothing. -/
theorem filterMap_flight (es : List (Event (NetworkAction μ β))) :
    (es.filter fun e => !e.cancelled).filterMap flight = es.filterMap flight := by
  rw [List.filterMap_filter]
  apply List.filterMap_congr
  intro e _
  cases hcancelled : e.cancelled with
  | false => simp
  | true => simp [flight_of_cancelled hcancelled]

theorem inFlight_other (m : EventManager (NetworkAction μ β)) (action : β) (fireTime : ℤ)
    (isTimeout : Bool) : (inFlight (m.push (.other action) fireTime isTimeout)).Perm (inFlight m) :=
  (m.pending_push _ fireTime isTimeout).filterMap flight

theorem inFlight_deliver (m : EventManager (NetworkAction μ β)) (due recipientId : ℤ)
    (messages : List (TypeMessagePair μ)) :
    (inFlight (m.push (.deliver recipientId messages) due false)).Perm
      (⟨due, recipientId, messages⟩ :: inFlight m) :=
  (m.pending_push _ due false).filterMap flight

theorem inFlight_cancel (he : e ∈ m.pending) (hother : e.action.isOther = true) :
    inFlight (m.cancel e.id) = inFlight m := by
  rw [inFlight, EventManager.cancel_pending, List.filterMap_map]
  apply List.filterMap_congr
  intro e' he'
  by_cases hid : e'.id = e.id
  · obtain rfl := m.owned.eq_of_id he' he hid
    have hsame : (e'.cancelIf e'.id).action.isOther = true := by simpa using hother
    exact (flight_of_other hsame).trans (flight_of_other hother).symm
  · rw [Function.comp_apply, Event.cancelIf_of_ne hid]

theorem inFlight_fires (h : m.Fires e m') :
    (inFlight m).Perm ((flight e).toList ++ inFlight m') := by
  have hperm := h.live_perm.filterMap flight
  rw [filterMap_flight, filterMap_flight] at hperm
  cases hflight : flight e with
  | none => rwa [List.filterMap_cons_none hflight] at hperm
  | some b => rwa [List.filterMap_cons_some hflight] at hperm

theorem inFlight_ends (h : m.Ends m') : inFlight m = [] ∧ inFlight m' = [] := by
  constructor
  · exact List.filterMap_eq_nil_iff.mpr fun e he => flight_of_cancelled (h.cancelled e he)
  · rw [inFlight, h.nothing, List.filterMap_nil]

end Queues

section Carriage
variable {s t : NetworkRun κ μ β} {delivered inHand : List (Batch μ)}
  {taken : List (ℤ × ℤ × TypeMessagePair μ)} {m : EventManager (NetworkAction μ β)}

theorem Carries.frame (h : s.Carries delivered inHand taken) (hlog : t.log = s.log)
    (hmanager : t.manager = s.manager) : t.Carries delivered inHand taken where
  posted := by rw [hlog, hmanager]; exact h.posted
  received := by rw [hlog]; exact h.received
  ordered := h.ordered
  past := by rw [hmanager]; exact h.past
  hand := by rw [hmanager]; exact h.hand
  punctual := by rw [hmanager]; exact h.punctual

theorem Carries.note (h : s.Carries delivered inHand taken) {entry : NetworkEntry κ μ}
    (hlog : t.log = s.log ++ [entry]) (hmanager : t.manager = s.manager)
    (hunderway : underway entry = none) (hreceipt : receipt entry = none) :
    t.Carries delivered inHand taken where
  posted := by
    rw [hlog, hmanager]
    simpa [List.filterMap_cons, hunderway] using h.posted
  received := by
    rw [hlog]
    simpa [List.filterMap_cons, hreceipt] using h.received
  ordered := h.ordered
  past := by rw [hmanager]; exact h.past
  hand := by rw [hmanager]; exact h.hand
  punctual := by rw [hmanager]; exact h.punctual

theorem Carries.requeue (h : s.Carries delivered inHand taken)
    (hflight : (inFlight m).Perm (inFlight s.manager))
    (htime : m.simulationTime = s.manager.simulationTime) (hpunctual : m.Punctual) :
    Carries { s with manager := m } delivered inHand taken where
  posted := h.posted.trans (hflight.symm.append_left _)
  received := h.received
  ordered := h.ordered
  past := by rw [htime]; exact h.past
  hand := by rw [htime]; exact h.hand
  punctual := hpunctual

theorem Carries.post (h : s.Carries delivered inHand taken) (latency : ℕ → ℕ)
    (messages : List (TypeMessagePair μ)) (senderId recipientId : ℤ) :
    (s.post latency messages senderId recipientId).Holds
      fun t => t.Carries delivered inHand taken := by
  have hdue : s.manager.simulationTime ≤ s.manager.simulationTime + latency s.drawn := by omega
  unfold NetworkRun.post
  dsimp only
  rw [EventManager.submit_of_le hdue]
  constructor
  · have hposted := h.posted.append_right
      [⟨s.manager.simulationTime + latency s.drawn, recipientId, messages⟩]
    rw [List.append_assoc _ (inFlight s.manager)] at hposted
    have hflight := (List.perm_append_singleton
      (⟨s.manager.simulationTime + latency s.drawn, recipientId, messages⟩ : Batch μ)
      (inFlight s.manager)).trans (inFlight_deliver s.manager _ recipientId messages).symm
    simpa [List.filterMap_cons, underway] using hposted.trans (hflight.append_left _)
  · simpa [List.filterMap_cons, receipt] using h.received
  · exact h.ordered
  · simpa using h.past
  · simpa using h.hand
  · exact h.punctual.push _ hdue false

theorem Carries.refuse (h : s.Carries delivered inHand taken) (latency : ℕ → ℕ)
    (messages : List (TypeMessagePair μ)) (senderId recipientId : ℤ) :
    (s.refuse latency messages senderId recipientId).Holds
      fun t => t.Carries delivered inHand taken := by
  unfold NetworkRun.refuse
  dsimp only
  split_ifs
  · cases readAt s.network.meterClients senderId with
    | error fault => exact h
    | ok client =>
      have hdelayed : Carries ({ s with drawn := s.drawn + 2 }.note
          (.delayed client ((latency s.drawn + latency (s.drawn + 1)) * 1000)))
          delivered inHand taken := h.note rfl rfl rfl rfl
      exact hdelayed.note rfl rfl rfl rfl
  · exact h.note rfl rfl rfl rfl

theorem Carries.send (h : s.Carries delivered inHand taken) (latency : ℕ → ℕ)
    (messages : List (TypeMessagePair μ)) (senderId recipientId : ℤ) :
    (s.send latency messages senderId recipientId).Holds
      fun t => t.Carries delivered inHand taken := by
  unfold NetworkRun.send
  cases s.network.isFailed senderId with
  | error fault => exact h
  | ok senderFailed =>
    cases senderFailed with
    | true => exact h.note rfl rfl rfl rfl
    | false =>
      dsimp only
      split_ifs
      · exact h.post latency messages senderId recipientId
      · cases readAt s.network.failed recipientId with
        | error fault => exact h
        | ok recipientFailed =>
          cases recipientFailed with
          | true => exact h.refuse latency messages senderId recipientId
          | false => exact h.post latency messages senderId recipientId
      · exact h.note rfl rfl rfl rfl

theorem Carries.perform (h : s.Carries delivered inHand taken) (latency : ℕ → ℕ)
    (command : NetworkCommand κ μ β) : (s.perform latency command).Holds
      fun t => t.Carries delivered inHand taken := by
  cases command with
  | connectMeter client id =>
    unfold NetworkRun.perform NetworkRun.connectMeter
    dsimp only
    split
    · exact h
    · exact h.note rfl rfl rfl rfl
  | connectUtility => exact h.frame rfl rfl
  | finishSetup =>
    unfold NetworkRun.perform NetworkRun.finishSetup
    dsimp only
    split_ifs
    · exact h
    · split
      · exact h
      · split
        · exact h
        · exact h.note rfl rfl rfl rfl
  | send messages senderId recipientId => exact h.send latency messages senderId recipientId
  | markFailed id =>
    unfold NetworkRun.perform NetworkRun.markFailed
    dsimp only
    split
    · exact h
    · exact h.note rfl rfl rfl rfl
  | resetFailures => exact h.note rfl rfl rfl rfl
  | submit action delay isTimeout =>
    unfold NetworkRun.perform
    dsimp only
    by_cases hdue : s.manager.simulationTime ≤ s.manager.simulationTime + delay
    · rw [EventManager.submit_of_le hdue]
      exact h.requeue (inFlight_other _ action _ isTimeout) (by simp)
        (h.punctual.push _ hdue isTimeout)
    · rw [EventManager.submit, if_pos (not_le.mp hdue)]
      exact h
  | cancel id =>
    unfold NetworkRun.perform
    dsimp only
    split_ifs with hown
    · simp only [List.any_eq_true, Bool.and_eq_true, decide_eq_true_eq] at hown
      obtain ⟨e, he, rfl, hother⟩ := hown
      exact h.requeue (.of_eq (inFlight_cancel he hother)) rfl (h.punctual.cancel e.id)
    · exact h

theorem Carries.performs (h : s.Carries delivered inHand taken) (latency : ℕ → ℕ)
    (commands : List (NetworkCommand κ μ β)) :
    (Outcome.forEach commands (NetworkRun.perform latency) s).Holds
      fun t => t.Carries delivered inHand taken :=
  Outcome.forEach_ends h fun command _ _ ht => ht.perform latency command

theorem Carries.fires (h : s.Carries delivered [] taken) {e : Event (NetworkAction μ β)}
    (hfires : s.manager.Fires e m) :
    Carries { s with manager := m } delivered (flight e).toList taken where
  posted := by
    rw [List.append_assoc]
    simpa using h.posted.trans ((inFlight_fires hfires).append_left _)
  received := h.received
  ordered := h.ordered
  past := fun b hb => (h.past b hb).trans (hfires.due.trans hfires.time.ge)
  hand := by
    intro b hb
    unfold flight at hb
    split at hb
    · cases hb
    · split at hb
      · obtain rfl := List.mem_singleton.mp hb
        exact hfires.time.symm
      · cases hb
  punctual := hfires.punctual

theorem Carries.finish {b : Batch μ} (h : s.Carries delivered [b] b.receipts) :
    s.Carries (delivered ++ [b]) [] [] where
  posted := by simpa using h.posted
  received := by simpa using h.received
  ordered := by
    refine List.pairwise_append.mpr
      ⟨h.ordered, List.pairwise_singleton _ b, fun b' hb' b'' hb'' => ?_⟩
    obtain rfl := List.mem_singleton.mp hb''
    exact (h.past b' hb').trans (h.hand b'' (by simp)).ge
  past := by
    intro b' hb'
    rcases List.mem_append.mp hb' with hb' | hb'
    · exact h.past b' hb'
    · exact (h.hand b' hb').le
  hand := by simp
  punctual := h.punctual

theorem Carries.receive {b : Batch μ} (h : s.Carries delivered [b] taken)
    (env : NetworkSurroundings κ μ β) (message : TypeMessagePair μ) :
    (s.receive env b.recipientId message).Ends
      (fun t => t.Carries delivered [b] (taken ++ [b.receipt message]))
      fun t => t.Carries delivered [b] taken ∨
        t.Carries delivered [b] (taken ++ [b.receipt message]) := by
  unfold NetworkRun.receive
  cases s.network.receiver b.recipientId with
  | error fault => exact .inl h
  | ok receiver =>
    dsimp only
    have hdue : b.due = s.manager.simulationTime := h.hand b (by simp)
    have hnoted : Carries
        (s.note (.received s.manager.simulationTime b.recipientId receiver message))
        delivered [b] (taken ++ [b.receipt message]) :=
      { h with
        posted := by simpa [List.filterMap_cons, underway] using h.posted
        received := by
          simp [receipt, Batch.receipt, h.received, hdue] }
    exact (hnoted.performs env.latency _).mono (fun _ ht => ht) fun _ ht => .inr ht

/-- If a delivery is interrupted some of its messages have been taken, from the first on. -/
theorem Carries.receives {b : Batch μ} (h : s.Carries delivered [b] taken)
    (env : NetworkSurroundings κ μ β) (messages : List (TypeMessagePair μ)) :
    (Outcome.forEach messages (NetworkRun.receive env b.recipientId) s).Ends
      (fun t => t.Carries delivered [b] (taken ++ messages.map b.receipt))
      fun t => ∃ first, first <+: messages ∧
        t.Carries delivered [b] (taken ++ first.map b.receipt) := by
  induction messages generalizing s taken with
  | nil => simpa using h
  | cons message messages ih =>
    have hfirst : (s.receive env b.recipientId message).Ends
        (fun t => t.Carries delivered [b] (taken ++ [b.receipt message]))
        fun t => ∃ first, first <+: message :: messages ∧
          t.Carries delivered [b] (taken ++ first.map b.receipt) := by
      refine (h.receive env message).mono (fun _ ht => ht) fun t ht => ?_
      rcases ht with ht | ht
      · exact ⟨[], List.nil_prefix, by simpa using ht⟩
      · exact ⟨[message], by simp, by simpa using ht⟩
    refine hfirst.andThen fun t ht => ?_
    refine (ih ht).mono (fun u hu => by simpa using hu) fun u hu => ?_
    obtain ⟨first, hprefix, hu⟩ := hu
    exact ⟨message :: first, by simpa using hprefix, by simpa using hu⟩

end Carriage

end NetworkRun
end Law
end Pddm.Simulation
