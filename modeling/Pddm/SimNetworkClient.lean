import Pddm.EventManager
import Pddm.Outcome
import Pddm.WireFormat

/-!
# A meter's client of the simulated network

Handling a message takes simulated time. A client that is busy keeps what arrives in a queue,
and a timeout of the event manager lets it go on with the queue when its work is done.
-/
namespace Pddm.Simulation

/-- What an event does: it resumes this client, or it is any other part of the simulation. -/
inductive Action
  | resume
  | other
  deriving DecidableEq, Repr

def isHandled : MessageType → Bool
  | .overlay | .aggregation | .ping | .queryRequest | .signatureResponse => true
  | .signatureRequest => false

abbrev TypeMessagePair (β : Type) := MessageType × β

structure SimNetworkClient (β : Type) where
  accumulatedDelayMicros : ℤ
  clientIsBusy : Bool
  busyUntilTime : ℤ
  busyDoneEvent : Option ℕ
  incomingMessageQueue : List (TypeMessagePair β)
  deriving DecidableEq, Repr

/-- `handled` tells whether the client was busy at the start, `noted` whether it has been left
without an event that will resume it. -/
inductive ClientEntry (β : Type)
  | arrived (message : TypeMessagePair β)
  | handled (message : TypeMessagePair β) (busy : Bool)
  | noted (stranded : Bool)
  deriving DecidableEq, Repr

structure ClientRun (β : Type) where
  client : SimNetworkClient β
  manager : EventManager Action
  log : List (ClientEntry β)

/-- What the meter, its timer callbacks, its deferred sends and the other parties do. -/
inductive Op
  | delay (micros : ℤ)
  | send (latency : ℕ)
  | submit (delay : ℕ) (isTimeout : Bool)
  | cancel (id : ℕ)
  deriving DecidableEq, Repr

/-- What happens in an event other than a resumption. -/
inductive Activity (β : Type)
  | receive (message : TypeMessagePair β)
  | op (o : Op)

/-- How the meter handles a message, and what the other events do, in any run. -/
structure Surroundings (β : Type) where
  handler : ClientRun β → TypeMessagePair β → List Op
  events : ClientRun β → Event Action → List (Activity β)

variable {β : Type}

def SimNetworkClient.initial : SimNetworkClient β := ⟨0, false, 0, none, []⟩

/-- The event that will resume a busy client. -/
def SimNetworkClient.Wakes (client : SimNetworkClient β) (e : Event Action) : Prop :=
  e.action = .resume ∧ e.cancelled = false ∧ e.fireTime = client.busyUntilTime ∧
    client.busyDoneEvent = some e.id

instance (client : SimNetworkClient β) (e : Event Action) : Decidable (client.Wakes e) :=
  inferInstanceAs (Decidable (_ ∧ _ ∧ _ ∧ _))

namespace ClientRun

/-- A busy client that no pending event will resume. -/
def Stranded (r : ClientRun β) : Prop :=
  r.client.clientIsBusy = true ∧ ∀ e ∈ r.manager.pending, ¬ r.client.Wakes e

instance (r : ClientRun β) : Decidable r.Stranded := inferInstanceAs (Decidable (_ ∧ _))

def submit (action : Action) (fireTime : ℤ) (isTimeout : Bool) (r : ClientRun β) :
    Outcome Fault (ClientRun β) :=
  match r.manager.submit action fireTime isTimeout with
  | .ok (_, m) => .done { r with manager := m }
  | .error fault => .halted fault r

def submitResume (r : ClientRun β) : Outcome Fault (ClientRun β) :=
  match r.manager.submit .resume r.client.busyUntilTime true with
  | .ok (id, m) =>
      .done { r with manager := m, client := { r.client with busyDoneEvent := some id } }
  | .error fault => .halted fault r

def cancelBusyDone (r : ClientRun β) : ClientRun β :=
  match r.client.busyDoneEvent with
  | some id => { r with manager := r.manager.cancel id }
  | none => r

def delayClient (delayTimeMicros : ℤ) (r : ClientRun β) : Outcome Fault (ClientRun β) :=
  let accumulated := r.client.accumulatedDelayMicros + delayTimeMicros
  let delayMs := accumulated / 1000
  if !r.client.clientIsBusy then
    if accumulated > 1000 then
      submitResume { r with client := { r.client with
        accumulatedDelayMicros := accumulated % 1000
        clientIsBusy := true
        busyUntilTime := r.manager.simulationTime + delayMs } }
    else .done { r with client := { r.client with accumulatedDelayMicros := accumulated } }
  else
    if accumulated > 1000 then
      let delayed : ClientRun β := { r with client := { r.client with
        accumulatedDelayMicros := accumulated % 1000
        busyUntilTime := r.client.busyUntilTime + delayMs } }
      submitResume delayed.cancelBusyDone
    else .done { r with client := { r.client with accumulatedDelayMicros := accumulated } }

/-- The network delivers after its latency; a busy client sends when its work is done. -/
def send (latency : ℕ) (r : ClientRun β) : Outcome Fault (ClientRun β) :=
  if !r.client.clientIsBusy then r.submit .other (r.manager.simulationTime + latency) false
  else r.submit .other r.client.busyUntilTime false

/-- Nothing but the client itself has a pointer to the events that resume it. -/
def isResume (r : ClientRun β) (id : ℕ) : Bool :=
  r.manager.pending.any fun e => e.id = id && e.action = .resume

def perform (o : Op) (r : ClientRun β) : Outcome Fault (ClientRun β) :=
  match o with
  | .delay micros => r.delayClient micros
  | .send latency => r.send latency
  | .submit delay isTimeout => r.submit .other (r.manager.simulationTime + delay) isTimeout
  | .cancel id => .done (if r.isResume id then r else { r with manager := r.manager.cancel id })

def note (r : ClientRun β) : ClientRun β :=
  { r with log := r.log ++ [.noted (decide r.Stranded)] }

def operate (o : Op) (r : ClientRun β) : Outcome Fault (ClientRun β) := (r.perform o).map note

def meterHandles (env : Surroundings β) (message : TypeMessagePair β) (r : ClientRun β) :
    Outcome Fault (ClientRun β) :=
  .forEach (env.handler r message) operate
    { r with log := r.log ++ [.handled message r.client.clientIsBusy] }

def dispatch (env : Surroundings β) (message : TypeMessagePair β) (r : ClientRun β) :
    Outcome Fault (ClientRun β) :=
  match message.1 with
  | .overlay | .aggregation | .ping | .queryRequest | .signatureResponse =>
      r.meterHandles env message
  | .signatureRequest => .done r

def receiveMessage (env : Surroundings β) (message : TypeMessagePair β) (r : ClientRun β) :
    Outcome Fault (ClientRun β) :=
  let arrived : ClientRun β := { r with log := r.log ++ [.arrived message] }
  if !r.client.clientIsBusy then
    dispatch env message { arrived with client := { r.client with accumulatedDelayMicros := 0 } }
  else
    .done { arrived with client := { r.client with
      incomingMessageQueue := r.client.incomingMessageQueue ++ [message] } }

def pop (r : ClientRun β) : ClientRun β :=
  { r with client := { r.client with
    incomingMessageQueue := r.client.incomingMessageQueue.tail } }

/-- The loop of `resume_from_busy`, which takes as many turns as there are messages. -/
def drain (env : Surroundings β) : ℕ → ClientRun β → Outcome Fault (ClientRun β)
  | 0, r =>
      if r.client.clientIsBusy || r.client.incomingMessageQueue.isEmpty then .done r
      else .halted .outOfFuel r
  | fuel + 1, r =>
      match r.client.clientIsBusy, r.client.incomingMessageQueue with
      | false, message :: _ => (r.dispatch env message).andThen fun r' => drain env fuel r'.pop
      | _, _ => .done r

def resumeFromBusy (env : Surroundings β) (r : ClientRun β) : Outcome Fault (ClientRun β) :=
  if r.manager.simulationTime < r.client.busyUntilTime then .done r
  else
    drain env r.client.incomingMessageQueue.length
      { r with client := { r.client with clientIsBusy := false } }

def act (env : Surroundings β) (activity : Activity β) (r : ClientRun β) :
    Outcome Fault (ClientRun β) :=
  match activity with
  | .receive message => r.receiveMessage env message
  | .op o => r.operate o

def fire (env : Surroundings β) (e : Event Action) (r : ClientRun β) :
    Outcome Fault (ClientRun β) :=
  match e.action with
  | .resume => r.resumeFromBusy env
  | .other => .forEach (env.events r e) (act env) r

def pass (π : IterationOrder) (env : Surroundings β) (r : ClientRun β) :
    Outcome Fault (ClientRun β) :=
  match r.manager.turn π with
  | .error fault => .halted fault r
  | .ok (none, m) => .done { r with manager := m }
  | .ok (some event, m) =>
      if event.cancelled then .done { r with manager := m }
      else fire env event { r with manager := m }

def simulate (m : EventManager Action) (setup : List (Activity β)) (π : ℕ → IterationOrder)
    (env : Surroundings β) (passes : ℕ) : Outcome Fault (ClientRun β) :=
  (Outcome.forEach setup (act env) ⟨.initial, m, []⟩).andThen fun r =>
    .forEach (List.range passes) (fun i => pass (π i) env) r

end ClientRun

section Logs

def arrivals (log : List (ClientEntry β)) : List (TypeMessagePair β) :=
  log.filterMap fun
    | .arrived message => some message
    | _ => none

def handlings (log : List (ClientEntry β)) : List (TypeMessagePair β) :=
  log.filterMap fun
    | .handled message _ => some message
    | _ => none

def known (messages : List (TypeMessagePair β)) : List (TypeMessagePair β) :=
  messages.filter fun message => isHandled message.1

/-- No handling starts while the client is busy, and it always has an event to resume it. -/
def Sound : ClientEntry β → Prop
  | .arrived _ => True
  | .handled _ busy => busy = false
  | .noted stranded => stranded = false

end Logs

namespace ClientRun

section Steps
variable {r r' : ClientRun β} {q a h : List (TypeMessagePair β)}

structure Wakeful (r : ClientRun β) : Prop where
  punctual : r.manager.Punctual
  awaited : ¬ r.Stranded

/-- What a step of the surroundings leaves behind; it never ends the work of the client. -/
structure Leaves (busy : Bool) (q : List (TypeMessagePair β)) (log : List (ClientEntry β))
    (r : ClientRun β) : Prop where
  wakeful : r.Wakeful
  busy : busy = true → r.client.clientIsBusy = true
  queue : r.client.incomingMessageQueue = q
  log : r.log = log

/-- What the steps within an event leave alone: the queue, and what has arrived and was handled. -/
structure Keeps (q a h : List (TypeMessagePair β)) (r : ClientRun β) : Prop where
  wakeful : r.Wakeful
  sound : ∀ entry ∈ r.log, Sound entry
  queue : r.client.incomingMessageQueue = q
  arrived : arrivals r.log = a
  handled : handlings r.log = h

theorem not_stranded_iff : ¬ r.Stranded ↔
    (r.client.clientIsBusy = true → ∃ e ∈ r.manager.pending, r.client.Wakes e) := by
  simp [Stranded]

theorem not_stranded_of_idle (hidle : r.client.clientIsBusy = false) : ¬ r.Stranded := by
  rintro ⟨hbusy, -⟩
  rw [hidle] at hbusy
  cases hbusy

/-- The events that wake a client stay, and so does the client's need of them. -/
theorem Wakeful.of_kept (hr : r.Wakeful) (hclient : r'.client = r.client)
    (hpunctual : r'.manager.Punctual)
    (hkept : ∀ e ∈ r.manager.pending, r.client.Wakes e → e ∈ r'.manager.pending) :
    r'.Wakeful := by
  refine ⟨hpunctual, not_stranded_iff.mpr fun hbusy => ?_⟩
  rw [hclient] at hbusy ⊢
  obtain ⟨e, he, hwakes⟩ := not_stranded_iff.mp hr.awaited hbusy
  exact ⟨e, hkept e he hwakes, hwakes⟩

/-- A busy client is busy until some time to come. -/
theorem Wakeful.now_le (hr : r.Wakeful) (hbusy : r.client.clientIsBusy = true) :
    r.manager.simulationTime ≤ r.client.busyUntilTime := by
  obtain ⟨e, he, -, -, htime, -⟩ := not_stranded_iff.mp hr.awaited hbusy
  rw [← htime]
  exact hr.punctual e he

theorem submit_ends (hr : r.Wakeful) (action : Action) {fireTime : ℤ}
    (htime : r.manager.simulationTime ≤ fireTime) (isTimeout : Bool) :
    (r.submit action fireTime isTimeout).Ends
      (Leaves r.client.clientIsBusy r.client.incomingMessageQueue r.log) fun _ => False := by
  simp only [submit, EventManager.submit_of_le htime]
  refine ⟨hr.of_kept rfl (hr.punctual.push action htime isTimeout) fun e he _ => ?_, id, rfl, rfl⟩
  exact EventManager.mem_pending_push.mpr (Or.inr he)

theorem submitResume_ends {busy : Bool} {log : List (ClientEntry β)} (hpunctual : r.manager.Punctual)
    (htime : r.manager.simulationTime ≤ r.client.busyUntilTime)
    (hbusy : busy = true → r.client.clientIsBusy = true)
    (hqueue : r.client.incomingMessageQueue = q) (hlog : r.log = log) :
    r.submitResume.Ends (Leaves busy q log) fun _ => False := by
  simp only [submitResume, EventManager.submit_of_le htime]
  refine ⟨⟨hpunctual.push _ htime _, not_stranded_iff.mpr fun _ => ?_⟩, hbusy, hqueue, hlog⟩
  exact ⟨_, EventManager.mem_pending_push.mpr (Or.inl rfl), rfl, rfl, rfl, rfl⟩

theorem cancelBusyDone_punctual (h : r.manager.Punctual) : r.cancelBusyDone.manager.Punctual := by
  unfold cancelBusyDone
  split
  · exact h.cancel _
  · exact h

@[simp] theorem cancelBusyDone_client (r : ClientRun β) :
    r.cancelBusyDone.client = r.client := by
  unfold cancelBusyDone
  split <;> rfl

@[simp] theorem cancelBusyDone_log (r : ClientRun β) : r.cancelBusyDone.log = r.log := by
  unfold cancelBusyDone
  split <;> rfl

@[simp] theorem cancelBusyDone_simulationTime (r : ClientRun β) :
    r.cancelBusyDone.manager.simulationTime = r.manager.simulationTime := by
  unfold cancelBusyDone
  split <;> rfl

theorem delayClient_ends (hr : r.Wakeful) (micros : ℤ) :
    (r.delayClient micros).Ends
      (Leaves r.client.clientIsBusy r.client.incomingMessageQueue r.log) fun _ => False := by
  unfold delayClient
  dsimp only
  by_cases hbusy : r.client.clientIsBusy = true
  · have hnow := hr.now_le hbusy
    rw [if_neg (by simp [hbusy])]
    split_ifs with hlong
    · refine submitResume_ends (cancelBusyDone_punctual hr.punctual) ?_ (by simp) (by simp)
        (by simp)
      simp only [cancelBusyDone_simulationTime, cancelBusyDone_client]
      omega
    · exact ⟨⟨hr.punctual, hr.awaited⟩, id, rfl, rfl⟩
  · rw [if_pos (by simpa using hbusy)]
    split_ifs with hlong
    · refine submitResume_ends hr.punctual ?_ (fun _ => rfl) rfl rfl
      dsimp only
      omega
    · exact ⟨⟨hr.punctual, hr.awaited⟩, id, rfl, rfl⟩

theorem cancel_wakeful (hr : r.Wakeful) {id : ℕ} (hid : r.isResume id = false) :
    Wakeful { r with manager := r.manager.cancel id } := by
  refine hr.of_kept rfl (hr.punctual.cancel id) fun e he hwakes => ?_
  rw [EventManager.cancel_pending]
  have hne : e.id ≠ id := by
    intro heq
    simp only [isResume, List.any_eq_false, Bool.and_eq_true, decide_eq_true_eq] at hid
    exact hid e he ⟨heq, hwakes.1⟩
  rw [← Event.cancelIf_of_ne hne]
  exact List.mem_map_of_mem he

theorem perform_ends (hr : r.Wakeful) (o : Op) :
    (r.perform o).Ends (Leaves r.client.clientIsBusy r.client.incomingMessageQueue r.log)
      fun _ => False := by
  cases o with
  | delay micros => exact delayClient_ends hr micros
  | send latency =>
    unfold perform send
    dsimp only
    split_ifs with hbusy
    · exact submit_ends hr _ (by omega) _
    · exact submit_ends hr _ (hr.now_le (by simpa using hbusy)) _
  | submit delay isTimeout => exact submit_ends hr _ (by omega) _
  | cancel id =>
    unfold perform
    dsimp only
    split_ifs with hid
    · exact ⟨hr, fun h => h, rfl, rfl⟩
    · exact ⟨cancel_wakeful hr (by simpa using hid), fun h => h, rfl, rfl⟩

theorem operate_ends (hr : r.Keeps q a h) (o : Op) :
    (r.operate o).Ends (fun r' => r'.Keeps q a h ∧
      (r.client.clientIsBusy = true → r'.client.clientIsBusy = true)) fun _ => False := by
  refine (perform_ends hr.wakeful o).map (fun r' hr' => ⟨?_, hr'.busy⟩) fun _ hfalse => hfalse
  have hnote : decide r'.Stranded = false := by simpa using hr'.wakeful.awaited
  constructor
  case wakeful => exact ⟨hr'.wakeful.punctual, hr'.wakeful.awaited⟩
  case sound =>
    intro entry hentry
    rcases List.mem_append.mp hentry with hentry | hentry
    · exact hr.sound entry (hr'.log ▸ hentry)
    · rw [List.mem_singleton.mp hentry]
      exact hnote
  case queue => exact hr'.queue.trans hr.queue
  case arrived => simpa [note, arrivals, hr'.log] using hr.arrived
  case handled => simpa [note, handlings, hr'.log] using hr.handled

theorem meterHandles_ends {env : Surroundings β} (hr : r.Keeps q a h)
    (hidle : r.client.clientIsBusy = false) (message : TypeMessagePair β) :
    (r.meterHandles env message).Ends (Keeps q a (h ++ [message])) fun _ => False := by
  refine Outcome.forEach_ends ?_ fun o _ r' hr' =>
    (operate_ends hr' o).mono (fun _ hkeeps => hkeeps.1) fun _ hfalse => hfalse
  constructor
  case wakeful => exact ⟨hr.wakeful.punctual, hr.wakeful.awaited⟩
  case sound =>
    intro entry hentry
    rcases List.mem_append.mp hentry with hentry | hentry
    · exact hr.sound entry hentry
    · rw [List.mem_singleton.mp hentry]
      exact hidle
  case queue => exact hr.queue
  case arrived => simpa [arrivals] using hr.arrived
  case handled => simpa [handlings] using hr.handled

theorem dispatch_ends {env : Surroundings β} (hr : r.Keeps q a h)
    (hidle : r.client.clientIsBusy = false) (message : TypeMessagePair β) :
    (r.dispatch env message).Ends (Keeps q a (h ++ known [message])) fun _ => False := by
  obtain ⟨type, body⟩ := message
  cases type with
  | signatureRequest =>
    have hnone : known [(MessageType.signatureRequest, body)] = [] := rfl
    rw [hnone, List.append_nil]
    exact hr
  | overlay | aggregation | ping | queryRequest | signatureResponse =>
    exact meterHandles_ends hr hidle _

structure Served (r : ClientRun β) : Prop where
  wakeful : r.Wakeful
  sound : ∀ entry ∈ r.log, Sound entry
  inOrder : handlings r.log ++ known r.client.incomingMessageQueue = known (arrivals r.log)
  idle : r.client.clientIsBusy = false → r.client.incomingMessageQueue = []

theorem Served.keeps (hr : r.Served) :
    r.Keeps r.client.incomingMessageQueue (arrivals r.log) (handlings r.log) :=
  ⟨hr.wakeful, hr.sound, rfl, rfl, rfl⟩

theorem Keeps.served (hr : r.Keeps q a h) (horder : h ++ known q = known a)
    (hidle : r.client.clientIsBusy = false → q = []) : r.Served where
  wakeful := hr.wakeful
  sound := hr.sound
  inOrder := by rw [hr.handled, hr.queue, hr.arrived, horder]
  idle := fun hfree => hr.queue.trans (hidle hfree)

theorem receiveMessage_ends (env : Surroundings β) (hr : r.Served) (message : TypeMessagePair β) :
    (r.receiveMessage env message).Ends Served fun _ => False := by
  have hsound : ∀ entry ∈ r.log ++ [.arrived message], Sound entry := by
    intro entry hentry
    rcases List.mem_append.mp hentry with hentry | hentry
    · exact hr.sound entry hentry
    · rw [List.mem_singleton.mp hentry]
      trivial
  have harrived : arrivals (r.log ++ [.arrived message]) = arrivals r.log ++ [message] := by
    simp [arrivals]
  have hhandled : handlings (r.log ++ [.arrived message]) = handlings r.log := by
    simp [handlings]
  have hknown (messages : List (TypeMessagePair β)) :
      known (messages ++ [message]) = known messages ++ known [message] := List.filter_append ..
  unfold receiveMessage
  dsimp only
  by_cases hbusy : r.client.clientIsBusy = true
  · rw [if_neg (by simp [hbusy])]
    constructor
    case wakeful => exact ⟨hr.wakeful.punctual, hr.wakeful.awaited⟩
    case sound => exact hsound
    case inOrder =>
      dsimp only
      rw [hhandled, harrived, hknown, hknown, ← List.append_assoc, hr.inOrder]
    case idle =>
      intro hidle
      exact absurd hbusy (by simpa using hidle)
  · have hidle : r.client.clientIsBusy = false := by simpa using hbusy
    rw [if_pos (by simpa using hbusy)]
    have hnil := hr.idle hidle
    have hstart : Keeps [] (arrivals r.log ++ [message]) (handlings r.log)
        { r with
          log := r.log ++ [.arrived message]
          client := { r.client with accumulatedDelayMicros := 0 } } :=
      ⟨⟨hr.wakeful.punctual, not_stranded_of_idle hidle⟩, hsound, hnil, harrived, hhandled⟩
    refine (dispatch_ends hstart hidle message).mono (fun r' hr' => ?_) fun _ hfalse => hfalse
    apply hr'.served
    · have horder := hr.inOrder
      rw [hnil] at horder
      rw [hknown, ← horder]
      simp [known]
    · exact fun _ => rfl

theorem Keeps.pop {message : TypeMessagePair β} (hr : r.Keeps (message :: q) a h) :
    r.pop.Keeps q a h where
  wakeful := ⟨hr.wakeful.punctual, hr.wakeful.awaited⟩
  sound := hr.sound
  queue := by rw [ClientRun.pop, hr.queue, List.tail_cons]
  arrived := hr.arrived
  handled := hr.handled

/-- The loop goes on until the client is busy again or has handled all that waited. -/
theorem drain_ends (env : Surroundings β) (hr : r.Keeps q a h) (horder : h ++ known q = known a) :
    (r.drain env q.length).Ends Served fun _ => False := by
  induction q generalizing r h with
  | nil =>
    rw [List.length_nil, drain, if_pos (by simp [hr.queue])]
    exact hr.served horder fun _ => rfl
  | cons message q ih =>
    rw [List.length_cons, drain]
    cases hbusy : r.client.clientIsBusy with
    | true => exact hr.served horder fun hidle => absurd hidle (by simp [hbusy])
    | false =>
      rw [hr.queue]
      dsimp only
      refine (dispatch_ends hr hbusy message).andThen fun r' hr' => ?_
      apply ih hr'.pop
      rw [← horder, List.append_assoc]
      congr 1
      exact (List.filter_append [message] q).symm

end Steps

section Passes
variable {r : ClientRun β} {m : EventManager Action} {e : Event Action}

/-- The event that wakes a client stays pending while other events fire. -/
theorem Wakeful.fires (hr : r.Wakeful) (hfires : r.manager.Fires e m) (hother : ¬ r.client.Wakes e) :
    Wakeful { r with manager := m } := by
  refine hr.of_kept rfl hfires.punctual fun e' he' hwakes => ?_
  apply hfires.kept e' he' hwakes.2.1
  intro hid
  obtain rfl := r.manager.owned.eq_of_id he' hfires.mem hid
  exact hother hwakes

theorem Served.fires (hr : r.Served) (hfires : r.manager.Fires e m) (hother : ¬ r.client.Wakes e) :
    Served { r with manager := m } :=
  ⟨hr.wakeful.fires hfires hother, hr.sound, hr.inOrder, hr.idle⟩

/-- A run ends with an idle client only, as all that is left then was cancelled. -/
theorem Wakeful.idle_of_ends (hr : r.Wakeful) (hends : r.manager.Ends m) :
    r.client.clientIsBusy = false := by
  rw [← Bool.not_eq_true]
  intro hbusy
  obtain ⟨e, he, -, hcancelled, -⟩ := not_stranded_iff.mp hr.awaited hbusy
  rw [hends.cancelled e he] at hcancelled
  cases hcancelled

theorem Served.ended (hr : r.Served) (hends : r.manager.Ends m) :
    Served { r with manager := m } where
  wakeful := ⟨by simp [EventManager.Punctual, hends.nothing],
    not_stranded_of_idle (hr.wakeful.idle_of_ends hends)⟩
  sound := hr.sound
  inOrder := hr.inOrder
  idle := hr.idle

/-- A resumption that comes too early is left to the event that wakes the client. -/
theorem resumeFromBusy_ends (env : Surroundings β) (hr : r.Served) (hfires : r.manager.Fires e m) :
    (resumeFromBusy env { r with manager := m }).Ends Served fun _ => False := by
  unfold resumeFromBusy
  dsimp only
  split_ifs with hearly
  · apply hr.fires hfires
    intro hwakes
    rw [hfires.time, hwakes.2.2.1] at hearly
    exact hearly.false
  · refine drain_ends env ⟨⟨hfires.punctual, not_stranded_of_idle rfl⟩, hr.sound, rfl, rfl, rfl⟩ ?_
    exact hr.inOrder

theorem act_ends (env : Surroundings β) (hr : r.Served) (activity : Activity β) :
    (r.act env activity).Ends Served fun _ => False := by
  cases activity with
  | receive message => exact receiveMessage_ends env hr message
  | op o =>
    refine (operate_ends hr.keeps o).mono (fun r' hr' => ?_) fun _ hfalse => hfalse
    apply hr'.1.served hr.inOrder
    intro hidle
    apply hr.idle
    rw [← Bool.not_eq_true]
    intro hbusy
    rw [hr'.2 hbusy] at hidle
    cases hidle

theorem pass_ends (π : IterationOrder) (env : Surroundings β) (hr : r.Served) :
    (r.pass π env).Ends Served fun _ => False := by
  unfold pass
  rcases EventManager.turn_cases hr.wakeful.punctual π with ⟨m, hturn, hends⟩ | ⟨e, m, hturn, hfires⟩
  · rw [hturn]
    exact hr.ended hends
  · rw [hturn]
    dsimp only
    split_ifs with hcancelled
    · apply hr.fires hfires
      intro hwakes
      rw [hwakes.2.1] at hcancelled
      cases hcancelled
    · unfold fire
      cases haction : e.action with
      | resume => exact resumeFromBusy_ends env hr hfires
      | other =>
        apply Outcome.forEach_ends
        · apply hr.fires hfires
          intro hwakes
          rw [hwakes.1] at haction
          cases haction
        · exact fun activity _ r' hr' => act_ends env hr' activity

theorem served_start {m : EventManager Action} (hm : m.pending = []) :
    Served (⟨.initial, m, []⟩ : ClientRun β) where
  wakeful := ⟨by simp [EventManager.Punctual, hm], not_stranded_of_idle rfl⟩
  sound := by simp
  inOrder := rfl
  idle := fun _ => rfl

theorem simulate_ends {m : EventManager Action} (hm : m.pending = []) (setup : List (Activity β))
    (π : ℕ → IterationOrder) (env : Surroundings β) (passes : ℕ) :
    (simulate m setup π env passes).Ends Served fun _ => False := by
  have hstart : (Outcome.forEach setup (act env) ⟨.initial, m, []⟩).Ends Served fun _ => False :=
    Outcome.forEach_ends (served_start hm) fun activity _ r hr => act_ends env hr activity
  refine hstart.andThen fun r hr => ?_
  exact Outcome.forEach_ends hr fun i _ r hr => pass_ends (π i) env hr

end Passes

/-- Whatever arrives, however long the work takes and whatever else happens in the simulation,
the meter handles the messages once and in their order, and never while it is busy. A busy client
has an event that will resume it, so that a run ends only once all messages have been handled. -/
theorem simulate_serves {m : EventManager Action} (hm : m.pending = []) (setup : List (Activity β))
    (π : ℕ → IterationOrder) (env : Surroundings β) (passes : ℕ) :
    ∃ r, simulate m setup π env passes = .done r ∧ (∀ entry ∈ r.log, Sound entry) ∧
      handlings r.log ++ known r.client.incomingMessageQueue = known (arrivals r.log) ∧
      (r.client.clientIsBusy = false → r.client.incomingMessageQueue = []) ∧
      (r.client.clientIsBusy = true → ∃ e ∈ r.manager.pending, r.client.Wakes e) ∧
      ∀ ρ, (∃ e m', r.manager.turn ρ = .ok (some e, m') ∧
          (r.client.Wakes e → m'.simulationTime = r.client.busyUntilTime)) ∨
        (∃ m', r.manager.turn ρ = .ok (none, m')) ∧ r.client.clientIsBusy = false ∧
          handlings r.log = known (arrivals r.log) := by
  have hends := simulate_ends hm setup π env passes
  cases hrun : simulate m setup π env passes with
  | halted fault r =>
    rw [hrun] at hends
    exact hends.elim
  | done r =>
    rw [hrun] at hends
    have hr : r.Served := hends
    have hawaited := not_stranded_iff.mp hr.wakeful.awaited
    refine ⟨r, rfl, hr.sound, hr.inOrder, hr.idle, hawaited, fun ρ => ?_⟩
    rcases EventManager.turn_cases hr.wakeful.punctual ρ with
      ⟨m', hturn, hdone⟩ | ⟨e, m', hturn, hfires⟩
    · have hidle := hr.wakeful.idle_of_ends hdone
      have horder := hr.inOrder
      rw [hr.idle hidle] at horder
      exact Or.inr ⟨⟨m', hturn⟩, hidle, by simpa [known] using horder⟩
    · exact Or.inl ⟨e, m', hturn, fun hwakes => hfires.time.trans hwakes.2.2.1⟩

/-- Two messages and a request arrive together; the work on the first takes two milliseconds. -/
def together : Surroundings ℕ where
  handler := fun _ message => if message.2 = 1 then [.delay 1200, .delay 1200] else []
  events := fun _ e =>
    if e.id = 0 then
      [.receive (.overlay, 1), .receive (.ping, 2), .receive (.signatureRequest, 3)]
    else []

example : (simulate .empty [.op (.submit 5 false)] (fun _ => .insertion) together 3).state.log =
    [.noted false, .arrived (.overlay, 1), .handled (.overlay, 1) false, .noted false, .noted false,
      .arrived (.ping, 2), .arrived (.signatureRequest, 3), .handled (.ping, 2) false] := by
  decide

theorem simulate_serves_together :
    ∃ r, simulate .empty [.op (.submit 5 false)] (fun _ => .insertion) together 3 = .done r ∧
      (∀ entry ∈ r.log, Sound entry) ∧
      handlings r.log ++ known r.client.incomingMessageQueue = known (arrivals r.log) ∧
      (r.client.clientIsBusy = false → r.client.incomingMessageQueue = []) ∧
      (r.client.clientIsBusy = true → ∃ e ∈ r.manager.pending, r.client.Wakes e) ∧
      ∀ ρ, (∃ e m', r.manager.turn ρ = .ok (some e, m') ∧
          (r.client.Wakes e → m'.simulationTime = r.client.busyUntilTime)) ∨
        (∃ m', r.manager.turn ρ = .ok (none, m')) ∧ r.client.clientIsBusy = false ∧
          handlings r.log = known (arrivals r.log) :=
  simulate_serves rfl _ _ _ _

end ClientRun
end Pddm.Simulation
