import Pddm.PathFinder

/-!
# The event manager of the simulator

Two priority queues of events, ordered by the time at which they fire. The timeouts, most of
which are cancelled before they fire, are cleared of cancelled events from time to time.
-/
namespace Pddm.Simulation

structure Event (α : Type) where
  id : ℕ
  action : α
  fireTime : ℤ
  cancelled : Bool
  timeout : Bool
  deriving DecidableEq, Repr

def Event.cancel {α : Type} (e : Event α) : Event α := { e with cancelled := true }

/-- What `cancel` through the pointer `id` does to an event. -/
def Event.cancelIf {α : Type} (id : ℕ) (e : Event α) : Event α :=
  if e.id = id then e.cancel else e

variable {α : Type}

section Identities

@[simp] theorem Event.cancelIf_id (id : ℕ) (e : Event α) : (e.cancelIf id).id = e.id := by
  unfold Event.cancelIf
  split_ifs <;> rfl

@[simp] theorem Event.cancelIf_fireTime (id : ℕ) (e : Event α) :
    (e.cancelIf id).fireTime = e.fireTime := by
  unfold Event.cancelIf
  split_ifs <;> rfl

@[simp] theorem Event.cancelIf_action (id : ℕ) (e : Event α) :
    (e.cancelIf id).action = e.action := by
  unfold Event.cancelIf
  split_ifs <;> rfl

theorem Event.cancelIf_cancelled {id : ℕ} {e : Event α} :
    (e.cancelIf id).cancelled = true ↔ e.id = id ∨ e.cancelled = true := by
  unfold Event.cancelIf Event.cancel
  split_ifs with h <;> simp [h]

theorem Event.cancelIf_of_ne {id : ℕ} {e : Event α} (h : e.id ≠ id) : e.cancelIf id = e :=
  if_neg h

/-- The events held are distinct, and were all made before the next one. -/
structure Owned (nextId : ℕ) (events : List (Event α)) : Prop where
  distinct : (events.map Event.id).Nodup
  fresh : ∀ e ∈ events, e.id < nextId

theorem Owned.nil (nextId : ℕ) : Owned nextId ([] : List (Event α)) := by
  constructor <;> simp

variable {nextId : ℕ} {events events' : List (Event α)}

theorem Owned.push (h : Owned nextId events) {e : Event α} (hid : e.id = nextId)
    (hperm : events'.Perm (e :: events)) : Owned (nextId + 1) events' := by
  constructor
  · apply (hperm.map Event.id).nodup_iff.mpr
    rw [List.map_cons, List.nodup_cons]
    constructor
    · intro hmem
      obtain ⟨e', he', heq⟩ := List.mem_map.mp hmem
      have hlt : e'.id < nextId := h.fresh e' he'
      omega
    · exact h.distinct
  · intro e' he'
    rcases List.mem_cons.mp (hperm.mem_iff.mp he') with rfl | he'
    · omega
    · exact (h.fresh e' he').trans (Nat.lt_succ_self _)

theorem Owned.sublist (h : Owned nextId events) (hsub : events'.Sublist events) :
    Owned nextId events' :=
  ⟨h.distinct.sublist (hsub.map _), fun e he => h.fresh e (hsub.subset he)⟩

theorem Owned.map_cancelIf (h : Owned nextId events) (id : ℕ) :
    Owned nextId (events.map (Event.cancelIf id)) := by
  constructor
  · rw [List.map_map]
    convert h.distinct using 2
    funext e
    simp
  · intro e he
    obtain ⟨e', he', rfl⟩ := List.mem_map.mp he
    simpa using h.fresh e' he'

theorem Owned.eq_of_id (h : Owned nextId events) {e e' : Event α} (he : e ∈ events)
    (he' : e' ∈ events) (hid : e.id = e'.id) : e = e' :=
  List.inj_on_of_nodup_map h.distinct he he' hid

end Identities

section Queues

/-- The top of a priority queue; events of the same time come in any order. -/
def top (π : IterationOrder) (queue : List (Event α)) : Option (Event α) :=
  (π.order queue).find? fun e => queue.all fun e' => e.fireTime ≤ e'.fireTime

def popped (queue : List (Event α)) (e : Event α) : List (Event α) :=
  queue.eraseP fun e' => e'.id = e.id

variable {π : IterationOrder} {queue : List (Event α)} {e : Event α}

theorem mem_of_top (h : top π queue = some e) : e ∈ queue :=
  π.mem_order.mp (List.mem_of_find?_eq_some h)

theorem top_le (h : top π queue = some e) {e' : Event α} (he' : e' ∈ queue) :
    e.fireTime ≤ e'.fireTime := by
  have hle := List.find?_some h
  simp only [List.all_eq_true, decide_eq_true_eq] at hle
  exact hle e' he'

theorem top_eq_none : top π queue = none ↔ queue = [] := by
  constructor
  · intro h
    cases hleast : queue.argmin Event.fireTime with
    | none => exact List.argmin_eq_none.mp hleast
    | some e =>
      have he : e ∈ π.order queue := π.mem_order.mpr (List.argmin_mem hleast)
      have hnot := List.find?_eq_none.mp h e he
      simp only [List.all_eq_true, decide_eq_true_eq] at hnot
      exact absurd (fun e' he' => List.le_of_mem_argmin he' hleast) hnot
  · rintro rfl
    have hnil : π.order ([] : List (Event α)) = [] := (π.perm []).eq_nil
    rw [top, hnil, List.find?_nil]

theorem popped_sublist (queue : List (Event α)) (e : Event α) :
    (popped queue e).Sublist queue :=
  List.eraseP_sublist

theorem mem_popped {queue : List (Event α)} {e e' : Event α} (hne : e'.id ≠ e.id) :
    e' ∈ popped queue e ↔ e' ∈ queue :=
  List.mem_eraseP_of_neg (by simpa using hne)

theorem id_ne_of_mem_popped {nextId : ℕ} (h : Owned nextId queue) (he : e ∈ queue)
    {e' : Event α} (he' : e' ∈ popped queue e) : e'.id ≠ e.id := by
  obtain ⟨x, before, after, -, hx, hqueue, hpopped⟩ :=
    List.exists_of_eraseP he (p := fun e' => e'.id = e.id) (by simp)
  rw [popped, hpopped] at he'
  have hdistinct := h.distinct
  simp only [decide_eq_true_eq] at hx
  rw [hqueue, (List.perm_middle.map Event.id).nodup_iff, List.map_cons, List.nodup_cons, hx]
    at hdistinct
  intro heq
  exact hdistinct.1 (heq ▸ List.mem_map_of_mem he')

end Queues

structure EventManager (α : Type) where
  simulationTime : ℤ
  eventQueue : List (Event α)
  timeoutQueue : List (Event α)
  lastGcTime : ℤ
  nextId : ℕ
  owned : Owned nextId (eventQueue ++ timeoutQueue)

namespace EventManager

def garbageCollectInterval : ℤ := 20

def empty : EventManager α := ⟨0, [], [], 0, 0, Owned.nil 0⟩

def pending (m : EventManager α) : List (Event α) := m.eventQueue ++ m.timeoutQueue

def push (m : EventManager α) (action : α) (fireTime : ℤ) (isTimeout : Bool) : EventManager α :=
  let event : Event α := ⟨m.nextId, action, fireTime, false, isTimeout⟩
  if isTimeout then
    { m with
      timeoutQueue := event :: m.timeoutQueue
      nextId := m.nextId + 1
      owned := m.owned.push (e := event) rfl List.perm_middle }
  else
    { m with
      eventQueue := event :: m.eventQueue
      nextId := m.nextId + 1
      owned := m.owned.push (e := event) rfl (List.Perm.refl _) }

def submit (m : EventManager α) (action : α) (fireTime : ℤ) (isTimeout : Bool) :
    Except Fault (ℕ × EventManager α) :=
  if fireTime < m.simulationTime then .error .exception
  else .ok (m.nextId, m.push action fireTime isTimeout)

def cancel (m : EventManager α) (id : ℕ) : EventManager α where
  simulationTime := m.simulationTime
  eventQueue := m.eventQueue.map (Event.cancelIf id)
  timeoutQueue := m.timeoutQueue.map (Event.cancelIf id)
  lastGcTime := m.lastGcTime
  nextId := m.nextId
  owned := by
    rw [← List.map_append]
    exact m.owned.map_cancelIf id

def garbageCollectTimeouts (m : EventManager α) : EventManager α :=
  { m with
    timeoutQueue := m.timeoutQueue.filter fun e => !e.cancelled
    owned := m.owned.sublist (List.filter_sublist.append_left _) }

def collectIfDue (m : EventManager α) : EventManager α :=
  if m.timeoutQueue ≠ [] ∧ m.simulationTime - m.lastGcTime > garbageCollectInterval then
    { m.garbageCollectTimeouts with lastGcTime := m.simulationTime }
  else m

def popEvent (m : EventManager α) (e : Event α) : EventManager α :=
  { m with
    eventQueue := popped m.eventQueue e
    owned := m.owned.sublist ((popped_sublist _ _).append_right _) }

def popTimeout (m : EventManager α) (e : Event α) : EventManager α :=
  { m with
    timeoutQueue := popped m.timeoutQueue e
    owned := m.owned.sublist ((popped_sublist _ _).append_left _) }

/-- The choice between the tops of the two queues; a timeout has to be strictly earlier. -/
def next (π : IterationOrder) (m : EventManager α) : Option (Event α) × EventManager α :=
  match top π m.timeoutQueue, top π m.eventQueue with
  | some timeout, some event =>
      if timeout.fireTime < event.fireTime then (some timeout, m.popTimeout timeout)
      else (some event, m.popEvent event)
  | some timeout, none => (some timeout, m.popTimeout timeout)
  | none, some event => (some event, m.popEvent event)
  | none, none => (none, m)

/-- A pass of the loop of `run_simulation`, up to the action of the event. Without an event
the loop ends. -/
def turn (π : IterationOrder) (m : EventManager α) :
    Except Fault (Option (Event α) × EventManager α) :=
  match m.collectIfDue.next π with
  | (none, m') => .ok (none, m')
  | (some event, m') =>
      if event.fireTime < m'.simulationTime then .error .exception
      else .ok (some event, { m' with simulationTime := event.fireTime })

section Operations
variable {m : EventManager α}

@[simp] theorem push_simulationTime (m : EventManager α) (action : α) (fireTime : ℤ)
    (isTimeout : Bool) : (m.push action fireTime isTimeout).simulationTime = m.simulationTime := by
  cases isTimeout <;> rfl

@[simp] theorem push_nextId (m : EventManager α) (action : α) (fireTime : ℤ) (isTimeout : Bool) :
    (m.push action fireTime isTimeout).nextId = m.nextId + 1 := by
  cases isTimeout <;> rfl

theorem mem_pending_push {action : α} {fireTime : ℤ} {isTimeout : Bool} {e : Event α} :
    e ∈ (m.push action fireTime isTimeout).pending ↔
      e = ⟨m.nextId, action, fireTime, false, isTimeout⟩ ∨ e ∈ m.pending := by
  cases isTimeout with
  | false => exact List.mem_cons
  | true => exact List.perm_middle.mem_iff.trans List.mem_cons

theorem submit_of_le {fireTime : ℤ} (h : m.simulationTime ≤ fireTime) (action : α)
    (isTimeout : Bool) :
    m.submit action fireTime isTimeout = .ok (m.nextId, m.push action fireTime isTimeout) :=
  if_neg (not_lt.mpr h)

@[simp] theorem cancel_simulationTime (m : EventManager α) (id : ℕ) :
    (m.cancel id).simulationTime = m.simulationTime := rfl

@[simp] theorem cancel_nextId (m : EventManager α) (id : ℕ) :
    (m.cancel id).nextId = m.nextId := rfl

theorem cancel_pending (m : EventManager α) (id : ℕ) :
    (m.cancel id).pending = m.pending.map (Event.cancelIf id) := List.map_append.symm

@[simp] theorem collectIfDue_simulationTime (m : EventManager α) :
    m.collectIfDue.simulationTime = m.simulationTime := by
  unfold collectIfDue
  split_ifs <;> rfl

@[simp] theorem collectIfDue_nextId (m : EventManager α) :
    m.collectIfDue.nextId = m.nextId := by
  unfold collectIfDue
  split_ifs <;> rfl

theorem mem_of_mem_collectIfDue {e : Event α} (he : e ∈ m.collectIfDue.pending) :
    e ∈ m.pending := by
  unfold collectIfDue at he
  split_ifs at he
  · exact (List.filter_sublist.append_left _).subset he
  · exact he

theorem mem_collectIfDue {e : Event α} (he : e ∈ m.pending) (hcancelled : e.cancelled = false) :
    e ∈ m.collectIfDue.pending := by
  unfold collectIfDue
  split_ifs
  · rcases List.mem_append.mp he with he | he
    · exact List.mem_append_left _ he
    · apply List.mem_append_right
      exact List.mem_filter.mpr ⟨he, by simp [hcancelled]⟩
  · exact he

end Operations

section Turns
variable {π : IterationOrder} {m m' : EventManager α} {e : Event α}

/-- Nothing that is pending should have fired before. -/
def Punctual (m : EventManager α) : Prop := ∀ e ∈ m.pending, m.simulationTime ≤ e.fireTime

theorem Punctual.push (h : m.Punctual) (action : α) {fireTime : ℤ}
    (htime : m.simulationTime ≤ fireTime) (isTimeout : Bool) :
    (m.push action fireTime isTimeout).Punctual := by
  intro e he
  rw [push_simulationTime]
  rcases mem_pending_push.mp he with rfl | he
  · exact htime
  · exact h e he

theorem Punctual.cancel (h : m.Punctual) (id : ℕ) : (m.cancel id).Punctual := by
  intro e he
  rw [cancel_pending] at he
  obtain ⟨e', he', rfl⟩ := List.mem_map.mp he
  simpa using h e' he'

/-- The event `e` has left the queues of `m`, which holds none that is earlier. -/
structure Picks (m : EventManager α) (e : Event α) (m' : EventManager α) : Prop where
  mem : e ∈ m.pending
  least : ∀ e' ∈ m.pending, e.fireTime ≤ e'.fireTime
  time : m'.simulationTime = m.simulationTime
  nextId : m'.nextId = m.nextId
  left : ∀ e' ∈ m'.pending, e' ∈ m.pending ∧ e'.id ≠ e.id
  kept : ∀ e' ∈ m.pending, e'.id ≠ e.id → e' ∈ m'.pending

theorem picks_popTimeout (he : e ∈ m.timeoutQueue)
    (hleast : ∀ e' ∈ m.pending, e.fireTime ≤ e'.fireTime) : m.Picks e (m.popTimeout e) where
  mem := List.mem_append_right _ he
  least := hleast
  time := rfl
  nextId := rfl
  left := by
    intro e' he'
    rcases List.mem_append.mp he' with he' | he'
    · have hmem : e' ∈ m.pending := List.mem_append_left _ he'
      refine ⟨hmem, fun heq => ?_⟩
      have hnodup := m.owned.distinct
      rw [List.map_append, List.nodup_append] at hnodup
      exact hnodup.2.2 _ (List.mem_map_of_mem he') _ (List.mem_map_of_mem he) heq
    · have howned := m.owned.sublist (List.sublist_append_right _ _)
      exact ⟨List.mem_append_right _ ((popped_sublist _ _).subset he'),
        id_ne_of_mem_popped howned he he'⟩
  kept := by
    intro e' he' hne
    rcases List.mem_append.mp he' with he' | he'
    · exact List.mem_append_left _ he'
    · exact List.mem_append_right _ ((mem_popped hne).mpr he')

theorem picks_popEvent (he : e ∈ m.eventQueue)
    (hleast : ∀ e' ∈ m.pending, e.fireTime ≤ e'.fireTime) : m.Picks e (m.popEvent e) where
  mem := List.mem_append_left _ he
  least := hleast
  time := rfl
  nextId := rfl
  left := by
    intro e' he'
    rcases List.mem_append.mp he' with he' | he'
    · have howned := m.owned.sublist (List.sublist_append_left _ _)
      exact ⟨List.mem_append_left _ ((popped_sublist _ _).subset he'),
        id_ne_of_mem_popped howned he he'⟩
    · have hmem : e' ∈ m.pending := List.mem_append_right _ he'
      refine ⟨hmem, fun heq => ?_⟩
      have hnodup := m.owned.distinct
      rw [List.map_append, List.nodup_append] at hnodup
      exact hnodup.2.2 _ (List.mem_map_of_mem he) _ (List.mem_map_of_mem he') heq.symm
  kept := by
    intro e' he' hne
    rcases List.mem_append.mp he' with he' | he'
    · exact List.mem_append_left _ ((mem_popped hne).mpr he')
    · exact List.mem_append_right _ he'

theorem next_cases (π : IterationOrder) (m : EventManager α) :
    (m.next π = (none, m) ∧ m.pending = []) ∨
      ∃ e m', m.next π = (some e, m') ∧ m.Picks e m' := by
  unfold next
  cases htimeout : top π m.timeoutQueue with
  | none =>
    have hnone : m.timeoutQueue = [] := top_eq_none.mp htimeout
    cases hevent : top π m.eventQueue with
    | none =>
      left
      exact ⟨rfl, by rw [pending, top_eq_none.mp hevent, hnone, List.append_nil]⟩
    | some event =>
      right
      refine ⟨event, _, rfl, picks_popEvent (mem_of_top hevent) fun e' he' => ?_⟩
      rw [pending, hnone, List.append_nil] at he'
      exact top_le hevent he'
  | some timeout =>
    right
    cases hevent : top π m.eventQueue with
    | none =>
      have hnone : m.eventQueue = [] := top_eq_none.mp hevent
      refine ⟨timeout, _, rfl, picks_popTimeout (mem_of_top htimeout) fun e' he' => ?_⟩
      rw [pending, hnone, List.nil_append] at he'
      exact top_le htimeout he'
    | some event =>
      dsimp only
      split_ifs with hlt
      · refine ⟨timeout, _, rfl, picks_popTimeout (mem_of_top htimeout) fun e' he' => ?_⟩
        rcases List.mem_append.mp he' with he' | he'
        · exact hlt.le.trans (top_le hevent he')
        · exact top_le htimeout he'
      · refine ⟨event, _, rfl, picks_popEvent (mem_of_top hevent) fun e' he' => ?_⟩
        rcases List.mem_append.mp he' with he' | he'
        · exact top_le hevent he'
        · exact (not_lt.mp hlt).trans (top_le htimeout he')

/-- What a pass of the loop does to the queues when it fires `e`. -/
structure Fires (m : EventManager α) (e : Event α) (m' : EventManager α) : Prop where
  mem : e ∈ m.pending
  due : m.simulationTime ≤ e.fireTime
  time : m'.simulationTime = e.fireTime
  punctual : m'.Punctual
  nextId : m'.nextId = m.nextId
  left : ∀ e' ∈ m'.pending, e' ∈ m.pending ∧ e'.id ≠ e.id
  kept : ∀ e' ∈ m.pending, e'.cancelled = false → e'.id ≠ e.id → e' ∈ m'.pending

/-- The loop ends once only cancelled events were left. -/
structure Ends (m m' : EventManager α) : Prop where
  nothing : m'.pending = []
  time : m'.simulationTime = m.simulationTime
  nextId : m'.nextId = m.nextId
  cancelled : ∀ e ∈ m.pending, e.cancelled = true

/-- A pass of the loop never finds that time moved backwards. -/
theorem turn_cases (h : m.Punctual) (π : IterationOrder) :
    (∃ m', m.turn π = .ok (none, m') ∧ m.Ends m') ∨
      ∃ e m', m.turn π = .ok (some e, m') ∧ m.Fires e m' := by
  unfold turn
  rcases next_cases π m.collectIfDue with ⟨hnext, hnothing⟩ | ⟨e, m', hnext, hpicks⟩
  · left
    refine ⟨m.collectIfDue, by rw [hnext], hnothing, by simp, by simp, fun e he => ?_⟩
    by_contra hnot
    have hmem := mem_collectIfDue he (by simpa using hnot)
    rw [hnothing] at hmem
    cases hmem
  · right
    have hmem : e ∈ m.pending := mem_of_mem_collectIfDue hpicks.mem
    have hdue : m.simulationTime ≤ e.fireTime := h e hmem
    have htime : m'.simulationTime ≤ e.fireTime := by
      rwa [hpicks.time, collectIfDue_simulationTime]
    refine ⟨e, { m' with simulationTime := e.fireTime }, ?_, ?_⟩
    · rw [hnext]
      exact if_neg (not_lt.mpr htime)
    · exact
        { mem := hmem
          due := hdue
          time := rfl
          punctual := fun e' he' => hpicks.least e' (hpicks.left e' he').1
          nextId := hpicks.nextId.trans (collectIfDue_nextId m)
          left := fun e' he' =>
            ⟨mem_of_mem_collectIfDue (hpicks.left e' he').1, (hpicks.left e' he').2⟩
          kept := fun e' he' hcancelled hne =>
            hpicks.kept e' (mem_collectIfDue he' hcancelled) hne }

theorem pending_nodup (m : EventManager α) : m.pending.Nodup := m.owned.distinct.of_map

theorem pending_push (m : EventManager α) (action : α) (fireTime : ℤ) (isTimeout : Bool) :
    (m.push action fireTime isTimeout).pending.Perm
      (⟨m.nextId, action, fireTime, false, isTimeout⟩ :: m.pending) := by
  cases isTimeout with
  | false => exact List.Perm.refl _
  | true => exact List.perm_middle

/-- Of the events that are not cancelled only the one that fires is gone. -/
theorem Fires.live_perm (h : m.Fires e m') :
    (m.pending.filter fun e => !e.cancelled).Perm
      ((e :: m'.pending).filter fun e => !e.cancelled) := by
  have hgone : e ∉ m'.pending := fun he => (h.left e he).2 rfl
  have hnodup : (e :: m'.pending).Nodup := List.nodup_cons.mpr ⟨hgone, m'.pending_nodup⟩
  refine (List.perm_ext_iff_of_nodup (m.pending_nodup.filter _) (hnodup.filter _)).mpr fun e' => ?_
  simp only [List.mem_filter, List.mem_cons, Bool.not_eq_true', and_congr_left_iff]
  intro hlive
  constructor
  · intro he'
    by_cases hid : e'.id = e.id
    · exact .inl (m.owned.eq_of_id he' h.mem hid)
    · exact .inr (h.kept e' he' hlive hid)
  · rintro (rfl | he')
    · exact h.mem
    · exact (h.left e' he').1

end Turns
end EventManager
end Pddm.Simulation
