import Pddm.Alarms
import Pddm.EventManager

/-!
# Timers in the simulator

A timer of the simulator is a timeout event. Its manager keeps a pointer to the event, which does
not keep it alive, and all managers share the event manager.
-/
namespace Pddm.Simulation
variable {κ τ β : Type}

/-- The action of an event: a callback, by the manager and the timer it was registered with, or
that of another component. -/
inductive TimedAction (κ τ β : Type)
  | timer (owner : κ) (id : ℤ) (callback : τ)
  | other (action : β)
  deriving DecidableEq, Repr

def TimedAction.isOther : TimedAction κ τ β → Bool
  | .timer .. => false
  | .other _ => true

/-- Pointers to events are their identities. -/
structure SimTimerManager where
  nextId : ℤ
  timerEvents : ℤ → Option ℕ

/-- What actions do: they use timers, and submit and cancel other events. -/
inductive TimedCommand (κ τ β : Type)
  | registerTimer (owner : κ) (delayMs : ℤ) (callback : τ)
  | cancelTimer (owner : κ) (timerId : ℤ)
  | submit (action : β) (delay : ℤ) (isTimeout : Bool)
  | cancel (id : ℕ)
  deriving DecidableEq, Repr

/-- The event that is `firing` is kept alive by the loop of the event manager. The log records
what happens to timers and is not part of the source's state. -/
structure TimedRun (κ τ β : Type) where
  manager : EventManager (TimedAction κ τ β)
  timers : κ → SimTimerManager
  firing : Option ℕ
  log : List (AlarmEvent κ τ)

abbrev TimedBehaviour (κ τ β : Type) :=
  TimedRun κ τ β → Event (TimedAction κ τ β) → List (TimedCommand κ τ β)

namespace TimedRun

def start (m : EventManager (TimedAction κ τ β)) : TimedRun κ τ β :=
  ⟨m, fun _ => ⟨0, fun _ => none⟩, none, []⟩

def expired (s : TimedRun κ τ β) (event : ℕ) : Bool :=
  !(s.manager.pending.any fun e => e.id = event) && s.firing ≠ some event

section Operations
variable [DecidableEq κ]

def registerTimer (owner : κ) (delayMs : ℤ) (callback : τ) (s : TimedRun κ τ β) :
    Outcome Fault (TimedRun κ τ β) :=
  let t := s.timers owner
  let due := s.manager.simulationTime + delayMs
  match s.manager.submit (.timer owner t.nextId callback) due true with
  | .error fault => .halted fault s
  | .ok (event, m) =>
      .done { s with
        manager := m
        timers := Function.update s.timers owner
          ⟨t.nextId + 1, Function.update t.timerEvents t.nextId (some event)⟩
        log := s.log ++ [.registered owner t.nextId due callback] }

def cancelTimer (owner : κ) (timerId : ℤ) (s : TimedRun κ τ β) : TimedRun κ τ β :=
  let t := s.timers owner
  let called := { s with log := s.log ++ [.cancelled owner timerId] }
  match t.timerEvents timerId with
  | none => called
  | some event =>
      if s.expired event then called
      else
        { called with
          manager := s.manager.cancel event
          timers := Function.update s.timers owner
            { t with timerEvents := Function.update t.timerEvents timerId none } }

/-- Other components hold pointers to their own events only. -/
def perform (command : TimedCommand κ τ β) (s : TimedRun κ τ β) : Outcome Fault (TimedRun κ τ β) :=
  match command with
  | .registerTimer owner delayMs callback => s.registerTimer owner delayMs callback
  | .cancelTimer owner timerId => .done (s.cancelTimer owner timerId)
  | .submit action delay isTimeout =>
      match s.manager.submit (.other action) (s.manager.simulationTime + delay) isTimeout with
      | .error fault => .halted fault s
      | .ok (_, m) => .done { s with manager := m }
  | .cancel id =>
      if s.manager.pending.any fun e => e.id = id && e.action.isOther then
        .done { s with manager := s.manager.cancel id }
      else .done s

def firedEntry (event : Event (TimedAction κ τ β)) : AlarmEvent κ τ :=
  if event.cancelled then .passed event.fireTime
  else
    match event.action with
    | .timer owner id callback => .expired owner id event.fireTime callback
    | .other _ => .passed event.fireTime

def pass (π : IterationOrder) (actions : TimedBehaviour κ τ β) (s : TimedRun κ τ β) :
    Outcome Fault (TimedRun κ τ β) :=
  match s.manager.turn π with
  | .error fault => .halted fault s
  | .ok (none, m) => .done { s with manager := m }
  | .ok (some event, m) =>
      let s := { s with manager := m, firing := some event.id, log := s.log ++ [firedEntry event] }
      let commands := if event.cancelled then [] else actions s event
      (Outcome.forEach commands perform s).andThen fun s => .done { s with firing := none }

/-- The passes of `run_simulation` after what is done at first. -/
def simulate (m : EventManager (TimedAction κ τ β)) (initial : List (TimedCommand κ τ β))
    (π : ℕ → IterationOrder) (actions : TimedBehaviour κ τ β) (passes : ℕ) :
    Outcome Fault (TimedRun κ τ β) :=
  (Outcome.forEach initial perform (start m)).andThen
    (Outcome.forEach (List.range passes) fun i => pass (π i) actions)

end Operations

/-- A timer that is set is an event that is not cancelled, and its manager has the pointer to
it. -/
structure Represents (s : TimedRun κ τ β) (a : Alarms κ τ) : Prop where
  now : a.now = s.manager.simulationTime
  nextId : ∀ owner, (a.timers owner).nextId = (s.timers owner).nextId
  set : ∀ owner id due callback, (id, due, callback) ∈ (a.timers owner).pending ↔
    ∃ e ∈ s.manager.pending, e.action = .timer owner id callback ∧ e.fireTime = due ∧
      e.cancelled = false
  punctual : s.manager.Punctual
  pointer : ∀ e ∈ s.manager.pending, e.cancelled = false → ∀ owner id callback,
    e.action = .timer owner id callback → (s.timers owner).timerEvents id = some e.id
  owner : ∀ owner id event, (s.timers owner).timerEvents id = some event →
    event < s.manager.nextId ∧ id < (s.timers owner).nextId ∧
      ∀ e ∈ s.manager.pending, e.id = event → ∃ callback, e.action = .timer owner id callback
  firing : ∀ event, s.firing = some event → event < s.manager.nextId ∧
    ∀ e ∈ s.manager.pending, e.id ≠ event

section Representation
variable {s : TimedRun κ τ β} {a : Alarms κ τ} {m : EventManager (TimedAction κ τ β)}

theorem represents_start (hm : m.pending = []) :
    Represents (start m) (⟨m.simulationTime, fun _ => Timers.none⟩ : Alarms κ τ) where
  now := rfl
  nextId _ := rfl
  set := by simp [start, hm]
  punctual := by simp [start, EventManager.Punctual, hm]
  pointer := by simp [start, hm]
  owner := by simp [start]
  firing := by simp [start]

theorem Represents.frame {t : TimedRun κ τ β} (h : s.Represents a) (hmanager : t.manager = s.manager)
    (htimers : t.timers = s.timers) (hfiring : t.firing = s.firing) : t.Represents a := by
  constructor
  case now => rw [hmanager]; exact h.now
  case nextId => rw [htimers]; exact h.nextId
  case set => rw [hmanager]; exact h.set
  case punctual => rw [hmanager]; exact h.punctual
  case pointer => rw [hmanager, htimers]; exact h.pointer
  case owner => rw [hmanager, htimers]; exact h.owner
  case firing => rw [hmanager, hfiring]; exact h.firing

theorem mem_pending_cancel {id : ℕ} {e : Event (TimedAction κ τ β)} :
    e ∈ (m.cancel id).pending ∧ e.cancelled = false ↔
      e ∈ m.pending ∧ e.cancelled = false ∧ e.id ≠ id := by
  rw [EventManager.cancel_pending, List.mem_map]
  constructor
  · rintro ⟨⟨e', he', rfl⟩, hlive⟩
    have hne : e'.id ≠ id := by
      intro heq
      rw [Event.cancelIf_cancelled.mpr (.inl heq)] at hlive
      cases hlive
    rw [Event.cancelIf_of_ne hne] at hlive ⊢
    exact ⟨he', hlive, hne⟩
  · rintro ⟨he, hlive, hne⟩
    exact ⟨⟨e, he, Event.cancelIf_of_ne hne⟩, hlive⟩

theorem Represents.owner_push (h : s.Represents a) (action : TimedAction κ τ β) (fireTime : ℤ)
    (isTimeout : Bool) {owner : κ} {id : ℤ} {event : ℕ}
    (hevent : (s.timers owner).timerEvents id = some event) :
    event < (s.manager.push action fireTime isTimeout).nextId ∧ id < (s.timers owner).nextId ∧
      ∀ e ∈ (s.manager.push action fireTime isTimeout).pending, e.id = event →
        ∃ callback, e.action = .timer owner id callback := by
  obtain ⟨hlt, hid, haction⟩ := h.owner owner id event hevent
  rw [EventManager.push_nextId]
  refine ⟨hlt.trans (Nat.lt_succ_self _), hid, fun e he heq => ?_⟩
  rcases EventManager.mem_pending_push.mp he with rfl | he
  · exact absurd heq hlt.ne'
  · exact haction e he heq

theorem Represents.firing_push (h : s.Represents a) (action : TimedAction κ τ β) (fireTime : ℤ)
    (isTimeout : Bool) {event : ℕ} (hevent : s.firing = some event) :
    event < (s.manager.push action fireTime isTimeout).nextId ∧
      ∀ e ∈ (s.manager.push action fireTime isTimeout).pending, e.id ≠ event := by
  obtain ⟨hlt, hne⟩ := h.firing event hevent
  rw [EventManager.push_nextId]
  refine ⟨hlt.trans (Nat.lt_succ_self _), fun e he => ?_⟩
  rcases EventManager.mem_pending_push.mp he with rfl | he
  · exact hlt.ne'
  · exact hne e he

theorem Represents.submit (h : s.Represents a) (action : β) {fireTime : ℤ}
    (hdue : s.manager.simulationTime ≤ fireTime) (isTimeout : Bool) :
    Represents { s with manager := s.manager.push (.other action) fireTime isTimeout } a where
  now := h.now.trans (EventManager.push_simulationTime ..).symm
  nextId := h.nextId
  set owner id due callback := by
    simp only [EventManager.mem_pending_push, or_and_right, exists_or, exists_eq_left]
    rw [← h.set]
    simp
  punctual := h.punctual.push _ hdue isTimeout
  pointer e he hlive owner id callback haction := by
    rcases EventManager.mem_pending_push.mp he with rfl | he
    · cases haction
    · exact h.pointer e he hlive owner id callback haction
  owner _ _ _ hevent := h.owner_push _ _ _ hevent
  firing _ hevent := h.firing_push _ _ _ hevent

/-- Only one event that is to fire is that of a timer. -/
theorem Represents.unique (h : s.Represents a) {e e' : Event (TimedAction κ τ β)}
    (he : e ∈ s.manager.pending) (he' : e' ∈ s.manager.pending) (hlive : e.cancelled = false)
    (hlive' : e'.cancelled = false) {owner : κ} {id : ℤ} {callback callback' : τ}
    (haction : e.action = .timer owner id callback)
    (haction' : e'.action = .timer owner id callback') : e = e' := by
  refine s.manager.owned.eq_of_id he he' (Option.some.inj ?_)
  rw [← h.pointer e he hlive owner id callback haction,
    ← h.pointer e' he' hlive' owner id callback' haction']

theorem Represents.cancel (h : s.Represents a) {e : Event (TimedAction κ τ β)}
    (he : e ∈ s.manager.pending) (hother : e.action.isOther = true) :
    Represents { s with manager := s.manager.cancel e.id } a where
  now := h.now
  nextId := h.nextId
  set owner id due callback := by
    rw [h.set]
    constructor
    · rintro ⟨e', he', haction, hdue, hlive⟩
      have hne : e'.id ≠ e.id := by
        intro heq
        obtain rfl := s.manager.owned.eq_of_id he' he heq
        simp [haction, TimedAction.isOther] at hother
      exact ⟨e', (mem_pending_cancel.mpr ⟨he', hlive, hne⟩).1, haction, hdue, hlive⟩
    · rintro ⟨e', he', haction, hdue, hlive⟩
      exact ⟨e', (mem_pending_cancel.mp ⟨he', hlive⟩).1, haction, hdue, hlive⟩
  punctual := h.punctual.cancel _
  pointer e' he' hlive := h.pointer e' (mem_pending_cancel.mp ⟨he', hlive⟩).1 hlive
  owner owner id event hevent := by
    obtain ⟨hlt, hid, haction⟩ := h.owner owner id event hevent
    refine ⟨hlt, hid, fun e' he' heq => ?_⟩
    dsimp only at he'
    rw [EventManager.cancel_pending] at he'
    obtain ⟨e'', he'', rfl⟩ := List.mem_map.mp he'
    rw [Event.cancelIf_id] at heq
    rw [Event.cancelIf_action]
    exact haction e'' he'' heq
  firing event hevent := by
    obtain ⟨hlt, hne⟩ := h.firing event hevent
    refine ⟨hlt, fun e' he' => ?_⟩
    dsimp only at he'
    rw [EventManager.cancel_pending] at he'
    obtain ⟨e'', he'', rfl⟩ := List.mem_map.mp he'
    rw [Event.cancelIf_id]
    exact hne e'' he''

theorem Represents.fired (h : s.Represents a) {e : Event (TimedAction κ τ β)}
    (hfires : s.manager.Fires e m) {b : Alarms κ τ} (hnow : b.now = e.fireTime)
    (hnext : ∀ owner, (b.timers owner).nextId = (a.timers owner).nextId)
    (hset : ∀ owner id due callback, (id, due, callback) ∈ (b.timers owner).pending ↔
      (id, due, callback) ∈ (a.timers owner).pending ∧
        ¬ (e.cancelled = false ∧ ∃ callback', e.action = .timer owner id callback')) :
    Represents { s with manager := m, firing := some e.id, log := s.log ++ [firedEntry e] } b where
  now := hnow.trans hfires.time.symm
  nextId owner := (hnext owner).trans (h.nextId owner)
  set owner id due callback := by
    rw [hset, h.set]
    constructor
    · rintro ⟨⟨e', he', haction, hdue, hlive⟩, hnot⟩
      have hne : e'.id ≠ e.id := by
        intro heq
        obtain rfl := s.manager.owned.eq_of_id he' hfires.mem heq
        exact hnot ⟨hlive, callback, haction⟩
      exact ⟨e', hfires.kept e' he' hlive hne, haction, hdue, hlive⟩
    · rintro ⟨e', he', haction, hdue, hlive⟩
      obtain ⟨he', hne⟩ := hfires.left e' he'
      refine ⟨⟨e', he', haction, hdue, hlive⟩, ?_⟩
      rintro ⟨hlive', callback', haction'⟩
      rw [h.unique he' hfires.mem hlive hlive' haction haction'] at hne
      exact hne rfl
  punctual := hfires.punctual
  pointer e' he' := h.pointer e' (hfires.left e' he').1
  owner owner id event hevent := by
    obtain ⟨hlt, hid, haction⟩ := h.owner owner id event hevent
    exact ⟨hfires.nextId.symm ▸ hlt, hid, fun e' he' => haction e' (hfires.left e' he').1⟩
  firing event hevent := by
    obtain rfl := Option.some.inj hevent
    exact ⟨hfires.nextId.symm ▸ s.manager.owned.fresh e hfires.mem,
      fun e' he' => (hfires.left e' he').2⟩

theorem Represents.until (h : s.Represents a) {e : Event (TimedAction κ τ β)}
    (hfires : s.manager.Fires e m) : a.Until e.fireTime := by
  refine ⟨h.now ▸ hfires.due, fun owner alarm hset => ?_⟩
  obtain ⟨id, due, callback⟩ := alarm
  obtain ⟨e', he', haction, rfl, hlive⟩ := (h.set owner id due callback).mp hset
  by_cases hid : e'.id = e.id
  · rw [s.manager.owned.eq_of_id he' hfires.mem hid]
  · have hle := hfires.punctual e' (hfires.kept e' he' hlive hid)
    rwa [hfires.time] at hle

theorem Represents.ended (h : s.Represents a) (hends : s.manager.Ends m) :
    (∀ owner, (a.timers owner).pending = []) ∧ Represents { s with manager := m } a := by
  have hnone (owner : κ) (id due : ℤ) (callback : τ) :
      (id, due, callback) ∉ (a.timers owner).pending := by
    intro hset
    obtain ⟨e, he, -, -, hlive⟩ := (h.set ..).mp hset
    rw [hends.cancelled e he] at hlive
    cases hlive
  refine ⟨fun owner => List.eq_nil_iff_forall_not_mem.mpr fun alarm =>
    hnone owner alarm.1 alarm.2.1 alarm.2.2, ?_⟩
  constructor
  case now => exact h.now.trans hends.time.symm
  case nextId => exact h.nextId
  case set => simp [hends.nothing, hnone]
  case punctual => simp [EventManager.Punctual, hends.nothing]
  case pointer => simp [hends.nothing]
  case owner =>
    intro owner id event hevent
    obtain ⟨hlt, hid, -⟩ := h.owner owner id event hevent
    exact ⟨hends.nextId.symm ▸ hlt, hid, by simp [hends.nothing]⟩
  case firing =>
    intro event hevent
    exact ⟨hends.nextId.symm ▸ (h.firing event hevent).1, by simp [hends.nothing]⟩

end Representation

section Refinement
variable [DecidableEq κ] {s t : TimedRun κ τ β} {a : Alarms κ τ}
  {m : EventManager (TimedAction κ τ β)}

theorem Represents.register (h : s.Represents a) (owner : κ) {due : ℤ}
    (hdue : s.manager.simulationTime ≤ due) (callback : τ) : Represents
      { s with
        manager := s.manager.push (.timer owner (s.timers owner).nextId callback) due true
        timers := Function.update s.timers owner
          ⟨(s.timers owner).nextId + 1, Function.update (s.timers owner).timerEvents
            (s.timers owner).nextId (some s.manager.nextId)⟩
        log := s.log ++ [.registered owner (s.timers owner).nextId due callback] }
      (a.update owner ((a.timers owner).register (due, callback))) := by
  constructor
  case now => exact h.now.trans (EventManager.push_simulationTime ..).symm
  case nextId =>
    intro owner'
    by_cases howner : owner' = owner
    · subst howner
      simp [Timers.register, h.nextId]
    · simp [Alarms.update_timers_of_ne howner, howner, h.nextId]
  case set =>
    intro owner' id due' callback'
    simp only [EventManager.mem_pending_push, or_and_right, exists_or, exists_eq_left]
    rw [← h.set]
    by_cases howner : owner' = owner
    · subst howner
      rw [Alarms.update_timers_self, Timers.register_pending, List.mem_append, List.mem_singleton,
        h.nextId]
      constructor
      · rintro (hmem | hnew)
        · exact .inr hmem
        · obtain ⟨rfl, rfl, rfl⟩ := by simpa using hnew
          exact .inl ⟨rfl, rfl, trivial⟩
      · rintro (⟨haction, rfl, -⟩ | hmem)
        · obtain ⟨-, rfl, rfl⟩ := TimedAction.timer.inj haction
          exact .inr rfl
        · exact .inl hmem
    · simp [Alarms.update_timers_of_ne howner, Ne.symm howner]
  case punctual => exact h.punctual.push _ hdue true
  case pointer =>
    intro e he hlive owner' id callback' haction
    dsimp only at he ⊢
    rcases EventManager.mem_pending_push.mp he with rfl | he
    · obtain ⟨rfl, rfl, rfl⟩ := TimedAction.timer.inj haction
      simp
    · have hpointer := h.pointer e he hlive owner' id callback' haction
      by_cases howner : owner' = owner
      · subst howner
        rw [Function.update_self]
        dsimp only
        rw [Function.update_of_ne, hpointer]
        exact (h.owner owner' id _ hpointer).2.1.ne
      · rwa [Function.update_of_ne howner]
  case owner =>
    intro owner' id event hevent
    dsimp only at hevent ⊢
    by_cases howner : owner' = owner
    · subst howner
      rw [Function.update_self] at hevent ⊢
      dsimp only at hevent ⊢
      by_cases hid : id = (s.timers owner').nextId
      · subst hid
        rw [Function.update_self] at hevent
        obtain rfl := Option.some.inj hevent
        rw [EventManager.push_nextId]
        refine ⟨Nat.lt_succ_self _, lt_add_one _, fun e he heq => ?_⟩
        rcases EventManager.mem_pending_push.mp he with rfl | he
        · exact ⟨callback, rfl⟩
        · exact absurd heq (s.manager.owned.fresh e he).ne
      · rw [Function.update_of_ne hid] at hevent
        obtain ⟨hlt, hid, haction⟩ := h.owner_push _ due true hevent
        exact ⟨hlt, hid.trans (lt_add_one _), haction⟩
    · rw [Function.update_of_ne howner] at hevent ⊢
      exact h.owner_push _ due true hevent
  case firing => exact fun _ hevent => h.firing_push _ _ _ hevent

theorem Represents.cancel_gone (h : s.Represents a) (owner : κ) (timerId : ℤ)
    (hgone : ∀ event, (s.timers owner).timerEvents timerId = some event →
      ∀ e ∈ s.manager.pending, e.id ≠ event) :
    s.Represents (a.update owner ((a.timers owner).cancel timerId)) where
  now := h.now
  nextId owner' := by
    rw [← h.nextId]
    by_cases howner : owner' = owner
    · subst howner
      rw [Alarms.update_timers_self]
      rfl
    · rw [Alarms.update_timers_of_ne howner]
  set owner' id due callback := by
    rw [Alarms.mem_update_cancel, h.set]
    refine and_iff_left_of_imp ?_
    rintro ⟨e, he, haction, -, hlive⟩ ⟨rfl, rfl⟩
    exact hgone _ (h.pointer e he hlive _ _ _ haction) e he rfl
  punctual := h.punctual
  pointer := h.pointer
  owner := h.owner
  firing := h.firing

theorem Represents.cancel_live (h : s.Represents a) {owner : κ} {timerId : ℤ} {event : ℕ}
    (hevent : (s.timers owner).timerEvents timerId = some event) : Represents
      { s with
        manager := s.manager.cancel event
        timers := Function.update s.timers owner { s.timers owner with
          timerEvents := Function.update (s.timers owner).timerEvents timerId none } }
      (a.update owner ((a.timers owner).cancel timerId)) := by
  obtain ⟨-, -, hown⟩ := h.owner owner timerId event hevent
  have hentry {owner' : κ} {id : ℤ} {event' : ℕ}
      (h : (Function.update s.timers owner { s.timers owner with
        timerEvents := Function.update (s.timers owner).timerEvents timerId none }
          owner').timerEvents id = some event') :
      (s.timers owner').timerEvents id = some event' := by
    by_cases howner : owner' = owner
    · subst howner
      rw [Function.update_self] at h
      dsimp only at h
      by_cases hid : id = timerId
      · subst hid
        rw [Function.update_self] at h
        cases h
      · rwa [Function.update_of_ne hid] at h
    · rwa [Function.update_of_ne howner] at h
  have hnext (owner' : κ) : (Function.update s.timers owner { s.timers owner with
      timerEvents := Function.update (s.timers owner).timerEvents timerId none } owner').nextId =
        (s.timers owner').nextId := by
    by_cases howner : owner' = owner
    · subst howner
      rw [Function.update_self]
    · rw [Function.update_of_ne howner]
  have hcancelled {e : Event (TimedAction κ τ β)} (he : e ∈ (s.manager.cancel event).pending) :
      ∃ e' ∈ s.manager.pending, e.id = e'.id ∧ e.action = e'.action := by
    rw [EventManager.cancel_pending] at he
    obtain ⟨e', he', rfl⟩ := List.mem_map.mp he
    exact ⟨e', he', Event.cancelIf_id .., Event.cancelIf_action ..⟩
  constructor
  case now => exact h.now
  case nextId =>
    intro owner'
    dsimp only
    rw [hnext, ← h.nextId]
    by_cases howner : owner' = owner
    · subst howner
      rw [Alarms.update_timers_self]
      rfl
    · rw [Alarms.update_timers_of_ne howner]
  case set =>
    intro owner' id due callback
    rw [Alarms.mem_update_cancel, h.set]
    constructor
    · rintro ⟨⟨e, he, haction, hdue, hlive⟩, hother⟩
      have hne : e.id ≠ event := by
        intro heq
        obtain ⟨callback', haction'⟩ := hown e he heq
        obtain ⟨rfl, rfl, -⟩ := TimedAction.timer.inj (haction'.symm.trans haction)
        exact hother ⟨rfl, rfl⟩
      exact ⟨e, (mem_pending_cancel.mpr ⟨he, hlive, hne⟩).1, haction, hdue, hlive⟩
    · rintro ⟨e, he, haction, hdue, hlive⟩
      obtain ⟨he, -, hne⟩ := mem_pending_cancel.mp ⟨he, hlive⟩
      refine ⟨⟨e, he, haction, hdue, hlive⟩, ?_⟩
      rintro ⟨rfl, rfl⟩
      have hpointer := h.pointer e he hlive _ _ _ haction
      rw [hevent] at hpointer
      exact hne (Option.some.inj hpointer).symm
  case punctual => exact h.punctual.cancel _
  case pointer =>
    intro e he hlive owner' id callback haction
    obtain ⟨he, -, hne⟩ := mem_pending_cancel.mp ⟨he, hlive⟩
    have hpointer := h.pointer e he hlive owner' id callback haction
    dsimp only
    by_cases howner : owner' = owner
    · subst howner
      rw [Function.update_self]
      dsimp only
      rw [Function.update_of_ne, hpointer]
      rintro rfl
      rw [hevent] at hpointer
      exact hne (Option.some.inj hpointer).symm
    · rwa [Function.update_of_ne howner]
  case owner =>
    intro owner' id event' hevent'
    obtain ⟨hlt, hid, haction⟩ := h.owner owner' id event' (hentry hevent')
    refine ⟨hlt, (hnext owner').symm ▸ hid, fun e he heq => ?_⟩
    obtain ⟨e', he', hid, hsame⟩ := hcancelled he
    rw [hsame]
    exact haction e' he' (hid.symm.trans heq)
  case firing =>
    intro event' hevent'
    obtain ⟨hlt, hne⟩ := h.firing event' hevent'
    refine ⟨hlt, fun e he => ?_⟩
    obtain ⟨e', he', hid, -⟩ := hcancelled he
    rw [hid]
    exact hne e' he'

/-- What has happened to timers may happen to alarms, and leads to those that are set. -/
def Refines (s : TimedRun κ τ β) : Prop := ∃ a, Alarms.Runs s.log a ∧ s.Represents a

theorem Refines.step {e : AlarmEvent κ τ} (h : s.Refines) (hlog : t.log = s.log ++ [e])
    (hstep : ∀ a, s.Represents a → ∃ b, a.Step e b ∧ t.Represents b) : t.Refines := by
  obtain ⟨a, hruns, hrep⟩ := h
  obtain ⟨b, hstep, hrep'⟩ := hstep a hrep
  exact ⟨b, hlog ▸ hruns.step hstep, hrep'⟩

theorem Refines.stay (h : s.Refines) (hlog : t.log = s.log)
    (hstay : ∀ a, s.Represents a → t.Represents a) : t.Refines := by
  obtain ⟨a, hruns, hrep⟩ := h
  exact ⟨a, hlog ▸ hruns, hstay a hrep⟩

theorem Refines.registerTimer (h : s.Refines) (owner : κ) (delayMs : ℤ) (callback : τ) :
    (s.registerTimer owner delayMs callback).Ends Refines Refines := by
  unfold TimedRun.registerTimer
  dsimp only
  by_cases hdue : s.manager.simulationTime ≤ s.manager.simulationTime + delayMs
  · rw [EventManager.submit_of_le hdue]
    refine h.step rfl fun a ha => ⟨_, ?_, ha.register owner hdue callback⟩
    exact ha.nextId owner ▸ Alarms.Step.register owner _ callback (ha.now ▸ hdue)
  · rw [EventManager.submit, if_pos (not_le.mp hdue)]
    exact h

theorem Refines.cancelTimer (h : s.Refines) (owner : κ) (timerId : ℤ) :
    (s.cancelTimer owner timerId).Refines := by
  unfold TimedRun.cancelTimer
  dsimp only
  have hgone (hno : ∀ event, (s.timers owner).timerEvents timerId = some event →
      ∀ e ∈ s.manager.pending, e.id ≠ event) :
      Refines { s with log := s.log ++ [.cancelled owner timerId] } :=
    h.step rfl fun a ha => ⟨_, Alarms.Step.cancel owner timerId,
      (ha.cancel_gone owner timerId hno).frame rfl rfl rfl⟩
  cases hevent : (s.timers owner).timerEvents timerId with
  | none => exact hgone fun event h => by rw [hevent] at h; cases h
  | some event =>
    dsimp only
    split_ifs with hexpired
    · refine hgone fun event' h e he heq => ?_
      obtain rfl := Option.some.inj (hevent.symm.trans h)
      simp only [expired, Bool.and_eq_true, Bool.not_eq_true', List.any_eq_false,
        decide_eq_true_eq] at hexpired
      exact hexpired.1 e he heq
    · exact h.step rfl fun a ha => ⟨_, Alarms.Step.cancel owner timerId,
        (ha.cancel_live hevent).frame rfl rfl rfl⟩

theorem Refines.perform (h : s.Refines) (command : TimedCommand κ τ β) :
    (s.perform command).Ends Refines Refines := by
  cases command with
  | registerTimer owner delayMs callback => exact h.registerTimer owner delayMs callback
  | cancelTimer owner timerId => exact h.cancelTimer owner timerId
  | submit action delay isTimeout =>
    unfold TimedRun.perform
    dsimp only
    by_cases hdue : s.manager.simulationTime ≤ s.manager.simulationTime + delay
    · rw [EventManager.submit_of_le hdue]
      exact h.stay rfl fun a ha => ha.submit action hdue isTimeout
    · rw [EventManager.submit, if_pos (not_le.mp hdue)]
      exact h
  | cancel id =>
    unfold TimedRun.perform
    dsimp only
    split_ifs with hown
    · simp only [List.any_eq_true, Bool.and_eq_true, decide_eq_true_eq] at hown
      obtain ⟨e, he, rfl, hother⟩ := hown
      exact h.stay rfl fun a ha => ha.cancel he hother
    · exact h

theorem Represents.fires (h : s.Represents a) {e : Event (TimedAction κ τ β)}
    (hfires : s.manager.Fires e m) : ∃ b, a.Step (firedEntry e) b ∧
      Represents { s with manager := m, firing := some e.id, log := s.log ++ [firedEntry e] } b := by
  have hpass (hnot : ∀ owner id callback, e.cancelled = false →
      e.action ≠ .timer owner id callback) (hentry : firedEntry e = .passed e.fireTime) :
      ∃ b, a.Step (firedEntry e) b ∧ Represents
        { s with manager := m, firing := some e.id, log := s.log ++ [firedEntry e] } b := by
    refine ⟨{ a with now := e.fireTime }, hentry ▸ Alarms.Step.pass _ (h.until hfires),
      h.fired hfires rfl (fun _ => rfl) fun owner id due callback => ?_⟩
    refine (and_iff_left ?_).symm
    rintro ⟨hlive, callback', haction⟩
    exact hnot owner id callback' hlive haction
  cases hcancelled : e.cancelled with
  | true => exact hpass (by simp [hcancelled]) (by simp [firedEntry, hcancelled])
  | false =>
    cases haction : e.action with
    | other action => exact hpass (by simp [haction]) (by simp [firedEntry, hcancelled, haction])
    | timer owner id callback =>
      have hentry : firedEntry e = .expired owner id e.fireTime callback := by
        simp [firedEntry, hcancelled, haction]
      have hmem : (id, e.fireTime, callback) ∈ (a.timers owner).pending :=
        (h.set ..).mpr ⟨e, hfires.mem, haction, rfl, hcancelled⟩
      refine ⟨_, hentry ▸ Alarms.Step.expire owner id _ callback hmem (h.until hfires),
        h.fired hfires rfl (fun owner' => ?_) fun owner' id' due callback' => ?_⟩
      · by_cases howner : owner' = owner
        · subst howner
          exact (congrArg Timers.nextId (Alarms.update_timers_self ..)).trans rfl
        · exact congrArg Timers.nextId (Alarms.update_timers_of_ne howner ..)
      · refine Alarms.mem_update_cancel.trans (and_congr_right fun _ => not_congr ?_)
        rw [hcancelled, haction]
        constructor
        · rintro ⟨rfl, rfl⟩
          exact ⟨rfl, callback, rfl⟩
        · rintro ⟨-, callback', hsame⟩
          obtain ⟨rfl, rfl, -⟩ := TimedAction.timer.inj hsame
          exact ⟨rfl, rfl⟩

theorem Refines.punctual (h : s.Refines) : s.manager.Punctual := by
  obtain ⟨a, -, hrep⟩ := h
  exact hrep.punctual

theorem Refines.pass (h : s.Refines) (π : IterationOrder) (actions : TimedBehaviour κ τ β) :
    (s.pass π actions).Ends Refines Refines := by
  unfold TimedRun.pass
  rcases EventManager.turn_cases h.punctual π with ⟨m, hturn, hends⟩ | ⟨e, m, hturn, hfires⟩
  · rw [hturn]
    exact h.stay rfl fun a ha => (ha.ended hends).2
  · rw [hturn]
    dsimp only
    refine (Outcome.forEach_ends (h.step rfl fun a ha => ha.fires hfires)
      fun command _ s hs => hs.perform command).andThen fun s hs => ?_
    exact hs.stay rfl fun a ha =>
      { ha with firing := nofun }

end Refinement

section Runs
variable [DecidableEq κ] {m : EventManager (TimedAction κ τ β)}

theorem simulate_refines (hm : m.pending = []) (initial : List (TimedCommand κ τ β))
    (π : ℕ → IterationOrder) (actions : TimedBehaviour κ τ β) (passes : ℕ) :
    (simulate m initial π actions passes).Ends Refines Refines := by
  have hstart : (start m : TimedRun κ τ β).Refines :=
    ⟨_, .start m.simulationTime, represents_start hm⟩
  refine (Outcome.forEach_ends hstart fun command _ s hs => hs.perform command).andThen
    fun s hs => ?_
  exact Outcome.forEach_ends hs fun i _ s hs => hs.pass (π i) actions

/-- The simulator ends only when every timer has gone off or has been cancelled. -/
def EndsSettled (s : TimedRun κ τ β) : Prop :=
  ∀ π m, s.manager.turn π = .ok (none, m) → AlarmEvent.AllEnded s.log

/-- However events use the timers of the simulator, a timer goes off if it is set, once, at its
time and in order, and not once it has been cancelled. -/
theorem simulate_timers (hm : m.pending = []) (initial : List (TimedCommand κ τ β))
    (π : ℕ → IterationOrder) (actions : TimedBehaviour κ τ β) (passes : ℕ) :
    (simulate m initial π actions passes).Ends
      (fun s => (∃ a, Alarms.Runs s.log a ∧ s.Represents a) ∧ AlarmEvent.Lawful s.log ∧
        s.EndsSettled)
      fun s => AlarmEvent.Lawful s.log := by
  refine (simulate_refines hm initial π actions passes).mono (fun s hs => ?_) fun s hs => ?_
  · refine ⟨hs, ?_, fun ρ m' hturn => ?_⟩
    · obtain ⟨a, hruns, -⟩ := hs
      exact hruns.lawful
    · rcases EventManager.turn_cases hs.punctual ρ with ⟨m, hturn', hends⟩ | ⟨e, m, hturn', -⟩
      · obtain ⟨a, hruns, hrep⟩ := hs
        exact hruns.allEnded (hrep.ended hends).1
      · rw [hturn] at hturn'
        cases hturn'
  · obtain ⟨a, hruns, -⟩ := hs
    exact hruns.lawful

/-- Two managers: a callback cancels its own timer and one of the other manager, and registers
another one. -/
def crossCancel : TimedBehaviour Bool ℕ Unit := fun _ event =>
  if event.action = .timer true 0 5 then
    [.cancelTimer true 0, .cancelTimer false 0, .registerTimer true 10 7] else []

theorem simulate_timers_crossing : (simulate .empty
    [.registerTimer true 30 5, .registerTimer false 40 6, .submit () 35 false]
    (fun _ => .insertion) crossCancel 4).Ends
      (fun s => (∃ a, Alarms.Runs s.log a ∧ s.Represents a) ∧ AlarmEvent.Lawful s.log ∧
        s.EndsSettled)
      fun s => AlarmEvent.Lawful s.log :=
  simulate_timers rfl _ _ _ _

example : (simulate .empty
    [.registerTimer true 30 5, .registerTimer false 40 6, .submit () 35 false]
    (fun _ => .insertion) crossCancel 4).state.log =
      [.registered true 0 30 5, .registered false 0 40 6, .expired true 0 30 5, .cancelled true 0,
        .cancelled false 0, .registered true 1 40 7, .passed 35, .expired true 1 40 7] := by decide

end Runs
end TimedRun
end Pddm.Simulation
