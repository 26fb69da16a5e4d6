import Pddm.EventManager
import Pddm.Outcome

/-!
# Runs of the simulation

The actions of events submit and cancel events in their turn, in any way that depends on what
has happened so far. A log records what happens to each event.
-/
namespace Pddm.Simulation

/-- What an action does to the event manager; it submits at or after the current time. -/
inductive Command (α : Type)
  | submit (action : α) (delay : ℕ) (isTimeout : Bool)
  | cancel (id : ℕ)
  deriving DecidableEq, Repr

/-- `ran` tells whether the action of a fired event was run, at the simulated `time`. -/
inductive Entry
  | submitted (id : ℕ) (fireTime : ℤ)
  | cancelled (id : ℕ)
  | fired (id : ℕ) (fireTime time : ℤ) (ran : Bool)
  deriving DecidableEq, Repr

structure Run (α : Type) where
  manager : EventManager α
  log : List Entry

/-- What the action of an event does, given all that happened before. -/
abbrev Behaviour (α : Type) := List Entry → Event α → List (Command α)

namespace Run
variable {α : Type}

/-- A pointer can only be held once the event behind it was submitted. -/
def perform (command : Command α) (r : Run α) : Outcome Fault (Run α) :=
  match command with
  | .submit action delay isTimeout =>
      let fireTime := r.manager.simulationTime + delay
      match r.manager.submit action fireTime isTimeout with
      | .ok (id, m) => .done ⟨m, r.log ++ [.submitted id fireTime]⟩
      | .error fault => .halted fault r
  | .cancel id =>
      if id < r.manager.nextId then .done ⟨r.manager.cancel id, r.log ++ [.cancelled id]⟩
      else .done r

def pass (π : IterationOrder) (actions : Behaviour α) (r : Run α) : Outcome Fault (Run α) :=
  match r.manager.turn π with
  | .error fault => .halted fault r
  | .ok (none, m) => .done { r with manager := m }
  | .ok (some event, m) =>
      let fired : Entry := .fired event.id event.fireTime m.simulationTime (!event.cancelled)
      let commands := if event.cancelled then [] else actions r.log event
      .forEach commands perform ⟨m, r.log ++ [fired]⟩

def runSimulation (π : ℕ → IterationOrder) (actions : Behaviour α) (passes : ℕ) (r : Run α) :
    Outcome Fault (Run α) :=
  .forEach (List.range passes) (fun i => pass (π i) actions) r

def simulate (m : EventManager α) (initial : List (Command α)) (π : ℕ → IterationOrder)
    (actions : Behaviour α) (passes : ℕ) : Outcome Fault (Run α) :=
  (Outcome.forEach initial perform ⟨m, []⟩).andThen (runSimulation π actions passes)

end Run

section Logs

def submittedIds (log : List Entry) : List ℕ :=
  log.filterMap fun
    | .submitted id _ => some id
    | _ => none

def firedIds (log : List Entry) : List ℕ :=
  log.filterMap fun
    | .fired id _ _ _ => some id
    | _ => none

def fireTimes (log : List Entry) : List ℤ :=
  log.filterMap fun
    | .fired _ fireTime _ _ => some fireTime
    | _ => none

def RunsUncancelled (before : List Entry) : Entry → Prop
  | .fired id _ _ true => .cancelled id ∉ before
  | _ => True

def FiresOnTime (before : List Entry) : Entry → Prop
  | .fired id fireTime time _ => time = fireTime ∧ .submitted id fireTime ∈ before
  | _ => True

/-- What every log keeps to. -/
structure Lawful (log : List Entry) : Prop where
  distinct : (submittedIds log).Nodup
  ordered : (fireTimes log).Pairwise (· ≤ ·)
  onTime : EveryEntry FiresOnTime log
  once : (firedIds log).Nodup
  uncancelled : EveryEntry RunsUncancelled log

/-- Every event that was never cancelled has fired. -/
def Complete (log : List Entry) : Prop :=
  ∀ id fireTime, .submitted id fireTime ∈ log → .cancelled id ∉ log →
    .fired id fireTime fireTime true ∈ log

variable {log : List Entry} {id : ℕ} {fireTime time : ℤ} {ran : Bool}

theorem mem_submittedIds : id ∈ submittedIds log ↔ ∃ fireTime, .submitted id fireTime ∈ log := by
  rw [submittedIds, List.mem_filterMap]
  constructor
  · rintro ⟨entry, hentry, hid⟩
    cases entry with
    | submitted id' fireTime =>
      cases hid
      exact ⟨fireTime, hentry⟩
    | cancelled id' => cases hid
    | fired id' fireTime time ran => cases hid
  · rintro ⟨fireTime, hentry⟩
    exact ⟨_, hentry, rfl⟩

theorem mem_firedIds :
    id ∈ firedIds log ↔ ∃ fireTime time ran, .fired id fireTime time ran ∈ log := by
  rw [firedIds, List.mem_filterMap]
  constructor
  · rintro ⟨entry, hentry, hid⟩
    cases entry with
    | submitted id' fireTime => cases hid
    | cancelled id' => cases hid
    | fired id' fireTime time ran =>
      cases hid
      exact ⟨_, _, _, hentry⟩
  · rintro ⟨fireTime, time, ran, hentry⟩
    exact ⟨_, hentry, rfl⟩

theorem lawful_nil : Lawful [] where
  distinct := List.nodup_nil
  ordered := List.Pairwise.nil
  onTime := everyEntry_nil
  once := List.nodup_nil
  uncancelled := everyEntry_nil

theorem Lawful.submitted (h : Lawful log) (hnew : id ∉ submittedIds log) (fireTime : ℤ) :
    Lawful (log ++ [.submitted id fireTime]) where
  distinct := by
    rw [submittedIds, List.filterMap_append]
    exact List.concat_eq_append ▸ h.distinct.concat hnew
  ordered := by simpa [fireTimes] using h.ordered
  onTime := everyEntry_concat.mpr ⟨h.onTime, trivial⟩
  once := by simpa [firedIds] using h.once
  uncancelled := everyEntry_concat.mpr ⟨h.uncancelled, trivial⟩

theorem Lawful.cancelled (h : Lawful log) (id : ℕ) : Lawful (log ++ [.cancelled id]) where
  distinct := by simpa [submittedIds] using h.distinct
  ordered := by simpa [fireTimes] using h.ordered
  onTime := everyEntry_concat.mpr ⟨h.onTime, trivial⟩
  once := by simpa [firedIds] using h.once
  uncancelled := everyEntry_concat.mpr ⟨h.uncancelled, trivial⟩

theorem Lawful.fired (h : Lawful log) (hmade : .submitted id fireTime ∈ log)
    (hnew : id ∉ firedIds log) (hlast : ∀ time ∈ fireTimes log, time ≤ fireTime)
    (hran : ran = true → .cancelled id ∉ log) :
    Lawful (log ++ [.fired id fireTime fireTime ran]) where
  distinct := by simpa [submittedIds] using h.distinct
  ordered := by
    rw [fireTimes, List.filterMap_append]
    refine List.pairwise_append.mpr ⟨h.ordered, List.pairwise_singleton _ _, ?_⟩
    intro time htime last hmem
    rw [List.mem_singleton.mp hmem]
    exact hlast time htime
  onTime := everyEntry_concat.mpr ⟨h.onTime, rfl, hmade⟩
  once := by
    rw [firedIds, List.filterMap_append]
    exact List.concat_eq_append ▸ h.once.concat hnew
  uncancelled := by
    refine everyEntry_concat.mpr ⟨h.uncancelled, ?_⟩
    cases ran with
    | false => trivial
    | true => exact hran rfl

end Logs

section Invariant
variable {α : Type} {π : IterationOrder} {r : Run α} {m : EventManager α} {e : Event α}

/-- The log and the queues tell the same story. -/
structure Run.Consistent (r : Run α) : Prop where
  lawful : Lawful r.log
  punctual : r.manager.Punctual
  made : ∀ id ∈ submittedIds r.log, id < r.manager.nextId
  known : ∀ id, .cancelled id ∈ r.log → id < r.manager.nextId
  past : ∀ fireTime ∈ fireTimes r.log, fireTime ≤ r.manager.simulationTime
  spent : ∀ e ∈ r.manager.pending, e.id ∉ firedIds r.log
  pending : ∀ e ∈ r.manager.pending, .submitted e.id e.fireTime ∈ r.log
  marked : ∀ e ∈ r.manager.pending, e.cancelled = true ↔ .cancelled e.id ∈ r.log
  accounted : ∀ id fireTime, .submitted id fireTime ∈ r.log → .cancelled id ∉ r.log →
    .fired id fireTime fireTime true ∈ r.log ∨
      ∃ e ∈ r.manager.pending, e.id = id ∧ e.fireTime = fireTime

theorem consistent_start (hm : m.pending = []) : Run.Consistent ⟨m, []⟩ where
  lawful := lawful_nil
  punctual := by simp [EventManager.Punctual, hm]
  made := by simp [submittedIds]
  known := by simp
  past := by simp [fireTimes]
  spent := by simp [hm]
  pending := by simp [hm]
  marked := by simp [hm]
  accounted := by simp

theorem Run.Consistent.submitted (h : r.Consistent) (action : α) (delay : ℕ) (isTimeout : Bool) :
    Run.Consistent ⟨r.manager.push action (r.manager.simulationTime + delay) isTimeout,
      r.log ++ [.submitted r.manager.nextId (r.manager.simulationTime + delay)]⟩ := by
  have hnew : r.manager.nextId ∉ submittedIds r.log := fun hmem => (h.made _ hmem).false
  have hfired : r.manager.nextId ∉ firedIds r.log := by
    intro hmem
    obtain ⟨fireTime, time, ran, hentry⟩ := mem_firedIds.mp hmem
    obtain ⟨before, after, hlog⟩ := List.append_of_mem hentry
    have hmade := (h.lawful.onTime _ _ _ hlog).2
    apply hnew
    rw [hlog]
    exact mem_submittedIds.mpr ⟨fireTime, List.mem_append_left _ hmade⟩
  constructor
  case lawful => exact h.lawful.submitted hnew _
  case punctual => exact h.punctual.push action (by omega) isTimeout
  case made =>
    intro id hid
    rw [EventManager.push_nextId]
    obtain ⟨fireTime, hentry⟩ := mem_submittedIds.mp hid
    rcases List.mem_append.mp hentry with hentry | hentry
    · exact (h.made id (mem_submittedIds.mpr ⟨_, hentry⟩)).trans (Nat.lt_succ_self _)
    · cases List.mem_singleton.mp hentry
      exact Nat.lt_succ_self _
  case known =>
    intro id hid
    rw [EventManager.push_nextId]
    exact (h.known id (by simpa using hid)).trans (Nat.lt_succ_self _)
  case past => simpa [fireTimes] using h.past
  case spent =>
    intro e he
    have hids : firedIds (r.log ++ [.submitted r.manager.nextId
        (r.manager.simulationTime + delay)]) = firedIds r.log := by simp [firedIds]
    rw [hids]
    rcases EventManager.mem_pending_push.mp he with rfl | he
    · exact hfired
    · exact h.spent e he
  case pending =>
    intro e he
    rcases EventManager.mem_pending_push.mp he with rfl | he
    · simp
    · exact List.mem_append_left _ (h.pending e he)
  case marked =>
    intro e he
    rcases EventManager.mem_pending_push.mp he with rfl | he
    · simpa using fun hmem => (h.known _ hmem).false
    · simpa using h.marked e he
  case accounted =>
    intro id fireTime hentry hcancelled
    rcases List.mem_append.mp hentry with hentry | hentry
    · rcases h.accounted id fireTime hentry (by simpa using hcancelled) with hdone | ⟨e, he, heq⟩
      · exact Or.inl (List.mem_append_left _ hdone)
      · exact Or.inr ⟨e, EventManager.mem_pending_push.mpr (Or.inr he), heq⟩
    · cases List.mem_singleton.mp hentry
      exact Or.inr ⟨_, EventManager.mem_pending_push.mpr (Or.inl rfl), rfl, rfl⟩

theorem Run.Consistent.cancelled (h : r.Consistent) {id : ℕ} (hid : id < r.manager.nextId) :
    Run.Consistent ⟨r.manager.cancel id, r.log ++ [.cancelled id]⟩ := by
  have hpending {e : Event α} (he : e ∈ (r.manager.cancel id).pending) :
      ∃ e' ∈ r.manager.pending, e'.cancelIf id = e := by
    rw [EventManager.cancel_pending] at he
    exact List.mem_map.mp he
  constructor
  case lawful => exact h.lawful.cancelled id
  case punctual => exact h.punctual.cancel id
  case made => simpa [submittedIds] using h.made
  case known =>
    intro id' hid'
    rcases List.mem_append.mp hid' with hid' | hid'
    · exact h.known id' hid'
    · cases List.mem_singleton.mp hid'
      exact hid
  case past => simpa [fireTimes] using h.past
  case spent =>
    intro e he
    obtain ⟨e', he', rfl⟩ := hpending he
    simpa [firedIds] using h.spent e' he'
  case pending =>
    intro e he
    obtain ⟨e', he', rfl⟩ := hpending he
    simpa using h.pending e' he'
  case marked =>
    intro e he
    obtain ⟨e', he', rfl⟩ := hpending he
    rw [Event.cancelIf_cancelled, Event.cancelIf_id, h.marked e' he']
    simp [or_comm]
  case accounted =>
    intro id' fireTime hentry hcancelled
    simp only [List.mem_append, List.mem_singleton, not_or] at hentry hcancelled
    rcases h.accounted id' fireTime (by simpa using hentry) hcancelled.1 with hdone | ⟨e, he, heq⟩
    · exact Or.inl (List.mem_append_left _ hdone)
    · refine Or.inr ⟨e.cancelIf id, ?_, by simpa using heq⟩
      rw [EventManager.cancel_pending]
      exact List.mem_map_of_mem he

theorem Run.Consistent.fired (h : r.Consistent) (hfires : r.manager.Fires e m) :
    Run.Consistent ⟨m, r.log ++ [.fired e.id e.fireTime m.simulationTime (!e.cancelled)]⟩ := by
  have hleft {e' : Event α} (he' : e' ∈ m.pending) := hfires.left e' he'
  have hlast : ∀ fireTime ∈ fireTimes r.log, fireTime ≤ e.fireTime :=
    fun fireTime hmem => (h.past fireTime hmem).trans hfires.due
  rw [hfires.time]
  constructor
  case lawful =>
    refine h.lawful.fired (h.pending e hfires.mem) (h.spent e hfires.mem) hlast ?_
    intro hran hcancelled
    rw [(h.marked e hfires.mem).mpr hcancelled] at hran
    cases hran
  case punctual => exact hfires.punctual
  case made =>
    rw [hfires.nextId]
    simpa [submittedIds] using h.made
  case known =>
    rw [hfires.nextId]
    simpa using h.known
  case past =>
    intro fireTime hmem
    rw [hfires.time]
    rw [fireTimes, List.filterMap_append] at hmem
    rcases List.mem_append.mp hmem with hmem | hmem
    · exact hlast fireTime hmem
    · exact (List.mem_singleton.mp hmem).le
  case spent =>
    intro e' he' hmem
    rw [firedIds, List.filterMap_append] at hmem
    rcases List.mem_append.mp hmem with hmem | hmem
    · exact h.spent e' (hleft he').1 hmem
    · exact (hleft he').2 (List.mem_singleton.mp hmem)
  case pending =>
    intro e' he'
    exact List.mem_append_left _ (h.pending e' (hleft he').1)
  case marked =>
    intro e' he'
    simpa using h.marked e' (hleft he').1
  case accounted =>
    intro id fireTime hentry hcancelled
    have hbefore : .cancelled id ∉ r.log := by simpa using hcancelled
    rcases h.accounted id fireTime (by simpa using hentry) hbefore with hdone | ⟨e', he', rfl, rfl⟩
    · exact Or.inl (List.mem_append_left _ hdone)
    · have huncancelled : e'.cancelled = false := by
        rw [← Bool.not_eq_true, h.marked e' he']
        exact hbefore
      by_cases hid : e'.id = e.id
      · obtain rfl := r.manager.owned.eq_of_id he' hfires.mem hid
        left
        simp [huncancelled]
      · right
        exact ⟨e', hfires.kept e' he' huncancelled hid, rfl, rfl⟩

theorem Run.Consistent.ended (h : r.Consistent) (hends : r.manager.Ends m) :
    Run.Consistent ⟨m, r.log⟩ where
  lawful := h.lawful
  punctual := by simp [EventManager.Punctual, hends.nothing]
  made := by simpa [hends.nextId] using h.made
  known := by simpa [hends.nextId] using h.known
  past := by simpa [hends.time] using h.past
  spent := by simp [hends.nothing]
  pending := by simp [hends.nothing]
  marked := by simp [hends.nothing]
  accounted := by
    intro id fireTime hentry hcancelled
    rcases h.accounted id fireTime hentry hcancelled with hdone | ⟨e, he, rfl, -⟩
    · exact Or.inl hdone
    · exact absurd ((h.marked e he).mp (hends.cancelled e he)) hcancelled

theorem Run.Consistent.complete (h : r.Consistent) (hends : r.manager.Ends m) :
    Complete r.log := by
  intro id fireTime hentry hcancelled
  rcases (h.ended hends).accounted id fireTime hentry hcancelled with hdone | ⟨e, he, -⟩
  · exact hdone
  · rw [hends.nothing] at he
    cases he

theorem Run.Consistent.perform (h : r.Consistent) (command : Command α) :
    (r.perform command).Ends Run.Consistent fun _ => False := by
  cases command with
  | submit action delay isTimeout =>
    have hlater : r.manager.simulationTime ≤ r.manager.simulationTime + delay := by omega
    simp only [Run.perform, EventManager.submit_of_le hlater]
    exact h.submitted action delay isTimeout
  | cancel id =>
    unfold Run.perform
    dsimp only
    split_ifs with hid
    · exact h.cancelled hid
    · exact h

theorem Run.Consistent.pass (h : r.Consistent) (π : IterationOrder) (actions : Behaviour α) :
    (r.pass π actions).Ends Run.Consistent fun _ => False := by
  unfold Run.pass
  rcases EventManager.turn_cases h.punctual π with ⟨m, hturn, hends⟩ | ⟨e, m, hturn, hfires⟩
  · rw [hturn]
    exact h.ended hends
  · rw [hturn]
    apply Outcome.forEach_ends (h.fired hfires)
    intro command _ r' h'
    exact h'.perform command

end Invariant

theorem simulate_consistent {α : Type} {m : EventManager α} (hm : m.pending = [])
    (initial : List (Command α)) (π : ℕ → IterationOrder) (actions : Behaviour α) (passes : ℕ) :
    (Run.simulate m initial π actions passes).Ends Run.Consistent fun _ => False := by
  have hstart : (Outcome.forEach initial Run.perform ⟨m, []⟩).Ends Run.Consistent fun _ => False :=
    Outcome.forEach_ends (consistent_start hm) fun command _ r h => h.perform command
  refine hstart.andThen fun r h => ?_
  exact Outcome.forEach_ends h fun i _ r h => h.pass (π i) actions

/-- In every run the events fire in the order of their times, each at its time and once, and
the action of none runs that was cancelled before. No pass finds that time moved backwards,
and a run ends only when every event that was not cancelled has fired. -/
theorem simulate_law {α : Type} {m : EventManager α} (hm : m.pending = [])
    (initial : List (Command α)) (π : ℕ → IterationOrder) (actions : Behaviour α) (passes : ℕ) :
    ∃ r, Run.simulate m initial π actions passes = .done r ∧ Lawful r.log ∧
      ∀ ρ, (∃ e m', r.manager.turn ρ = .ok (some e, m')) ∨
        (∃ m', r.manager.turn ρ = .ok (none, m')) ∧ Complete r.log := by
  have hends := simulate_consistent hm initial π actions passes
  cases hrun : Run.simulate m initial π actions passes with
  | halted fault r =>
    rw [hrun] at hends
    exact hends.elim
  | done r =>
    rw [hrun] at hends
    have h : r.Consistent := hends
    refine ⟨r, rfl, h.lawful, fun ρ => ?_⟩
    rcases EventManager.turn_cases h.punctual ρ with ⟨m', hturn, hdone⟩ | ⟨e, m', hturn, -⟩
    · exact Or.inr ⟨⟨m', hturn⟩, h.complete hdone⟩
    · exact Or.inl ⟨e, m', hturn⟩

/-- An event cancels a timeout and submits another one at its own time. -/
def cancelTimeout : Behaviour Bool := fun _ event =>
  if event.action then [] else [.cancel 1, .submit true 0 true]

example : (Run.simulate .empty [.submit false 25 false, .submit true 30 true]
    (fun _ => .insertion) cancelTimeout 3).state.log =
      [.submitted 0 25, .submitted 1 30, .fired 0 25 25 true, .cancelled 1, .submitted 2 25,
        .fired 2 25 25 true] := by decide

theorem simulate_law_cancelling :
    ∃ r, Run.simulate .empty [.submit false 25 false, .submit true 30 true]
        (fun _ => .insertion) cancelTimeout 3 = .done r ∧ Lawful r.log ∧
      ∀ ρ, (∃ e m', r.manager.turn ρ = .ok (some e, m')) ∨
        (∃ m', r.manager.turn ρ = .ok (none, m')) ∧ Complete r.log :=
  simulate_law rfl _ _ _ _

end Pddm.Simulation
