import Pddm.Outcome
import Pddm.Timers

/-!
# Alarms

Owners set alarms, each for a time, and may take them back. Time does not pass an alarm that is
set.
-/
namespace Pddm

/-- What happens to alarms. Time may also go by without one. -/
inductive AlarmEvent (κ τ : Type*)
  | registered (owner : κ) (id due : ℤ) (payload : τ)
  | cancelled (owner : κ) (id : ℤ)
  | expired (owner : κ) (id time : ℤ) (payload : τ)
  | passed (time : ℤ)
  deriving DecidableEq, Repr

structure Alarms (κ τ : Type*) where
  now : ℤ
  timers : κ → Timers (ℤ × τ)

namespace Alarms
variable {κ τ : Type*}

/-- From now on no alarm is due before this time. -/
def Until (a : Alarms κ τ) (time : ℤ) : Prop :=
  a.now ≤ time ∧ ∀ owner, ∀ alarm ∈ (a.timers owner).pending, time ≤ alarm.2.1

def update [DecidableEq κ] (a : Alarms κ τ) (owner : κ) (timers : Timers (ℤ × τ)) : Alarms κ τ :=
  { a with timers := Function.update a.timers owner timers }

inductive Step [DecidableEq κ] (a : Alarms κ τ) : AlarmEvent κ τ → Alarms κ τ → Prop
  | register (owner : κ) (due : ℤ) (payload : τ) (hdue : a.now ≤ due) :
      Step a (.registered owner (a.timers owner).nextId due payload)
        (a.update owner ((a.timers owner).register (due, payload)))
  | cancel (owner : κ) (id : ℤ) :
      Step a (.cancelled owner id) (a.update owner ((a.timers owner).cancel id))
  | expire (owner : κ) (id time : ℤ) (payload : τ)
      (hset : (id, time, payload) ∈ (a.timers owner).pending) (huntil : a.Until time) :
      Step a (.expired owner id time payload)
        { a.update owner ((a.timers owner).cancel id) with now := time }
  | pass (time : ℤ) (huntil : a.Until time) : Step a (.passed time) { a with now := time }

/-- What may happen from the time at which there is no alarm yet. -/
inductive Runs [DecidableEq κ] : List (AlarmEvent κ τ) → Alarms κ τ → Prop
  | start (now : ℤ) : Runs [] ⟨now, fun _ => Timers.none⟩
  | step {es : List (AlarmEvent κ τ)} {a b : Alarms κ τ} {e : AlarmEvent κ τ}
      (hruns : Runs es a) (hstep : a.Step e b) : Runs (es ++ [e]) b

end Alarms

namespace AlarmEvent
variable {κ τ : Type*}

/-- After this the alarm is no longer set. -/
def Ends (owner : κ) (id : ℤ) : AlarmEvent κ τ → Prop
  | .cancelled owner' id' | .expired owner' id' _ _ => owner' = owner ∧ id' = id
  | _ => False

def time : AlarmEvent κ τ → Option ℤ
  | .expired _ _ time _ | .passed time => some time
  | _ => none

def StillSet (es : List (AlarmEvent κ τ)) (owner : κ) (id due : ℤ) (payload : τ) : Prop :=
  ∃ earlier later, es = earlier ++ .registered owner id due payload :: later ∧
    ∀ e ∈ later, ¬ e.Ends owner id

/-- An alarm gets an identifier of its own. It goes off if it is set, at its time, and no alarm
that is set is due earlier. -/
def Fair (before : List (AlarmEvent κ τ)) : AlarmEvent κ τ → Prop
  | .registered owner id _ _ => ∀ due payload, .registered owner id due payload ∉ before
  | .cancelled .. => True
  | .expired owner id time payload => StillSet before owner id time payload ∧
      ∀ owner' id' due payload', StillSet before owner' id' due payload' → time ≤ due
  | .passed time => ∀ owner id due payload, StillSet before owner id due payload → time ≤ due

structure Lawful (es : List (AlarmEvent κ τ)) : Prop where
  fair : EveryEntry Fair es
  ordered : (es.filterMap time).Pairwise (· ≤ ·)

def AllEnded (es : List (AlarmEvent κ τ)) : Prop :=
  ∀ owner id due payload, ¬ StillSet es owner id due payload

variable {es : List (AlarmEvent κ τ)} {e : AlarmEvent κ τ} {owner : κ} {id due : ℤ} {payload : τ}

theorem not_stillSet_nil : ¬ StillSet [] owner id due payload := by
  rintro ⟨earlier, later, h, -⟩
  simp at h

theorem stillSet_concat : StillSet (es ++ [e]) owner id due payload ↔
    e = .registered owner id due payload ∨ StillSet es owner id due payload ∧ ¬ e.Ends owner id := by
  constructor
  · rintro ⟨earlier, later, h, hlater⟩
    rcases List.eq_nil_or_concat later with rfl | ⟨later, last, rfl⟩
    · obtain ⟨-, hlast⟩ := List.append_inj' h rfl
      exact .inl (List.cons.inj hlast).1
    · have hlast : es = earlier ++ .registered owner id due payload :: later ∧ e = last := by
        rw [List.concat_eq_append, ← List.cons_append, ← List.append_assoc] at h
        obtain ⟨hes, he⟩ := List.append_inj' h rfl
        exact ⟨hes, (List.cons.inj he).1⟩
      obtain ⟨rfl, rfl⟩ := hlast
      exact .inr ⟨⟨earlier, later, rfl, fun e he => hlater e (by simp [he])⟩, hlater _ (by simp)⟩
  · rintro (rfl | ⟨⟨earlier, later, rfl, hlater⟩, he⟩)
    · exact ⟨es, [], rfl, by simp⟩
    · refine ⟨earlier, later ++ [e], by simp, fun e' he' => ?_⟩
      rcases List.mem_append.mp he' with he' | he'
      · exact hlater e' he'
      · rwa [List.mem_singleton.mp he']

end AlarmEvent

namespace Alarms
open AlarmEvent (StillSet Fair Lawful AllEnded)
variable {κ τ : Type*} [DecidableEq κ] {es : List (AlarmEvent κ τ)} {a b : Alarms κ τ}
  {owner : κ} {id due : ℤ} {payload : τ}

@[simp] theorem update_now (a : Alarms κ τ) (owner : κ) (timers : Timers (ℤ × τ)) :
    (a.update owner timers).now = a.now := rfl

@[simp] theorem update_timers_self (a : Alarms κ τ) (owner : κ) (timers : Timers (ℤ × τ)) :
    (a.update owner timers).timers owner = timers := Function.update_self ..

theorem update_timers_of_ne {owner owner' : κ} (h : owner' ≠ owner) (a : Alarms κ τ)
    (timers : Timers (ℤ × τ)) : (a.update owner timers).timers owner' = a.timers owner' :=
  Function.update_of_ne h ..

theorem mem_update_cancel {owner' : κ} {id' : ℤ} : (id, due, payload) ∈
      ((a.update owner' ((a.timers owner').cancel id')).timers owner).pending ↔
    (id, due, payload) ∈ (a.timers owner).pending ∧ ¬ (owner' = owner ∧ id' = id) := by
  by_cases howner : owner = owner'
  · subst howner
    rw [update_timers_self, Timers.mem_cancel]
    simp [eq_comm]
  · rw [update_timers_of_ne howner]
    simp [Ne.symm howner]

/-- The alarms that are set are those that were and have not ended. -/
theorem Runs.mem_pending (h : Runs es a) :
    (id, due, payload) ∈ (a.timers owner).pending ↔ StillSet es owner id due payload := by
  induction h with
  | start now => simp [AlarmEvent.not_stillSet_nil]
  | step hruns hstep ih =>
    rw [AlarmEvent.stillSet_concat, ← ih]
    cases hstep with
    | register owner' due' payload' hdue =>
      by_cases howner : owner = owner'
      · subst howner
        simp [AlarmEvent.Ends, or_comm, eq_comm]
      · rw [update_timers_of_ne howner]
        simp [AlarmEvent.Ends, Ne.symm howner]
    | cancel owner' id' =>
      rw [mem_update_cancel]
      simp [AlarmEvent.Ends]
    | expire owner' id' time payload' hset huntil =>
      refine mem_update_cancel.trans ?_
      simp [AlarmEvent.Ends]
    | pass time huntil => simp [AlarmEvent.Ends]

theorem Runs.registered_lt (h : Runs es a) (hmem : .registered owner id due payload ∈ es) :
    id < (a.timers owner).nextId := by
  induction h with
  | start now => cases hmem
  | step hruns hstep ih =>
    have hcancel {a : Alarms κ τ} {owner' : κ} {id' : ℤ}
        (h : id < (a.timers owner).nextId) :
        id < ((a.update owner' ((a.timers owner').cancel id')).timers owner).nextId := by
      by_cases howner : owner = owner'
      · subst howner
        rw [update_timers_self]
        exact h
      · rwa [update_timers_of_ne howner]
    rcases List.mem_append.mp hmem with hmem | hmem
    · have hlt := ih hmem
      cases hstep with
      | register owner' due' payload' hdue =>
        by_cases howner : owner = owner'
        · subst howner
          rw [update_timers_self]
          exact hlt.trans (lt_add_one _)
        · rwa [update_timers_of_ne howner]
      | cancel owner' id' => exact hcancel hlt
      | expire owner' id' time payload' hset huntil => exact hcancel hlt
      | pass time huntil => exact hlt
    · obtain rfl := List.mem_singleton.mp hmem
      cases hstep with
      | register => rw [update_timers_self]; exact lt_add_one _

theorem Runs.time_le (h : Runs es a) : ∀ time ∈ es.filterMap AlarmEvent.time, time ≤ a.now := by
  induction h with
  | start now => simp
  | step hruns hstep ih =>
    intro time htime
    rw [List.filterMap_append] at htime
    rcases List.mem_append.mp htime with htime | htime
    · have hle := ih time htime
      cases hstep with
      | register | cancel => exact hle
      | expire _ _ _ _ _ huntil => exact hle.trans huntil.1
      | pass _ huntil => exact hle.trans huntil.1
    · cases hstep with
      | register | cancel => simp [AlarmEvent.time] at htime
      | expire => simp_all [AlarmEvent.time]
      | pass => simp_all [AlarmEvent.time]

/-- What may happen keeps to the law. -/
theorem Runs.lawful (h : Runs es a) : Lawful es := by
  induction h with
  | start now => exact ⟨everyEntry_nil, List.Pairwise.nil⟩
  | @step es a b e hruns hstep ih =>
    have hlater {time : ℤ} (huntil : a.Until time) (owner : κ) (id due : ℤ) (payload : τ)
        (hset : StillSet es owner id due payload) : time ≤ due :=
      huntil.2 owner _ (hruns.mem_pending.mpr hset)
    refine ⟨everyEntry_concat.mpr ⟨ih.fair, ?_⟩, ?_⟩
    · cases hstep with
      | register owner due payload hdue =>
        exact fun due' payload' hmem => (hruns.registered_lt hmem).false
      | cancel => trivial
      | expire owner id time payload hset huntil =>
        exact ⟨hruns.mem_pending.mp hset, hlater huntil⟩
      | pass time huntil => exact hlater huntil
    · rw [List.filterMap_append]
      refine List.pairwise_append.mpr ⟨ih.ordered, ?_, fun time htime time' htime' => ?_⟩
      · cases htime : e.time with
        | none => simp [htime]
        | some time => simp [htime]
      · refine (hruns.time_le time htime).trans ?_
        cases hstep with
        | register | cancel => simp [AlarmEvent.time] at htime'
        | expire _ _ _ _ _ huntil =>
          rw [show time' = _ by simpa [AlarmEvent.time] using htime']
          exact huntil.1
        | pass _ huntil =>
          rw [show time' = _ by simpa [AlarmEvent.time] using htime']
          exact huntil.1

theorem Runs.allEnded (h : Runs es a) (hnone : ∀ owner, (a.timers owner).pending = []) :
    AllEnded es := by
  intro owner id due payload hset
  have hmem := h.mem_pending.mpr hset
  rw [hnone owner] at hmem
  cases hmem

end Alarms
end Pddm
