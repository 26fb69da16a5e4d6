import Mathlib

/-!
# Timers

A timer library that hands out identifiers in order. A registered timer is
pending until it fires or is cancelled; cancelling any other identifier does
nothing. Each timer carries a payload that says what it was registered for.
-/
namespace Pddm

structure Timers (τ : Type*) where
  nextId : ℤ
  pending : List (ℤ × τ)
  /-- Identifiers are never handed out twice. -/
  fresh : ∀ t ∈ pending, t.1 < nextId
  deriving DecidableEq

namespace Timers
variable {τ : Type*}

def none : Timers τ := ⟨0, [], by simp⟩

def register (t : Timers τ) (payload : τ) : Timers τ where
  nextId := t.nextId + 1
  pending := t.pending ++ [(t.nextId, payload)]
  fresh := by
    intro e he
    rcases List.mem_append.mp he with he | he
    · exact (t.fresh e he).trans (lt_add_one _)
    · rw [List.mem_singleton.mp he]
      exact lt_add_one _

/-- What is left once a timer has fired or has been cancelled. -/
def cancel (t : Timers τ) (id : ℤ) : Timers τ where
  nextId := t.nextId
  pending := t.pending.filter fun e => e.1 ≠ id
  fresh := fun e he => t.fresh e (List.mem_of_mem_filter he)

def isPending (t : Timers τ) (id : ℤ) : Bool := t.pending.any fun e => e.1 = id

def find (t : Timers τ) (id : ℤ) : Option τ :=
  (t.pending.find? fun e => e.1 = id).map Prod.snd

@[simp] theorem none_pending : (none : Timers τ).pending = [] := rfl

@[simp] theorem register_pending (t : Timers τ) (payload : τ) :
    (t.register payload).pending = t.pending ++ [(t.nextId, payload)] := rfl

theorem mem_cancel {t : Timers τ} {id : ℤ} {e : ℤ × τ} :
    e ∈ (t.cancel id).pending ↔ e ∈ t.pending ∧ e.1 ≠ id := by
  simp [cancel]

theorem cancel_pending_nil {t : Timers τ} (h : t.pending = []) (id : ℤ) :
    (t.cancel id).pending = [] := by
  simp [cancel, h]

theorem cancel_pending_singleton {t : Timers τ} {id : ℤ} {payload : τ}
    (h : t.pending = [(id, payload)]) : (t.cancel id).pending = [] := by
  simp [cancel, h]

theorem isPending_iff {t : Timers τ} {id : ℤ} :
    t.isPending id = true ↔ ∃ payload, (id, payload) ∈ t.pending := by
  simp only [isPending, List.any_eq_true, decide_eq_true_eq]
  constructor
  · rintro ⟨⟨id', payload⟩, he, rfl⟩
    exact ⟨payload, he⟩
  · rintro ⟨payload, he⟩
    exact ⟨_, he, rfl⟩

theorem mem_of_find {t : Timers τ} {id : ℤ} {payload : τ} (h : t.find id = some payload) :
    (id, payload) ∈ t.pending := by
  obtain ⟨e, he, rfl⟩ := Option.map_eq_some_iff.mp h
  have hid : e.1 = id := by simpa using List.find?_some he
  rw [← hid]
  exact List.mem_of_find?_eq_some he

end Timers
end Pddm
