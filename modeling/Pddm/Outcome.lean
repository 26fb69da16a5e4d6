import Mathlib

/-!
# Outcomes of handlers and runs of machines

A handler may stop part-way. Its outcome keeps the state it had reached, so that
a statement about every outcome covers interrupted executions as well. The rules
below give postconditions of compositions and loops, and lift step lemmas to runs.
-/
namespace Pddm
universe u v

/-- A completed handler, or one stopped by `error` in the state it had reached. -/
inductive Outcome (ε σ : Type*)
  | done (state : σ)
  | halted (error : ε) (state : σ)
  deriving DecidableEq, Repr

namespace Outcome
variable {ε σ α : Type*}

def state : Outcome ε σ → σ
  | done s => s
  | halted _ s => s

def andThen (o : Outcome ε σ) (f : σ → Outcome ε σ) : Outcome ε σ :=
  match o with
  | done s => f s
  | halted e s => halted e s

def map {τ : Type*} (f : σ → τ) : Outcome ε σ → Outcome ε τ
  | done s => done (f s)
  | halted e s => halted e (f s)

def forEach : List α → (α → σ → Outcome ε σ) → σ → Outcome ε σ
  | [], _, s => done s
  | x :: xs, f, s => (f x s).andThen (forEach xs f)

def isDone : Outcome ε σ → Bool
  | done _ => true
  | halted _ _ => false

theorem eq_done {o : Outcome ε σ} (h : o.isDone = true) : o = done o.state := by
  cases o with
  | done s => rfl
  | halted e s => cases h

@[simp] theorem state_done (s : σ) : (done s : Outcome ε σ).state = s := rfl
@[simp] theorem state_halted (e : ε) (s : σ) : (halted e s).state = s := rfl
@[simp] theorem done_andThen (s : σ) (f : σ → Outcome ε σ) : (done s).andThen f = f s := rfl
@[simp] theorem halted_andThen (e : ε) (s : σ) (f : σ → Outcome ε σ) :
    (halted e s).andThen f = halted e s := rfl
@[simp] theorem forEach_nil (f : α → σ → Outcome ε σ) (s : σ) : forEach [] f s = done s := rfl
@[simp] theorem forEach_cons (x : α) (xs : List α) (f : α → σ → Outcome ε σ) (s : σ) :
    forEach (x :: xs) f s = (f x s).andThen (forEach xs f) := rfl

/-- Postconditions: `Q` of a completed state, `H` of the state of a halt. -/
def Ends (Q H : σ → Prop) : Outcome ε σ → Prop
  | done s => Q s
  | halted _ s => H s

/-- One postcondition, whether or not the handler completed. -/
abbrev Holds (Q : σ → Prop) (o : Outcome ε σ) : Prop := o.Ends Q Q

@[simp] theorem ends_done {Q H : σ → Prop} {s : σ} :
    (done s : Outcome ε σ).Ends Q H ↔ Q s := Iff.rfl

@[simp] theorem ends_halted {Q H : σ → Prop} {e : ε} {s : σ} :
    (halted e s).Ends Q H ↔ H s := Iff.rfl

theorem holds_iff {Q : σ → Prop} {o : Outcome ε σ} : o.Holds Q ↔ Q o.state := by
  cases o <;> rfl

theorem Ends.mono {Q H Q' H' : σ → Prop} {o : Outcome ε σ} (h : o.Ends Q H)
    (hQ : ∀ s, Q s → Q' s) (hH : ∀ s, H s → H' s) : o.Ends Q' H' := by
  cases o with
  | done s => exact hQ s h
  | halted e s => exact hH s h

theorem Ends.and {Q H Q' H' : σ → Prop} {o : Outcome ε σ} (h : o.Ends Q H) (h' : o.Ends Q' H') :
    o.Ends (fun s => Q s ∧ Q' s) (fun s => H s ∧ H' s) := by
  cases o <;> exact ⟨h, h'⟩

/-- Sequencing: the second handler starts where the first completed. -/
theorem Ends.andThen {P Q H : σ → Prop} {o : Outcome ε σ} {f : σ → Outcome ε σ}
    (h : o.Ends P H) (hf : ∀ s, P s → (f s).Ends Q H) : (o.andThen f).Ends Q H := by
  cases o with
  | done s => exact hf s h
  | halted e s => exact h

theorem Ends.map {τ : Type*} {Q H : σ → Prop} {Q' H' : τ → Prop} {f : σ → τ} {o : Outcome ε σ}
    (h : o.Ends Q H) (hQ : ∀ s, Q s → Q' (f s)) (hH : ∀ s, H s → H' (f s)) :
    (o.map f).Ends Q' H' := by
  cases o with
  | done s => exact hQ s h
  | halted e s => exact hH s h

theorem forEach_ends {I H : σ → Prop} {xs : List α} {f : α → σ → Outcome ε σ} {s : σ}
    (hs : I s) (hf : ∀ x ∈ xs, ∀ s, I s → (f x s).Ends I H) : (forEach xs f s).Ends I H := by
  induction xs generalizing s with
  | nil => exact hs
  | cons x xs ih =>
    refine (hf x (by simp) s hs).andThen fun t ht => ?_
    exact ih ht fun y hy => hf y (by simp [hy])

/-- Two handlers that agree where the first one may end are the same after it. -/
theorem andThen_congr {Q H : σ → Prop} {o : Outcome ε σ} {f g : σ → Outcome ε σ} (h : o.Ends Q H)
    (hfg : ∀ s, Q s → f s = g s) : o.andThen f = o.andThen g := by
  cases o with
  | done s => exact hfg s h
  | halted e s => rfl

theorem forEach_congr {I H : σ → Prop} {xs : List α} {f g : α → σ → Outcome ε σ} {s : σ}
    (hs : I s) (hf : ∀ x ∈ xs, ∀ s, I s → (f x s).Ends I H)
    (hfg : ∀ x ∈ xs, ∀ s, I s → f x s = g x s) : forEach xs f s = forEach xs g s := by
  induction xs generalizing s with
  | nil => rfl
  | cons x xs ih =>
    rw [forEach_cons, forEach_cons, ← hfg x (by simp) s hs]
    refine andThen_congr (hf x (by simp) s hs) fun t ht => ?_
    exact ih ht (fun y hy => hf y (by simp [hy])) fun y hy => hfg y (by simp [hy])

theorem forEach_append (xs ys : List α) (f : α → σ → Outcome ε σ) (s : σ) :
    forEach (xs ++ ys) f s = (forEach xs f s).andThen (forEach ys f) := by
  induction xs generalizing s with
  | nil => rfl
  | cons x xs ih =>
    simp only [List.cons_append, forEach_cons]
    cases f x s with
    | done t => exact ih t
    | halted e t => rfl

/-- Where a change of state commutes with two handlers, it does with their sequence. -/
theorem andThen_comm {g : σ → σ} {f : σ → Outcome ε σ} {o : Outcome ε σ}
    (hf : ∀ s, f (g s) = (f s).map g) : (o.map g).andThen f = (o.andThen f).map g := by
  cases o with
  | done s => exact hf s
  | halted e s => rfl

theorem forEach_comm {g : σ → σ} {xs : List α} {f : α → σ → Outcome ε σ} {s : σ}
    (hf : ∀ x s, f x (g s) = (f x s).map g) : forEach xs f (g s) = (forEach xs f s).map g := by
  induction xs generalizing s with
  | nil => rfl
  | cons x xs ih =>
    rw [forEach_cons, hf, forEach_cons]
    exact andThen_comm fun _ => ih

end Outcome

/-- What a computation that succeeds has gone through. -/
theorem exists_of_bind_eq_ok {ε : Type u} {α β : Type v} {x : Except ε α} {f : α → Except ε β}
    {y : β} (h : x >>= f = .ok y) : ∃ a, x = .ok a ∧ f a = .ok y := by
  cases x with
  | error e => cases h
  | ok a => exact ⟨a, rfl, h⟩

@[simp] theorem ok_bind {ε : Type u} {α β : Type v} (a : α) (f : α → Except ε β) :
    Except.ok a >>= f = f a := rfl

/-- A computation that may fail, on each element of a list. -/
theorem exists_of_mem_mapM {ε α β : Type*} {f : α → Except ε β} {xs : List α} {ys : List β} {y : β}
    (h : xs.mapM f = .ok ys) (hy : y ∈ ys) : ∃ x ∈ xs, f x = .ok y := by
  induction xs generalizing ys with
  | nil =>
    cases h
    cases hy
  | cons x xs ih =>
    rw [List.mapM_cons] at h
    obtain ⟨first, hx, h⟩ := exists_of_bind_eq_ok h
    obtain ⟨rest, hxs, h⟩ := exists_of_bind_eq_ok h
    obtain rfl := Except.ok.inj h
    rcases List.mem_cons.mp hy with rfl | hy
    · exact ⟨x, by simp, hx⟩
    · obtain ⟨x', hx', hf⟩ := ih hxs hy
      exact ⟨x', by simp [hx'], hf⟩

section Runs
variable {σ ε : Type*}

/-- `P` holds of every state and the event taken there, along a run. -/
def Along (step : σ → ε → σ) (P : σ → ε → Prop) : σ → List ε → Prop
  | _, [] => True
  | s, e :: es => P s e ∧ Along step P (step s e) es

/-- `I` holds of every state that a run goes through, first and last included. -/
def Throughout (step : σ → ε → σ) (I : σ → Prop) : σ → List ε → Prop
  | s, [] => I s
  | s, e :: es => I s ∧ Throughout step I (step s e) es

variable {step : σ → ε → σ} {I J : σ → Prop} {P : σ → ε → Prop}

theorem Throughout.first {s : σ} {es : List ε} (h : Throughout step I s es) : I s := by
  cases es with
  | nil => exact h
  | cons e es => exact h.1

theorem Throughout.last {s : σ} {es : List ε} (h : Throughout step I s es) :
    I (es.foldl step s) := by
  induction es generalizing s with
  | nil => exact h
  | cons e es ih => exact ih h.2

theorem Throughout.mono {s : σ} {es : List ε} (h : Throughout step I s es)
    (hIJ : ∀ s, I s → J s) : Throughout step J s es := by
  induction es generalizing s with
  | nil => exact hIJ s h
  | cons e es ih => exact ⟨hIJ s h.1, ih h.2⟩

theorem along_of_mem {s : σ} {es : List ε} (h : ∀ e ∈ es, ∀ s, P s e) : Along step P s es := by
  induction es generalizing s with
  | nil => trivial
  | cons e es ih => exact ⟨h e (by simp) s, ih fun e' he' => h e' (by simp [he'])⟩

theorem along_of_forall {s : σ} (es : List ε) (h : ∀ s e, P s e) : Along step P s es :=
  along_of_mem fun e _ s => h s e

/-- A step lemma under a condition lifts to the runs whose steps all meet it. -/
theorem Along.throughout {s : σ} {es : List ε} (h : Along step P s es) (hs : I s)
    (hstep : ∀ s e, I s → P s e → I (step s e)) : Throughout step I s es := by
  induction es generalizing s with
  | nil => exact hs
  | cons e es ih => exact ⟨hs, ih h.2 (hstep s e hs h.1)⟩

/-- What each step from the invariant does, under the condition that each step meets. -/
theorem Along.along {Q : σ → ε → Prop} {s : σ} {es : List ε} (h : Along step P s es) (hs : I s)
    (hstep : ∀ s e, I s → P s e → I (step s e) ∧ Q s e) : Along step Q s es := by
  induction es generalizing s with
  | nil => trivial
  | cons e es ih =>
    obtain ⟨hnext, hQ⟩ := hstep s e hs h.1
    exact ⟨hQ, ih h.2 hnext⟩

/-- Two machines that take the same steps along a run end it in the same state. -/
theorem Along.foldl_eq {step' : σ → ε → σ} {s : σ} {es : List ε}
    (h : Along step (fun s e => step' s e = step s e) s es) : es.foldl step' s = es.foldl step s := by
  induction es generalizing s with
  | nil => rfl
  | cons e es ih =>
    rw [List.foldl_cons, List.foldl_cons, h.1]
    exact ih h.2

/-- Where a step from the invariant `I` meets `P` exactly when it ends in `J`, and
then keeps `I`, a run stays in `J` exactly when each of its steps meets `P`. -/
theorem throughout_iff_along {s : σ} {es : List ε} (hs : I s) (hIJ : ∀ s, I s → J s)
    (hstep : ∀ s e, I s → P s e → I (step s e)) (hback : ∀ s e, I s → J (step s e) → P s e) :
    Throughout step J s es ↔ Along step P s es := by
  induction es generalizing s with
  | nil => exact ⟨fun _ => trivial, fun _ => hIJ s hs⟩
  | cons e es ih =>
    constructor
    · intro h
      have hP : P s e := hback s e hs h.2.first
      exact ⟨hP, (ih (hstep s e hs hP)).mp h.2⟩
    · intro h
      exact ⟨hIJ s hs, (ih (hstep s e hs h.1)).mpr h.2⟩

/-- An unconditional step lemma holds along every run. -/
theorem throughout_of_step {s : σ} {es : List ε} (hs : I s)
    (hstep : ∀ s e, I s → I (step s e)) : Throughout step I s es := by
  induction es generalizing s with
  | nil => exact hs
  | cons e es ih => exact ⟨hs, ih (hstep s e hs)⟩

end Runs

section Logs
variable {α : Type*} {P : List α → α → Prop}

/-- `P` holds of every entry of a log and the entries before it. -/
def EveryEntry (P : List α → α → Prop) (log : List α) : Prop :=
  ∀ pre a post, log = pre ++ a :: post → P pre a

theorem everyEntry_nil : EveryEntry P [] := by
  intro pre a post h
  simp at h

theorem everyEntry_concat {log : List α} {a : α} :
    EveryEntry P (log ++ [a]) ↔ EveryEntry P log ∧ P log a := by
  constructor
  · intro h
    refine ⟨fun pre b post he => h pre b (post ++ [a]) (by simp [he]), h log a [] rfl⟩
  · rintro ⟨hlog, ha⟩ pre b post he
    induction post using List.reverseRecOn with
    | nil =>
      obtain ⟨rfl, hb⟩ := List.append_inj' he rfl
      cases hb
      exact ha
    | append_singleton post c _ =>
      have he' : log ++ [a] = (pre ++ b :: post) ++ [c] := by simp [he]
      obtain ⟨rfl, -⟩ := List.append_inj' he' rfl
      exact hlog pre b post rfl

/-- Entries that meet `P` after the log, whatever else comes before them, may be appended. -/
theorem EveryEntry.append {log ext : List α} (h : EveryEntry P log)
    (hext : ∀ a ∈ ext, ∀ pre, log <+: pre → P pre a) : EveryEntry P (log ++ ext) := by
  induction ext using List.reverseRecOn with
  | nil => simpa using h
  | append_singleton ext a ih =>
    rw [← List.append_assoc]
    exact everyEntry_concat.mpr
      ⟨ih fun b hb => hext b (by simp [hb]), hext a (by simp) _ (List.prefix_append log ext)⟩

/-- Entries of which `P` asks nothing may be appended freely. -/
theorem EveryEntry.append_of_forall {log ext : List α} (h : EveryEntry P log)
    (hext : ∀ a ∈ ext, ∀ pre, P pre a) : EveryEntry P (log ++ ext) :=
  h.append fun a ha pre _ => hext a ha pre

end Logs
end Pddm
