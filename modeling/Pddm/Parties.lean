import Pddm.Outcome

/-!
# Networks of parties

Parties take steps one at a time, each from its own state. What a step delivers has been sent
by some party before.
-/
namespace Pddm

section Parties
variable {κ σ ε μ : Type*} [DecidableEq κ] {step : κ → σ → ε → σ} {sent : σ → μ → Prop}
  {delivers : κ → ε → μ → Prop} {s : κ → σ}

def partyStep (step : κ → σ → ε → σ) (s : κ → σ) (e : κ × ε) : κ → σ :=
  Function.update s e.1 (step e.1 (s e.1) e.2)

/-- What a step delivers to a party has been sent. -/
def Authentic (sent : σ → μ → Prop) (delivers : κ → ε → μ → Prop) (s : κ → σ) (e : κ × ε) : Prop :=
  ∀ m, delivers e.1 e.2 m → ∃ j, sent (s j) m

/-- What each step of a party preserves holds of all parties after a step of one. -/
theorem partyStep_preserves {I : κ → σ → Prop} (hs : ∀ i, I i (s i)) {e : κ × ε}
    (he : I e.1 (step e.1 (s e.1) e.2)) : ∀ i, I i (partyStep step s e i) := by
  intro i
  unfold partyStep
  by_cases hi : i = e.1
  · rw [hi, Function.update_self]
    exact he
  · rw [Function.update_of_ne hi]
    exact hs i

/-- What a party cannot regain once it is lost, and has at the end, it has had all along. -/
theorem kept_from_start {clean : κ → σ → Prop}
    (hclean : ∀ i s e, clean i (step i s e) → clean i s) {es : List (κ × ε)}
    (hend : ∀ i, clean i (es.foldl (partyStep step) s i)) : ∀ i, clean i (s i) := by
  induction es generalizing s with
  | nil => exact hend
  | cons e es ih =>
    intro i
    have hnext := ih hend i
    unfold partyStep at hnext
    by_cases hi : i = e.1
    · subst hi
      rw [Function.update_self] at hnext
      exact hclean _ _ _ hnext
    · rwa [Function.update_of_ne hi] at hnext

/-- An invariant of each party that makes what it sends acceptable, and holds on as long as what
it is sent is acceptable and it stays clean, holds of all parties that are clean at the end. -/
theorem invariant_of_authentic (I clean : κ → σ → Prop) (ok : μ → Prop)
    (hclean : ∀ i s e, clean i (step i s e) → clean i s)
    (hsent : ∀ i s, I i s → ∀ m, sent s m → ok m)
    (hstep : ∀ i s e, I i s → (∀ m, delivers i e m → ok m) → clean i (step i s e) →
      I i (step i s e))
    (hs : ∀ i, I i (s i)) {es : List (κ × ε)}
    (hes : Along (partyStep step) (Authentic sent delivers) s es)
    (hend : ∀ i, clean i (es.foldl (partyStep step) s i)) :
    ∀ i, I i (es.foldl (partyStep step) s i) := by
  induction es generalizing s with
  | nil => exact hs
  | cons e es ih =>
    obtain ⟨hauthentic, hes⟩ := hes
    have hafter : ∀ i, clean i (partyStep step s e i) := kept_from_start hclean hend
    have hnext := hafter e.1
    unfold partyStep at hnext
    rw [Function.update_self] at hnext
    refine ih (partyStep_preserves hs ?_) hes hend
    refine hstep _ _ _ (hs e.1) (fun m hm => ?_) hnext
    obtain ⟨j, hj⟩ := hauthentic m hm
    exact hsent j _ (hs j) m hj

/-- What a step delivers has been sent at some time before. -/
def SentBefore (step : κ → σ → ε → σ) (start : κ → σ) (sent : σ → μ → Prop)
    (delivers : κ → ε → μ → Prop) (before : List (κ × ε)) (e : κ × ε) : Prop :=
  ∀ m, delivers e.1 e.2 m →
    ∃ earlier, earlier <+: before ∧ ∃ j, sent (earlier.foldl (partyStep step) start j) m

/-- An invariant of each party that makes what it sends acceptable, and holds on where acceptable
messages arrive and the step is allowed, holds of all parties at all times. -/
theorem invariant_of_sentBefore {start : κ → σ} (I : κ → σ → Prop) (ok : μ → Prop)
    {allowed : List (κ × ε) → κ × ε → Prop} (hstart : ∀ i, I i (start i))
    (hsent : ∀ i s, I i s → ∀ m, sent s m → ok m)
    (hstep : ∀ before e, allowed before e → (∀ m, delivers e.1 e.2 m → ok m) →
      I e.1 (before.foldl (partyStep step) start e.1) →
      I e.1 (step e.1 (before.foldl (partyStep step) start e.1) e.2))
    {es : List (κ × ε)} (hes : EveryEntry (SentBefore step start sent delivers) es)
    (hallowed : EveryEntry allowed es) :
    ∀ before, before <+: es → ∀ i, I i (before.foldl (partyStep step) start i) := by
  induction es using List.reverseRecOn with
  | nil =>
    intro before hbefore
    obtain rfl := List.prefix_nil.mp hbefore
    exact hstart
  | append_singleton es e ih =>
    obtain ⟨hes, hlast⟩ := everyEntry_concat.mp hes
    obtain ⟨hallowed, hlastAllowed⟩ := everyEntry_concat.mp hallowed
    have hbefore := ih hes hallowed
    intro before hprefix
    rcases List.prefix_concat_iff.mp hprefix with rfl | hprefix
    · rw [List.foldl_append]
      refine partyStep_preserves (hbefore es List.prefix_rfl) ?_
      refine hstep es e hlastAllowed (fun m hm => ?_) (hbefore es List.prefix_rfl e.1)
      obtain ⟨earlier, hearlier, j, hj⟩ := hlast m hm
      exact hsent j _ (hbefore earlier hearlier j) m hj
    · exact hbefore before hprefix

end Parties
end Pddm
