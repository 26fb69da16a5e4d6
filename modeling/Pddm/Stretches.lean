import Mathlib

/-!
# Consecutive stretches

Stretches of time that follow one another from time 0 on, and how much of each of them
lies between two times.
-/
namespace Pddm

section Stretches
variable (len : ℕ → ℤ)

def stretchStart (c : ℕ) : ℤ := ∑ i ∈ Finset.range c, len i

/-- How much of stretch `c` lies between the times. -/
def overlap (p q : ℤ) (c : ℕ) : ℤ :=
  max 0 (min q (stretchStart len (c + 1)) - max p (stretchStart len c))

variable {len}

@[simp] theorem stretchStart_zero : stretchStart len 0 = 0 := rfl

theorem stretchStart_succ (c : ℕ) : stretchStart len (c + 1) = stretchStart len c + len c :=
  Finset.sum_range_succ _ _

theorem stretchStart_le {a b : ℕ} (hlen : ∀ i < b, 0 ≤ len i) (hab : a ≤ b) :
    stretchStart len a ≤ stretchStart len b := by
  apply Finset.sum_le_sum_of_subset_of_nonneg (Finset.range_mono hab)
  intro i hi _
  exact hlen i (Finset.mem_range.mp hi)

/-- What lies in two adjacent windows lies in the window that they make up. -/
theorem overlap_add {p r q : ℤ} {c : ℕ} (hlen : 0 ≤ len c) (hpr : p ≤ r) (hrq : r ≤ q) :
    overlap len p r c + overlap len r q c = overlap len p q c := by
  unfold overlap
  rw [stretchStart_succ]
  omega

@[simp] theorem overlap_self (p : ℤ) (c : ℕ) : overlap len p p c = 0 := by
  unfold overlap
  omega

theorem overlap_of_end_le {p : ℤ} {c : ℕ} (h : stretchStart len (c + 1) ≤ p) (q : ℤ) :
    overlap len p q c = 0 := by
  unfold overlap
  omega

theorem overlap_within {n c : ℕ} (hlen : ∀ i < n, 0 ≤ len i) {p q : ℤ} {i : ℕ} (hi : i < n)
    (hc : c < n) (hp : stretchStart len i ≤ p) (hpq : p ≤ q) (hq : q ≤ stretchStart len (i + 1)) :
    overlap len p q c = if c = i then q - p else 0 := by
  unfold overlap
  rcases lt_trichotomy c i with hlt | rfl | hlt
  · have hend : stretchStart len (c + 1) ≤ stretchStart len i :=
      stretchStart_le (fun j hj => hlen j (by omega)) hlt
    rw [if_neg hlt.ne]
    omega
  · rw [if_pos rfl]
    omega
  · have hbegin : stretchStart len (i + 1) ≤ stretchStart len c :=
      stretchStart_le (fun j hj => hlen j (by omega)) hlt
    rw [if_neg hlt.ne']
    omega

theorem overlap_whole {p q : ℤ} {c : ℕ} (hlen : 0 ≤ len c) (hp : p ≤ stretchStart len c)
    (hq : stretchStart len (c + 1) ≤ q) : overlap len p q c = len c := by
  unfold overlap
  rw [stretchStart_succ] at hq ⊢
  omega

/-- What lies in consecutive windows lies between the ends. -/
theorem sum_overlap {x : ℕ → ℤ} {n c : ℕ} (hlen : 0 ≤ len c)
    (hx : ∀ k < n, x k ≤ x (k + 1)) :
    ∑ k ∈ Finset.range n, overlap len (x k) (x (k + 1)) c = overlap len (x 0) (x n) c := by
  induction n with
  | zero => simp
  | succ n ih =>
    have hmono : ∀ m ≤ n, x 0 ≤ x m := by
      intro m
      induction m with
      | zero => intro _; exact le_rfl
      | succ m ihm => exact fun hm => (ihm (by omega)).trans (hx m (by omega))
    rw [Finset.sum_range_succ, ih fun k hk => hx k (by omega)]
    exact overlap_add hlen (hmono n le_rfl) (hx n (by omega))

end Stretches

end Pddm
