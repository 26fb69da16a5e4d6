import Mathlib

/-!
# Flooding

Every holder of a message sends it on in each round, to the target of that round, and drops
it once it has sent it to its destination. The destination itself does not pass it on.
-/
namespace Pddm

section Flooding
variable {V M : Type*} {target : ℤ → V → V} {destination : M → V} {nodes : Set V}
  {start stop : ℤ} {sends : ℤ → V → Set M}

/-- What the nodes send in the rounds from `start` on and before `stop`. -/
structure Flood (target : ℤ → V → V) (destination : M → V) (nodes : Set V) (start stop : ℤ)
    (sends : ℤ → V → Set M) : Prop where
  target_mem : ∀ r v, v ∈ nodes → target r v ∈ nodes
  sends_next : ∀ r v m, start ≤ r → r + 1 < stop → v ∈ nodes → (m ∈ sends (r + 1) v ↔
    (m ∈ sends r v ∧ target r v ≠ destination m) ∨
      ∃ u ∈ nodes, target r u = v ∧ m ∈ sends r u ∧ destination m ≠ v)

def Arrives (target : ℤ → V → V) (destination : M → V) (nodes : Set V) (sends : ℤ → V → Set M)
    (r : ℤ) (m : M) : Prop :=
  ∃ v ∈ nodes, m ∈ sends r v ∧ target r v = destination m

/-- The nodes that a message can have come to after `k` rounds, starting from one node. -/
def reached (target : ℤ → V → V) (start : ℤ) (origin : V) : ℕ → Set V
  | 0 => {origin}
  | k + 1 => reached target start origin k ∪ target (start + k) '' reached target start origin k

theorem Flood.origin (h : Flood target destination nodes start stop sends) {v : V} {m : M}
    (k : ℕ) (hk : start + k < stop) (hv : v ∈ nodes) (hm : m ∈ sends (start + k) v) :
    ∃ origin ∈ nodes, m ∈ sends start origin := by
  induction k generalizing v with
  | zero => exact ⟨v, hv, by simpa using hm⟩
  | succ k ih =>
    push_cast at hk hm
    rw [← add_assoc] at hk hm
    rcases (h.sends_next (start + k) v m (by omega) hk hv).mp hm with ⟨hm, -⟩ | ⟨u, hu, -, hm, -⟩
    · exact ih (by omega) hv hm
    · exact ih (by omega) hu hm

/-- A message that has not arrived is sent by all that it can have come to. -/
theorem Flood.sends_of_reached (h : Flood target destination nodes start stop sends) {origin : V}
    {m : M} (horigin : origin ∈ nodes) (hm : m ∈ sends start origin) (k : ℕ)
    (hk : start + k < stop)
    (hnot : ∀ r, start ≤ r → r < start + k → ¬ Arrives target destination nodes sends r m) :
    ∀ v ∈ reached target start origin k, v ∈ nodes ∧ m ∈ sends (start + k) v := by
  induction k with
  | zero =>
    rintro v rfl
    exact ⟨horigin, by simpa using hm⟩
  | succ k ih =>
    push_cast at hk hnot ⊢
    rw [← add_assoc] at hk hnot ⊢
    have hbefore := ih (by omega) fun r hr hrk => hnot r hr (by omega)
    have hlast : ¬ Arrives target destination nodes sends (start + k) m :=
      hnot (start + k) (by omega) (by omega)
    rintro v (hv | ⟨u, hu, rfl⟩)
    · obtain ⟨hnode, hsends⟩ := hbefore v hv
      refine ⟨hnode, (h.sends_next (start + k) v m (by omega) hk hnode).mpr (Or.inl ⟨hsends, ?_⟩)⟩
      exact fun harrives => hlast ⟨v, hnode, hsends, harrives⟩
    · obtain ⟨hnode, hsends⟩ := hbefore u hu
      have hnext := h.target_mem (start + k) u hnode
      refine ⟨hnext, (h.sends_next (start + k) _ m (by omega) hk hnext).mpr (Or.inr ?_)⟩
      exact ⟨u, hnode, rfl, hsends, fun harrives => hlast ⟨u, hnode, hsends, harrives.symm⟩⟩

/-- A message arrives by the round in which one that it can have come to would send it to its
destination, although it may have been dropped on the way. -/
theorem Flood.arrives (h : Flood target destination nodes start stop sends) {origin v : V} {m : M}
    (horigin : origin ∈ nodes) (hm : m ∈ sends start origin) {k : ℕ} (hk : start + k < stop)
    (hv : v ∈ reached target start origin k) (hlast : target (start + k) v = destination m) :
    ∃ r, start ≤ r ∧ r < stop ∧ Arrives target destination nodes sends r m := by
  by_contra hnone
  push Not at hnone
  obtain ⟨hnode, hsends⟩ := h.sends_of_reached horigin hm k hk
    (fun r hr hrk => hnone r hr (by omega)) v hv
  exact hnone (start + k) (by omega) hk ⟨v, hnode, hsends, hlast⟩

end Flooding

section Circle
variable {n start : ℤ}

/-- In a round the target is the power of two of the round further on. -/
def Doubling (target : ℤ → ℤ → ℤ) (n start : ℤ) (rounds : ℕ) : Prop :=
  ∀ k < rounds, ∀ v, 0 ≤ v → v < n →
    target (start + (k : ℕ)) v = (v + 2 ^ (start + (k : ℕ)).toNat) % n

theorem add_lastPow (hstart : 0 ≤ start) (origin : ℤ) {k x : ℕ} (hlow : 2 ^ k ≤ x) :
    origin + 2 ^ start.toNat * ((x - 2 ^ k : ℕ) : ℤ) + 2 ^ (start + (k : ℕ)).toNat =
      origin + 2 ^ start.toNat * x := by
  have hpow : (start + (k : ℕ)).toNat = start.toNat + k := by omega
  have hcast : ((x - 2 ^ k : ℕ) : ℤ) = x - 2 ^ k := by
    rw [Nat.cast_sub hlow]
    push_cast
    rfl
  rw [hpow, hcast, pow_add]
  ring

theorem mem_reached {target : ℤ → ℤ → ℤ} {rounds : ℕ} (hn : 0 < n) (hstart : 0 ≤ start)
    (htarget : Doubling target n start rounds) {origin : ℤ} (horigin : 0 ≤ origin)
    (horiginlt : origin < n) {k : ℕ} (hk : k ≤ rounds) {x : ℕ} (hx : x < 2 ^ k) :
    (origin + 2 ^ start.toNat * x) % n ∈ reached target start origin k := by
  induction k generalizing x with
  | zero =>
    obtain rfl : x = 0 := by simpa using hx
    simp [reached, Int.emod_eq_of_lt horigin horiginlt]
  | succ k ih =>
    by_cases hsmall : x < 2 ^ k
    · exact Or.inl (ih (by omega) hsmall)
    · right
      have hrest : x - 2 ^ k < 2 ^ k := by
        rw [pow_succ] at hx
        omega
      refine ⟨_, ih (by omega) hrest, ?_⟩
      rw [htarget k (by omega) _ (Int.emod_nonneg _ hn.ne') (Int.emod_lt_of_pos _ hn),
        Int.emod_add_emod, add_lastPow hstart origin (not_lt.mp hsmall)]

/-- Modulo an odd number every difference is a positive multiple of a power of two. -/
theorem exists_multiple (hn : 0 < n) (hodd : Odd n) (s : ℕ) (difference : ℤ) :
    ∃ x : ℕ, 0 < x ∧ (x : ℤ) ≤ n ∧ (2 ^ s * (x : ℤ)) % n = difference % n := by
  have hcoprime : IsCoprime (2 ^ s : ℤ) n :=
    IsCoprime.pow_left (Int.isCoprime_two_left.mpr hodd)
  obtain ⟨b, c, hbc⟩ := hcoprime
  let y := (difference * b) % n
  have hy : 0 ≤ y ∧ y < n := ⟨Int.emod_nonneg _ hn.ne', Int.emod_lt_of_pos _ hn⟩
  have hmultiple : (2 ^ s * y) % n = difference % n := by
    have heq : 2 ^ s * (difference * b) = difference + n * (-(difference * c)) := by
      linear_combination difference * hbc
    rw [Int.mul_emod, Int.emod_emod_of_dvd _ (dvd_refl n), ← Int.mul_emod, heq,
      Int.add_mul_emod_self_left]
  by_cases hzero : y = 0
  · refine ⟨n.toNat, by omega, by omega, ?_⟩
    rw [hzero, mul_zero, Int.zero_emod] at hmultiple
    rw [Int.toNat_of_nonneg hn.le, Int.mul_emod_left, ← hmultiple]
  · refine ⟨y.toNat, by omega, by omega, ?_⟩
    rw [Int.toNat_of_nonneg hy.1, hmultiple]

/-- Among an odd number of nodes as many rounds as its logarithm lead from each node to each,
and back to the first one as well. -/
theorem exists_reached {target : ℤ → ℤ → ℤ} {rounds : ℕ} (hn : 0 < n) (hodd : Odd n)
    (hstart : 0 ≤ start) (hrounds : n < 2 ^ rounds) (htarget : Doubling target n start rounds)
    {origin last : ℤ} (horigin : 0 ≤ origin) (horiginlt : origin < n) (hlast : 0 ≤ last)
    (hlastlt : last < n) :
    ∃ k < rounds, ∃ v ∈ reached target start origin k, target (start + (k : ℕ)) v = last := by
  obtain ⟨x, hx, hxn, hsum⟩ := exists_multiple hn hodd start.toNat (last - origin)
  have hlow : 2 ^ Nat.log2 x ≤ x := Nat.log2_self_le hx.ne'
  have hhigh : x < 2 ^ (Nat.log2 x + 1) := Nat.lt_log2_self
  have hk : Nat.log2 x < rounds := by
    have hlt : 2 ^ Nat.log2 x < 2 ^ rounds := by
      zify
      zify at hlow
      omega
    exact (Nat.pow_lt_pow_iff_right (by norm_num)).mp hlt
  have hrest : x - 2 ^ Nat.log2 x < 2 ^ Nat.log2 x := by
    rw [pow_succ] at hhigh
    omega
  refine ⟨Nat.log2 x, hk, _, mem_reached hn hstart htarget horigin horiginlt hk.le hrest, ?_⟩
  rw [htarget _ hk _ (Int.emod_nonneg _ hn.ne') (Int.emod_lt_of_pos _ hn), Int.emod_add_emod,
    add_lastPow hstart origin hlow, Int.add_emod, hsum, ← Int.add_emod, add_sub_cancel,
    Int.emod_eq_of_lt hlast hlastlt]

end Circle
end Pddm
