import Pddm.PathSearch

/-!
# The rounds of the gossip graph

With a prime number of meters of which 2 is a primitive root, the targets of a meter in one
round less than there are meters are all the other meters.
-/
namespace Pddm

/-- A step of square and multiply, whose square matters only if it is used again. -/
theorem square_and_multiply {mod result num pow square : ℕ}
    (hsquare : 0 < pow / 2 → square = num * num % mod) :
    (if pow % 2 = 1 then result * num % mod else result) * square ^ (pow / 2) % mod =
      result * num ^ pow % mod := by
  have hpower : square ^ (pow / 2) % mod = (num * num) ^ (pow / 2) % mod := by
    rcases Nat.eq_zero_or_pos (pow / 2) with hzero | hpos
    · rw [hzero, pow_zero, pow_zero]
    · rw [hsquare hpos, ← Nat.pow_mod]
  split_ifs with hodd
  · have hhalf : pow = 2 * (pow / 2) + 1 := by omega
    calc result * num % mod * square ^ (pow / 2) % mod
        = result * num * (num * num) ^ (pow / 2) % mod := by
          rw [Nat.mul_mod, Nat.mod_mod, hpower, ← Nat.mul_mod]
      _ = result * num ^ pow % mod := by
          conv_rhs => rw [hhalf, pow_succ, pow_mul, sq]
          congr 1
          ring
  · have hhalf : pow = 2 * (pow / 2) := by omega
    calc result * square ^ (pow / 2) % mod
        = result * (num * num) ^ (pow / 2) % mod := by
          rw [Nat.mul_mod, hpower, ← Nat.mul_mod]
      _ = result * num ^ pow % mod := by
          conv_rhs => rw [hhalf, pow_mul, sq]

theorem multiplied_lt {mod result num pow : ℕ} (hresult : result < mod) :
    (if pow % 2 = 1 then result * num % mod else result) < mod := by
  split_ifs
  · exact Nat.mod_lt _ (by omega)
  · exact hresult

/-- Squares of numbers below the modulus fit into 32 bits. -/
theorem modPowLoop_eq {mod : ℕ} (hmod : mod ≤ 2 ^ 16) (bits : ℕ) {result num pow : ℕ}
    (hresult : result < mod) (hnum : num < 2 ^ 16) (hpow : pow < 2 ^ bits) :
    modPowLoop mod bits result num pow = result * num ^ pow % mod := by
  induction bits generalizing result num pow with
  | zero =>
    obtain rfl : pow = 0 := by simpa using hpow
    simp [modPowLoop, Nat.mod_eq_of_lt hresult]
  | succ bits ih =>
    rw [modPowLoop]
    by_cases hpos : 0 < pow
    · have hsquare : num * num < 2 ^ 32 := by nlinarith
      rw [if_pos hpos, Nat.mod_eq_of_lt hsquare, ih (multiplied_lt hresult)
        ((Nat.mod_lt _ (by omega)).trans_le hmod) (by omega)]
      exact square_and_multiply fun _ => rfl
    · obtain rfl : pow = 0 := by omega
      simp [Nat.mod_eq_of_lt hresult]

theorem modPow_eq {mod pow : ℕ} (hmod : 1 < mod) (hle : mod ≤ 2 ^ 16) (hpow : pow < 2 ^ 32) :
    modPow 2 pow mod = 2 ^ pow % mod := by
  rw [modPow, modPowLoop_eq hle 32 hmod (by norm_num) hpow, one_mul]

/-- The sizes of networks in which every meter comes to every other: the primes of which 2
is a primitive root. -/
structure GossipPrime (n : ℤ) : Prop where
  two_le : 2 ≤ n
  prime : n.toNat.Prime
  primitive : IsPrimitiveRoot (2 : ZMod n.toNat) (n.toNat - 1)

theorem pow_eq_pow_iff_of_primitive {R : Type*} [CommMonoid R] {ζ : R} {k a b : ℕ}
    (h : IsPrimitiveRoot ζ k) (hk : 0 < k) : ζ ^ a = ζ ^ b ↔ a ≡ b [MOD k] := by
  rw [pow_eq_pow_mod a h.pow_eq_one, pow_eq_pow_mod b h.pow_eq_one]
  constructor
  · intro hpow
    exact h.pow_inj (Nat.mod_lt a hk) (Nat.mod_lt b hk) hpow
  · intro hmod
    rw [show a % k = b % k from hmod]

section Targets
variable {n : ℤ}

theorem gossipTarget_eq (hn : 2 ≤ n) (hle : n ≤ 65535) {r i : ℤ} (hr : 0 ≤ r) (hrlt : r < 2 ^ 31)
    (hi : 0 ≤ i) (hilt : i < n) : gossipTarget i r n = (i + 2 ^ r.toNat) % n := by
  have hnat : (uint32 n : ℤ) = n := uint32_of_lt (by omega) (by omega)
  have hround : (uint32 r : ℤ) = r := uint32_of_lt hr hrlt
  have hexp : uint32 r = r.toNat := by omega
  have hpow : modPow 2 (uint32 r) (uint32 n) = 2 ^ r.toNat % uint32 n := by
    rw [modPow_eq (by omega) (by omega) (by omega), hexp]
  have hbound : 2 ^ r.toNat % uint32 n < uint32 n := Nat.mod_lt _ (by omega)
  rw [gossipTarget, hpow, hnat, uint32_of_lt hi (by omega),
    Int.emod_eq_of_lt (b := 2 ^ 32) (by omega) (by omega)]
  push_cast
  rw [hnat, Int.add_emod_emod]

theorem gossipTarget_eq_iff (hn : 2 ≤ n) (hle : n ≤ 65535) {r i j : ℤ} (hr : 0 ≤ r)
    (hrlt : r < 2 ^ 31) (hi : 0 ≤ i) (hilt : i < n) (hj : 0 ≤ j) (hjlt : j < n) :
    gossipTarget i r n = j ↔ (2 : ZMod n.toNat) ^ r.toNat = ((j - i : ℤ) : ZMod n.toNat) := by
  have hcast : ((n.toNat : ℕ) : ℤ) = n := Int.toNat_of_nonneg (by omega)
  have hmod : (i + 2 ^ r.toNat) % n = j ↔ i + 2 ^ r.toNat ≡ j [ZMOD n] := by
    rw [Int.ModEq, Int.emod_eq_of_lt hj hjlt]
  rw [gossipTarget_eq hn hle hr hrlt hi hilt, hmod, ← hcast, ← ZMod.intCast_eq_intCast_iff, hcast]
  push_cast
  rw [eq_sub_iff_add_eq, add_comm]

/-- One less than `n` rounds in a row bring every other meter up, each in one of them. -/
theorem GossipPrime.existsUnique_round (h : GossipPrime n) (hle : n ≤ 65535) {i j t : ℤ}
    (hi : 0 ≤ i) (hilt : i < n) (hj : 0 ≤ j) (hjlt : j < n) (hne : i ≠ j) (ht : 0 ≤ t)
    (hlast : t + (n - 1) ≤ 2 ^ 31) :
    ∃ r, t ≤ r ∧ r < t + (n - 1) ∧
      ∀ r', t ≤ r' → r' < t + (n - 1) → (gossipTarget i r' n = j ↔ r' = r) := by
  have hn := h.two_le
  have hprime : Fact n.toNat.Prime := ⟨h.prime⟩
  have hcast : ((n.toNat : ℕ) : ℤ) = n := Int.toNat_of_nonneg (by omega)
  have hpos : NeZero (n.toNat - 1) := ⟨by omega⟩
  have hdiff : ((j - i : ℤ) : ZMod n.toNat) ≠ 0 := by
    rw [Ne, ZMod.intCast_zmod_eq_zero_iff_dvd, hcast]
    intro hdvd
    have hsmall : |j - i| < n := abs_lt.mpr ⟨by omega, by omega⟩
    have hzero := Int.eq_zero_of_abs_lt_dvd hdvd hsmall
    omega
  obtain ⟨e, helt, he⟩ := h.primitive.eq_pow_of_pow_eq_one (ZMod.pow_card_sub_one_eq_one hdiff)
  -- the exponents that give the difference are those congruent to `e`
  have hround (r : ℤ) (hr : 0 ≤ r) (hrlt : r < 2 ^ 31) :
      gossipTarget i r n = j ↔ r ≡ e [ZMOD n - 1] := by
    have hpow : (2 : ZMod n.toNat) ^ r.toNat = 2 ^ e ↔ r.toNat ≡ e [MOD n.toNat - 1] :=
      pow_eq_pow_iff_of_primitive h.primitive (by omega)
    have hsize : ((n.toNat - 1 : ℕ) : ℤ) = n - 1 := by omega
    rw [gossipTarget_eq_iff hn hle hr hrlt hi hilt hj hjlt, ← he, hpow, ← Int.natCast_modEq_iff,
      hsize, Int.toNat_of_nonneg hr]
  have hwindow : 0 < n - 1 := by omega
  have hoffset := Int.emod_nonneg (e - t) hwindow.ne'
  have hoffsetlt := Int.emod_lt_of_pos (e - t) hwindow
  refine ⟨t + (e - t) % (n - 1), by omega, by omega, fun r' hr' hr'lt => ?_⟩
  rw [hround r' (by omega) (by omega)]
  constructor
  · intro hmod
    have hsame : (r' - t) % (n - 1) = (e - t) % (n - 1) := hmod.sub_right t
    rw [Int.emod_eq_of_lt (by omega) (by omega)] at hsame
    omega
  · rintro rfl
    have hmod : t + (e - t) % (n - 1) ≡ t + (e - t) [ZMOD n - 1] :=
      (Int.mod_modEq (e - t) (n - 1)).add_left t
    rwa [add_sub_cancel] at hmod

theorem gossipPredecessor_eq_iff (hn : 2 ≤ n) (hlt : n < 2 ^ 31) {r i j : ℤ} (hi : 0 ≤ i)
    (hilt : i < n) (hj : 0 ≤ j) (hjlt : j < n) :
    gossipPredecessor j r n = i ↔ gossipTarget i r n = j := by
  obtain ⟨hp, hplt, hgossip⟩ := gossip_predecessor hn hlt r hj hjlt
  constructor
  · rintro rfl
    exact hgossip
  · intro htarget
    exact gossip_injOn (by omega) hlt hp hplt hi hilt (hgossip.trans htarget.symm)

end Targets
end Pddm
