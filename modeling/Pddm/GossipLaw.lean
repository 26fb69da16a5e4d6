import Pddm.GossipRounds

/-!
# The law of the gossip graph

In round `t` a meter sends to the one `2^t` further, as long as the squares of the modular
power stay below `2^32`. The memo tables of the two functions change nothing about it.
-/
namespace Pddm

section ModPow

theorem modPowLoop_zero_left (mod bits num pow : ℕ) : modPowLoop mod bits 0 num pow = 0 := by
  induction bits generalizing num pow with
  | zero => rfl
  | succ bits ih =>
    rw [modPowLoop]
    simp only [zero_mul, Nat.zero_mod, ite_self]
    split_ifs
    · exact ih _ _
    · rfl

theorem modPowLoop_zero (mod bits : ℕ) {result pow : ℕ} (hpos : 0 < pow) (hlt : pow < 2 ^ bits) :
    modPowLoop mod bits result 0 pow = 0 := by
  induction bits generalizing result pow with
  | zero => omega
  | succ bits ih =>
    rw [modPowLoop, if_pos hpos]
    simp only [mul_zero, Nat.zero_mod]
    by_cases hhalf : 0 < pow / 2
    · exact ih hhalf (by omega)
    · have hone : pow % 2 = 1 := by omega
      rw [if_pos hone, modPowLoop_zero_left]

/-- Nothing wraps around as long as the power itself does not. -/
theorem modPowLoop_of_pow_lt {mod : ℕ} (bits : ℕ) {result num pow : ℕ} (hresult : result < mod)
    (hnum : num ^ pow < 2 ^ 32) (hpow : pow < 2 ^ bits) :
    modPowLoop mod bits result num pow = result * num ^ pow % mod := by
  induction bits generalizing result num pow with
  | zero =>
    obtain rfl : pow = 0 := by simpa using hpow
    simp [modPowLoop, Nat.mod_eq_of_lt hresult]
  | succ bits ih =>
    rw [modPowLoop]
    by_cases hpos : 0 < pow
    · have hpower (hhalf : 0 < pow / 2) : (num * num) ^ (pow / 2) < 2 ^ 32 := by
        rw [← sq, ← pow_mul]
        rcases Nat.eq_zero_or_pos num with rfl | hnumpos
        · rw [zero_pow (by omega)]
          norm_num
        · exact (Nat.pow_le_pow_right hnumpos (by omega)).trans_lt hnum
      have hsquare (hhalf : 0 < pow / 2) : num * num % 2 ^ 32 = num * num :=
        Nat.mod_eq_of_lt ((Nat.le_self_pow hhalf.ne' _).trans_lt (hpower hhalf))
      have hnext : (num * num % 2 ^ 32 % mod) ^ (pow / 2) < 2 ^ 32 := by
        rcases Nat.eq_zero_or_pos (pow / 2) with hzero | hhalf
        · rw [hzero, pow_zero]
          norm_num
        · rw [hsquare hhalf]
          exact (Nat.pow_le_pow_left (Nat.mod_le _ _) _).trans_lt (hpower hhalf)
      rw [if_pos hpos, ih (multiplied_lt hresult) hnext (by omega)]
      exact square_and_multiply fun hhalf => by rw [hsquare hhalf]
    · obtain rfl : pow = 0 := by omega
      simp [Nat.mod_eq_of_lt hresult]

theorem modPowLoop_succ (mod bits result num pow next : ℕ) (hpos : 0 < pow)
    (hnext : num * num % 2 ^ 32 % mod = next) : ∃ result', modPowLoop mod (bits + 1) result num pow =
      modPowLoop mod bits result' next (pow / 2) :=
  ⟨_, (if_pos hpos).trans (by rw [hnext])⟩

/-- With a larger modulus the fifth square is `2^32`, which wraps around to zero. -/
theorem modPow_of_large {mod pow : ℕ} (hmod : 2 ^ 16 < mod) (hpow : pow < 2 ^ 32) :
    modPow 2 pow mod = if pow < 32 then 2 ^ pow % mod else 0 := by
  rw [modPow]
  split_ifs with hsmall
  · rw [modPowLoop_of_pow_lt 32 (by omega) (Nat.pow_lt_pow_right (by norm_num) hsmall) (by omega),
      one_mul]
  · have hlt (num : ℕ) (h : num ≤ 2 ^ 16) : num % mod = num := Nat.mod_eq_of_lt (by omega)
    obtain ⟨r₁, h₁⟩ := modPowLoop_succ mod 31 1 2 pow 4 (by omega) (hlt 4 (by norm_num))
    obtain ⟨r₂, h₂⟩ := modPowLoop_succ mod 30 r₁ 4 (pow / 2) 16 (by omega) (hlt 16 (by norm_num))
    obtain ⟨r₃, h₃⟩ := modPowLoop_succ mod 29 r₂ 16 (pow / 2 / 2) 256 (by omega)
      (hlt 256 (by norm_num))
    obtain ⟨r₄, h₄⟩ := modPowLoop_succ mod 28 r₃ 256 (pow / 2 / 2 / 2) 65536 (by omega)
      (hlt 65536 (by norm_num))
    obtain ⟨r₅, h₅⟩ := modPowLoop_succ mod 27 r₄ 65536 (pow / 2 / 2 / 2 / 2) 0 (by omega)
      (hlt 0 (by norm_num))
    rw [h₁, h₂, h₃, h₄, h₅]
    exact modPowLoop_zero mod 27 (by omega) (by omega)

theorem modPow_lt {mod : ℕ} (hmod : 1 < mod) (pow : ℕ) : modPow 2 pow mod < mod :=
  modPowLoop_lt (by omega) 32 2 pow hmod

theorem modPow_eq_iff {mod pow : ℕ} (hmod : 1 < mod) (hpow : pow < 2 ^ 32) :
    modPow 2 pow mod = 2 ^ pow % mod ↔ mod ≤ 2 ^ 16 ∨ pow < 32 ∨ mod ∣ 2 ^ pow := by
  rcases le_or_gt mod (2 ^ 16) with hle | hlt
  · simp only [modPow_eq hmod hle hpow, hle, true_or]
  · rw [modPow_of_large hlt hpow, Nat.dvd_iff_mod_eq_zero]
    split_ifs with hsmall
    · simp only [hsmall, true_or, or_true]
    · simp only [hlt.not_ge, hsmall, false_or, eq_comm]

end ModPow

section Law
variable {n : ℤ}

def gossipDistance (n t : ℤ) : ℤ := modPow 2 (uint32 t) (uint32 n)

theorem gossipDistance_range (hn : 2 ≤ n) (hlt : n < 2 ^ 31) (t : ℤ) :
    0 ≤ gossipDistance n t ∧ gossipDistance n t < n := by
  have hnat : (uint32 n : ℤ) = n := uint32_of_lt (by omega) hlt
  have hpow : modPow 2 (uint32 t) (uint32 n) < uint32 n := modPow_lt (by omega) (uint32 t)
  rw [gossipDistance]
  omega

theorem gossipTarget_eq_distance (hn : 2 ≤ n) (hlt : n < 2 ^ 31) (t : ℤ) {i : ℤ} (hi : 0 ≤ i)
    (hilt : i < n) : gossipTarget i t n = (i + gossipDistance n t) % n := by
  have hnat : (uint32 n : ℤ) = n := uint32_of_lt (by omega) hlt
  obtain ⟨hc, hcn⟩ := gossipDistance_range hn hlt t
  rw [gossipTarget, hnat, uint32_of_lt hi (by omega), ← gossipDistance]
  rw [Int.emod_eq_of_lt (b := 2 ^ 32) (by omega) (by omega)]

theorem gossipPredecessor_eq_distance (hn : 2 ≤ n) (hlt : n < 2 ^ 31) (t : ℤ) {i : ℤ}
    (hi : 0 ≤ i) : gossipPredecessor i t n = (i - gossipDistance n t) % n := by
  obtain ⟨hc, hcn⟩ := gossipDistance_range hn hlt t
  rw [gossipPredecessor, modSubtract, ← gossipDistance]
  by_cases hge : i ≥ gossipDistance n t
  · rw [if_pos hge, add_zero, Int.tmod_eq_emod_of_nonneg (by omega)]
  · rw [if_neg hge, ← neg_sub, Int.neg_tmod, Int.tmod_eq_of_lt (by omega) (by omega), neg_sub,
      ← Int.add_emod_right, Int.emod_eq_of_lt (by omega) (by omega)]

theorem gossipDistance_eq_iff (hn : 2 ≤ n) (hlt : n < 2 ^ 31) {t : ℤ} (ht : 0 ≤ t)
    (htlt : t < 2 ^ 31) : gossipDistance n t = 2 ^ t.toNat % n ↔
      n ≤ 65536 ∨ t < 32 ∨ n ∣ 2 ^ t.toNat := by
  have hnat : (uint32 n : ℤ) = n := uint32_of_lt (by omega) hlt
  have hround : (uint32 t : ℤ) = t := uint32_of_lt ht htlt
  have hexp : uint32 t = t.toNat := by omega
  have hiff : modPow 2 (uint32 t) (uint32 n) = 2 ^ uint32 t % uint32 n ↔ _ :=
    modPow_eq_iff (by omega) (by omega)
  have hdvd : uint32 n ∣ 2 ^ uint32 t ↔ n ∣ 2 ^ t.toNat := by
    rw [← Int.natCast_dvd_natCast, hnat, hexp]
    push_cast
    rfl
  have hsize : uint32 n ≤ 2 ^ 16 ↔ n ≤ 65536 := by omega
  have hearly : uint32 t < 32 ↔ t < 32 := by omega
  rw [hdvd, hsize, hearly] at hiff
  rw [← hiff, gossipDistance, ← Int.natCast_inj]
  push_cast
  rw [hnat, hexp]

/-- The target is the meter `2^t` further if and only if the modular power is right. -/
theorem gossipTarget_eq_add_iff (hn : 2 ≤ n) (hlt : n < 2 ^ 31) {t i : ℤ} (ht : 0 ≤ t)
    (htlt : t < 2 ^ 31) (hi : 0 ≤ i) (hilt : i < n) :
    gossipTarget i t n = (i + 2 ^ t.toNat) % n ↔
      n ≤ 65536 ∨ t < 32 ∨ n ∣ 2 ^ t.toNat := by
  obtain ⟨hc, hcn⟩ := gossipDistance_range hn hlt t
  have hmod : (i + gossipDistance n t) % n = (i + 2 ^ t.toNat) % n ↔
      gossipDistance n t = 2 ^ t.toNat % n := by
    rw [Int.emod_add_cancel_left, Int.emod_eq_of_lt hc hcn]
  rw [gossipTarget_eq_distance hn hlt t hi hilt, hmod, gossipDistance_eq_iff hn hlt ht htlt]

theorem gossipPredecessor_eq_sub (hn : 2 ≤ n) (hlt : n < 2 ^ 31) {t i : ℤ} (hi : 0 ≤ i)
    (hpow : gossipDistance n t = 2 ^ t.toNat % n) :
    gossipPredecessor i t n = (i - 2 ^ t.toNat) % n := by
  rw [gossipPredecessor_eq_distance hn hlt t hi, hpow, Int.sub_emod_emod]

/-- The predecessor of the target is the meter itself, and the other way round. -/
theorem gossip_inverse (hn : 2 ≤ n) (hlt : n < 2 ^ 31) (t : ℤ) {i : ℤ} (hi : 0 ≤ i) (hilt : i < n) :
    gossipPredecessor (gossipTarget i t n) t n = i ∧
      gossipTarget (gossipPredecessor i t n) t n = i := by
  obtain ⟨hp, hplt, hgossip⟩ := gossip_predecessor hn hlt t hi hilt
  have hpos : 0 < n := by omega
  obtain ⟨htarget, htargetlt⟩ : 0 ≤ gossipTarget i t n ∧ gossipTarget i t n < n :=
    gossip_mem hpos hlt hi hilt
  exact ⟨(gossipPredecessor_eq_iff hn hlt hi hilt htarget htargetlt).mpr rfl, hgossip⟩

end Law

section Memo

/-- What is known of one of the two functions, by group size, round and ID. -/
abbrev MemoTable := AList fun _ : ℤ × ℤ × ℤ => ℤ

/-- A value that is found in the table is returned; one that is not is computed and kept. -/
def memoized (f : ℤ → ℤ → ℤ → ℤ) (id round groupSize : ℤ) (memoTable : MemoTable) : ℤ × MemoTable :=
  match memoTable.lookup (groupSize, round, id) with
  | some memoValue => (memoValue, memoTable)
  | none =>
      let value := f id round groupSize
      (value, memoTable.insert (groupSize, round, id) value)

structure MemoTables where
  target : MemoTable
  predecessor : MemoTable

inductive GossipCall
  | target (sourceId round groupSize : ℤ)
  | predecessor (targetId round groupSize : ℤ)

def GossipCall.run (m : MemoTables) : GossipCall → ℤ × MemoTables
  | .target sourceId round groupSize =>
      let (value, table) := memoized gossipTarget sourceId round groupSize m.target
      (value, { m with target := table })
  | .predecessor targetId round groupSize =>
      let (value, table) := memoized gossipPredecessor targetId round groupSize m.predecessor
      (value, { m with predecessor := table })

def GossipCall.after (history : List GossipCall) (call : GossipCall) : ℤ :=
  (call.run (history.foldl (fun m c => (c.run m).2) ⟨∅, ∅⟩)).1

def Remembers (f : ℤ → ℤ → ℤ → ℤ) (memoTable : MemoTable) : Prop :=
  ∀ id round groupSize v, memoTable.lookup (groupSize, round, id) = some v → v = f id round groupSize

theorem memoized_spec {f : ℤ → ℤ → ℤ → ℤ} {memoTable : MemoTable} (h : Remembers f memoTable)
    (id round groupSize : ℤ) : (memoized f id round groupSize memoTable).1 = f id round groupSize ∧
      Remembers f (memoized f id round groupSize memoTable).2 := by
  unfold memoized
  cases hlookup : memoTable.lookup (groupSize, round, id) with
  | some v => exact ⟨h _ _ _ _ hlookup, h⟩
  | none =>
    refine ⟨rfl, fun id' round' groupSize' v hv => ?_⟩
    by_cases hkey : (groupSize', round', id') = (groupSize, round, id)
    · rw [hkey, AList.lookup_insert] at hv
      simp only [Prod.mk.injEq] at hkey
      obtain ⟨rfl, rfl, rfl⟩ := hkey
      exact (Option.some.inj hv).symm
    · rw [AList.lookup_insert_ne hkey] at hv
      exact h _ _ _ _ hv

theorem remembers_empty (f : ℤ → ℤ → ℤ → ℤ) : Remembers f ∅ := by
  intro id round groupSize v hv
  rw [AList.lookup_empty] at hv
  contradiction

theorem remembers_after (history : List GossipCall) {m : MemoTables}
    (htarget : Remembers gossipTarget m.target)
    (hpredecessor : Remembers gossipPredecessor m.predecessor) :
    Remembers gossipTarget (history.foldl (fun m c => (c.run m).2) m).target ∧
      Remembers gossipPredecessor (history.foldl (fun m c => (c.run m).2) m).predecessor := by
  induction history generalizing m with
  | nil => exact ⟨htarget, hpredecessor⟩
  | cons call history ih =>
    cases call with
    | target id round groupSize =>
      exact ih (memoized_spec htarget id round groupSize).2 hpredecessor
    | predecessor id round groupSize =>
      exact ih htarget (memoized_spec hpredecessor id round groupSize).2

theorem after_target (history : List GossipCall) (sourceId round groupSize : ℤ) :
    GossipCall.after history (.target sourceId round groupSize) =
      gossipTarget sourceId round groupSize :=
  (memoized_spec (remembers_after history (remembers_empty _) (remembers_empty _)).1 _ _ _).1

theorem after_predecessor (history : List GossipCall) (targetId round groupSize : ℤ) :
    GossipCall.after history (.predecessor targetId round groupSize) =
      gossipPredecessor targetId round groupSize :=
  (memoized_spec (remembers_after history (remembers_empty _) (remembers_empty _)).2 _ _ _).1

end Memo

/-- After whatever calls, target and predecessor are those of the law if and only if the
group has at most `2^16` meters, or the round is one of the first 32, or the size divides
the power. -/
theorem gossip_law_iff {n t i : ℤ} (hn : 2 ≤ n) (hlt : n < 2 ^ 31) (ht : 0 ≤ t) (htlt : t < 2 ^ 31)
    (hi : 0 ≤ i) (hilt : i < n) (history : List GossipCall) :
    (GossipCall.after history (.target i t n) = (i + 2 ^ t.toNat) % n ∧
      GossipCall.after history (.predecessor i t n) = (i - 2 ^ t.toNat) % n ∧
      GossipCall.after history (.predecessor (GossipCall.after history (.target i t n)) t n) = i ∧
      GossipCall.after history (.target (GossipCall.after history (.predecessor i t n)) t n) = i) ↔
      n ≤ 65536 ∨ t < 32 ∨ n ∣ 2 ^ t.toNat := by
  simp only [after_target, after_predecessor]
  rw [and_iff_left (gossip_inverse hn hlt t hi hilt),
    gossipTarget_eq_add_iff hn hlt ht htlt hi hilt, and_iff_left_iff_imp]
  exact fun h => gossipPredecessor_eq_sub hn hlt hi
    ((gossipDistance_eq_iff hn hlt ht htlt).mpr h)

/-- Among 65537 meters round 32 leads to the next one, but the meter is taken to send to
itself. -/
theorem round_thirty_two_stays : (0 : ℤ) ≤ 0 ∧ (0 : ℤ) < 65537 ∧
    GossipCall.after [] (.target 0 32 65537) = 0 ∧ (0 + 2 ^ (32 : ℤ).toNat) % 65537 = (1 : ℤ) := by
  decide

/-- In a round before that the law holds also among so many meters. -/
theorem gossip_law_iff_round_twenty :
    (2 ≤ (65537 : ℤ) ∧ (65537 : ℤ) < 2 ^ 31 ∧ (0 : ℤ) ≤ 20 ∧ (20 : ℤ) < 2 ^ 31 ∧ (0 : ℤ) ≤ 5 ∧
      (5 : ℤ) < 65537) ∧
      ((GossipCall.after [.target 5 20 65537] (.target 5 20 65537) =
          (5 + 2 ^ (20 : ℤ).toNat) % 65537 ∧
        GossipCall.after [.target 5 20 65537] (.predecessor 5 20 65537) =
          (5 - 2 ^ (20 : ℤ).toNat) % 65537 ∧
        GossipCall.after [.target 5 20 65537] (.predecessor
          (GossipCall.after [.target 5 20 65537] (.target 5 20 65537)) 20 65537) = 5 ∧
        GossipCall.after [.target 5 20 65537] (.target
          (GossipCall.after [.target 5 20 65537] (.predecessor 5 20 65537)) 20 65537) = 5) ↔
        (65537 : ℤ) ≤ 65536 ∨ (20 : ℤ) < 32 ∨ (65537 : ℤ) ∣ 2 ^ (20 : ℤ).toNat) :=
  ⟨by decide, gossip_law_iff (by decide) (by decide) (by decide) (by decide) (by decide)
    (by decide) _⟩

end Pddm
