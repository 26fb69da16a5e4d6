import Pddm.Groups
import Pddm.UtilityTimeouts

/-!
# The depth of the trees

How many messages in a row it takes from a meter to the root of its group, and how many of
them the utility allows for.
-/
namespace Pddm

/-- The parents lead from a meter to the root of its group in so many steps. -/
inductive StepsToRoot (numGroups numMeters : ℤ) : ℤ → ℕ → Prop
  | root {id : ℤ} (hroot : aggregationTreeParent id numGroups numMeters = -1) :
      StepsToRoot numGroups numMeters id 0
  | step {id : ℤ} {k : ℕ} (hne : aggregationTreeParent id numGroups numMeters ≠ -1)
      (hrest : StepsToRoot numGroups numMeters (aggregationTreeParent id numGroups numMeters) k) :
      StepsToRoot numGroups numMeters id (k + 1)

theorem StepsToRoot.unique {G N id : ℤ} {k k' : ℕ} (h : StepsToRoot G N id k)
    (h' : StepsToRoot G N id k') : k = k' := by
  induction h generalizing k' with
  | root hroot =>
    cases h' with
    | root => rfl
    | step hne => exact absurd hroot hne
  | step hne hrest ih =>
    cases h' with
    | root hroot => exact absurd hroot hne
    | step _ hrest' => rw [ih hrest']

/-- In a range of IDs with the parents of a binary tree, the levels are powers of two. -/
theorem stepsToRoot_of_range {G N first size : ℤ} (hfirst : 0 ≤ first)
    (hparent : ∀ k : ℕ, k < size → aggregationTreeParent (first + k) G N =
      if k = 0 then -1 else first + ((k - 1) / 2 : ℕ)) (k : ℕ) (hk : k < size) :
    StepsToRoot G N (first + k) (Nat.log2 (k + 1)) := by
  induction k using Nat.strongRecOn with
  | _ k ih =>
    have heq := hparent k hk
    rcases Nat.eq_zero_or_pos k with rfl | hpos
    · exact .root (heq.trans (if_pos rfl))
    · rw [if_neg hpos.ne'] at heq
      have hhalf : (k + 1) / 2 = (k - 1) / 2 + 1 := by omega
      have hlog : Nat.log2 (k + 1) = Nat.log2 ((k - 1) / 2 + 1) + 1 := by
        rw [Nat.log2_def, if_pos (by omega), hhalf]
      rw [hlog]
      refine .step (by omega) ?_
      rw [heq]
      exact ih _ (by omega) (by omega)

/-- The size of the last group, which no other one exceeds. -/
def largestGroupSize (numGroups numMeters : ℤ) : ℤ :=
  numMeters / numGroups + (numMeters % numGroups + 1) / 2

section Depth
variable {G N : ℤ}

theorem standardGroupSize_eq (hN : 0 ≤ N) : standardGroupSize G N = N / G := by
  rw [standardGroupSize, Int.tdiv_eq_ediv_of_nonneg hN]

theorem NonemptyGroups.groupSize_last (h : NonemptyGroups G N) :
    groupSize (G - 1) G N = largestGroupSize G N := by
  have hN := h.mul_le.2
  have hG := h.groups
  have hsplit := Int.emod_add_mul_ediv N G
  have hmul : (G - 2) * (N / G) = G * (N / G) - 2 * (N / G) := by ring
  obtain ⟨-, hlow, hhigh⟩ := h.secondLast
  rw [groupSize, if_pos rfl, groupFirst, if_pos rfl, largestGroupSize]
  rw [standardGroupSize_eq hN.le] at hlow hhigh ⊢
  omega

theorem NonemptyGroups.groupSize_le (h : NonemptyGroups G N) (group : ℤ) :
    groupSize group G N ≤ largestGroupSize G N := by
  have hN := h.mul_le.2
  have hG := h.groups
  have hsplit := Int.emod_add_mul_ediv N G
  have hrem := Int.emod_nonneg N (show G ≠ 0 by omega)
  have hmul : (G - 2) * (N / G) = G * (N / G) - 2 * (N / G) := by ring
  obtain ⟨-, hlow, hhigh⟩ := h.secondLast
  by_cases hlast : group = G - 1
  · rw [hlast, h.groupSize_last]
  · rw [groupSize, if_neg hlast, largestGroupSize]
    rw [standardGroupSize_eq hN.le] at hlow hhigh ⊢
    split_ifs <;> omega

theorem NonemptyGroups.stepsToRoot (h : NonemptyGroups G N) {group : ℤ} (hgroup : 0 ≤ group)
    (hlast : group < G) (k : ℕ) (hk : k < groupSize group G N) :
    StepsToRoot G N (groupFirst group G N + k) (Nat.log2 (k + 1)) := by
  refine stepsToRoot_of_range (groupRange h hgroup hlast).1 (fun k hk => ?_) k hk
  have hmem : groupFirst group G N + k ∈ groupMembers group G N :=
    (mem_groupMembers_iff h hgroup hlast).mpr (by omega)
  rw [aggregationTreeParent_eq h hgroup hlast hmem]
  rcases Nat.eq_zero_or_pos k with rfl | hpos
  · simp
  · rw [if_neg (by omega), if_neg hpos.ne']
    omega

theorem stepsToRoot_of_one (hN : 0 < N) (k : ℕ) (hk : k < N) :
    StepsToRoot 1 N k (Nat.log2 (k + 1)) := by
  have hsize : standardGroupSize 1 N = N := Int.tdiv_one N
  have hsecond : secondLastGroupSize 1 N = N := by
    rw [secondLastGroupSize, hsize, Int.tdiv_eq_ediv_of_nonneg (by omega)]
    omega
  have hfor (id : ℤ) (hid : 0 ≤ id) (hlt : id < N) : aggregationGroupFor id 1 N = 0 := by
    unfold aggregationGroupFor
    dsimp only
    have hdiv := Int.ediv_nonneg hid hN.le
    rw [hsize, hsecond, Int.tdiv_eq_ediv_of_nonneg hid, if_pos (by omega), if_neg (by omega)]
    norm_num
  rw [← zero_add (k : ℤ)]
  refine stepsToRoot_of_range le_rfl (fun k hk => ?_) k hk
  have hzero : (0 : ℤ) = 1 - 1 := by norm_num
  unfold aggregationTreeParent
  dsimp only
  rw [hsize, hsecond, hfor _ (by omega) (by omega), if_pos hzero]
  rcases Nat.eq_zero_or_pos k with rfl | hpos
  · simp
  · rw [if_neg (by omega), if_neg hpos.ne', Int.tdiv_eq_ediv_of_nonneg (by omega)]
    omega

/-- All depths, and the meter that has the largest one. -/
theorem stepsToRoot_of_meter (hG : 1 ≤ G) (hsize : 2 ≤ N / G) :
    (∀ id, 0 ≤ id → id < N → ∃ k : ℕ, k < largestGroupSize G N ∧
      StepsToRoot G N id (Nat.log2 (k + 1))) ∧
      StepsToRoot G N (N - 1) (Nat.log2 (largestGroupSize G N).toNat) := by
  have hN : 0 < N := by
    by_contra hneg
    have hnonpos : N / G ≤ 0 := Int.ediv_nonpos_of_nonpos_of_neg (by omega) (by omega)
    omega
  rcases hG.eq_or_lt with rfl | hG
  · have hlargest : largestGroupSize 1 N = N := by
      simp [largestGroupSize]
    rw [hlargest]
    constructor
    · intro id hid hlt
      have hsteps := stepsToRoot_of_one hN id.toNat (by omega)
      rw [Int.toNat_of_nonneg hid] at hsteps
      exact ⟨id.toNat, by omega, hsteps⟩
    · have hsteps := stepsToRoot_of_one hN (N - 1).toNat (by omega)
      rw [Int.toNat_of_nonneg (by omega)] at hsteps
      rwa [show N.toNat = (N - 1).toNat + 1 by omega]
  · have h : NonemptyGroups G N := ⟨hG, by rw [standardGroupSize_eq hN.le]; omega⟩
    constructor
    · intro id hid hlt
      obtain ⟨hgroup, hlast⟩ := h.group_mem hid
      obtain ⟨hlow, hhigh⟩ := (aggregationGroupFor_eq_iff h hlast hid hlt).mp rfl
      have hle := h.groupSize_le (aggregationGroupFor id G N)
      have hsteps := h.stepsToRoot hgroup hlast
        (id - groupFirst (aggregationGroupFor id G N) G N).toNat (by omega)
      rw [Int.toNat_of_nonneg (by omega), add_sub_cancel] at hsteps
      exact ⟨_, by omega, hsteps⟩
    · have hsizelast := h.groupSize_last
      have hpos := h.groupSize_pos (G - 1)
      have hrange : groupFirst (G - 1) G N + groupSize (G - 1) G N = N := by
        rw [groupSize, if_pos rfl]
        ring
      have hlast : 0 ≤ G - 1 := by omega
      have hsteps := h.stepsToRoot hlast (by omega) (largestGroupSize G N - 1).toNat (by omega)
      rw [Int.toNat_of_nonneg (by omega)] at hsteps
      rw [show (largestGroupSize G N).toNat = (largestGroupSize G N - 1).toNat + 1 by omega,
        show N - 1 = groupFirst (G - 1) G N + (largestGroupSize G N - 1) by omega]
      exact hsteps

/-- What is left over after the division does not make the last group four times as large as
the largest power of two in the quotient. -/
def LeftoverFits (numGroups numMeters : ℤ) : Prop :=
  numMeters % numGroups = 0 ∨
    largestGroupSize numGroups numMeters < 2 ^ (Nat.log2 (numMeters / numGroups).toNat + 2)

instance (numGroups numMeters : ℤ) : Decidable (LeftoverFits numGroups numMeters) :=
  inferInstanceAs (Decidable (_ ∨ _))

theorem ceilLog2Ratio_eq (hG : 1 ≤ G) (hsize : 2 ≤ N / G) :
    ceilLog2Ratio N G = if N % G = 0 then (ceilLog2 (N / G) : ℤ)
      else Nat.log2 (N / G).toNat + 1 := by
  have hsplit := Int.emod_add_mul_ediv N G
  have hrem := Int.emod_nonneg N (show G ≠ 0 by omega)
  have hremlt := Int.emod_lt_of_pos N (show 0 < G by omega)
  have hlt : G < N := by nlinarith
  have hround : (N + G - 1) / G = (N % G + G - 1) / G + N / G := by
    rw [← Int.add_mul_ediv_left _ _ (show G ≠ 0 by omega)]
    congr 1
    omega
  rw [ceilLog2Ratio, if_pos hlt, hround]
  split_ifs with hzero
  · have hnone : (N % G + G - 1) / G = 0 := Int.ediv_eq_zero_of_lt (by omega) (by omega)
    rw [hnone, zero_add]
  · have hone : (N % G + G - 1) / G = 1 := by
      rw [show N % G + G - 1 = N % G - 1 + G * 1 by ring,
        Int.add_mul_ediv_left _ _ (show G ≠ 0 by omega),
        Int.ediv_eq_zero_of_lt (by omega) (by omega), zero_add]
    rw [hone, ceilLog2, if_neg (by omega)]
    have hsucc : (1 + N / G).toNat - 1 = (N / G).toNat := by omega
    rw [hsucc]
    push_cast
    rfl

/-- Every meter is at most as deep as estimated exactly if the leftover fits. -/
theorem depth_le_iff (hG : 1 ≤ G) (hsize : 2 ≤ N / G) :
    (∀ id, 0 ≤ id → id < N → ∃ k : ℕ, StepsToRoot G N id k ∧ (k : ℤ) ≤ ceilLog2Ratio N G) ↔
      LeftoverFits G N := by
  obtain ⟨hmeters, hdeepest⟩ := stepsToRoot_of_meter hG hsize
  have hN : 0 < N := by
    by_contra hneg
    have hnonpos : N / G ≤ 0 := Int.ediv_nonpos_of_nonpos_of_neg (by omega) (by omega)
    omega
  have hrem := Int.emod_nonneg N (show G ≠ 0 by omega)
  have hlargest : N / G ≤ largestGroupSize G N := by
    rw [largestGroupSize]
    omega
  have hbound : (Nat.log2 (largestGroupSize G N).toNat : ℤ) ≤ ceilLog2Ratio N G ↔
      LeftoverFits G N := by
    rw [ceilLog2Ratio_eq hG hsize, LeftoverFits]
    split_ifs with hzero
    · have hsame : largestGroupSize G N = N / G := by
        rw [largestGroupSize, hzero]
        norm_num
      simp only [hzero, true_or, iff_true]
      rw [hsame, ceilLog2, if_neg (by omega)]
      have hlog : Nat.log2 (N / G).toNat ≤ Nat.log2 ((N / G).toNat - 1) + 1 := by
        rw [← Nat.lt_succ_iff, Nat.succ_eq_add_one, Nat.log2_lt (by omega)]
        have hlt := Nat.lt_log2_self (n := (N / G).toNat - 1)
        rw [pow_succ] at hlt ⊢
        omega
      exact_mod_cast hlog
    · simp only [hzero, false_or]
      rw [← Nat.cast_succ, Nat.cast_le, Nat.succ_eq_add_one, ← Nat.lt_succ_iff,
        Nat.succ_eq_add_one, Nat.log2_lt (by omega)]
      constructor
      · intro hlt
        have hcast : ((largestGroupSize G N).toNat : ℤ) < 2 ^ (Nat.log2 (N / G).toNat + 2) := by
          exact_mod_cast hlt
        omega
      · intro hlt
        have hcast : ((largestGroupSize G N).toNat : ℤ) < 2 ^ (Nat.log2 (N / G).toNat + 2) := by
          rwa [Int.toNat_of_nonneg (by omega)]
        exact_mod_cast hcast
  rw [← hbound]
  constructor
  · intro hall
    obtain ⟨k, hk, hle⟩ := hall (N - 1) (by omega) (by omega)
    rwa [hdeepest.unique hk]
  · intro hle id hid hlt
    obtain ⟨k, hk, hsteps⟩ := hmeters id hid hlt
    refine ⟨_, hsteps, le_trans ?_ hle⟩
    have hmono : Nat.log2 (k + 1) ≤ Nat.log2 (largestGroupSize G N).toNat := by
      rw [Nat.log2_eq_log_two, Nat.log2_eq_log_two]
      exact Nat.log_mono_right (by omega)
    exact_mod_cast hmono

theorem leftoverFits_of_lt (hsize : 0 < N / G) (hlt : largestGroupSize G N < 2 * (N / G + 1)) :
    LeftoverFits G N := by
  right
  have hpow : ((N / G).toNat : ℤ) < 2 ^ (Nat.log2 (N / G).toNat + 1) := by
    exact_mod_cast Nat.lt_log2_self
  rw [Int.toNat_of_nonneg hsize.le] at hpow
  rw [pow_succ]
  omega

end Depth

def QueryProtocol.numAggregationGroups (protocol : QueryProtocol) (numMeters : ℤ) : ℤ :=
  match protocol with
  | .bft => 2 * protocol.initFailuresTolerated numMeters + 1
  | .ct | .hft => protocol.initFailuresTolerated numMeters + 1

/-- The sizes of networks in which the utility's estimate covers every tree. -/
def EstimateCovers (protocol : QueryProtocol) (numMeters : ℤ) : Prop :=
  match protocol with
  | .ct => True
  | .bft => numMeters ∉ [37, 38, 48, 49, 50, 51]
  | .hft => numMeters - 9 * ((numMeters + 5) / 10) ≤ 53

instance (protocol : QueryProtocol) (numMeters : ℤ) :
    Decidable (EstimateCovers protocol numMeters) :=
  match protocol with
  | .ct => inferInstanceAs (Decidable True)
  | .bft => inferInstanceAs (Decidable (_ ∉ _))
  | .hft => inferInstanceAs (Decidable (_ ≤ _))

section Protocols
variable {n : ℤ}

theorem leftoverFits_iff_of_small (protocol : QueryProtocol) (hn : 0 ≤ n) (hlt : n < 135)
    (hsize : 2 ≤ n / protocol.numAggregationGroups n) :
    LeftoverFits (protocol.numAggregationGroups n) n ↔ EstimateCovers protocol n := by
  have hall (k : Fin 135) : 2 ≤ (k : ℤ) / protocol.numAggregationGroups k →
      (LeftoverFits (protocol.numAggregationGroups k) k ↔ EstimateCovers protocol k) := by
    revert k
    cases protocol with
    | bft => decide +kernel
    | ct => decide +kernel
    | hft => decide +kernel
  obtain ⟨k, rfl⟩ := Int.eq_ofNat_of_zero_le hn
  exact hall ⟨k, by omega⟩ hsize

theorem four_mul_sq_le_two_pow {L : ℕ} (hL : 8 ≤ L) : 4 * L ^ 2 ≤ 2 ^ L := by
  induction L, hL using Nat.le_induction with
  | base => norm_num
  | succ L hL ih =>
    rw [pow_succ 2 L]
    nlinarith

/-- Where there are about as many groups as the logarithm of the size, the quotient exceeds
the leftover in all but small networks. -/
theorem leftoverFits_of_log {G : ℤ} (hn : 129 ≤ n) (hG : 1 ≤ G) (hlog : G ≤ 2 * ceilLog2 n + 1)
    (hsize : 2 ≤ n / G) : LeftoverFits G n := by
  have hsplit := Int.emod_add_mul_ediv n G
  have hremlt := Int.emod_lt_of_pos n (show 0 < G by omega)
  have hlarge : 8 ≤ ceilLog2 n := by
    have hmono : ceilLog2 129 ≤ ceilLog2 n := ceilLog2_mono hn
    have height : ceilLog2 129 = 8 := by decide
    omega
  have hpow : 2 ^ ceilLog2 n < 2 * n := by
    have hself := Nat.log2_self_le (n := n.toNat - 1) (by omega)
    have hcast : (2 : ℤ) ^ Nat.log2 (n.toNat - 1) ≤ ((n.toNat - 1 : ℕ) : ℤ) := by
      exact_mod_cast hself
    rw [ceilLog2, if_neg (by omega), pow_succ]
    omega
  have hsquare : 4 * (ceilLog2 n : ℤ) ^ 2 ≤ 2 ^ ceilLog2 n := by
    exact_mod_cast four_mul_sq_le_two_pow hlarge
  refine leftoverFits_of_lt (by omega) ?_
  by_contra hmany
  rw [largestGroupSize] at hmany
  have hquotient : 2 * (n / G) + 3 ≤ n % G := by omega
  have hproduct : G * (n / G) ≤ (2 * ceilLog2 n + 1) * (n / G) :=
    mul_le_mul_of_nonneg_right hlog (by omega)
  nlinarith

theorem leftoverFits_hft_iff (hn : 135 ≤ n) :
    LeftoverFits (QueryProtocol.hft.numAggregationGroups n) n ↔ EstimateCovers .hft n := by
  unfold QueryProtocol.numAggregationGroups QueryProtocol.initFailuresTolerated EstimateCovers
  dsimp only
  generalize hF : (n + 5) / 10 = F
  have hquotient : n / (F + 1) = 9 := by
    rw [Int.ediv_eq_iff_of_pos (by omega)]
    constructor <;> omega
  have hrem : n % (F + 1) = n - 9 * F - 9 := by
    have hsplit := Int.emod_add_mul_ediv n (F + 1)
    rw [hquotient] at hsplit
    omega
  have hlog : Nat.log2 (9 : ℤ).toNat = 3 := by decide
  rw [LeftoverFits, largestGroupSize, hquotient, hrem, hlog]
  norm_num
  omega

theorem leftoverFits_iff (protocol : QueryProtocol) (hn : 1 ≤ n)
    (hsize : 2 ≤ n / protocol.numAggregationGroups n) :
    LeftoverFits (protocol.numAggregationGroups n) n ↔ EstimateCovers protocol n := by
  rcases lt_or_ge n 135 with hlt | hge
  · exact leftoverFits_iff_of_small protocol (by omega) hlt hsize
  · cases protocol with
    | bft =>
      refine iff_of_true (leftoverFits_of_log (by omega) ?_ ?_ hsize) ?_
      · simp only [QueryProtocol.numAggregationGroups, QueryProtocol.initFailuresTolerated]
        omega
      · simp only [QueryProtocol.numAggregationGroups, QueryProtocol.initFailuresTolerated]
        exact le_rfl
      · intro hmem
        simp only [List.mem_cons, List.not_mem_nil, or_false] at hmem
        omega
    | ct =>
      refine iff_of_true (leftoverFits_of_log (by omega) ?_ ?_ hsize) trivial
      · simp only [QueryProtocol.numAggregationGroups, QueryProtocol.initFailuresTolerated]
        omega
      · simp only [QueryProtocol.numAggregationGroups, QueryProtocol.initFailuresTolerated]
        omega
    | hft => exact leftoverFits_hft_iff hge

theorem computeTimeoutTime_eq (protocol : QueryProtocol) (n : ℤ) (crypto : CryptoLibrary) :
    UtilityClient.computeTimeoutTime (.forMeters protocol n crypto) =
      ceilLog2Ratio n (protocol.numAggregationGroups n) * UtilityClient.networkRoundtripTimeout := by
  cases protocol <;> rfl

/-- The timeout between two results is a round trip for each estimated message, and no meter
is deeper in its tree than estimated exactly in these networks. -/
theorem estimate_covers_iff (protocol : QueryProtocol) (crypto : CryptoLibrary) (hn : 1 ≤ n)
    (hsize : 2 ≤ n / protocol.numAggregationGroups n) :
    UtilityClient.computeTimeoutTime (.forMeters protocol n crypto) =
        ceilLog2Ratio n (protocol.numAggregationGroups n) * UtilityClient.networkRoundtripTimeout ∧
      ((∀ id, 0 ≤ id → id < n → ∃ k : ℕ,
        StepsToRoot (protocol.numAggregationGroups n) n id k ∧
          (k : ℤ) ≤ ceilLog2Ratio n (protocol.numAggregationGroups n)) ↔
        EstimateCovers protocol n) := by
  refine ⟨computeTimeoutTime_eq protocol n crypto, ?_⟩
  rw [depth_le_iff ?_ hsize, leftoverFits_iff protocol hn hsize]
  by_contra hneg
  have hnonpos : n / protocol.numAggregationGroups n ≤ 0 := by
    rcases (show protocol.numAggregationGroups n < 0 ∨ protocol.numAggregationGroups n = 0 by
      omega) with hlt | hzero
    · exact Int.ediv_nonpos_of_nonneg_of_nonpos (by omega) hlt.le
    · rw [hzero, Int.ediv_zero]
  omega

theorem sample_estimate_covers_iff :
    UtilityClient.computeTimeoutTime (.forMeters .ct 11 dummyCrypto) =
        ceilLog2Ratio 11 5 * UtilityClient.networkRoundtripTimeout ∧
      ((∀ id, 0 ≤ id → id < 11 → ∃ k : ℕ, StepsToRoot 5 11 id k ∧
        (k : ℤ) ≤ ceilLog2Ratio 11 5) ↔ EstimateCovers .ct 11) :=
  estimate_covers_iff .ct dummyCrypto (by decide) (by decide)

end Protocols

/-- The last group of 37 meters has 8 of them, and 2 messages in a row are estimated. -/
theorem deeper_than_estimated :
    ¬ ∀ id, 0 ≤ id → id < 37 → ∃ k : ℕ,
      StepsToRoot (QueryProtocol.bft.numAggregationGroups 37) 37 id k ∧
        (k : ℤ) ≤ ceilLog2Ratio 37 (QueryProtocol.bft.numAggregationGroups 37) := by
  intro hall
  obtain ⟨k, hk, hle⟩ := hall 36 (by decide) (by decide)
  have hsteps : StepsToRoot (QueryProtocol.bft.numAggregationGroups 37) 37 36 3 :=
    .step (by decide) (.step (by decide) (.step (by decide) (.root (by decide))))
  obtain rfl := hsteps.unique hk
  exact absurd hle (by decide)

end Pddm
