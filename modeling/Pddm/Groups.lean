import Pddm.Convergecast
import Pddm.TreeAggregation

/-!
# The tree of a group

With two groups or more, none of them empty, each group is a range of IDs, and parents
and children as the overlay computes them are those of one tree.
-/
namespace Pddm

/-- The sizes for which groups make sense. -/
structure ValidSizes (numGroups numMeters : ℤ) : Prop where
  groups : 2 ≤ numGroups
  size : 2 ≤ standardGroupSize numGroups numMeters

/-- The sizes for which no group is empty, where proxies may be missing but trees are not. -/
structure NonemptyGroups (numGroups numMeters : ℤ) : Prop where
  groups : 2 ≤ numGroups
  size : 1 ≤ standardGroupSize numGroups numMeters

theorem ValidSizes.nonempty {G N : ℤ} (h : ValidSizes G N) : NonemptyGroups G N :=
  ⟨h.groups, one_le_two.trans h.size⟩

def groupFirst (group numGroups numMeters : ℤ) : ℤ :=
  if group = numGroups - 1 then
    (numGroups - 2) * standardGroupSize numGroups numMeters +
      secondLastGroupSize numGroups numMeters
  else group * standardGroupSize numGroups numMeters

def groupSize (group numGroups numMeters : ℤ) : ℤ :=
  if group = numGroups - 1 then numMeters - groupFirst group numGroups numMeters
  else if group = numGroups - 2 then secondLastGroupSize numGroups numMeters
  else standardGroupSize numGroups numMeters

def groupMembers (group numGroups numMeters : ℤ) : Finset ℤ :=
  ((Finset.range numMeters.toNat).image fun i : ℕ => (i : ℤ)).filter fun id =>
    aggregationGroupFor id numGroups numMeters = group

theorem mem_groupMembers {group numGroups numMeters id : ℤ} :
    id ∈ groupMembers group numGroups numMeters ↔
      0 ≤ id ∧ id < numMeters ∧ aggregationGroupFor id numGroups numMeters = group := by
  have hrange : (∃ i : ℕ, i < numMeters.toNat ∧ (i : ℤ) = id) ↔ 0 ≤ id ∧ id < numMeters := by
    constructor
    · rintro ⟨i, hi, rfl⟩
      omega
    · rintro ⟨hid, hlt⟩
      exact ⟨id.toNat, by omega, by omega⟩
  simp only [groupMembers, Finset.mem_filter, Finset.mem_image, Finset.mem_range, hrange, and_assoc]

theorem aggregationTreeChildren_eq {G N group id : ℤ} (hid : id ∈ groupMembers group G N) :
    aggregationTreeChildren id G N =
      if groupSize group G N ≤ 2 * (id - groupFirst group G N) + 1 then (-1, -1)
      else if groupSize group G N ≤ 2 * (id - groupFirst group G N) + 2 then
        (2 * (id - groupFirst group G N) + 1 + groupFirst group G N, -1)
      else (2 * (id - groupFirst group G N) + 1 + groupFirst group G N,
        2 * (id - groupFirst group G N) + 2 + groupFirst group G N) := by
  have hright : (id - groupFirst group G N + 1) * 2 = 2 * (id - groupFirst group G N) + 2 := by ring
  have hleft : 2 * (id - groupFirst group G N) + 2 - 1 = 2 * (id - groupFirst group G N) + 1 := by
    ring
  have hfor := (mem_groupMembers.mp hid).2.2
  have hfold : aggregationTreeChildren id G N =
      if groupSize group G N ≤ (id - groupFirst group G N + 1) * 2 - 1 then (-1, -1)
      else if groupSize group G N ≤ (id - groupFirst group G N + 1) * 2 then
        ((id - groupFirst group G N + 1) * 2 - 1 + groupFirst group G N, -1)
      else ((id - groupFirst group G N + 1) * 2 - 1 + groupFirst group G N,
        (id - groupFirst group G N + 1) * 2 + groupFirst group G N) := by
    unfold aggregationTreeChildren groupSize groupFirst
    rw [hfor]
    by_cases hg1 : group = G - 1
    · simp only [hg1, if_true, ge_iff_le]
    · by_cases hg2 : group = G - 2
      · have hne : G - 2 ≠ G - 1 := by omega
        simp only [hg2, if_neg hne, if_true, ge_iff_le]
      · simp only [if_neg hg1, if_neg hg2, ge_iff_le]
  rw [hfold, hright, hleft]

def groupParent (numGroups numMeters id : ℤ) : Option ℤ :=
  if aggregationTreeParent id numGroups numMeters = -1 then none
  else some (aggregationTreeParent id numGroups numMeters)

section Sizes
variable {G N : ℤ} (h : NonemptyGroups G N)
include h

theorem NonemptyGroups.mul_le : standardGroupSize G N * G ≤ N ∧ 0 < N := by
  have hG := h.groups
  have hsize := h.size
  have hN : 0 ≤ N := by
    by_contra hneg
    have hle : N.tdiv G ≤ 0 := by
      have hopp : 0 ≤ (-N).tdiv G := Int.tdiv_nonneg (by omega) (by omega)
      rw [Int.neg_tdiv] at hopp
      omega
    rw [standardGroupSize] at hsize
    omega
  have hmul : standardGroupSize G N * G ≤ N := by
    rw [standardGroupSize, Int.tdiv_eq_ediv_of_nonneg hN]
    exact Int.ediv_mul_le N (by omega)
  refine ⟨hmul, ?_⟩
  nlinarith

/-- The two last groups share what is left, the last one taking the odd meter. -/
theorem NonemptyGroups.secondLast :
    standardGroupSize G N ≤ secondLastGroupSize G N ∧
      2 * secondLastGroupSize G N ≤ N - (G - 2) * standardGroupSize G N ∧
      N - (G - 2) * standardGroupSize G N ≤ 2 * secondLastGroupSize G N + 1 := by
  have hmul := h.mul_le.1
  have hsize := h.size
  have hexpand : (G - 1) * standardGroupSize G N =
      (G - 2) * standardGroupSize G N + standardGroupSize G N := by ring
  have hleft : standardGroupSize G N ≤ N - (G - 1) * standardGroupSize G N := by
    have hring : standardGroupSize G N * G =
      (G - 1) * standardGroupSize G N + standardGroupSize G N := by ring
    omega
  have hdiv : secondLastGroupSize G N =
      (standardGroupSize G N + (N - (G - 1) * standardGroupSize G N)) / 2 := by
    rw [secondLastGroupSize]
    exact Int.tdiv_eq_ediv_of_nonneg (by omega)
  omega

theorem NonemptyGroups.groupSize_pos (group : ℤ) : 1 ≤ Pddm.groupSize group G N := by
  have hsize := h.size
  obtain ⟨hle, hlast, -⟩ := h.secondLast
  unfold Pddm.groupSize groupFirst
  split_ifs <;> omega

theorem aggregationGroupFor_standard {id : ℤ} (hid : 0 ≤ id)
    (hlt : id < (G - 2) * standardGroupSize G N) :
    aggregationGroupFor id G N = id / standardGroupSize G N := by
  have hsize := h.size
  have hdiv : id / standardGroupSize G N < G - 2 :=
    (Int.ediv_lt_iff_lt_mul (by omega)).mpr hlt
  rw [aggregationGroupFor]
  simp only [Int.tdiv_eq_ediv_of_nonneg hid]
  exact if_neg (by omega)

theorem aggregationGroupFor_last {id : ℤ} (hid : 0 ≤ id)
    (hle : (G - 2) * standardGroupSize G N ≤ id) :
    aggregationGroupFor id G N =
      if id < (G - 2) * standardGroupSize G N + secondLastGroupSize G N then G - 2
      else G - 1 := by
  have hsize := h.size
  have hdiv : G - 2 ≤ id / standardGroupSize G N := (Int.le_ediv_iff_mul_le (by omega)).mpr hle
  rw [aggregationGroupFor]
  simp only [Int.tdiv_eq_ediv_of_nonneg hid, mul_comm (standardGroupSize G N)]
  rw [if_pos hdiv]
  simp only [ge_iff_le, hle, true_and]

theorem NonemptyGroups.group_mem {id : ℤ} (hid : 0 ≤ id) :
    0 ≤ aggregationGroupFor id G N ∧ aggregationGroupFor id G N < G := by
  have hG := h.groups
  have hsize := h.size
  by_cases hlt : id < (G - 2) * standardGroupSize G N
  · rw [aggregationGroupFor_standard h hid hlt]
    have hdiv : id / standardGroupSize G N < G - 2 := (Int.ediv_lt_iff_lt_mul (by omega)).mpr hlt
    exact ⟨Int.ediv_nonneg hid (by omega), by omega⟩
  · rw [aggregationGroupFor_last h hid (by omega)]
    split_ifs <;> omega

/-- A group is a range of IDs. -/
theorem aggregationGroupFor_eq_iff {group id : ℤ} (hlast : group < G)
    (hid : 0 ≤ id) (hN : id < N) :
    aggregationGroupFor id G N = group ↔
      groupFirst group G N ≤ id ∧ id < groupFirst group G N + groupSize group G N := by
  have hsize := h.size
  obtain ⟨hle, hsecond, -⟩ := h.secondLast
  have hpos : 0 < standardGroupSize G N := by omega
  by_cases hlt : id < (G - 2) * standardGroupSize G N
  · rw [aggregationGroupFor_standard h hid hlt]
    have hlower := Int.le_ediv_iff_mul_le (a := group) (b := id) hpos
    have hupper := Int.ediv_lt_iff_lt_mul (a := id) (b := group + 1) hpos
    have hdiv := (Int.ediv_lt_iff_lt_mul (a := id) (b := G - 2) hpos).mpr hlt
    have hsucc : (group + 1) * standardGroupSize G N =
        group * standardGroupSize G N + standardGroupSize G N := by ring
    by_cases hg1 : group = G - 1
    · simp only [groupFirst, groupSize, hg1, if_true]
      omega
    · by_cases hg2 : group = G - 2
      · have hne : G - 2 ≠ G - 1 := by omega
        simp only [groupFirst, groupSize, hg2, if_neg hne, if_true]
        omega
      · simp only [groupFirst, groupSize, if_neg hg1, if_neg hg2]
        omega
  · rw [aggregationGroupFor_last h hid (by omega)]
    by_cases hg1 : group = G - 1
    · simp only [groupFirst, groupSize, hg1, if_true]
      split_ifs <;> omega
    · by_cases hg2 : group = G - 2
      · have hne : G - 2 ≠ G - 1 := by omega
        simp only [groupFirst, groupSize, hg2, if_neg hne, if_true]
        split_ifs <;> omega
      · have hbelow : (group + 1) * standardGroupSize G N ≤ (G - 2) * standardGroupSize G N :=
          mul_le_mul_of_nonneg_right (by omega) hpos.le
        have hsucc : (group + 1) * standardGroupSize G N =
            group * standardGroupSize G N + standardGroupSize G N := by ring
        simp only [groupFirst, groupSize, if_neg hg1, if_neg hg2]
        split_ifs <;> omega

theorem groupRange {group : ℤ} (hgroup : 0 ≤ group) (hlast : group < G) :
    0 ≤ groupFirst group G N ∧ groupFirst group G N + groupSize group G N ≤ N := by
  have hG := h.groups
  have hsize := h.size
  obtain ⟨hle, hsecond, -⟩ := h.secondLast
  have hpos : 0 ≤ standardGroupSize G N := by omega
  have hfirst : 0 ≤ (G - 2) * standardGroupSize G N := mul_nonneg (by omega) hpos
  have hstart : 0 ≤ group * standardGroupSize G N := mul_nonneg hgroup hpos
  unfold groupFirst groupSize groupFirst
  split_ifs with hg1 hg2
  · omega
  · subst hg2
    omega
  · have hbelow : (group + 1) * standardGroupSize G N ≤ (G - 2) * standardGroupSize G N :=
      mul_le_mul_of_nonneg_right (by omega) hpos
    have hsucc : (group + 1) * standardGroupSize G N =
        group * standardGroupSize G N + standardGroupSize G N := by ring
    omega

theorem mem_groupMembers_iff {group id : ℤ} (hgroup : 0 ≤ group) (hlast : group < G) :
    id ∈ groupMembers group G N ↔
      groupFirst group G N ≤ id ∧ id < groupFirst group G N + groupSize group G N := by
  obtain ⟨hfirst, hend⟩ := groupRange h hgroup hlast
  rw [mem_groupMembers]
  constructor
  · rintro ⟨hid, hN, heq⟩
    exact (aggregationGroupFor_eq_iff h hlast hid hN).mp heq
  · rintro ⟨hlower, hupper⟩
    have hid : 0 ≤ id := by omega
    have hN : id < N := by omega
    exact ⟨hid, hN, (aggregationGroupFor_eq_iff h hlast hid hN).mpr ⟨hlower, hupper⟩⟩

theorem aggregationTreeParent_eq {group id : ℤ} (hgroup : 0 ≤ group) (hlast : group < G)
    (hid : id ∈ groupMembers group G N) :
    aggregationTreeParent id G N =
      if id = groupFirst group G N then -1
      else (id - groupFirst group G N - 1) / 2 + groupFirst group G N := by
  obtain ⟨hlower, -⟩ := (mem_groupMembers_iff h hgroup hlast).mp hid
  have hfor := (mem_groupMembers.mp hid).2.2
  unfold aggregationTreeParent
  rw [hfor]
  change (if id = groupFirst group G N then -1
    else (id - groupFirst group G N - 1).tdiv 2 + groupFirst group G N) = _
  split_ifs
  · rfl
  · rw [Int.tdiv_eq_ediv_of_nonneg (by omega)]

theorem groupParent_eq_some_iff {group id p : ℤ} (hgroup : 0 ≤ group) (hlast : group < G)
    (hid : id ∈ groupMembers group G N) :
    groupParent G N id = some p ↔ id ≠ groupFirst group G N ∧
      p = (id - groupFirst group G N - 1) / 2 + groupFirst group G N := by
  obtain ⟨hfirst, -⟩ := groupRange h hgroup hlast
  obtain ⟨hlower, -⟩ := (mem_groupMembers_iff h hgroup hlast).mp hid
  rw [groupParent, aggregationTreeParent_eq h hgroup hlast hid]
  by_cases hroot : id = groupFirst group G N
  · simp [hroot]
  · have hne : (id - groupFirst group G N - 1) / 2 + groupFirst group G N ≠ -1 := by omega
    rw [if_neg hroot, if_neg hne, Option.some.injEq, and_iff_right hroot, eq_comm]

def groupTree {group : ℤ} (hgroup : 0 ≤ group) (hlast : group < G) : Convergecast.Tree ℤ where
  nodes := groupMembers group G N
  root := groupFirst group G N
  parent := groupParent G N
  rank id := (id - groupFirst group G N).toNat
  root_mem := by
    have hpos := h.groupSize_pos group
    exact (mem_groupMembers_iff h hgroup hlast).mpr (by omega)
  parent_root := by
    have hpos := h.groupSize_pos group
    have hmem : groupFirst group G N ∈ groupMembers group G N :=
      (mem_groupMembers_iff h hgroup hlast).mpr (by omega)
    rw [groupParent, aggregationTreeParent_eq h hgroup hlast hmem, if_pos rfl, if_pos rfl]
  parent_mem id hid hne := by
    obtain ⟨hlower, hupper⟩ := (mem_groupMembers_iff h hgroup hlast).mp hid
    refine ⟨(id - groupFirst group G N - 1) / 2 + groupFirst group G N, ?_, ?_, ?_⟩
    · exact (mem_groupMembers_iff h hgroup hlast).mpr (by omega)
    · exact (groupParent_eq_some_iff h hgroup hlast hid).mpr ⟨hne, rfl⟩
    · omega

theorem mem_children_iff {group id p : ℤ} (hgroup : 0 ≤ group) (hlast : group < G)
    (hp : p ∈ groupMembers group G N) :
    id ∈ (groupTree h hgroup hlast).children p ↔
      id ≠ -1 ∧ (id = (aggregationTreeChildren p G N).1 ∨
        id = (aggregationTreeChildren p G N).2) := by
  obtain ⟨hfirst, -⟩ := groupRange h hgroup hlast
  obtain ⟨hlower, hupper⟩ := (mem_groupMembers_iff h hgroup hlast).mp hp
  rw [Convergecast.Tree.mem_children]
  change id ∈ groupMembers group G N ∧ groupParent G N id = some p ↔ _
  have hparent : id ∈ groupMembers group G N ∧ groupParent G N id = some p ↔
      (groupFirst group G N ≤ id ∧ id < groupFirst group G N + groupSize group G N) ∧
        id ≠ groupFirst group G N ∧
          p = (id - groupFirst group G N - 1) / 2 + groupFirst group G N := by
    rw [← mem_groupMembers_iff h hgroup hlast]
    exact and_congr_right fun hid => groupParent_eq_some_iff h hgroup hlast hid
  rw [hparent, aggregationTreeChildren_eq hp]
  split_ifs
  · omega
  · omega
  · omega

/-- With no meter failed, a meter waits for all its children. -/
theorem card_children {group p : ℤ} (hgroup : 0 ≤ group) (hlast : group < G)
    (hp : p ∈ groupMembers group G N) :
    ((groupTree h hgroup hlast).children p).card = TreeAggregationState.awaited p G N [] := by
  obtain ⟨hfirst, -⟩ := groupRange h hgroup hlast
  obtain ⟨hlower, -⟩ := (mem_groupMembers_iff h hgroup hlast).mp hp
  have hset : (groupTree h hgroup hlast).children p =
      ({(aggregationTreeChildren p G N).1, (aggregationTreeChildren p G N).2} : Finset ℤ).erase
        (-1) := by
    ext id
    rw [mem_children_iff h hgroup hlast hp, Finset.mem_erase, Finset.mem_insert,
      Finset.mem_singleton]
  have hchildren := aggregationTreeChildren_eq hp
  rw [hset, TreeAggregationState.awaited]
  split_ifs at hchildren with hnone hone
  · rw [hchildren]
    rfl
  · have hleft : 2 * (p - groupFirst group G N) + 1 + groupFirst group G N ≠ -1 := by omega
    rw [hchildren, Finset.pair_comm, Finset.erase_insert (by simp [hleft.symm])]
    simp [hleft]
  · have hleft : 2 * (p - groupFirst group G N) + 1 + groupFirst group G N ≠ -1 := by omega
    have hright : 2 * (p - groupFirst group G N) + 2 + groupFirst group G N ≠ -1 := by omega
    rw [hchildren, Finset.erase_eq_of_notMem (by simp [hleft.symm, hright.symm]),
      Finset.card_pair (by omega)]
    simp [hleft, hright]

end Sizes
end Pddm
