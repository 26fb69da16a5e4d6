import Pddm.Groups

/-!
# The forest of the aggregation

The groups are runs of consecutive IDs, and the parents and children that are computed for
the meters of all groups are those of one forest, with a root in each group.
-/
namespace Pddm

/-- Parents lead from the meter to `root`, which is the first one on the way to have none. -/
def LeadsTo (numGroups numMeters id root : ℤ) : Prop :=
  ∃ k : ℕ, (fun i => aggregationTreeParent i numGroups numMeters)^[k] id = root ∧
    aggregationTreeParent root numGroups numMeters = -1 ∧
    ∀ j < k, aggregationTreeParent
      ((fun i => aggregationTreeParent i numGroups numMeters)^[j] id) numGroups numMeters ≠ -1

theorem LeadsTo.unique {G N id root root' : ℤ} (h : LeadsTo G N id root)
    (h' : LeadsTo G N id root') : root = root' := by
  obtain ⟨k, rfl, hroot, hbefore⟩ := h
  obtain ⟨k', rfl, hroot', hbefore'⟩ := h'
  rcases lt_trichotomy k k' with hlt | rfl | hlt
  · exact absurd hroot (hbefore' k hlt)
  · rfl
  · exact absurd hroot' (hbefore k' hlt)

theorem LeadsTo.step {G N id root : ℤ} (hne : aggregationTreeParent id G N ≠ -1)
    (h : LeadsTo G N (aggregationTreeParent id G N) root) : LeadsTo G N id root := by
  obtain ⟨k, hk, hroot, hbefore⟩ := h
  refine ⟨k + 1, hk, hroot, fun j hj => ?_⟩
  cases j with
  | zero => exact hne
  | succ j => exact hbefore j (by omega)

section Forest
variable {G N : ℤ} (h : NonemptyGroups G N)
include h

theorem groupFirst_succ (group : ℤ) :
    groupFirst group G N + groupSize group G N =
      if group = G - 1 then N else groupFirst (group + 1) G N := by
  have hsize := h.size
  unfold groupSize groupFirst
  by_cases hg1 : group = G - 1
  · simp only [hg1, if_true]
    ring
  · by_cases hg2 : group = G - 2
    · have hne : G - 2 ≠ G - 1 := by omega
      have hsucc : G - 2 + 1 = G - 1 := by ring
      simp only [hg2, if_neg hne, if_true, hsucc]
    · have hsucc : group + 1 ≠ G - 1 := by omega
      simp only [if_neg hg1, if_neg hg2, if_neg hsucc]
      ring

theorem groupFirst_add_le {group later : ℤ} (hlt : group < later) (hlast : later < G) :
    groupFirst group G N + groupSize group G N ≤ groupFirst later G N := by
  obtain ⟨n, hn⟩ := Int.eq_ofNat_of_zero_le (show 0 ≤ later - (group + 1) by omega)
  obtain rfl : later = group + 1 + n := by omega
  clear hlt hn
  induction n with
  | zero =>
    rw [groupFirst_succ h, if_neg (by omega)]
    simp
  | succ n ih =>
    push_cast at hlast ⊢
    have hstep := groupFirst_succ h (group + 1 + n)
    have hpos := h.groupSize_pos (group + 1 + n)
    rw [if_neg (by omega)] at hstep
    have hih := ih (by omega)
    rw [← add_assoc]
    omega

theorem groupFirst_zero : groupFirst 0 G N = 0 := by
  have hG := h.groups
  have hne : (0 : ℤ) ≠ G - 1 := by omega
  rw [groupFirst, if_neg hne, zero_mul]

theorem aggregationTreeParent_eq_neg_one_iff {group id : ℤ} (hgroup : 0 ≤ group)
    (hlast : group < G) (hid : id ∈ groupMembers group G N) :
    aggregationTreeParent id G N = -1 ↔ id = groupFirst group G N := by
  obtain ⟨hfirst, -⟩ := groupRange h hgroup hlast
  obtain ⟨hlower, -⟩ := (mem_groupMembers_iff h hgroup hlast).mp hid
  rw [aggregationTreeParent_eq h hgroup hlast hid]
  split_ifs with hroot
  · simp only [hroot]
  · simp only [hroot, iff_false]
    omega

theorem aggregationTreeParent_mem {group id : ℤ} (hgroup : 0 ≤ group) (hlast : group < G)
    (hid : id ∈ groupMembers group G N) (hne : aggregationTreeParent id G N ≠ -1) :
    aggregationTreeParent id G N ∈ groupMembers group G N ∧ aggregationTreeParent id G N < id := by
  have hroot := (aggregationTreeParent_eq_neg_one_iff h hgroup hlast hid).not.mp hne
  obtain ⟨hlower, hupper⟩ := (mem_groupMembers_iff h hgroup hlast).mp hid
  rw [aggregationTreeParent_eq h hgroup hlast hid, if_neg hroot, mem_groupMembers_iff h hgroup hlast]
  omega

/-- A meter is among the children of its parent and of no other meter. -/
theorem mem_aggregationTreeChildren_iff {group id p : ℤ} (hgroup : 0 ≤ group) (hlast : group < G)
    (hid : id ∈ groupMembers group G N) (hp : 0 ≤ p ∧ p < N) :
    (id = (aggregationTreeChildren p G N).1 ∨ id = (aggregationTreeChildren p G N).2) ↔
      aggregationTreeParent id G N = p := by
  obtain ⟨hid0, -⟩ := mem_groupMembers.mp hid
  obtain ⟨hgroup', hlast'⟩ := h.group_mem (N := N) hp.1
  have hmem : p ∈ groupMembers (aggregationGroupFor p G N) G N :=
    mem_groupMembers.mpr ⟨hp.1, hp.2, rfl⟩
  have hchild : id ∈ (groupTree h hgroup' hlast').children p ↔ _ :=
    mem_children_iff h hgroup' hlast' hmem
  rw [and_iff_right (by omega)] at hchild
  rw [← hchild, Convergecast.Tree.mem_children]
  change id ∈ groupMembers (aggregationGroupFor p G N) G N ∧ groupParent G N id = some p ↔ _
  have hsome : groupParent G N id = some p ↔ aggregationTreeParent id G N = p := by
    unfold groupParent
    split_ifs with hnone
    · simp only [hnone, false_iff]
      omega
    · rw [Option.some.injEq]
  rw [hsome, and_iff_right_iff_imp]
  rintro rfl
  -- the parent of a meter is in the meter's own group
  obtain ⟨hparent, -⟩ := aggregationTreeParent_mem h hgroup hlast hid (by omega)
  rwa [(mem_groupMembers.mp hparent).2.2]

theorem aggregationTreeChildren_mem {group id : ℤ} (hgroup : 0 ≤ group) (hlast : group < G)
    (hid : id ∈ groupMembers group G N) :
    ((aggregationTreeChildren id G N).1 = -1 ∨
      (aggregationTreeChildren id G N).1 ∈ groupMembers group G N) ∧
      ((aggregationTreeChildren id G N).2 = -1 ∨
        (aggregationTreeChildren id G N).2 ∈ groupMembers group G N) := by
  obtain ⟨hlower, hupper⟩ := (mem_groupMembers_iff h hgroup hlast).mp hid
  rw [aggregationTreeChildren_eq hid]
  simp only [mem_groupMembers_iff h hgroup hlast]
  split_ifs
  · simp
  · simp only [true_or, and_true]
    omega
  · omega

theorem leadsTo_groupFirst {group : ℤ} (hgroup : 0 ≤ group) (hlast : group < G) (n : ℕ) (id : ℤ)
    (hn : id.toNat = n) (hid : id ∈ groupMembers group G N) :
    LeadsTo G N id (groupFirst group G N) := by
  induction n using Nat.strongRecOn generalizing id with
  | _ n ih =>
    by_cases hroot : aggregationTreeParent id G N = -1
    · have heq := (aggregationTreeParent_eq_neg_one_iff h hgroup hlast hid).mp hroot
      exact ⟨0, heq, heq ▸ hroot, by simp⟩
    · obtain ⟨hmem, hlt⟩ := aggregationTreeParent_mem h hgroup hlast hid hroot
      have hnonneg := (mem_groupMembers.mp hmem).1
      exact .step hroot (ih _ (by omega) _ rfl hmem)

end Forest

/-- The groups are non-empty runs of consecutive IDs in the order of their numbers; in each
of them parents and children are those of one tree, whose root is the lowest ID; and every
meter is led by its parents to the root of its group and to no other root. -/
theorem aggregation_forest {G N : ℤ} (hG : 2 ≤ G) (hsize : 1 ≤ N.tdiv G) :
    (∃ start : ℤ → ℤ, start 0 = 0 ∧ start G = N ∧
      ∀ g, 0 ≤ g → g < G → start g < start (g + 1) ∧
        ∀ id, 0 ≤ id → id < N →
          (aggregationGroupFor id G N = g ↔ start g ≤ id ∧ id < start (g + 1))) ∧
      ∀ id, 0 ≤ id → id < N →
        (0 ≤ aggregationGroupFor id G N ∧ aggregationGroupFor id G N < G) ∧
        (aggregationTreeParent id G N = -1 ↔
          ∀ other, 0 ≤ other → other < N →
            aggregationGroupFor other G N = aggregationGroupFor id G N → id ≤ other) ∧
        (aggregationTreeParent id G N ≠ -1 →
          0 ≤ aggregationTreeParent id G N ∧ aggregationTreeParent id G N < id ∧
            aggregationGroupFor (aggregationTreeParent id G N) G N =
              aggregationGroupFor id G N) ∧
        (∀ c, c = (aggregationTreeChildren id G N).1 ∨ c = (aggregationTreeChildren id G N).2 →
          c = -1 ∨ 0 ≤ c ∧ c < N ∧ aggregationGroupFor c G N = aggregationGroupFor id G N) ∧
        (∀ c, 0 ≤ c → c < N →
          ((c = (aggregationTreeChildren id G N).1 ∨ c = (aggregationTreeChildren id G N).2) ↔
            aggregationTreeParent c G N = id)) ∧
        ∃ root, 0 ≤ root ∧ root < N ∧
          aggregationGroupFor root G N = aggregationGroupFor id G N ∧
            ∀ other, LeadsTo G N id other ↔ other = root := by
  have h : NonemptyGroups G N := ⟨hG, hsize⟩
  have hmember (id : ℤ) (hid : 0 ≤ id) (hN : id < N) :
      id ∈ groupMembers (aggregationGroupFor id G N) G N := mem_groupMembers.mpr ⟨hid, hN, rfl⟩
  constructor
  · refine ⟨fun g => if g = G then N else groupFirst g G N, ?_, if_pos rfl, fun g hg hlast => ?_⟩
    · dsimp only
      rw [if_neg (by omega), groupFirst_zero h]
    · have hend : (if g + 1 = G then N else groupFirst (g + 1) G N) =
          groupFirst g G N + groupSize g G N := by
        rw [groupFirst_succ h g]
        exact if_congr (by omega) rfl rfl
      have hpos := h.groupSize_pos g
      dsimp only
      rw [hend, if_neg (by omega)]
      exact ⟨by omega, fun id hid hN => aggregationGroupFor_eq_iff h hlast hid hN⟩
  · intro id hid hN
    obtain ⟨hgroup, hlast⟩ := h.group_mem hid
    have hmem := hmember id hid hN
    obtain ⟨hlower, hupper⟩ := (mem_groupMembers_iff h hgroup hlast).mp hmem
    have hfirst : groupFirst (aggregationGroupFor id G N) G N ∈
        groupMembers (aggregationGroupFor id G N) G N :=
      (mem_groupMembers_iff h hgroup hlast).mpr ⟨le_rfl, by omega⟩
    obtain ⟨hfirst0, hfirstN, hfirstgroup⟩ := mem_groupMembers.mp hfirst
    refine ⟨⟨hgroup, hlast⟩, ?_, ?_, ?_, ?_, ?_⟩
    · rw [aggregationTreeParent_eq_neg_one_iff h hgroup hlast hmem]
      constructor
      · intro hroot other hother hlt hsame
        have hrange := (aggregationGroupFor_eq_iff h hlast hother hlt).mp hsame
        omega
      · intro hleast
        have hle := hleast _ hfirst0 hfirstN hfirstgroup
        omega
    · intro hne
      obtain ⟨hparent, hlt⟩ := aggregationTreeParent_mem h hgroup hlast hmem hne
      obtain ⟨hnonneg, -, hsame⟩ := mem_groupMembers.mp hparent
      exact ⟨hnonneg, hlt, hsame⟩
    · intro c hc
      obtain ⟨hleft, hright⟩ := aggregationTreeChildren_mem h hgroup hlast hmem
      rw [mem_groupMembers] at hleft hright
      rcases hc with rfl | rfl
      · exact hleft
      · exact hright
    · intro c hc hcN
      obtain ⟨hcgroup, hclast⟩ := h.group_mem hc
      exact mem_aggregationTreeChildren_iff h hcgroup hclast (hmember c hc hcN) ⟨hid, hN⟩
    · have hleads := leadsTo_groupFirst h hgroup hlast _ id rfl hmem
      refine ⟨_, hfirst0, hfirstN, hfirstgroup, fun other => ⟨fun h' => h'.unique hleads, ?_⟩⟩
      rintro rfl
      exact hleads

/-- Eight meters in three groups: runs of two and of three. -/
theorem aggregation_forest_eight :
    (2 ≤ (3 : ℤ) ∧ 1 ≤ Int.tdiv 8 3) ∧
      ∃ root, 0 ≤ root ∧ root < 8 ∧ aggregationGroupFor root 3 8 = aggregationGroupFor 7 3 8 ∧
        ∀ other, LeadsTo 3 8 7 other ↔ other = root :=
  ⟨by decide, ((aggregation_forest (G := 3) (N := 8) (by decide) (by decide)).2 7 (by decide)
    (by decide)).2.2.2.2.2⟩

end Pddm
