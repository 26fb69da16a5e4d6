import Mathlib.Algebra.BigOperators.Group.Finset.Basic
import Mathlib.Logic.Relation

/-!
# Sums on their way to a root

What a node passes on to its parent is its own part and what some of its children have passed on
to it. Whichever children are missing, no part is in it twice.
-/
namespace Pddm.Gathering
variable {ν M : Type*} [PartialOrder ν] {rises : ν → ν → Prop}

/-- Steps towards a root: from each node there is one at most, to a smaller node. -/
structure Rooting (rises : ν → ν → Prop) : Prop where
  unique : Relator.RightUnique rises
  lt : ∀ n p, rises n p → p < n

namespace Rooting
variable (h : Rooting rises)
include h

theorem le_of_reaches {n m : ν} (hreaches : Relation.ReflTransGen rises n m) : m ≤ n := by
  induction hreaches with
  | refl => exact le_rfl
  | tail _ hstep ih => exact (h.lt _ _ hstep).le.trans ih

theorem eq_of_reaches_sibling {n m p : ν} (hn : rises n p) (hm : rises m p)
    (hreaches : Relation.ReflTransGen rises n m) : n = m := by
  rcases hreaches.cases_head with rfl | ⟨q, hq, hreaches⟩
  · rfl
  · obtain rfl : p = q := h.unique hn hq
    exact absurd (h.le_of_reaches hreaches) (h.lt m p hm).not_ge

/-- Nothing is below two children of one node. -/
theorem eq_of_reaches_siblings {n m p k : ν} (hn : rises n p) (hm : rises m p)
    (hkn : Relation.ReflTransGen rises k n) (hkm : Relation.ReflTransGen rises k m) : n = m := by
  rcases Relation.ReflTransGen.total_of_right_unique h.unique hkn hkm with hreaches | hreaches
  · exact h.eq_of_reaches_sibling hn hm hreaches
  · exact (h.eq_of_reaches_sibling hm hn hreaches).symm

end Rooting

variable [AddCommMonoid M] {own : ν → M}

/-- `x` may come to be passed on by the node: its own part and what it has received, once from
each sender. -/
inductive Gathered (rises : ν → ν → Prop) (own : ν → M) : ν → M → Prop
  | pass (n : ν) (received : List (ν × M)) (hsenders : (received.map Prod.fst).Nodup)
      (hrises : ∀ r ∈ received, rises r.1 n)
      (hgathered : ∀ r ∈ received, Gathered rises own r.1 r.2) :
      Gathered rises own n (own n + (received.map Prod.snd).sum)

/-- The nodes make up a tree with the root `n`: from each of them there are steps to `n`, all to
nodes among them. -/
structure TreeBelow (rises : ν → ν → Prop) (n : ν) (nodes : Finset ν) : Prop where
  root : n ∈ nodes
  reaches : ∀ m ∈ nodes, Relation.ReflTransGen rises m n
  linked : ∀ m ∈ nodes, m ≠ n → ∃ p ∈ nodes, rises m p

theorem exists_nodes_of_received (hrooting : Rooting rises) {n : ν} {received : List (ν × M)}
    (hsenders : (received.map Prod.fst).Nodup) (hrises : ∀ r ∈ received, rises r.1 n)
    (h : ∀ r ∈ received, ∃ nodes, TreeBelow rises r.1 nodes ∧ r.2 = ∑ m ∈ nodes, own m) :
    ∃ nodes : Finset ν,
      (∀ m ∈ nodes, ∃ r ∈ received, Relation.ReflTransGen rises m r.1) ∧
        (∀ m ∈ nodes, rises m n ∨ ∃ p ∈ nodes, rises m p) ∧
          (received.map Prod.snd).sum = ∑ m ∈ nodes, own m := by
  classical
  induction received with
  | nil => exact ⟨∅, by simp, by simp, by simp⟩
  | cons r received ih =>
    rw [List.map_cons, List.nodup_cons] at hsenders
    obtain ⟨rest, hrest, hlinked, hsum⟩ :=
      ih hsenders.2 (fun q hq => hrises q (List.mem_cons_of_mem r hq))
        fun q hq => h q (List.mem_cons_of_mem r hq)
    obtain ⟨nodes, hnodes, hr⟩ := h r List.mem_cons_self
    have hdisjoint : Disjoint nodes rest := by
      rw [Finset.disjoint_left]
      intro m hm hmrest
      obtain ⟨q, hq, hreaches⟩ := hrest m hmrest
      have hsame := hrooting.eq_of_reaches_siblings (hrises r List.mem_cons_self)
        (hrises q (List.mem_cons_of_mem r hq)) (hnodes.reaches m hm) hreaches
      exact hsenders.1 (hsame ▸ List.mem_map_of_mem hq)
    refine ⟨nodes ∪ rest, fun m hm => ?_, fun m hm => ?_, ?_⟩
    · rcases Finset.mem_union.mp hm with hm | hm
      · exact ⟨r, List.mem_cons_self, hnodes.reaches m hm⟩
      · obtain ⟨q, hq, hreaches⟩ := hrest m hm
        exact ⟨q, List.mem_cons_of_mem r hq, hreaches⟩
    · rcases Finset.mem_union.mp hm with hm | hm
      · by_cases hroot : m = r.1
        · exact .inl (hroot ▸ hrises r List.mem_cons_self)
        · obtain ⟨p, hp, hstep⟩ := hnodes.linked m hm hroot
          exact .inr ⟨p, Finset.mem_union_left _ hp, hstep⟩
      · exact (hlinked m hm).imp_right fun ⟨p, hp, hstep⟩ => ⟨p, Finset.mem_union_right _ hp, hstep⟩
    · rw [List.map_cons, List.sum_cons, Finset.sum_union hdisjoint, hsum, hr]

/-- What is passed on sums up the parts of distinct nodes, which make up a tree. -/
theorem Gathered.exists_tree (hrooting : Rooting rises) {n : ν} {x : M}
    (h : Gathered rises own n x) : ∃ nodes, TreeBelow rises n nodes ∧ x = ∑ m ∈ nodes, own m := by
  classical
  induction h with
  | pass n received hsenders hrises _ ih =>
    obtain ⟨rest, hrest, hlinked, hsum⟩ := exists_nodes_of_received hrooting hsenders hrises ih
    have hnew : n ∉ rest := by
      intro hn
      obtain ⟨r, hr, hreaches⟩ := hrest n hn
      exact absurd (hrooting.le_of_reaches hreaches) (hrooting.lt _ _ (hrises r hr)).not_ge
    refine ⟨insert n rest, ⟨Finset.mem_insert_self n rest, fun m hm => ?_, fun m hm hne => ?_⟩, ?_⟩
    · rcases Finset.mem_insert.mp hm with rfl | hm
      · exact .refl
      · obtain ⟨r, hr, hreaches⟩ := hrest m hm
        exact hreaches.tail (hrises r hr)
    · rcases hlinked m (Finset.mem_of_mem_insert_of_ne hm hne) with hstep | ⟨p, hp, hstep⟩
      · exact ⟨n, Finset.mem_insert_self n rest, hstep⟩
      · exact ⟨p, Finset.mem_insert_of_mem hp, hstep⟩
    · rw [Finset.sum_insert hnew, hsum]

end Pddm.Gathering
