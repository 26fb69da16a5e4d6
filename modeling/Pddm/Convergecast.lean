import Mathlib

/-!
# Convergecast

Each node of a tree adds what its children send to what it has itself, and passes the
sum on once all of them have sent. Nodes join and messages arrive in any order.
-/
namespace Pddm.Convergecast

/-- A rooted tree on finitely many nodes, each of higher rank than its parent. -/
structure Tree (ν : Type*) where
  nodes : Finset ν
  root : ν
  parent : ν → Option ν
  rank : ν → ℕ
  root_mem : root ∈ nodes
  parent_root : parent root = none
  parent_mem : ∀ n ∈ nodes, n ≠ root → ∃ p ∈ nodes, parent n = some p ∧ rank p < rank n

/-- `received` is what has come in from children, `network` what is still under way
to a node, `output` what the root has passed on. -/
structure State (ν M : Type*) where
  joined : Finset ν
  passed : Finset ν
  received : ν → Multiset M
  network : Multiset (ν × M)
  output : Multiset M

variable {ν M : Type*}

namespace Tree
variable {T : Tree ν}

theorem eq_root_of_parent {n : ν} (hn : n ∈ T.nodes) (h : T.parent n = none) : n = T.root := by
  by_contra hne
  obtain ⟨p, -, hp, -⟩ := T.parent_mem n hn hne
  simp [h] at hp

theorem parent_spec {n p : ν} (hn : n ∈ T.nodes) (h : T.parent n = some p) :
    n ≠ T.root ∧ p ∈ T.nodes ∧ T.rank p < T.rank n := by
  have hne : n ≠ T.root := by
    rintro rfl
    simp [T.parent_root] at h
  obtain ⟨q, hq, hparent, hrank⟩ := T.parent_mem n hn hne
  obtain rfl := Option.some.inj (h.symm.trans hparent)
  exact ⟨hne, hq, hrank⟩

variable [DecidableEq ν]

def children (T : Tree ν) (p : ν) : Finset ν := T.nodes.filter fun n => T.parent n = some p

theorem mem_children {n p : ν} : n ∈ T.children p ↔ n ∈ T.nodes ∧ T.parent n = some p := by
  simp [children]

theorem card_children_insert {n : ν} {passed : Finset ν} (hn : n ∈ T.nodes)
    (hnew : n ∉ passed) (p : ν) :
    (T.children p ∩ insert n passed).card =
      (T.children p ∩ passed).card + if T.parent n = some p then 1 else 0 := by
  by_cases hp : T.parent n = some p
  · have hmem : n ∈ T.children p := mem_children.mpr ⟨hn, hp⟩
    rw [Finset.inter_insert_of_mem hmem, Finset.card_insert_of_notMem (by simp [hnew]), if_pos hp]
  · have hmem : n ∉ T.children p := fun h => hp (mem_children.mp h).2
    rw [Finset.inter_insert_of_notMem hmem, if_neg hp, add_zero]

end Tree

variable [DecidableEq ν]

namespace State

def init : State ν M := ⟨∅, ∅, fun _ => 0, 0, 0⟩

def join (n : ν) (s : State ν M) : State ν M := { s with joined := insert n s.joined }

def receive (n : ν) (x : M) (rest : Multiset (ν × M)) (s : State ν M) : State ν M :=
  { s with network := rest, received := Function.update s.received n (x ::ₘ s.received n) }

@[simp] theorem received_receive_self (s : State ν M) (n : ν) (x : M) (rest : Multiset (ν × M)) :
    (s.receive n x rest).received n = x ::ₘ s.received n := Function.update_self ..

theorem received_receive_of_ne (s : State ν M) {m n : ν} (h : m ≠ n) (x : M)
    (rest : Multiset (ν × M)) : (s.receive n x rest).received m = s.received m :=
  Function.update_of_ne h ..

def Complete (T : Tree ν) (s : State ν M) (n : ν) : Prop :=
  (s.received n).card = (T.children n).card

instance (T : Tree ν) (s : State ν M) (n : ν) : Decidable (s.Complete T n) :=
  inferInstanceAs (Decidable (_ = _))

variable [AddCommMonoid M] (T : Tree ν) (own : ν → M)

def carried (s : State ν M) (n : ν) : M := own n + (s.received n).sum

def pass (n : ν) (s : State ν M) : State ν M :=
  match T.parent n with
  | some p => { s with passed := insert n s.passed, network := (p, s.carried own n) ::ₘ s.network }
  | none => { s with passed := insert n s.passed, output := s.carried own n ::ₘ s.output }

def settle (n : ν) (s : State ν M) : State ν M :=
  if n ∈ s.joined ∧ s.Complete T n then s.pass T own n else s

end State

variable [AddCommMonoid M] (T : Tree ν) (own : ν → M)

inductive Step : State ν M → State ν M → Prop
  | join {s : State ν M} {n : ν} (hn : n ∈ T.nodes) (hnew : n ∉ s.joined) :
      Step s ((s.join n).settle T own n)
  | deliver {s : State ν M} {n : ν} {x : M} {rest : Multiset (ν × M)}
      (h : s.network = (n, x) ::ₘ rest) : Step s ((s.receive n x rest).settle T own n)

/-- Nothing is lost or counted twice, and messages under way are from children that
have passed their sums on. -/
structure Sound (s : State ν M) : Prop where
  passed_joined : s.passed ⊆ s.joined
  joined_nodes : s.joined ⊆ T.nodes
  recipients : ∀ e ∈ s.network, e.1 ∈ T.nodes
  counts : ∀ p ∈ T.nodes, (s.received p).card + (s.network.map Prod.fst).count p =
    (T.children p ∩ s.passed).card
  conserved : ∑ n ∈ T.nodes \ s.passed, s.carried own n + (s.network.map Prod.snd).sum +
    s.output.sum = ∑ n ∈ T.nodes, own n
  outputs : s.output.card = if T.root ∈ s.passed then 1 else 0

/-- The invariant: those that have joined pass their sum on as soon as it is complete. -/
structure Inv (s : State ν M) : Prop extends Sound T own s where
  passed_iff : ∀ n ∈ s.joined, n ∈ s.passed ↔ s.Complete T n

variable {T own} {s t : State ν M} {n : ν} {x : M} {rest : Multiset (ν × M)}

theorem inv_init : Inv T own (State.init : State ν M) where
  passed_joined := by simp [State.init]
  joined_nodes := by simp [State.init]
  recipients := by simp [State.init]
  counts := by simp [State.init]
  conserved := by simp [State.init, State.carried]
  outputs := by simp [State.init]
  passed_iff := by simp [State.init]

theorem Sound.join (hs : Sound T own s) (hn : n ∈ T.nodes) : Sound T own (s.join n) where
  passed_joined := hs.passed_joined.trans (Finset.subset_insert n s.joined)
  joined_nodes := Finset.insert_subset hn hs.joined_nodes
  recipients := hs.recipients
  counts := hs.counts
  conserved := hs.conserved
  outputs := hs.outputs

theorem sum_carried_insert (hn : n ∈ T.nodes) (hnew : n ∉ s.passed) :
    ∑ m ∈ T.nodes \ insert n s.passed, s.carried own m + s.carried own n =
      ∑ m ∈ T.nodes \ s.passed, s.carried own m := by
  rw [Finset.sdiff_insert]
  exact Finset.sum_erase_add _ _ (Finset.mem_sdiff.mpr ⟨hn, hnew⟩)

theorem Sound.pass (hs : Sound T own s) (hn : n ∈ s.joined) (hnew : n ∉ s.passed) :
    Sound T own (s.pass T own n) := by
  have hmem : n ∈ T.nodes := hs.joined_nodes hn
  have hpassed : insert n s.passed ⊆ s.joined := Finset.insert_subset hn hs.passed_joined
  have hsum : ∑ m ∈ T.nodes \ insert n s.passed, s.carried own m + s.carried own n =
      ∑ m ∈ T.nodes \ s.passed, s.carried own m := sum_carried_insert hmem hnew
  have hconserved := hs.conserved
  rw [← hsum] at hconserved
  unfold State.pass
  cases hp : T.parent n with
  | some p =>
    obtain ⟨hroot, hpmem, -⟩ := T.parent_spec hmem hp
    refine ⟨hpassed, hs.joined_nodes, ?_, fun q hq => ?_, ?_, ?_⟩
    · exact Multiset.forall_mem_cons.mpr ⟨hpmem, hs.recipients⟩
    · have hcount := hs.counts q hq
      rw [Tree.card_children_insert hmem hnew, hp, Multiset.map_cons, Multiset.count_cons,
        ← hcount, ← add_assoc]
      simp only [Option.some.injEq, eq_comm]
    · rw [Multiset.map_cons, Multiset.sum_cons, ← hconserved]
      simp only [State.carried]
      abel
    · have hout := hs.outputs
      simp only [Finset.mem_insert, hroot.symm, false_or]
      exact hout
  | none =>
    obtain rfl := T.eq_root_of_parent hmem hp
    refine ⟨hpassed, hs.joined_nodes, hs.recipients, fun q hq => ?_, ?_, ?_⟩
    · have hcount := hs.counts q hq
      rw [Tree.card_children_insert hmem hnew, hp, ← hcount]
      simp
    · rw [Multiset.sum_cons, ← hconserved]
      simp only [State.carried]
      abel
    · have hout := hs.outputs
      rw [if_neg hnew] at hout
      simp [hout]

/-- A message under way is one that its recipient still waits for. -/
theorem Inv.waits (hs : Inv T own s) (h : s.network = (n, x) ::ₘ rest) :
    n ∈ T.nodes ∧ n ∉ s.passed ∧ (s.received n).card < (T.children n).card := by
  have hmem : n ∈ T.nodes := hs.recipients (n, x) (by simp [h])
  have hcount := hs.counts n hmem
  have hle : (T.children n ∩ s.passed).card ≤ (T.children n).card :=
    Finset.card_le_card Finset.inter_subset_left
  have hlt : (s.received n).card < (T.children n).card := by
    rw [h, Multiset.map_cons, Multiset.count_cons_self] at hcount
    omega
  refine ⟨hmem, fun hpassed => ?_, hlt⟩
  have hcomplete := (hs.passed_iff n (hs.passed_joined hpassed)).mp hpassed
  exact absurd hcomplete hlt.ne

theorem Inv.receive (hs : Inv T own s) (h : s.network = (n, x) ::ₘ rest) :
    Sound T own (s.receive n x rest) := by
  obtain ⟨hmem, hnew, -⟩ := hs.waits h
  have hcarried : ∀ m, (s.receive n x rest).carried own m =
      s.carried own m + if m = n then x else 0 := by
    intro m
    by_cases hm : m = n
    · subst hm
      simp only [State.carried, State.received_receive_self, Multiset.sum_cons, if_true]
      abel
    · rw [State.carried, s.received_receive_of_ne hm, if_neg hm, add_zero]
      rfl
  refine ⟨hs.passed_joined, hs.joined_nodes, ?_, fun p hp => ?_, ?_, hs.outputs⟩
  · intro e he
    exact hs.recipients e (by rw [h]; exact Multiset.mem_cons_of_mem he)
  · have hcount := hs.counts p hp
    rw [h, Multiset.map_cons, Multiset.count_cons] at hcount
    by_cases hpn : p = n
    · subst hpn
      rw [if_pos rfl] at hcount
      rw [State.received_receive_self, Multiset.card_cons]
      change _ + (rest.map Prod.fst).count p = (T.children p ∩ s.passed).card
      omega
    · rw [if_neg hpn, add_zero] at hcount
      rw [s.received_receive_of_ne hpn]
      exact hcount
  · have hconserved := hs.conserved
    rw [h, Multiset.map_cons, Multiset.sum_cons] at hconserved
    have hone : ∑ m ∈ T.nodes \ s.passed, (if m = n then x else 0) = x := by
      rw [Finset.sum_ite_eq' (T.nodes \ s.passed) n fun _ => x,
        if_pos (Finset.mem_sdiff.mpr ⟨hmem, hnew⟩)]
    rw [← hconserved, Finset.sum_congr rfl fun m _ => hcarried m]
    change ∑ m ∈ T.nodes \ s.passed, _ + (rest.map Prod.snd).sum + s.output.sum = _
    rw [Finset.sum_add_distrib, hone]
    abel

theorem Sound.settle (hs : Sound T own s) (hnew : n ∉ s.passed)
    (hothers : ∀ m ∈ s.joined, m ≠ n → (m ∈ s.passed ↔ s.Complete T m)) :
    Inv T own (s.settle T own n) := by
  unfold State.settle
  split_ifs with hcomplete
  · refine ⟨hs.pass hcomplete.1 hnew, fun m hm => ?_⟩
    have hfields : (s.pass T own n).passed = insert n s.passed ∧
        (s.pass T own n).joined = s.joined ∧ (s.pass T own n).received = s.received := by
      unfold State.pass
      split <;> exact ⟨rfl, rfl, rfl⟩
    obtain ⟨hpassed, hjoined, hreceived⟩ := hfields
    rw [hpassed, State.Complete, hreceived, Finset.mem_insert]
    rw [hjoined] at hm
    by_cases hmn : m = n
    · subst hmn
      exact ⟨fun _ => hcomplete.2, fun _ => Or.inl rfl⟩
    · rw [or_iff_right hmn]
      exact hothers m hm hmn
  · refine ⟨hs, fun m hm => ?_⟩
    by_cases hmn : m = n
    · subst hmn
      exact ⟨fun h => absurd h hnew, fun h => absurd ⟨hm, h⟩ hcomplete⟩
    · exact hothers m hm hmn

theorem inv_step (hs : Inv T own s) (h : Step T own s t) : Inv T own t := by
  cases h with
  | join hn hnew =>
    have hpassed : _ ∉ s.passed := fun h => hnew (hs.passed_joined h)
    refine (hs.toSound.join hn).settle hpassed fun m hm hmn => ?_
    exact hs.passed_iff m ((Finset.mem_insert.mp hm).resolve_left hmn)
  | deliver h =>
    refine (hs.receive h).settle (hs.waits h).2.1 fun m hm hmn => ?_
    rw [State.Complete, s.received_receive_of_ne hmn]
    exact hs.passed_iff m hm

theorem inv_of_reachable (h : Relation.ReflTransGen (Step T own) State.init s) : Inv T own s := by
  induction h with
  | refl => exact inv_init
  | tail _ hstep ih => exact inv_step ih hstep

theorem Inv.all_passed (hs : Inv T own s) (hjoined : s.joined = T.nodes) (hnetwork : s.network = 0) :
    s.passed = T.nodes := by
  apply Finset.Subset.antisymm (hs.passed_joined.trans hs.joined_nodes)
  rw [← Finset.sdiff_eq_empty_iff_subset]
  by_contra hne
  -- a node of maximal rank among the others has all it waits for
  obtain ⟨n, hn, hmax⟩ := Finset.exists_max_image _ T.rank (Finset.nonempty_iff_ne_empty.mpr hne)
  obtain ⟨hmem, hnew⟩ := Finset.mem_sdiff.mp hn
  have hchildren : T.children n ⊆ s.passed := by
    intro c hc
    obtain ⟨hcmem, hparent⟩ := Tree.mem_children.mp hc
    by_contra hcnew
    have hle := hmax c (Finset.mem_sdiff.mpr ⟨hcmem, hcnew⟩)
    have hlt := (T.parent_spec hcmem hparent).2.2
    omega
  have hcount := hs.counts n hmem
  rw [Finset.inter_eq_left.mpr hchildren, hnetwork] at hcount
  apply hnew
  exact (hs.passed_iff n (hjoined ▸ hmem)).mpr (by simpa [State.Complete] using hcount)

theorem Inv.output_eq (hs : Inv T own s) (hjoined : s.joined = T.nodes) (hnetwork : s.network = 0) :
    s.output = {∑ n ∈ T.nodes, own n} := by
  have hpassed := hs.all_passed hjoined hnetwork
  have hcard := hs.outputs
  have hconserved := hs.conserved
  rw [hpassed, if_pos T.root_mem] at hcard
  obtain ⟨x, hx⟩ := Multiset.card_eq_one.mp hcard
  rw [hpassed, hnetwork, hx] at hconserved
  rw [hx, ← hconserved]
  simp

end Pddm.Convergecast
