import Mathlib

/-!
# Journeys in a graph with one edge a round

In each round every node has one outgoing edge. A message passes from node to node along
edges of increasing rounds, and an infection spreads along all edges of every round. A
node that forwards a message as soon as it can is never later than any plan for it, and
the infection says how early a plan can be.
-/
namespace Pddm

variable {V : Type*} (next : ℤ → V → V)

/-- A way for a message to come from `source`: the nodes it visits, latest first, and the
round from which the latest one may pass it on. -/
inductive Journey (source : V) (start : ℤ) : List V → ℤ → Prop
  | source : Journey source start [source] start
  | pass {v w : V} {visited : List V} {r r' : ℤ} (h : Journey source start (v :: visited) r)
      (hr : r ≤ r') (hnext : next r' v = w) : Journey source start (w :: v :: visited) (r' + 1)

/-- The journey on which every node passes the message on at the first opportunity. -/
inductive Forwarded (source : V) (start : ℤ) : List V → ℤ → Prop
  | source : Forwarded source start [source] start
  | pass {v w : V} {visited : List V} {r r' : ℤ} (h : Forwarded source start (v :: visited) r)
      (hr : r ≤ r') (hnext : next r' v = w) (hfirst : ∀ j, r ≤ j → j < r' → next j v ≠ w) :
      Forwarded source start (w :: v :: visited) (r' + 1)

/-- The nodes an infection has reached before round `start + k`, if it spares `used`. -/
def infected (used : Set V) (source : V) (start : ℤ) : ℕ → Set V
  | 0 => {source}
  | k + 1 => infected used source start k ∪
      {w | w ∉ used ∧ ∃ v ∈ infected used source start k, next (start + k) v = w}

/-- The journey along which the infection reaches a node first, as it does all the nodes
before it. -/
inductive Foremost (used : Set V) (source : V) (start : ℤ) : List V → ℕ → Prop
  | source : Foremost used source start [source] 0
  | pass {v w : V} {visited : List V} {k k' : ℕ} (h : Foremost used source start (v :: visited) k)
      (hk : k ≤ k') (hnext : next (start + k') v = w) (hused : w ∉ used)
      (hnew : w ∉ infected next used source start k') :
      Foremost used source start (w :: v :: visited) (k' + 1)

variable {next} {used : Set V} {source v w : V} {start r r' : ℤ} {k k' : ℕ} {visited : List V}

theorem Journey.start_le (h : Journey next source start visited r) : start ≤ r := by
  induction h with
  | source => exact le_rfl
  | pass _ hr _ ih => omega

theorem Journey.ends_at_source (h : Journey next source start visited r) :
    ∃ hops, visited = hops ++ [source] := by
  induction h with
  | source => exact ⟨[], rfl⟩
  | @pass v w rest _ _ _ _ _ ih =>
    obtain ⟨hops, hhops⟩ := ih
    exact ⟨w :: hops, by rw [hhops, List.cons_append]⟩

theorem Forwarded.journey (h : Forwarded next source start visited r) :
    Journey next source start visited r := by
  induction h with
  | source => exact .source
  | pass _ hr hnext _ ih => exact .pass ih hr hnext

/-- A node that waits for the first opportunity is not later than any plan. -/
theorem Forwarded.le (h : Forwarded next source start visited r)
    (hplan : Journey next source start visited r') : r ≤ r' := by
  induction h generalizing r' with
  | source => exact hplan.start_le
  | @pass v w visited r j h hr hnext hfirst ih =>
    cases hplan with
    | @pass _ _ _ p j' hplan hr' hnext' =>
      have hle : r ≤ p := ih hplan
      have hnot : ¬ j' < j := fun hlt => hfirst j' (by omega) hlt hnext'
      omega

theorem Forwarded.unique (h : Forwarded next source start visited r)
    (h' : Forwarded next source start visited r') : r = r' :=
  le_antisymm (h.le h'.journey) (h'.le h.journey)

/-- Whatever can be planned happens when every node waits for the first opportunity. -/
theorem Journey.exists_forwarded (h : Journey next source start visited r) :
    ∃ r', r' ≤ r ∧ Forwarded next source start visited r' := by
  induction h with
  | source => exact ⟨start, le_rfl, .source⟩
  | @pass v w visited r j h hr hnext ih =>
    obtain ⟨r', hle, hforwarded⟩ := ih
    have hexists : ∃ n : ℕ, next (r' + n) v = w := by
      refine ⟨(j - r').toNat, ?_⟩
      rw [Int.toNat_of_nonneg (by omega)]
      simpa using hnext
    classical
    have hfound := Nat.find_spec hexists
    have hfirst (i : ℤ) (hi : r' ≤ i) (hlt : i < r' + Nat.find hexists) : next i v ≠ w := by
      intro hi'
      have hmin : Nat.find hexists ≤ (i - r').toNat := by
        apply Nat.find_min'
        rw [Int.toNat_of_nonneg (by omega)]
        simpa using hi'
      omega
    have hpass := Forwarded.pass hforwarded (by omega) hfound hfirst
    exact ⟨_, hpass.le (.pass h hr hnext), hpass⟩

theorem infected_mono (h : k ≤ k') :
    infected next used source start k ⊆ infected next used source start k' := by
  induction h with
  | refl => exact subset_rfl
  | step _ ih => exact ih.trans Set.subset_union_left

theorem source_mem_infected : source ∈ infected next used source start k :=
  infected_mono (Nat.zero_le k) rfl

/-- A journey that spares the same nodes is not ahead of the infection. -/
theorem Journey.mem_infected (h : Journey next source start (v :: visited) r)
    (hused : ∀ w ∈ (v :: visited).dropLast, w ∉ used) (hr : r ≤ start + k) :
    v ∈ infected next used source start k := by
  generalize hlist : v :: visited = nodes at h
  induction h generalizing v visited k with
  | source =>
    obtain ⟨rfl, rfl⟩ := List.cons.inj hlist
    exact source_mem_infected
  | @pass u w rest r j h hle hnext ih =>
    obtain ⟨rfl, rfl⟩ := List.cons.inj hlist
    have hstart : start ≤ r := h.start_le
    obtain ⟨n, rfl⟩ : ∃ n : ℕ, j = start + n := ⟨(j - start).toNat, by omega⟩
    have hu : u ∈ infected next used source start n :=
      ih (fun x hx => hused x (List.mem_cons_of_mem _ hx)) hle rfl
    have hv : v ∈ infected next used source start (n + 1) :=
      .inr ⟨hused v (by simp), u, hu, hnext⟩
    exact infected_mono (by omega) hv

namespace Foremost

theorem journey (h : Foremost next used source start visited k) :
    Journey next source start visited (start + k) := by
  induction h with
  | source => simpa using Journey.source
  | pass _ hk hnext _ _ ih =>
    have hpass := ih.pass (by omega) hnext
    simpa [add_assoc] using hpass

theorem spared (h : Foremost next used source start visited k) :
    ∀ w ∈ visited.dropLast, w ∉ used := by
  induction h with
  | source => simp
  | @pass v w rest _ _ _ _ _ hused _ ih =>
    intro x hx
    rw [List.dropLast_cons_of_ne_nil (by simp)] at hx
    rcases List.mem_cons.mp hx with rfl | hx
    · exact hused
    · exact ih x hx

theorem mem_infected (h : Foremost next used source start (v :: visited) k) :
    v ∈ infected next used source start k :=
  h.journey.mem_infected h.spared le_rfl

theorem infected_of_mem (h : Foremost next used source start visited k) {x : V} (hx : x ∈ visited) :
    x ∈ infected next used source start k := by
  induction h with
  | source =>
    rw [List.mem_singleton.mp hx]
    exact source_mem_infected
  | @pass v w rest j j' h hj hnext hused hnew ih =>
    rcases List.mem_cons.mp hx with rfl | hx
    · exact (Foremost.pass h hj hnext hused hnew).mem_infected
    · exact infected_mono (by omega) (ih hx)

theorem nodup (h : Foremost next used source start visited k) : visited.Nodup := by
  induction h with
  | source => simp
  | @pass v w rest j j' h hj hnext hused hnew ih =>
    refine List.nodup_cons.mpr ⟨fun hw => ?_, ih⟩
    exact hnew (infected_mono hj (h.infected_of_mem hw))

/-- The infection has not reached the node any earlier. -/
theorem le_of_infected (h : Foremost next used source start (v :: visited) k)
    (hv : v ∈ infected next used source start k') : k ≤ k' := by
  cases h with
  | source => exact Nat.zero_le k'
  | @pass _ _ _ _ n h hk hnext hused hnew =>
    by_contra hlt
    exact hnew (infected_mono (by omega) hv)

theorem mem_infected_iff (h : Foremost next used source start (v :: visited) k) :
    v ∈ infected next used source start k' ↔ k ≤ k' :=
  ⟨h.le_of_infected, fun hle => infected_mono hle h.mem_infected⟩

/-- Forwarding at the first opportunity, a message keeps up with the infection. -/
theorem forwarded_eq (h : Foremost next used source start (v :: visited) k)
    (hforwarded : Forwarded next source start (v :: visited) r) : r = start + k := by
  have hle : r ≤ start + k := hforwarded.le h.journey
  have hstart : start ≤ r := hforwarded.journey.start_le
  have hreached : v ∈ infected next used source start (r - start).toNat :=
    hforwarded.journey.mem_infected h.spared (by omega)
  have hge := h.le_of_infected hreached
  omega

/-- One hop further, the message arrives in round `start + m` or later exactly if the edge
of that hop was not there before, at a time when the infection had reached its origin. -/
theorem le_arrival_iff (h : Foremost next used source start (v :: visited) k)
    (hforwarded : Forwarded next source start (w :: v :: visited) (r + 1)) (m : ℕ) :
    start + m ≤ r ↔
      ∀ j < m, v ∈ infected next used source start j → next (start + j) v ≠ w := by
  generalize hround : r + 1 = r' at hforwarded
  cases hforwarded with
  | @pass _ _ _ p i hbefore hle hnext hfirst =>
    obtain rfl : r = i := by omega
    have hp : p = start + k := h.forwarded_eq hbefore
    constructor
    · intro hm j hj hv
      have hkj := h.le_of_infected hv
      exact hfirst (start + j) (by omega) (by omega)
    · intro hnone
      by_contra hlt
      obtain ⟨j, hj⟩ : ∃ j : ℕ, r = start + j := ⟨(r - start).toNat, by omega⟩
      refine hnone j (by omega) (h.mem_infected_iff.mpr (by omega)) ?_
      rw [← hj]
      exact hnext

end Foremost
end Pddm
