import Pddm.Journeys

/-!
# Messages on their way

Nodes hold messages and pass each on in the first round in which they have an edge to its
destination. The destination handles it and holds what it unwraps. A message with a chain
of layers so visits their destinations one after the other.
-/
namespace Pddm
open Classical

variable {V M : Type*} (next : ℤ → V → V) (dest : M → V) (unwrap : M → Multiset M)

/-- `x` is a layer of the message. -/
abbrev Leads : M → M → Prop := Relation.ReflTransGen fun m x => x ∈ unwrap m

/-- What the nodes hold at the start of a round, what is new then, and what they handle in
it. A `plain` message is treated by its destination alone, and an `idle` one does not come
from anywhere. -/
structure RelayRun (nodes : Set V) (start stop : ℤ) (plain idle : M → Prop)
    (held fresh handled : ℤ → V → Multiset M) : Prop where
  idle_unwrap : ∀ m, idle m → unwrap m = 0
  next_mem : ∀ r v, v ∈ nodes → next r v ∈ nodes
  onto : ∀ r, ∀ w ∈ nodes, ∃ v ∈ nodes, next r v = w
  handles : ∀ r v (p : M → Prop), start ≤ r → r < stop → v ∈ nodes →
    (∀ m ∈ held r v, p m → plain m) → (∀ m, p m → ¬ idle m) →
    (handled r (next r v)).filter p = (held r v).filter fun m => p m ∧ dest m = next r v
  holds : ∀ r v (p : M → Prop), start ≤ r → r + 1 < stop → v ∈ nodes →
    (∀ m ∈ held r v, p m → plain m) → (held (r + 1) v).filter p =
      ((held r v).filter fun m => p m ∧ dest m ≠ next r v) +
        ((handled r v).bind unwrap).filter p + (fresh (r + 1) v).filter p

/-- A message whose layers are for the nodes of a path. -/
inductive Carrier (plain idle final : M → Prop) : List V → M → Prop
  | last {w : V} {m : M} (hplain : plain m) (hidle : ¬ idle m) (hdest : dest m = w)
      (hunwrap : unwrap m = 0) (hfinal : final m) : Carrier plain idle final [w] m
  | hop {w w' : V} {rest : List V} {m m' : M} (hplain : plain m) (hidle : ¬ idle m)
      (hdest : dest m = w) (hunwrap : unwrap m = {m'})
      (hrest : Carrier plain idle final (w' :: rest) m') :
      Carrier plain idle final (w :: w' :: rest) m

/-- The nodes of a path handle the layers of a message in increasing rounds, from a first
round on and up to a last one. -/
inductive Visits (final : M → Prop) (handles : ℤ → V → M → Prop) (limit : ℤ) :
    ℤ → List V → M → Prop
  | target {r r' : ℤ} {w : V} {m : M} (hr : r ≤ r') (hlimit : r' ≤ limit) (hhandles : handles r' w m)
      (hfinal : final m) : Visits final handles limit r [w] m
  | hop {r r' : ℤ} {w w' : V} {rest : List V} {m m' : M} (hr : r ≤ r') (hhandles : handles r' w m)
      (hunwrap : unwrap m = {m'}) (hrest : Visits final handles limit (r' + 1) (w' :: rest) m') :
      Visits final handles limit r (w :: w' :: rest) m

/-- From the node, which may pass a message on from the round on, there are edges along the
path in increasing rounds. -/
def Planned (limit : ℤ) : V → ℤ → List V → Prop
  | _, _, [] => True
  | v, r, w :: rest => ∃ r', r ≤ r' ∧ r' ≤ limit ∧ next r' v = w ∧ Planned limit w (r' + 1) rest

variable {next dest unwrap} {nodes : Set V} {start stop limit : ℤ} {plain idle final : M → Prop}
  {held fresh handled : ℤ → V → Multiset M} {v w : V} {m x : M} {path : List V} {r r' : ℤ}

theorem Planned.mono (h : Planned next limit v r' path) (hr : r ≤ r') :
    Planned next limit v r path := by
  cases path with
  | nil => trivial
  | cons w rest =>
    obtain ⟨j, hj, hrest⟩ := h
    exact ⟨j, hr.trans hj, hrest⟩

theorem Journey.planned {source : V} {visited rest : List V}
    (h : Journey next source start (v :: visited) r) (hr : r ≤ limit + 1)
    (hrest : Planned next limit v r rest) : ∃ path, v :: visited = path.reverse ++ [source] ∧
      Planned next limit source start (path ++ rest) := by
  generalize hlist : v :: visited = nodes at h ⊢
  induction h generalizing v visited rest with
  | source =>
    obtain ⟨rfl, rfl⟩ := List.cons.inj hlist
    exact ⟨[], rfl, hrest⟩
  | @pass u w seen r j h hle hnext ih =>
    obtain ⟨rfl, rfl⟩ := List.cons.inj hlist
    obtain ⟨path, hpath, hplanned⟩ :=
      ih (by omega) (show Planned next limit u r (v :: rest) from
        ⟨j, hle, by omega, hnext, hrest⟩) rfl
    refine ⟨path ++ [v], ?_, by simpa using hplanned⟩
    rw [hpath, List.reverse_append, List.reverse_singleton, List.singleton_append,
      List.cons_append]

theorem exists_first (hr : r ≤ r') (hnext : next r' v = w) :
    ∃ j, r ≤ j ∧ j ≤ r' ∧ next j v = w ∧ ∀ i, r ≤ i → i < j → next i v ≠ w := by
  have hpass : Journey next v r [w, v] (r' + 1) := .pass .source hr hnext
  obtain ⟨i, hi, hforwarded⟩ := hpass.exists_forwarded
  cases hforwarded with
  | @pass _ _ _ p j hbefore hle hnext hfirst =>
    cases hbefore
    exact ⟨j, hle, by omega, hnext, hfirst⟩

namespace Carrier

theorem isPlain (h : Carrier dest unwrap plain idle final path m) : plain m ∧ ¬ idle m := by
  cases h with
  | last hplain hidle => exact ⟨hplain, hidle⟩
  | hop hplain hidle => exact ⟨hplain, hidle⟩

/-- The layers are plain, and for the nodes of the path. -/
theorem of_leads (h : Carrier dest unwrap plain idle final path m) (hx : Leads unwrap m x) :
    (plain x ∧ ¬ idle x) ∧ dest x ∈ path := by
  induction h with
  | @last w m hplain hidle hdest hunwrap =>
    cases hx.cases_head with
    | inl heq =>
      subst heq
      exact ⟨⟨hplain, hidle⟩, by simp [hdest]⟩
    | inr hstep =>
      obtain ⟨y, hy, -⟩ := hstep
      simp [hunwrap] at hy
  | @hop w w' rest m m' hplain hidle hdest hunwrap hrest ih =>
    cases hx.cases_head with
    | inl heq =>
      subst heq
      exact ⟨⟨hplain, hidle⟩, by simp [hdest]⟩
    | inr hstep =>
      obtain ⟨y, hy, hyx⟩ := hstep
      obtain rfl : y = m' := by simpa [hunwrap] using hy
      obtain ⟨hgood, hmem⟩ := ih hyx
      exact ⟨hgood, List.mem_cons_of_mem _ hmem⟩

end Carrier

namespace RelayRun
variable (R : RelayRun next dest unwrap nodes start stop plain idle held fresh handled)
include R

theorem held_mono (hplain : plain m) (hv : v ∈ nodes) (hr : start ≤ r) (hm : m ∈ held r v)
    (hle : r ≤ r') (hstop : r' < stop) (hnot : ∀ i, r ≤ i → i < r' → next i v ≠ dest m) :
    m ∈ held r' v := by
  induction r', hle using Int.leInduction with
  | base => exact hm
  | succ j hj ih =>
    have hheld : m ∈ held j v := ih (by omega) fun i hi hij => hnot i hi (by omega)
    have hkept := R.holds j v (· = m) (by omega) hstop hv (fun _ _ h => h ▸ hplain)
    have hmem : m ∈ (held (j + 1) v).filter (· = m) := by
      rw [hkept]
      refine Multiset.mem_add.mpr (.inl (Multiset.mem_add.mpr (.inl ?_)))
      exact Multiset.mem_filter.mpr ⟨hheld, rfl, (hnot j hj (by omega)).symm⟩
    exact (Multiset.mem_filter.mp hmem).1

theorem mem_handled (hplain : plain m) (hidle : ¬ idle m) (hv : v ∈ nodes) (hr : start ≤ r)
    (hstop : r < stop) (hm : m ∈ held r v) (hnext : next r v = dest m) :
    m ∈ handled r (dest m) := by
  have hhandled := R.handles r v (· = m) hr hstop hv (fun _ _ h => h ▸ hplain) fun _ h => h ▸ hidle
  rw [← hnext]
  have hmem : m ∈ (handled r (next r v)).filter (· = m) := by
    rw [hhandled]
    exact Multiset.mem_filter.mpr ⟨hm, rfl, hnext.symm⟩
  exact (Multiset.mem_filter.mp hmem).1

theorem mem_held_of_unwrap (hplain : plain x) (hv : v ∈ nodes) (hr : start ≤ r)
    (hstop : r + 1 < stop) (hm : m ∈ handled r v) (hx : x ∈ unwrap m) : x ∈ held (r + 1) v := by
  have hholds := R.holds r v (· = x) hr hstop hv (fun _ _ h => h ▸ hplain)
  have hmem : x ∈ (held (r + 1) v).filter (· = x) := by
    rw [hholds]
    refine Multiset.mem_add.mpr (.inl (Multiset.mem_add.mpr (.inr ?_)))
    exact Multiset.mem_filter.mpr ⟨Multiset.mem_bind.mpr ⟨m, hm, hx⟩, rfl⟩
  exact (Multiset.mem_filter.mp hmem).1

/-- Along a planned path, the layers are handled no later than planned. -/
theorem visits (hcarrier : Carrier dest unwrap plain idle final path m) (hv : v ∈ nodes)
    (hr : start ≤ r) (hm : m ∈ held r v) (hplan : Planned next limit v r path)
    (hlimit : limit < stop) :
    Visits unwrap final (fun r w m => m ∈ handled r w) limit r path m := by
  induction hcarrier generalizing v r with
  | @last w m hplain hidle hdest hunwrap hfinal =>
    obtain ⟨r', hr', hle, hnext, -⟩ := hplan
    obtain ⟨j, hj, hjr, hedge, hfirst⟩ := exists_first hr' hnext
    have hheld : m ∈ held j v :=
      R.held_mono hplain hv hr hm hj (by omega) fun i hi hij => hdest ▸ hfirst i hi hij
    refine .target hj (by omega) ?_ hfinal
    rw [← hdest]
    exact R.mem_handled hplain hidle hv (by omega) (by omega) hheld (hedge.trans hdest.symm)
  | @hop w w' rest m m' hplain hidle hdest hunwrap hrest ih =>
    obtain ⟨r', hr', hle, hnext, hlater⟩ := hplan
    obtain ⟨j, hj, hjr, hedge, hfirst⟩ := exists_first hr' hnext
    have hheld : m ∈ held j v :=
      R.held_mono hplain hv hr hm hj (by omega) fun i hi hij => hdest ▸ hfirst i hi hij
    have hhandled : m ∈ handled j w := by
      rw [← hdest]
      exact R.mem_handled hplain hidle hv (by omega) (by omega) hheld (hedge.trans hdest.symm)
    have hw : w ∈ nodes := hedge ▸ R.next_mem j v hv
    have hfurther : j + 1 < stop := by
      obtain ⟨r'', hr'', hle', -⟩ := hlater
      omega
    have hnew : m' ∈ held (j + 1) w :=
      R.mem_held_of_unwrap hrest.isPlain.1 hw (by omega) hfurther hhandled (by simp [hunwrap])
    exact .hop hj hhandled hunwrap (ih hw (by omega) hnew (hlater.mono (by omega)))

end RelayRun

section Sole
variable (unwrap nodes held fresh handled)

/-- Of all messages that have `x` as a layer, only `m` is held, by `v`. -/
def Sole (x : M) (r : ℤ) (v : V) (m : M) : Prop :=
  ∀ w ∈ nodes, (held r w).filter (Leads unwrap · x) = if w = v then {m} else 0

def Absent (x : M) (r : ℤ) : Prop := ∀ w ∈ nodes, (held r w).filter (Leads unwrap · x) = 0

/-- The message is handled in that round by that node, and nowhere else. -/
def HandledOnly (start stop : ℤ) (r : ℤ) (w : V) (m : M) : Prop :=
  ∀ r' w', start ≤ r' → r' < stop → w' ∈ nodes →
    (handled r' w').count m = if r' = r ∧ w' = w then 1 else 0

/-- No other message with a layer of `m` comes in. -/
def NothingNew (start stop : ℤ) (m : M) : Prop :=
  ∀ x, Leads unwrap m x → ∀ r w, start < r → r < stop → w ∈ nodes →
    (fresh r w).filter (Leads unwrap · x) = 0

variable {unwrap nodes held fresh handled}

theorem filter_bind_unwrap (s : Multiset M) (x : M) :
    (s.bind unwrap).filter (Leads unwrap · x) =
      ((s.filter (Leads unwrap · x)).bind unwrap).filter (Leads unwrap · x) := by
  induction s using Multiset.induction_on with
  | empty => rfl
  | cons m s ih =>
    rw [Multiset.cons_bind, Multiset.filter_add, ih]
    by_cases hm : Leads unwrap m x
    · have hcons : (m ::ₘ s).filter (Leads unwrap · x) = m ::ₘ s.filter (Leads unwrap · x) :=
        Multiset.filter_cons_of_pos s hm
      rw [hcons, Multiset.cons_bind, Multiset.filter_add]
    · have hcons : (m ::ₘ s).filter (Leads unwrap · x) = s.filter (Leads unwrap · x) :=
        Multiset.filter_cons_of_neg s hm
      have hnone : (unwrap m).filter (Leads unwrap · x) = 0 := by
        refine Multiset.filter_eq_nil.mpr fun y hy hyx => hm ?_
        exact Relation.ReflTransGen.head hy hyx
      rw [hcons, hnone, zero_add]

theorem filter_and_eq (s : Multiset M) (p q : M → Prop) [DecidablePred p] [DecidablePred q]
    [DecidablePred fun m => p m ∧ q m] :
    (s.filter fun m => p m ∧ q m) = (s.filter p).filter q := by
  rw [Multiset.filter_filter]
  exact Multiset.filter_congr fun m _ => and_comm

theorem count_eq_of_filter {s t : Multiset M} (h : s.filter (Leads unwrap · x) = t) :
    s.count x = t.count x := by
  rw [← h, Multiset.count_filter_of_pos (p := (Leads unwrap · x)) Relation.ReflTransGen.refl]

namespace RelayRun
variable (R : RelayRun next dest unwrap nodes start stop plain idle held fresh handled)
include R

theorem not_idle (hx : ¬ idle x) (m : M) (hm : Leads unwrap m x) : ¬ idle m := by
  intro hidle
  rcases hm.cases_head with rfl | ⟨y, hy, -⟩
  · exact hx hidle
  · simp [R.idle_unwrap m hidle] at hy

theorem filter_handled (hx : ¬ idle x) (hr : start ≤ r) (hstop : r < stop) (hv : v ∈ nodes)
    (hplain : ∀ m ∈ (held r v).filter (Leads unwrap · x), plain m) :
    (handled r (next r v)).filter (Leads unwrap · x) =
      ((held r v).filter (Leads unwrap · x)).filter fun m => dest m = next r v := by
  rw [← filter_and_eq]
  exact R.handles r v _ hr hstop hv
    (fun m hm hmx => hplain m (Multiset.mem_filter.mpr ⟨hm, hmx⟩)) (R.not_idle hx)

theorem filter_held (hr : start ≤ r) (hstop : r + 1 < stop) (hv : v ∈ nodes)
    (hplain : ∀ m ∈ (held r v).filter (Leads unwrap · x), plain m)
    (hfresh : (fresh (r + 1) v).filter (Leads unwrap · x) = 0) :
    (held (r + 1) v).filter (Leads unwrap · x) =
      (((held r v).filter (Leads unwrap · x)).filter fun m => dest m ≠ next r v) +
        (((handled r v).filter (Leads unwrap · x)).bind unwrap).filter (Leads unwrap · x) := by
  rw [← filter_and_eq, ← filter_bind_unwrap]
  have hholds := R.holds r v (Leads unwrap · x) hr hstop hv
    fun m hm hmx => hplain m (Multiset.mem_filter.mpr ⟨hm, hmx⟩)
  rw [hholds, hfresh, add_zero]

theorem absent_step (hx : ¬ idle x) (habsent : Absent unwrap nodes held x r) (hr : start ≤ r)
    (hstop : r < stop) : (∀ w ∈ nodes, (handled r w).filter (Leads unwrap · x) = 0) ∧
      (r + 1 < stop → (∀ w ∈ nodes, (fresh (r + 1) w).filter (Leads unwrap · x) = 0) →
        Absent unwrap nodes held x (r + 1)) := by
  have hhandled : ∀ w ∈ nodes, (handled r w).filter (Leads unwrap · x) = 0 := by
    intro w hw
    obtain ⟨v, hv, rfl⟩ := R.onto r w hw
    rw [R.filter_handled hx hr hstop hv (by simp [habsent v hv]), habsent v hv, Multiset.filter_zero]
  refine ⟨hhandled, fun hlater hfresh w hw => ?_⟩
  rw [R.filter_held hr hlater hw (by simp [habsent w hw]) (hfresh w hw), habsent w hw,
    hhandled w hw]
  simp

theorem sole_wait (hx : ¬ idle x) (hm : plain m) (hsole : Sole unwrap nodes held x r v m)
    (hnot : next r v ≠ dest m) (hr : start ≤ r) (hstop : r < stop) :
    (∀ w ∈ nodes, (handled r w).filter (Leads unwrap · x) = 0) ∧
      (r + 1 < stop → (∀ w ∈ nodes, (fresh (r + 1) w).filter (Leads unwrap · x) = 0) →
        Sole unwrap nodes held x (r + 1) v m) := by
  have hplain (w : V) (hw : w ∈ nodes) :
      ∀ y ∈ (held r w).filter (Leads unwrap · x), plain y := by
    rw [hsole w hw]
    split_ifs
    · simpa using hm
    · simp
  have hhandled : ∀ w ∈ nodes, (handled r w).filter (Leads unwrap · x) = 0 := by
    intro w hw
    obtain ⟨u, hu, rfl⟩ := R.onto r w hw
    rw [R.filter_handled hx hr hstop hu (hplain u hu), hsole u hu]
    split_ifs with huv
    · subst huv
      exact Multiset.filter_eq_nil.mpr (by simpa using hnot.symm)
    · exact Multiset.filter_zero _
  refine ⟨hhandled, fun hlater hfresh w hw => ?_⟩
  rw [R.filter_held hr hlater hw (hplain w hw) (hfresh w hw), hsole w hw, hhandled w hw]
  split_ifs with hwv
  · subst hwv
    rw [Multiset.filter_eq_self.mpr (by simpa using hnot.symm)]
    simp
  · simp

theorem sole_pass (hx : ¬ idle x) (hm : plain m) (hv : v ∈ nodes)
    (hsole : Sole unwrap nodes held x r v m) (hnext : next r v = dest m) (hr : start ≤ r)
    (hstop : r < stop) :
    (∀ w ∈ nodes, (handled r w).filter (Leads unwrap · x) = if w = dest m then {m} else 0) ∧
      (r + 1 < stop → (∀ w ∈ nodes, (fresh (r + 1) w).filter (Leads unwrap · x) = 0) →
        ∀ w ∈ nodes, (held (r + 1) w).filter (Leads unwrap · x) =
          if w = dest m then (unwrap m).filter (Leads unwrap · x) else 0) := by
  have hplain (w : V) (hw : w ∈ nodes) :
      ∀ y ∈ (held r w).filter (Leads unwrap · x), plain y := by
    rw [hsole w hw]
    split_ifs
    · simpa using hm
    · simp
  have hhandled : ∀ w ∈ nodes,
      (handled r w).filter (Leads unwrap · x) = if w = dest m then {m} else 0 := by
    intro w hw
    split_ifs with hwm
    · rw [hwm, ← hnext, R.filter_handled hx hr hstop hv (hplain v hv), hsole v hv, if_pos rfl]
      exact Multiset.filter_eq_self.mpr (by simpa using hnext.symm)
    · obtain ⟨u, hu, rfl⟩ := R.onto r w hw
      have huv : u ≠ v := fun huv => hwm (huv ▸ hnext)
      rw [R.filter_handled hx hr hstop hu (hplain u hu), hsole u hu, if_neg huv]
      exact Multiset.filter_zero _
  refine ⟨hhandled, fun hlater hfresh w hw => ?_⟩
  rw [R.filter_held hr hlater hw (hplain w hw) (hfresh w hw), hsole w hw, hhandled w hw]
  have hkept : (if w = v then ({m} : Multiset M) else 0).filter (fun y => dest y ≠ next r w) = 0 := by
    split_ifs with hwv
    · subst hwv
      exact Multiset.filter_eq_nil.mpr (by simpa using hnext.symm)
    · exact Multiset.filter_zero _
  rw [hkept, zero_add]
  split_ifs <;> simp

theorem absent_forever (hx : ¬ idle x)
    (hfresh : ∀ r w, start < r → r < stop → w ∈ nodes → (fresh r w).filter (Leads unwrap · x) = 0)
    (habsent : Absent unwrap nodes held x r) (hr : start ≤ r) (hle : r ≤ r') (hstop : r' < stop)
    (hw : w ∈ nodes) : (handled r' w).count x = 0 := by
  have hstays : Absent unwrap nodes held x r' := by
    induction r', hle using Int.leInduction with
    | base => exact habsent
    | succ j hj ih =>
      exact (R.absent_step hx (ih (by omega)) (by omega) (by omega)).2 hstop
        fun u hu => hfresh _ u (by omega) hstop hu
  exact count_eq_of_filter ((R.absent_step hx hstays (by omega) hstop).1 w hw)

theorem sole_until (hx : ¬ idle x) (hm : plain m)
    (hfresh : ∀ r w, start < r → r < stop → w ∈ nodes → (fresh r w).filter (Leads unwrap · x) = 0)
    (hsole : Sole unwrap nodes held x r v m) (hr : start ≤ r) (hle : r ≤ r') (hstop : r' < stop)
    (hnot : ∀ i, r ≤ i → i < r' → next i v ≠ dest m) : Sole unwrap nodes held x r' v m ∧
      ∀ i w, r ≤ i → i < r' → w ∈ nodes → (handled i w).count x = 0 := by
  induction r', hle using Int.leInduction with
  | base => exact ⟨hsole, by omega⟩
  | succ j hj ih =>
    obtain ⟨hbefore, hnone⟩ := ih (by omega) fun i hi hij => hnot i hi (by omega)
    obtain ⟨hhandled, hstays⟩ :=
      R.sole_wait hx hm hbefore (hnot j hj (by omega)) (by omega) (by omega)
    refine ⟨hstays hstop fun u hu => hfresh _ u (by omega) hstop hu, fun i w hi hij hw => ?_⟩
    rcases (show i < j ∨ i = j by omega) with hlt | rfl
    · exact hnone i w hi hlt hw
    · exact count_eq_of_filter (hhandled w hw)

theorem handledOnly (hm : plain m) (hidle : ¬ idle m) (hself : ∀ y ∈ unwrap m, ¬ Leads unwrap y m)
    (hnew : NothingNew unwrap nodes fresh start stop m) (hsole : Sole unwrap nodes held m r v m)
    (hbefore : ∀ r' w, start ≤ r' → r' < r → w ∈ nodes → (handled r' w).count m = 0)
    (hv : v ∈ nodes) (hr : start ≤ r) {j : ℤ} (hj : r ≤ j) (hstop : j < stop)
    (hnext : next j v = dest m) (hfirst : ∀ i, r ≤ i → i < j → next i v ≠ dest m) :
    HandledOnly nodes handled start stop j (dest m) m := by
  have hfresh := hnew m .refl
  obtain ⟨hthere, hnone⟩ := R.sole_until hidle hm hfresh hsole hr hj hstop hfirst
  obtain ⟨hhandled, hlater⟩ := R.sole_pass hidle hm hv hthere hnext (by omega) hstop
  intro r' w hr' hstop' hw
  rcases lt_trichotomy r' j with hlt | rfl | hgt
  · rw [if_neg (by omega)]
    rcases lt_or_ge r' r with hlt' | hge
    · exact hbefore r' w hr' hlt' hw
    · exact hnone r' w hge hlt hw
  · rw [count_eq_of_filter (hhandled w hw)]
    by_cases hwm : w = dest m
    · simp [hwm]
    · simp [hwm]
  · rw [if_neg (by omega)]
    have habsent : Absent unwrap nodes held m (j + 1) := by
      intro u hu
      rw [hlater (by omega) (fun u hu => hfresh _ u (by omega) (by omega) hu) u hu]
      have hgone : (unwrap m).filter (Leads unwrap · m) = 0 := Multiset.filter_eq_nil.mpr hself
      rw [hgone, ite_self]
    exact R.absent_forever hidle hfresh habsent (by omega) (by omega) hstop' hw

/-- If no other message has one of its layers, every layer is handled once. -/
theorem visits_only (hcarrier : Carrier dest unwrap plain idle final path m) (hnodup : path.Nodup)
    (hv : v ∈ nodes) (hr : start ≤ r) (hplan : Planned next limit v r path) (hlimit : limit < stop)
    (hsole : ∀ x, Leads unwrap m x → Sole unwrap nodes held x r v m)
    (hbefore : ∀ x, Leads unwrap m x → ∀ r' w, start ≤ r' → r' < r → w ∈ nodes →
      (handled r' w).count x = 0)
    (hnew : NothingNew unwrap nodes fresh start stop m) :
    Visits unwrap final (HandledOnly nodes handled start stop) limit r path m := by
  induction hcarrier generalizing v r with
  | @last w m hplain hidle hdest hunwrap hfinal =>
    obtain ⟨r', hr', hle, hnext, -⟩ := hplan
    obtain ⟨j, hj, hjr, hedge, hfirst⟩ := exists_first hr' hnext
    subst hdest
    refine .target hj (by omega) ?_ hfinal
    exact R.handledOnly hplain hidle (by simp [hunwrap]) hnew (hsole m .refl) (hbefore m .refl) hv hr
      hj (by omega) hedge hfirst
  | @hop w w' rest m m' hplain hidle hdest hunwrap hrest ih =>
    obtain ⟨r', hr', hle, hnext, hlater⟩ := hplan
    obtain ⟨j, hj, hjr, hedge, hfirst⟩ := exists_first hr' hnext
    subst hdest
    have hw : dest m ∈ nodes := hedge ▸ R.next_mem j v hv
    have hfurther : j + 1 < stop := by
      obtain ⟨r'', hr'', hle', -⟩ := hlater
      omega
    have hstep {x : M} (hx : Leads unwrap m' x) : Leads unwrap m x :=
      Relation.ReflTransGen.head (by simp [hunwrap]) hx
    have hself : ¬ Leads unwrap m' m := by
      intro hloop
      exact (List.nodup_cons.mp hnodup).1 (hrest.of_leads hloop).2
    refine .hop hj ?_ hunwrap (ih (List.nodup_cons.mp hnodup).2 hw (by omega)
      (hlater.mono (by omega)) ?_ ?_ fun x hx => hnew x (hstep hx))
    · exact R.handledOnly hplain hidle (by simpa [hunwrap] using hself) hnew (hsole m .refl)
        (hbefore m .refl) hv hr hj (by omega) hedge hfirst
    · intro x hx u hu
      have hnone := (hrest.of_leads hx).1.2
      obtain ⟨hthere, -⟩ :=
        R.sole_until hnone hplain (hnew x (hstep hx)) (hsole x (hstep hx)) hr hj (by omega) hfirst
      obtain ⟨-, hpassed⟩ := R.sole_pass hnone hplain hv hthere hedge (by omega) (by omega)
      rw [hpassed hfurther (fun u hu => hnew x (hstep hx) _ u (by omega) hfurther hu) u hu]
      have hlayer : (unwrap m).filter (Leads unwrap · x) = {m'} := by
        rw [hunwrap]
        exact Multiset.filter_eq_self.mpr (by simpa using hx)
      rw [hlayer]
    · intro x hx i u hi hij hu
      have hnone := (hrest.of_leads hx).1.2
      obtain ⟨hthere, hearlier⟩ :=
        R.sole_until hnone hplain (hnew x (hstep hx)) (hsole x (hstep hx)) hr hj (by omega) hfirst
      rcases lt_trichotomy i j with hlt | rfl | hgt
      · rcases lt_or_ge i r with hlt' | hge
        · exact hbefore x (hstep hx) i u hi hlt' hu
        · exact hearlier i u hge hlt hu
      · obtain ⟨hhandled, -⟩ := R.sole_pass hnone hplain hv hthere hedge (by omega) (by omega)
        rw [count_eq_of_filter (hhandled u hu)]
        have hne : x ≠ m := fun heq => hself (heq ▸ hx)
        split_ifs <;> simp [hne]
      · omega

end RelayRun
end Sole
end Pddm
