import Pddm.PathRounds

/-!
# Disjoint paths

What a path search that returns has found: paths that can be travelled in the order of the
rounds, and of which no two have a node in common.
-/
namespace Pddm

section Legs
variable {V : Type*} {next : ℤ → V → V} {source v w : V} {start r : ℤ} {rounds : List ℤ}
  {hops visited : List V}

/-- Each hop is where the edge of the hop before leads in the round of the hop, the source
being the first. -/
def Legs (next : ℤ → V → V) (source : V) (rounds : List ℤ) (hops : List V) : Prop :=
  rounds.length = hops.length ∧ ∀ (j : ℕ) (r : ℤ) (v w : V), rounds[j]? = some r →
    (source :: hops)[j]? = some v → hops[j]? = some w → next r v = w

theorem Legs.concat (h : Legs next source rounds hops) (hlast : (source :: hops).getLast? = some v)
    (hnext : next r v = w) : Legs next source (rounds ++ [r]) (hops ++ [w]) := by
  obtain ⟨hlength, hlegs⟩ := h
  refine ⟨by simp [hlength], fun j r' v' w' hr hv hw => ?_⟩
  rw [← List.cons_append] at hv
  by_cases hj : j < hops.length
  · rw [List.getElem?_append_left (by omega)] at hr
    rw [List.getElem?_append_left (by simp; omega)] at hv
    rw [List.getElem?_append_left hj] at hw
    exact hlegs j r' v' w' hr hv hw
  · have hj : j = hops.length := by
      have hlt := (List.getElem?_eq_some_iff.mp hw).1
      rw [List.length_append, List.length_singleton] at hlt
      omega
    subst hj
    rw [List.getLast?_eq_getElem?, List.length_cons, Nat.add_sub_cancel] at hlast
    rw [List.getElem?_append_left (by simp), hlast] at hv
    rw [← hlength, List.getElem?_concat_length] at hr
    rw [List.getElem?_concat_length] at hw
    obtain rfl := Option.some.inj hr
    obtain rfl := Option.some.inj hv
    obtain rfl := Option.some.inj hw
    exact hnext

theorem Journey.legs (h : Journey next source start visited r) :
    ∃ rounds hops, visited.reverse = source :: hops ∧ Legs next source rounds hops ∧
      rounds.Pairwise (· < ·) ∧ ∀ i ∈ rounds, start ≤ i ∧ i < r := by
  induction h with
  | source => exact ⟨[], [], rfl, ⟨rfl, by simp⟩, List.Pairwise.nil, by simp⟩
  | @pass v w visited r r' h hr hnext ih =>
    obtain ⟨rounds, hops, hhops, hlegs, hsorted, hrange⟩ := ih
    have hlast : (source :: hops).getLast? = some v := by
      rw [← hhops, List.getLast?_reverse]
      rfl
    refine ⟨rounds ++ [r'], hops ++ [w], ?_, hlegs.concat hlast hnext, ?_, ?_⟩
    · rw [List.reverse_cons, hhops, List.cons_append]
    · rw [List.pairwise_append]
      refine ⟨hsorted, List.pairwise_singleton _ _, fun i hi j hj => ?_⟩
      have hlt := (hrange i hi).2
      rw [List.mem_singleton.mp hj]
      omega
    · intro i hi
      have hstart := h.start_le
      rcases List.mem_append.mp hi with hi | hi
      · have hlt := hrange i hi
        omega
      · rw [List.mem_singleton.mp hi]
        omega

end Legs

/-- Lists without a common member that all meet a set are not more than it has members. -/
theorem length_le_card_of_meets {α : Type*} [DecidableEq α] {paths : List (List α)}
    (hdisjoint : paths.Pairwise List.Disjoint) {S : Finset α}
    (hmeets : ∀ path ∈ paths, ∃ v ∈ path, v ∈ S) : paths.length ≤ S.card := by
  induction paths generalizing S with
  | nil => exact Nat.zero_le _
  | cons path paths ih =>
    obtain ⟨hfirst, hrest⟩ := List.pairwise_cons.mp hdisjoint
    obtain ⟨hmeet, hmeets⟩ := List.forall_mem_cons.mp hmeets
    obtain ⟨v, hv, hvS⟩ := hmeet
    have hothers : ∀ other ∈ paths, ∃ w ∈ other, w ∈ S.erase v := by
      intro other hother
      obtain ⟨w, hw, hwS⟩ := hmeets other hother
      refine ⟨w, hw, Finset.mem_erase.mpr ⟨?_, hwS⟩⟩
      rintro rfl
      exact hfirst other hother hv hw
    have hle := ih hrest hothers
    rw [Finset.card_erase_of_mem hvS] at hle
    have hpos : 0 < S.card := Finset.card_pos.mpr ⟨v, hvS⟩
    rw [List.length_cons]
    omega

section Searches
variable {π : IterationOrder} {n source target start maxRound : ℤ} {used : List ℤ}

/-- What is known of a path when the nodes of `used` were to be avoided on the way. -/
structure IsPath (n source start maxRound : ℤ) (used : List ℤ) (target : ℤ) (path : List ℤ) :
    Prop where
  last : path.getLast? = some target
  nodup : (source :: path).Nodup
  avoids : ∀ v ∈ path.dropLast, v ∉ used
  legs : ∃ rounds : List ℤ, Legs (gossip n) source rounds path ∧ rounds.Pairwise (· < ·) ∧
    (∀ r ∈ rounds, start ≤ r ∧ r < maxRound) ∧ ∀ r ∈ rounds.getLast?, start + minPathLength ≤ r

theorem Found.isPath {k : ℕ} {found : List ℤ} (h : Found n source target start used k found)
    (hne : target ≠ source) (hk : start + k < maxRound) :
    ∃ path, found = source :: path ∧ IsPath n source start maxRound used target path := by
  obtain ⟨v, visited, j, hj, hforemost, hhit, rfl⟩ := h.way
  obtain ⟨rounds, hops, hhops, hlegs, hsorted, hrange⟩ := hforemost.journey.legs
  have hvisited : v :: visited = hops.reverse ++ [source] := by
    rw [← List.reverse_cons, ← hhops, List.reverse_reverse]
  have hspared := hforemost.spared
  have hnodup := hforemost.nodup
  rw [hvisited, List.dropLast_concat] at hspared
  rw [hvisited, ← List.reverse_cons, List.nodup_reverse] at hnodup
  have htarget : target ∉ source :: hops := by
    rintro (_ | ⟨_, hmem⟩)
    · exact hne rfl
    · exact hspared target (List.mem_reverse.mpr hmem) (.inr rfl)
  refine ⟨hops ++ [target], ?_, ?_, ?_, ?_, rounds ++ [start + k], ?_, ?_, ?_, ?_⟩
  · rw [List.reverse_cons, hhops, List.cons_append]
  · rw [List.getLast?_concat]
  · rw [← List.cons_append, List.nodup_append_comm]
    exact List.nodup_cons.mpr ⟨htarget, hnodup⟩
  · rw [List.dropLast_concat]
    exact fun w hw hused => hspared w (List.mem_reverse.mpr hw) (.inl hused)
  · refine hlegs.concat ?_ hhit
    rw [← hhops, List.getLast?_reverse]
    rfl
  · rw [List.pairwise_append]
    refine ⟨hsorted, List.pairwise_singleton _ _, fun i hi r hr => ?_⟩
    have hlt := (hrange i hi).2
    rw [List.mem_singleton.mp hr]
    omega
  · intro r hr
    rcases List.mem_append.mp hr with hr | hr
    · have hlt := hrange r hr
      omega
    · rw [List.mem_singleton.mp hr]
      omega
  · rw [List.getLast?_concat]
    rintro r hr
    obtain rfl := Option.some.inj hr
    have hlate := h.late
    omega

theorem IsPath.mono {used' path : List ℤ} (h : IsPath n source start maxRound used' target path)
    (hsub : used ⊆ used') : IsPath n source start maxRound used target path :=
  { h with avoids := fun v hv hused => h.avoids v hv (hsub hused) }

theorem IsPath.eq_concat {path : List ℤ} (h : IsPath n source start maxRound used target path) :
    path = path.dropLast ++ [target] :=
  (List.dropLast_append_getLast? target h.last).symm

theorem IsPath.target_notMem {path : List ℤ} (h : IsPath n source start maxRound used target path) :
    target ∉ path.dropLast := by
  have hnodup := (List.nodup_cons.mp h.nodup).2
  rw [h.eq_concat, List.nodup_append_comm] at hnodup
  exact (List.nodup_cons.mp hnodup).1

theorem exists_isPath {targets : List ℤ} {paths : List (List ℤ)}
    (hall : List.Forall₂ (IsPath n source start maxRound used) targets paths) {path : List ℤ}
    (hpath : path ∈ paths) :
    ∃ target ∈ targets, IsPath n source start maxRound used target path := by
  induction hall with
  | nil => contradiction
  | cons hfirst _ ih =>
    rcases List.mem_cons.mp hpath with rfl | hpath
    · exact ⟨_, List.mem_cons_self, hfirst⟩
    · obtain ⟨target, htarget, h⟩ := ih hpath
      exact ⟨target, List.mem_cons_of_mem _ htarget, h⟩

theorem findPathsFrom_isPath {targets : List ℤ} {paths : List (List ℤ)}
    (hpaths : findPathsFrom π source n start maxRound targets used = .ok paths)
    (hsource : source ∉ targets) :
    List.Forall₂ (IsPath n source start maxRound used) targets paths ∧
      paths.Pairwise fun path other => path.dropLast.Disjoint other.dropLast := by
  induction targets generalizing used paths with
  | nil =>
    obtain rfl := Except.ok.inj hpaths
    exact ⟨.nil, List.Pairwise.nil⟩
  | cons target targets ih =>
    rw [List.mem_cons, not_or] at hsource
    obtain ⟨found, used', rest, hanother, hrest, rfl⟩ := findPathsFrom_cons_eq_ok hpaths
    obtain ⟨k, hk, hfound, -⟩ := findAnother_ok hanother
    obtain ⟨path, rfl, hpath⟩ := hfound.isPath (Ne.symm hsource.1) hk
    have hused := (findAnother_eq_ok hanother).2
    have hsub : used ⊆ used' := by
      rw [hused]
      exact List.subset_append_left _ _
    obtain ⟨hall, hpairs⟩ := ih hrest hsource.2
    refine ⟨.cons hpath (hall.imp fun _ _ h => h.mono hsub), hpairs.cons fun other hother => ?_⟩
    intro v hv hv'
    obtain ⟨later, -, hlater⟩ := exists_isPath hall hother
    have hpathmem : v ∈ path := List.mem_of_mem_dropLast hv
    have hsourcene : v ≠ source := by
      rintro rfl
      exact (List.nodup_cons.mp hpath.nodup).1 hpathmem
    have htargetne : v ≠ target := by
      rintro rfl
      exact hpath.target_notMem hv
    -- the nodes on the way are used for the searches after it
    refine hlater.avoids v hv' ?_
    rw [hused, List.mem_append, List.mem_filter]
    exact .inr ⟨List.mem_cons_of_mem _ hpathmem, by simp [hsourcene, htargetne]⟩

/-- Paths to different targets have no node in common. -/
theorem paths_disjoint {targets : List ℤ} {paths : List (List ℤ)}
    (hall : List.Forall₂ (IsPath n source start maxRound used) targets paths)
    (hpairs : paths.Pairwise fun path other => path.dropLast.Disjoint other.dropLast)
    (hnodup : targets.Nodup) (hused : targets ⊆ used) : paths.Pairwise List.Disjoint := by
  induction hall with
  | nil => exact List.Pairwise.nil
  | @cons target path targets paths hpath hrest ih =>
    obtain ⟨hfirst, hpairs⟩ := List.pairwise_cons.mp hpairs
    obtain ⟨hnew, hnodup⟩ := List.nodup_cons.mp hnodup
    obtain ⟨htarget, hused⟩ := List.cons_subset.mp hused
    refine (ih hpairs hnodup hused).cons fun other hother v hv hv' => ?_
    obtain ⟨later, hlater, hotherpath⟩ := exists_isPath hrest hother
    rw [hpath.eq_concat, List.mem_append, List.mem_singleton] at hv
    rw [hotherpath.eq_concat, List.mem_append, List.mem_singleton] at hv'
    rcases hv with hv | rfl
    · rcases hv' with hv' | rfl
      · exact hfirst other hother hv hv'
      · exact hpath.avoids _ hv (hused hlater)
    · rcases hv' with hv' | rfl
      · exact hotherpath.avoids _ hv' htarget
      · exact hnew hlater

end Searches

/-- Whatever the order in which the infected nodes are gone through, a search that returns has
found for each target a path, in rounds that it can be travelled in, and no two of the paths
have a node in common. Fewer nodes than there are targets leave a path untouched. -/
theorem findPaths_disjoint (π : IterationOrder) {n source start : ℤ} {targets : List ℤ}
    {paths : List (List ℤ)} (hnodup : targets.Nodup) (hsource : source ∉ targets)
    (hpaths : findPaths π source targets n start = .ok paths) :
    List.Forall₂ (fun target path => path.getLast? = some target) targets paths ∧
      (∀ path ∈ paths, ∃ rounds : List ℤ,
        Legs (fun round id => gossipTarget id round n) source rounds path ∧
          rounds.Pairwise (· < ·) ∧
          (∀ r ∈ rounds, start ≤ r ∧ r < start + (ceilLog2 n * targets.length + 3 : ℕ)) ∧
          ∀ r ∈ rounds.getLast?, start + 3 ≤ r) ∧
      (∀ path ∈ paths, (source :: path).Nodup) ∧
      (∀ path ∈ paths, ∀ v ∈ path.dropLast, v ∉ targets) ∧
      (paths.Pairwise fun path other => path.dropLast.Disjoint other.dropLast) ∧
      ∀ S : Finset ℤ, S.card < targets.length → source ∉ S →
        ∃ path ∈ paths, ∀ v ∈ path, v ∉ S := by
  rw [findPaths_eq] at hpaths
  obtain ⟨hall, hpairs⟩ := findPathsFrom_isPath hpaths hsource
  refine ⟨hall.imp fun _ _ h => h.last, fun path hpath => ?_, fun path hpath => ?_,
    fun path hpath => ?_, hpairs, fun S hS _ => ?_⟩
  · obtain ⟨target, -, h⟩ := exists_isPath hall hpath
    exact h.legs
  · obtain ⟨target, -, h⟩ := exists_isPath hall hpath
    exact h.nodup
  · obtain ⟨target, -, h⟩ := exists_isPath hall hpath
    exact h.avoids
  · by_contra hall'
    have hmeets : ∀ path ∈ paths, ∃ v ∈ path, v ∈ S := by
      intro path hpath
      by_contra hnone
      exact hall' ⟨path, hpath, fun v hv hvS => hnone ⟨v, hv, hvS⟩⟩
    have hle := length_le_card_of_meets (paths_disjoint hall hpairs hnodup (List.Subset.refl _)) hmeets
    rw [← hall.length_eq] at hle
    omega

/-- The paths from meter 2 of 11 to five proxies. -/
theorem findPaths_disjoint_short :
    shortProxies.Nodup ∧ (2 : ℤ) ∉ shortProxies ∧
      (findPaths .insertion 2 shortProxies 11 0).toOption = some [[6, 0], [3], [10, 4], [7], [1, 8]] ∧
      ∀ S : Finset ℤ, S.card < shortProxies.length → 2 ∉ S →
        ∃ path ∈ [[6, 0], [3], [10, 4], [7], [1, 8]], ∀ v ∈ path, v ∉ S :=
  ⟨by decide, by decide, by rw [short_paths]; rfl,
    (findPaths_disjoint .insertion (by decide) (by decide) short_paths).2.2.2.2.2⟩

end Pddm
