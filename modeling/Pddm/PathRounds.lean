import Pddm.OverlayPhases
import Pddm.PathSearch

/-!
# In which rounds paths are travelled

A path is planned for certain rounds, but the nodes on it forward a message in the first
round they can.
-/
namespace Pddm

/-- The round from which on a path search gives up. -/
def searchLimit (numNodes startRound : ℤ) (targetIds : List ℤ) : ℤ :=
  startRound + (ceilLog2 numNodes * targetIds.length + minPathLength : ℕ)

theorem findPaths_eq (π : IterationOrder) (sourceId : ℤ) (targetIds : List ℤ)
    (numNodes startRound : ℤ) : findPaths π sourceId targetIds numNodes startRound =
      findPathsFrom π sourceId numNodes startRound (searchLimit numNodes startRound targetIds)
        targetIds targetIds := by
  unfold findPaths searchLimit
  norm_cast

section Minimum
variable {π : IterationOrder} {n source target start : ℤ} {excludeNodes : List ℤ}

/-- The node from which the infection first reaches the target had no edge to it before,
in a round that the search skips as too early. -/
def Unskipped (n source start target : ℤ) (excludeNodes : List ℤ) : Prop :=
  ∀ k v, minPathLength ≤ k → Hits n source target start excludeNodes k v →
    (∀ j, minPathLength ≤ j → j < k → ∀ w, ¬ Hits n source target start excludeNodes j w) →
    ∀ j < minPathLength, ¬ Hits n source target start excludeNodes j v

/-- Along the path a message takes the minimum of rounds exactly if its last edge was not
there before. -/
theorem Found.keepsMinimum_iff (hpos : 0 < n) (hlt : n < 2 ^ 31) (hsource : 0 ≤ source)
    (hsourcelt : source < n) {k : ℕ} {path : List ℤ}
    (hfound : Found n source target start excludeNodes k path) :
    (∃ r, Forwarded (gossip n) source start (path.tail.reverse ++ [source]) (r + 1) ∧
      start + minPathLength ≤ r) ↔ Unskipped n source start target excludeNodes := by
  obtain ⟨v, visited, j, hj, hforemost, hhit, hhops⟩ := hfound.hops
  have hv : Hits n source target start excludeNodes k v :=
    ⟨infected_mono hj hforemost.mem_infected, hhit⟩
  have hplan : Journey (gossip n) source start (target :: v :: visited) (start + k + 1) :=
    hforemost.journey.pass (by omega) hhit
  obtain ⟨r', -, hforwarded⟩ := hplan.exists_forwarded
  obtain ⟨r, rfl⟩ : ∃ r, r' = r + 1 := ⟨r' - 1, by ring⟩
  have harrival := hforemost.le_arrival_iff hforwarded minPathLength
  rw [hhops]
  constructor
  · rintro ⟨i, hi, hmin⟩ k' v' hlate' hhit' hfirst' m hm hskipped
    obtain rfl : i = r := by
      have hsame := hi.unique hforwarded
      omega
    obtain rfl : k' = k := by
      rcases Nat.lt_trichotomy k' k with hlt | heq | hgt
      · exact absurd hhit' (hfound.first k' hlate' hlt v')
      · exact heq
      · exact absurd hv (hfirst' k hfound.late hgt v)
    obtain ⟨h0, h1⟩ := searched_mem hpos hlt hsource hsourcelt hhit'.1
    obtain ⟨h2, h3⟩ := searched_mem hpos hlt hsource hsourcelt hv.1
    obtain rfl := gossip_injOn hpos hlt h0 h1 h2 h3 (hhit'.2.trans hv.2.symm)
    exact harrival.mp hmin m hm hskipped.1 hskipped.2
  · intro hunskipped
    refine ⟨r, hforwarded, harrival.mpr fun m hm hinfected hedge => ?_⟩
    exact hunskipped k v hfound.late hv hfound.first m hm ⟨hinfected, hedge⟩

end Minimum

/-- Messages take the minimum of rounds along all paths exactly if in each search the edge
that completes the path was not skipped before. -/
theorem minimum_distance_iff (π : IterationOrder) {n source start : ℤ} {targets : List ℤ}
    {paths : List (List ℤ)} (hlt : n < 2 ^ 31) (hsource : 0 ≤ source) (hsourcelt : source < n)
    (hpaths : findPaths π source targets n start = .ok paths) :
    (∀ path ∈ paths, ∃ r, Forwarded (gossip n) source start (path.reverse ++ [source]) (r + 1) ∧
      start + minPathLength ≤ r) ↔
    EachSearch (Unskipped n source start) π source n start (searchLimit n start targets)
      targets targets := by
  rw [findPaths_eq] at hpaths
  refine forall_paths_iff (fun target usedNodes path used hfound => ?_) hpaths
  obtain ⟨k, -, hfound, -⟩ := findAnother_ok hfound
  exact hfound.keepsMinimum_iff (by omega) hlt hsource hsourcelt

/-- Meter 2 of 11 looks for paths to its proxies. -/
def shortProxies : List ℤ := [0, 3, 4, 7, 8]

theorem short_paths : findPaths .insertion 2 shortProxies 11 0 =
    .ok [[6, 0], [3], [10, 4], [7], [1, 8]] := by
  decide +kernel

theorem short_minimum_distance_iff :
    (∀ path ∈ [[6, 0], [3], [10, 4], [7], [1, 8]],
      ∃ r, Forwarded (gossip 11) 2 0 (path.reverse ++ [2]) (r + 1) ∧ 0 + minPathLength ≤ r) ↔
    EachSearch (Unskipped 11 2 0) .insertion 2 11 0 (searchLimit 11 0 shortProxies)
      shortProxies shortProxies :=
  minimum_distance_iff .insertion (by decide) (by decide) (by decide) short_paths

/-- Meter 3 is found by a path of one hop, planned for round 10, which is open in round 0. -/
theorem path_travelled_at_once :
    ¬ ∀ paths, findPaths .insertion 2 shortProxies 11 0 = .ok paths → ∀ path ∈ paths,
      ∃ r, Forwarded (gossip 11) 2 0 (path.reverse ++ [2]) (r + 1) ∧ 0 + minPathLength ≤ r := by
  intro h
  obtain ⟨r, hr, hmin⟩ := h _ short_paths [3] (by decide)
  have hatOnce : Forwarded (gossip 11) 2 0 [3, 2] (0 + 1) := by
    refine .pass .source le_rfl ?_ fun j hle hlt => ?_
    · decide +kernel
    · omega
  have hround := hr.unique hatOnce
  have hthree : (minPathLength : ℤ) = 3 := rfl
  omega

section Planned
variable {π : IterationOrder} {n source start maxRound limit : ℤ}

/-- The rounds in which the searches of `find_paths` reach their targets, as far as they do. -/
def plannedRoundsFrom (π : IterationOrder) (sourceId numNodes startRound maxRound : ℤ) :
    List ℤ → List ℤ → List ℤ
  | [], _ => []
  | target :: targets, usedNodes =>
      (targetRound π sourceId target numNodes startRound maxRound usedNodes).toList ++
        match findAnother π sourceId target numNodes startRound maxRound usedNodes with
        | .ok (_, used) => plannedRoundsFrom π sourceId numNodes startRound maxRound targets used
        | .error _ => []

def plannedRounds (π : IterationOrder) (sourceId : ℤ) (targetIds : List ℤ)
    (numNodes startRound : ℤ) : List ℤ :=
  plannedRoundsFrom π sourceId numNodes startRound (searchLimit numNodes startRound targetIds)
    targetIds targetIds

/-- Each path comes from a search, which reached its target in the planned round. -/
theorem exists_planned {targets usedNodes : List ℤ} {paths : List (List ℤ)}
    (hpaths : findPathsFrom π source n start maxRound targets usedNodes = .ok paths) {i : ℕ}
    {path : List ℤ} (hpath : paths[i]? = some path) :
    ∃ k target used found, Found n source target start used k found ∧ path = found.tail ∧
      (plannedRoundsFrom π source n start maxRound targets usedNodes)[i]? = some (start + k) := by
  induction targets generalizing usedNodes paths i with
  | nil =>
    obtain rfl := Except.ok.inj hpaths
    simp at hpath
  | cons target targets ih =>
    obtain ⟨found, used, rest, hsearch, hrest, rfl⟩ := findPathsFrom_cons_eq_ok hpaths
    obtain ⟨k, -, hfound, hplanned⟩ := findAnother_ok hsearch
    have hrounds : plannedRoundsFrom π source n start maxRound (target :: targets) usedNodes =
        (start + k) :: plannedRoundsFrom π source n start maxRound targets used := by
      rw [plannedRoundsFrom, hplanned, hsearch]
      rfl
    rw [hrounds]
    cases i with
    | zero =>
      obtain rfl := Option.some.inj hpath
      exact ⟨k, target, usedNodes, found, hfound, rfl, rfl⟩
    | succ i => exact ih hrest hpath

/-- In some round up to the limit, and not too early, an infected node has an edge to the
target. -/
def HitBy (n source start limit target : ℤ) (usedNodes : List ℤ) : Prop :=
  ∃ k v, minPathLength ≤ k ∧ start + k ≤ limit ∧ Hits n source target start usedNodes k v

/-- A search succeeds in time exactly if the infection it follows does. -/
theorem search_inTime_iff (π : IterationOrder) {target : ℤ} {usedNodes : List ℤ} (htarget : target < n)
    (hlimit : limit < maxRound) :
    (∃ path used, findAnother π source target n start maxRound usedNodes = .ok (path, used) ∧
      ∀ round ∈ targetRound π source target n start maxRound usedNodes, round ≤ limit) ↔
    HitBy n source start limit target usedNodes := by
  have hspec := findPath_spec π n source target start maxRound usedNodes
  constructor
  · rintro ⟨path, used, hfound, hround⟩
    obtain ⟨k, hk, hfound, hplanned⟩ := findAnother_ok hfound
    obtain ⟨v, visited, j, hj, hforemost, hhit, -⟩ := hfound.way
    exact ⟨k, v, hfound.late, hround _ hplanned, infected_mono hj hforemost.mem_infected, hhit⟩
  · rintro ⟨k, v, hlate, hk, hhit⟩
    cases hpath : findPath π source target n start maxRound usedNodes with
    | error e =>
      rw [hpath] at hspec
      exact absurd hhit (hspec k hlate (by omega) v)
    | ok path =>
      rw [hpath] at hspec
      obtain ⟨k', hk', hfound, hplanned⟩ := hspec
      refine ⟨path, usedNodes ++ path.filter fun hop => hop ≠ source ∧ hop ≠ target, ?_, ?_⟩
      · unfold findAnother
        rw [if_neg (by omega)]
        simp [hpath]
      · intro round hround
        obtain rfl : start + (k' : ℤ) = round := Option.some.inj (hplanned.symm.trans hround)
        have hle : k' ≤ k := by
          by_contra hlt
          exact hfound.first k hlate (by omega) v hhit
        omega

theorem searches_inTime_iff {targets usedNodes : List ℤ} (htargets : ∀ target ∈ targets, target < n)
    (hlimit : limit < maxRound) :
    ((∃ paths, findPathsFrom π source n start maxRound targets usedNodes = .ok paths) ∧
      ∀ round ∈ plannedRoundsFrom π source n start maxRound targets usedNodes, round ≤ limit) ↔
    EachSearch (HitBy n source start limit) π source n start maxRound targets usedNodes := by
  induction targets generalizing usedNodes with
  | nil =>
    simp [findPathsFrom, plannedRoundsFrom, EachSearch]
  | cons target targets ih =>
    have hsearch : _ ↔ HitBy n source start limit target usedNodes :=
      search_inTime_iff π (htargets target (by simp)) hlimit
    have hrest (used : List ℤ) := @ih used fun t ht => htargets t (List.mem_cons_of_mem _ ht)
    rw [EachSearch, ← hsearch]
    unfold findPathsFrom plannedRoundsFrom
    cases hfound : findAnother π source target n start maxRound usedNodes with
    | error e => simp [bind, Except.bind]
    | ok found =>
      obtain ⟨path, used⟩ := found
      have heach : (∀ path' used', Except.ok (path, used) = (Except.ok (path', used') : Except Fault _) →
          EachSearch (HitBy n source start limit) π source n start maxRound targets used') ↔
          EachSearch (HitBy n source start limit) π source n start maxRound targets used := by
        constructor
        · exact fun h => h path used rfl
        · rintro h path' used' heq
          obtain ⟨-, rfl⟩ := Prod.mk.inj (Except.ok.inj heq)
          exact h
      rw [heach, ← hrest used]
      constructor
      · rintro ⟨⟨paths, hpaths⟩, hrounds⟩
        have hfirst (round : ℤ)
            (hround : round ∈ targetRound π source target n start maxRound usedNodes) :
            round ≤ limit := by
          apply hrounds
          exact List.mem_append_left _ (Option.mem_toList.mpr hround)
        refine ⟨⟨path, used, rfl, hfirst⟩, ?_, fun round hround => ?_⟩
        · rw [ok_bind] at hpaths
          obtain ⟨rest, hlater, -⟩ := exists_of_bind_eq_ok hpaths
          exact ⟨rest, hlater⟩
        · exact hrounds round (List.mem_append_right _ hround)
      · rintro ⟨⟨_, _, -, hfirst⟩, ⟨rest, hlater⟩, hrounds⟩
        refine ⟨⟨path.tail :: rest, by simp [hlater]⟩, fun round hround => ?_⟩
        rcases List.mem_append.mp hround with hround | hround
        · exact hfirst round (Option.mem_toList.mp hround)
        · exact hrounds round hround

end Planned

def lastShuffleRound (failuresTolerated : ℕ) (numMeters : ℤ) : ℤ :=
  failuresTolerated + 2 * ceilLog2 numMeters + 1

/-- The paths to a meter's proxies are found, and planned to end in Shuffle, exactly if in
each search the infection meets the target by then. -/
theorem paths_end_in_shuffle_iff (π : IterationOrder) {n source : ℤ} {failuresTolerated : ℕ}
    {draws : ℕ → ℤ} {proxies : List ℤ} (hfailures : failuresTolerated = ceilLog2 n)
    (hdraws : ValidDraws draws source (failuresTolerated + 1) n)
    (hproxies : pickProxies draws source (failuresTolerated + 1) n = .ok proxies) :
    ((∃ paths, findPaths π source proxies n 0 = .ok paths) ∧
      ∀ round ∈ plannedRounds π source proxies n 0, round ≤ lastShuffleRound failuresTolerated n) ↔
    EachSearch (HitBy n source 0 (lastShuffleRound failuresTolerated n)) π source n 0
      (searchLimit n 0 proxies) proxies proxies := by
  obtain ⟨hlength, hmeters⟩ := pickProxies_spec hdraws hproxies
  have hlimit : lastShuffleRound failuresTolerated n < searchLimit n 0 proxies := by
    have hlength' : proxies.length = ceilLog2 n + 1 := by omega
    unfold lastShuffleRound searchLimit minPathLength
    rw [hlength', hfailures]
    push_cast
    nlinarith [sq_nonneg ((ceilLog2 n : ℤ) - 1)]
  rw [findPaths_eq, plannedRounds]
  exact searches_inTime_iff (fun target htarget => (hmeters target htarget).2) hlimit

section Samples

/-- Proxies of meter 27 of 29, one in each of 6 groups. -/
def sampleProxies : List ℤ := [0, 5, 8, 13, 18, 28]

def sampleDraws (group : ℕ) : ℤ := [0, 5, 8, 13, 18, 27].getD group 0

theorem sampleDraws_valid : ValidDraws sampleDraws 27 6 29 := by
  intro g hg
  have hlt : g < 6 := by omega
  interval_cases g <;> decide

theorem sampleProxies_picked : pickProxies sampleDraws 27 6 29 = .ok sampleProxies := by
  decide +kernel

theorem sample_paths_end_in_shuffle_iff :
    ((∃ paths, findPaths .insertion 27 sampleProxies 29 0 = .ok paths) ∧
      ∀ round ∈ plannedRounds .insertion 27 sampleProxies 29 0, round ≤ lastShuffleRound 5 29) ↔
    EachSearch (HitBy 29 27 0 (lastShuffleRound 5 29)) .insertion 27 29 0
      (searchLimit 29 0 sampleProxies) sampleProxies sampleProxies :=
  paths_end_in_shuffle_iff .insertion (by decide) sampleDraws_valid sampleProxies_picked

/-- The path to meter 28 is planned to end in round 28, when Shuffle has ended in round 16. -/
theorem path_planned_after_shuffle :
    ¬ ∀ draws proxies, ValidDraws draws 27 6 29 → pickProxies draws 27 6 29 = .ok proxies →
      (∃ paths, findPaths .insertion 27 proxies 29 0 = .ok paths) ∧
        ∀ round ∈ plannedRounds .insertion 27 proxies 29 0, round ≤ lastShuffleRound 5 29 := by
  intro h
  have hlate : 28 ∈ plannedRounds .insertion 27 sampleProxies 29 0 := by decide +kernel
  have hround := (h sampleDraws sampleProxies sampleDraws_valid sampleProxies_picked).2 28 hlate
  exact absurd hround (by decide)

end Samples
end Pddm
