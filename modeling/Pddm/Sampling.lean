import Pddm.Forest
import Pddm.HftProtocol
import Pddm.OverlayPhases

/-!
# Random picks

What the functions that pick at random return, whatever the outcomes of their draws:
proxies, samples of a range with values to leave out, and distinct values below a bound.
-/
namespace Pddm

section Proxies
variable {G N : ℤ}

theorem pickProxy_ne {choice nodeId groupBegin groupEnd : ℤ}
    (hend : choice ≤ if groupBegin ≤ nodeId ∧ nodeId ≤ groupEnd then groupEnd - 1 else groupEnd)
    (hbegin : groupBegin ≤ choice) : pickProxy choice nodeId groupBegin groupEnd ≠ nodeId := by
  unfold pickProxy randomIntExclude
  split_ifs at hend ⊢ <;> omega

theorem drawRange_nonempty (h : ValidSizes G N) {g : ℤ} (hlt : g < G) (nodeId : ℤ) :
    (proxyRange G N g).1 ≤
      if (proxyRange G N g).1 ≤ nodeId ∧ nodeId ≤ (proxyRange G N g).2 then (proxyRange G N g).2 - 1
      else (proxyRange G N g).2 := by
  have hsize := h.size
  obtain ⟨hle, hlow, hhigh⟩ := h.nonempty.secondLast
  have hgroup : 2 ≤ groupSize g G N := by
    unfold groupSize groupFirst
    split_ifs <;> omega
  rw [proxyRange_eq hlt]
  split_ifs <;> omega

/-- Every draw is made from a range with a number in it, and whatever is drawn, there is one
proxy in each group, in the order of the groups, and the node itself is not one of them. -/
theorem pickProxies_law {G N : ℤ} (hG : 2 ≤ G) (hsize : 2 ≤ N.tdiv G) (nodeId : ℤ) :
    (∀ g : ℕ, (g : ℤ) < G → (proxyRange G N g).1 ≤
      if (proxyRange G N g).1 ≤ nodeId ∧ nodeId ≤ (proxyRange G N g).2 then
        (proxyRange G N g).2 - 1
      else (proxyRange G N g).2) ∧
      ∀ draws : ℕ → ℤ, ValidDraws draws nodeId G N →
        ∃ proxies : List ℤ, pickProxies draws nodeId G N = .ok proxies ∧
          (proxies.length : ℤ) = G ∧ proxies.Pairwise (· < ·) ∧
          ∀ (g : ℕ) (hg : g < proxies.length), 0 ≤ proxies[g] ∧ proxies[g] < N ∧
            aggregationGroupFor proxies[g] G N = g ∧ proxies[g] ≠ nodeId := by
  have h : ValidSizes G N := ⟨hG, hsize⟩
  refine ⟨fun g hg => drawRange_nonempty h hg nodeId, fun draws hdraws => ?_⟩
  refine ⟨_, pickProxies_eq h draws nodeId, ?_, ?_, fun g hg => ?_⟩
  · rw [List.length_map, List.length_range, Int.toNat_of_nonneg (by omega)]
  · rw [List.pairwise_map]
    refine List.pairwise_lt_range.imp_of_mem fun {g g'} hg hg' hlt => ?_
    have hrange := List.mem_range.mp hg
    have hrange' := List.mem_range.mp hg'
    have hmem := pickProxy_mem_group h hdraws (g := g) (by omega)
    have hmem' := pickProxy_mem_group h hdraws (g := g') (by omega)
    rw [mem_groupMembers_iff h.nonempty (by omega) (by omega)] at hmem hmem'
    have hle := groupFirst_add_le h.nonempty (Int.ofNat_lt.mpr hlt) (show (g' : ℤ) < G by omega)
    omega
  · rw [List.length_map, List.length_range] at hg
    have hgroup : (g : ℤ) < G := by omega
    obtain ⟨hnonneg, hlt, hfor⟩ := mem_groupMembers.mp (pickProxy_mem_group h hdraws hgroup)
    obtain ⟨hbegin, hend⟩ := hdraws g hgroup
    simp only [List.getElem_map, List.getElem_range]
    exact ⟨hnonneg, hlt, hfor, pickProxy_ne hend hbegin⟩

/-- A node that would draw itself gets the last meter of its group instead. -/
theorem pickProxies_law_eight : (2 ≤ (3 : ℤ) ∧ 2 ≤ Int.tdiv 8 3) ∧
    ∃ proxies : List ℤ, pickProxies (fun g => 3 * g) 3 3 8 = .ok proxies ∧
      (proxies.length : ℤ) = 3 ∧ proxies.Pairwise (· < ·) ∧
      ∀ (g : ℕ) (hg : g < proxies.length), 0 ≤ proxies[g] ∧ proxies[g] < 8 ∧
        aggregationGroupFor proxies[g] 3 8 = g ∧ proxies[g] ≠ 3 := by
  refine ⟨by decide, (pickProxies_law (G := 3) (N := 8) (by decide) (by decide) 3).2 _ ?_⟩
  intro g hg
  have hlt : g < 3 := by omega
  interval_cases g <;> decide

end Proxies

section Excluding

theorem setIntersection_eq_filter {xs ys : List ℤ} (hxs : xs.Pairwise (· < ·))
    (hys : ys.Pairwise (· ≤ ·)) : setIntersection xs ys = xs.filter (· ∈ ys) := by
  induction xs generalizing ys with
  | nil => rw [setIntersection, List.filter_nil]
  | cons x xs ih =>
    obtain ⟨hx, hxs⟩ := List.pairwise_cons.mp hxs
    have hmem (z : ℤ) (hz : x ≤ z) : z ∈ ys.dropWhile (· < x) ↔ z ∈ ys := by
      constructor
      · exact fun h => (List.dropWhile_sublist _).subset h
      · intro h
        rw [← List.takeWhile_append_dropWhile (p := (· < x)) (l := ys), List.mem_append] at h
        refine h.resolve_left fun htake => ?_
        have hlt := List.mem_takeWhile_imp htake
        simp only [decide_eq_true_eq] at hlt
        omega
    have hrest := List.Pairwise.sublist (List.dropWhile_sublist (· < x)) hys
    rw [setIntersection]
    cases hdrop : ys.dropWhile (· < x) with
    | nil =>
      rw [hdrop] at hmem
      symm
      rw [List.filter_eq_nil_iff]
      intro z hz
      have hle : x ≤ z := by
        rcases List.mem_cons.mp hz with rfl | hz
        · exact le_rfl
        · exact (hx z hz).le
      simpa using (hmem z hle).not.mp (by simp)
    | cons y rest =>
      rw [hdrop] at hmem hrest
      have hle : x ≤ y := by
        have hhead := List.head_dropWhile_not (fun z => decide (z < x)) (l := ys) (by simp [hdrop])
        simpa [hdrop] using hhead
      have hfilter : xs.filter (· ∈ ys) = xs.filter (· ∈ y :: rest) :=
        List.filter_congr fun z hz => by simp only [hmem z (hx z hz).le]
      have hhead : x ∈ ys ↔ x = y := by
        rw [← hmem x le_rfl, List.mem_cons, or_iff_left_iff_imp]
        exact fun hmem => le_antisymm hle ((List.pairwise_cons.mp hrest).1 x hmem)
      rw [List.filter_cons, hfilter]
      by_cases heq : x = y
      · subst heq
        simp only [lt_irrefl, if_false, hhead, decide_true, if_true]
        rw [ih hxs (List.pairwise_cons.mp hrest).2]
        congr 1
        exact List.filter_congr fun z hz => by simp [(hx z hz).ne']
      · have hlt : x < y := lt_of_le_of_ne hle heq
        simp only [if_pos hlt, hhead, heq, decide_false, Bool.false_eq_true, if_false]
        exact ih hxs hrest

/-- What a sample of so many values of a range is to be, with these left out. -/
structure IsSample (rangeBegin rangeEnd : ℤ) (excludeValues : List ℤ) (numberToSample : ℕ)
    (sample : List ℤ) : Prop where
  length : sample.length = numberToSample
  nodup : sample.Nodup
  range : ∀ x ∈ sample, rangeBegin ≤ x ∧ x < rangeEnd
  notMem : ∀ x ∈ sample, x ∉ excludeValues

/-- A sorted list of values of a range. -/
structure Excludable (rangeBegin rangeEnd : ℤ) (excludeValues : List ℤ) : Prop where
  sorted : excludeValues.Pairwise (· ≤ ·)
  range : ∀ x ∈ excludeValues, rangeBegin ≤ x ∧ x < rangeEnd

variable {b e : ℤ} {excludeValues : List ℤ} {n : ℕ} (π : IterationOrder)

/-- What the sample is taken from: the excluded values, each once. -/
def sampledFrom (rangeBegin rangeEnd : ℤ) (excludeValues : List ℤ) : List ℤ :=
  π.order (setIntersection
    ((List.range (rangeEnd - rangeBegin).toNat).map fun i : ℕ => rangeBegin + i) excludeValues)

theorem sampleRangeExcluding_eq : sampleRangeExcluding π b e excludeValues n =
    (sampledFrom π b e excludeValues).take n ++
      List.replicate (n - (sampledFrom π b e excludeValues).length) 0 := rfl

theorem length_sampleRangeExcluding (b e : ℤ) (excludeValues : List ℤ) (n : ℕ) :
    (sampleRangeExcluding π b e excludeValues n).length = n := by
  rw [sampleRangeExcluding_eq, List.length_append, List.length_take, List.length_replicate]
  omega

theorem range_sorted (b e : ℤ) :
    ((List.range (e - b).toNat).map fun i : ℕ => b + i).Pairwise (· < ·) := by
  rw [List.pairwise_map]
  exact List.pairwise_lt_range.imp fun hlt => by omega

theorem mem_range_iff {b e x : ℤ} :
    (x ∈ (List.range (e - b).toNat).map fun i : ℕ => b + i) ↔ b ≤ x ∧ x < e := by
  rw [List.mem_map]
  constructor
  · rintro ⟨i, hi, rfl⟩
    have hlt := List.mem_range.mp hi
    omega
  · rintro ⟨hle, hlt⟩
    exact ⟨(x - b).toNat, List.mem_range.mpr (by omega), by omega⟩

theorem sampledFrom_perm (h : Excludable b e excludeValues) :
    (sampledFrom π b e excludeValues).Perm
      (((List.range (e - b).toNat).map fun i : ℕ => b + i).filter (· ∈ excludeValues)) := by
  rw [sampledFrom, setIntersection_eq_filter (range_sorted b e) h.sorted]
  exact π.perm _

theorem mem_sampledFrom (h : Excludable b e excludeValues) {x : ℤ} :
    x ∈ sampledFrom π b e excludeValues ↔ x ∈ excludeValues := by
  rw [(sampledFrom_perm π h).mem_iff, List.mem_filter, mem_range_iff, decide_eq_true_iff,
    and_iff_right_iff_imp]
  exact h.range x

theorem sampledFrom_nodup (h : Excludable b e excludeValues) :
    (sampledFrom π b e excludeValues).Nodup :=
  (sampledFrom_perm π h).nodup_iff.mpr (((range_sorted b e).imp ne_of_lt).filter _)

/-- An entry of the sample is an excluded value as long as there are any, and then 0. -/
theorem getElem_sampleRangeExcluding (h : Excludable b e excludeValues) {i : ℕ}
    (hi : i < (sampleRangeExcluding π b e excludeValues n).length) :
    if i < (sampledFrom π b e excludeValues).length then
      (sampleRangeExcluding π b e excludeValues n)[i] ∈ excludeValues
    else (sampleRangeExcluding π b e excludeValues n)[i] = 0 := by
  have hin := hi
  rw [length_sampleRangeExcluding] at hin
  simp only [sampleRangeExcluding_eq]
  split_ifs with hlt
  · rw [List.getElem_append_left (by rw [List.length_take]; omega), List.getElem_take,
      ← mem_sampledFrom π h]
    exact List.getElem_mem hlt
  · rw [List.getElem_append_right (by rw [List.length_take]; omega), List.getElem_replicate]

theorem isSample_iff (h : Excludable b e excludeValues) :
    IsSample b e excludeValues n (sampleRangeExcluding π b e excludeValues n) ↔
      n = 0 ∨ excludeValues = [] ∧ n = 1 ∧ b ≤ 0 ∧ 0 < e := by
  have hlength := length_sampleRangeExcluding π b e excludeValues n
  have hempty : excludeValues = [] ↔ (sampledFrom π b e excludeValues).length = 0 := by
    simp only [List.length_eq_zero_iff, List.eq_nil_iff_forall_not_mem, mem_sampledFrom π h]
  constructor
  · intro hsample
    by_cases hn : n = 0
    · exact .inl hn
    have hfirst := getElem_sampleRangeExcluding π h (n := n) (i := 0) (by omega)
    have hmem : (sampleRangeExcluding π b e excludeValues n)[0] ∈
        sampleRangeExcluding π b e excludeValues n := List.getElem_mem _
    split_ifs at hfirst with hpos
    · exact absurd hfirst (hsample.notMem _ hmem)
    · have hrange := hsample.range _ hmem
      rw [hfirst] at hrange
      refine .inr ⟨hempty.mpr (by omega), ?_, hrange⟩
      by_contra hone
      have hsecond := getElem_sampleRangeExcluding π h (n := n) (i := 1) (by omega)
      rw [if_neg (by omega), ← hfirst] at hsecond
      exact absurd ((hsample.nodup.getElem_inj_iff).mp hsecond) (by decide)
  · rintro (rfl | ⟨hnil, rfl, hb, he⟩)
    · have hnil := List.length_eq_zero_iff.mp hlength
      exact ⟨hlength, by simp [hnil], by simp [hnil], by simp [hnil]⟩
    · have hsample : sampleRangeExcluding π b e excludeValues 1 = [0] := by
        rw [sampleRangeExcluding_eq, List.length_eq_zero_iff.mp (hempty.mp hnil)]
        rfl
      rw [hsample, hnil]
      exact ⟨rfl, by simp, by simp [hb, he], by simp⟩

end Excluding

section Relays

theorem mem_assignRelay {relays : OrderedMap ℤ ℤ} {entry e : ℤ × ℤ} :
    e ∈ assignRelay relays entry ↔ e = entry ∨ e ∈ relays ∧ e.1 ≠ entry.1 := by
  have hkey (e' : ℤ × ℤ) :
      e' ∈ relays.filter (fun e => e.1 ≠ entry.1) ↔ e' ∈ relays ∧ e'.1 ≠ entry.1 := by
    rw [OrderedMap.mem_filter, decide_eq_true_iff]
  have hnew : entry.1 ∉ (relays.filter fun e => e.1 ≠ entry.1).keys := by
    rw [OrderedMap.mem_keys]
    rintro ⟨v, hv⟩
    exact ((hkey _).mp hv).2 rfl
  rw [assignRelay, OrderedMap.mem_insertNew, hkey, and_iff_left hnew, or_comm]

/-- Of the assignments with the same key, the last one stays. -/
theorem mem_foldl_assignRelay (entries : List (ℤ × ℤ)) {e : ℤ × ℤ} :
    e ∈ entries.foldl assignRelay OrderedMap.empty ↔ ∃ (i : ℕ) (hi : i < entries.length),
      entries[i] = e ∧ ∀ (j : ℕ) (hj : j < entries.length), i < j → entries[j].1 ≠ e.1 := by
  induction entries using List.reverseRecOn with
  | nil => simp [OrderedMap.mem_def, OrderedMap.empty]
  | append_singleton entries x ih =>
    have hsize : (entries ++ [x]).length = entries.length + 1 := by simp
    have hold (j : ℕ) (hj : j < entries.length) (hj' : j < (entries ++ [x]).length) :
        (entries ++ [x])[j] = entries[j] := List.getElem_append_left hj
    have hlast (hlt : entries.length < (entries ++ [x]).length) :
        (entries ++ [x])[entries.length] = x := by simp
    rw [List.foldl_append, List.foldl_cons, List.foldl_nil, mem_assignRelay, ih]
    constructor
    · rintro (rfl | ⟨⟨i, hi, rfl, hlater⟩, hne⟩)
      · exact ⟨entries.length, by omega, hlast _, fun j hj hlt => by omega⟩
      · refine ⟨i, by omega, hold i hi _, fun j hj hlt => ?_⟩
        by_cases hjold : j < entries.length
        · rw [hold j hjold]
          exact hlater j hjold hlt
        · obtain rfl : j = entries.length := by omega
          rw [hlast]
          exact hne.symm
    · rintro ⟨i, hi, rfl, hlater⟩
      by_cases hiold : i < entries.length
      · have hne := hlater entries.length (by omega) hiold
        rw [hlast] at hne
        refine .inr ⟨⟨i, hiold, (hold i hiold hi).symm, fun j hj hlt => ?_⟩, hne.symm⟩
        rw [← hold j hj (by omega)]
        exact hlater j (by omega) hlt
      · obtain rfl : i = entries.length := by omega
        exact .inl (hlast _)

/-- The relays that a meter assigns to its proxies. -/
def relaysFor (shuffle : IterationOrder) (numMeters : ℤ) (proxies : List ℤ) : OrderedMap ℤ ℤ :=
  let proxies := proxies.insertionSort (· ≤ ·)
  let nonProxies := sampleRangeExcluding shuffle 0 numMeters proxies proxies.length
  (proxies.zip nonProxies).foldl assignRelay OrderedMap.empty

theorem HftProtocolState.startQueryImpl_eq (env : ProtocolEnv)
    (endOverlayRound : State → Outcome Fault State) (request : QueryRequest) (s : State)
    {contribution : ValueTuple} (h : s.myContribution = some contribution) :
    startQueryImpl env endOverlayRound request s =
      endOverlayRound (ProtocolState.leaving { s with
        myContribution :=
          some { contribution with proxies := contribution.proxies.insertionSort (· ≤ ·) }
        impl := ⟨.scatter, 0, ((relaysFor (env.shuffle s.trace.length) env.numMeters
          contribution.proxies).entries.map (scatterMessage env request.queryNumber
            (.ofTuple contribution))).foldl emplaceMessage [], []⟩ } .start) := by
  unfold startQueryImpl
  rw [h]
  rfl

/-- Every relay is a meter that is not a proxy, and none is the relay of two proxies. -/
structure RelaysApart (numMeters : ℤ) (proxies : List ℤ) (relays : OrderedMap ℤ ℤ) : Prop where
  nodup : (relays.entries.map Prod.snd).Nodup
  range : ∀ e ∈ relays, 0 ≤ e.2 ∧ e.2 < numMeters
  notMem : ∀ e ∈ relays, e.2 ∉ proxies

theorem mem_relays {proxies nonProxies : List ℤ} (hlength : nonProxies.length = proxies.length)
    {e : ℤ × ℤ} : e ∈ (proxies.zip nonProxies).foldl assignRelay OrderedMap.empty ↔
      ∃ (i : ℕ) (hi : i < proxies.length), e = (proxies[i], nonProxies[i]) ∧
        ∀ (j : ℕ) (hj : j < proxies.length), i < j → proxies[j] ≠ proxies[i] := by
  have hzip : (proxies.zip nonProxies).length = proxies.length := by
    rw [List.length_zip, hlength, min_self]
  rw [mem_foldl_assignRelay]
  constructor
  · rintro ⟨i, hi, rfl, hlater⟩
    refine ⟨i, by omega, List.getElem_zip, fun j hj hlt => ?_⟩
    have hne := hlater j (by omega) hlt
    rw [List.getElem_zip, List.getElem_zip] at hne
    exact hne
  · rintro ⟨i, hi, rfl, hlater⟩
    refine ⟨i, by omega, List.getElem_zip, fun j hj hlt => ?_⟩
    rw [List.getElem_zip]
    exact hlater j (by omega) hlt

variable (π : IterationOrder) {N : ℤ} {proxies : List ℤ}

/-- The relay of the proxy at a place of the list that is the last one with that proxy. -/
theorem relay_mem (hex : Excludable 0 N proxies) {i : ℕ} (hi : i < proxies.length)
    (hlater : ∀ (j : ℕ) (hj : j < proxies.length), i < j → proxies[j] ≠ proxies[i])
    (happart : RelaysApart N proxies ((proxies.zip
      (sampleRangeExcluding π 0 N proxies proxies.length)).foldl assignRelay OrderedMap.empty)) :
    (proxies[i], 0) ∈ (proxies.zip
      (sampleRangeExcluding π 0 N proxies proxies.length)).foldl assignRelay OrderedMap.empty ∧
      (sampledFrom π 0 N proxies).length ≤ i := by
  have hlength := length_sampleRangeExcluding π 0 N proxies proxies.length
  have hmem := (mem_relays hlength).mpr ⟨i, hi, rfl, hlater⟩
  have hvalue := getElem_sampleRangeExcluding π hex (n := proxies.length) (i := i) (by omega)
  split_ifs at hvalue with hlt
  · exact absurd hvalue (happart.notMem _ hmem)
  · rw [hvalue] at hmem
    exact ⟨hmem, by omega⟩

theorem relaysApart_iff_of_sorted (hex : Excludable 0 N proxies) :
    RelaysApart N proxies ((proxies.zip (sampleRangeExcluding π 0 N proxies proxies.length)).foldl
      assignRelay OrderedMap.empty) ↔
      proxies = [] ∨ 2 ≤ proxies.length ∧ ∃ p ≠ 0, ∀ q ∈ proxies, q = p := by
  have hlength := length_sampleRangeExcluding π 0 N proxies proxies.length
  constructor
  · intro happart
    rcases List.eq_nil_or_concat proxies with hnil | ⟨before, p, hlast⟩
    · exact .inl hnil
    have hsize : proxies.length = before.length + 1 := by rw [hlast]; simp
    have hp : proxies[before.length] = p := by simp [hlast]
    obtain ⟨hmem, hle⟩ := relay_mem π hex (i := before.length) (by omega)
      (fun j hj hlt => by omega) happart
    have hpmem : p ∈ proxies := hp ▸ List.getElem_mem _
    have hpos : 0 < (sampledFrom π 0 N proxies).length :=
      List.length_pos_of_mem ((mem_sampledFrom π hex).mpr hpmem)
    refine .inr ⟨by omega, p, ?_, ?_⟩
    · rintro rfl
      exact happart.notMem _ hmem hpmem
    · by_contra hother
      obtain ⟨q, hq⟩ := not_forall.mp hother
      obtain ⟨hq, hne⟩ := Classical.not_imp.mp hq
      obtain ⟨i, hi, rfl⟩ := List.mem_iff_getElem.mp hq
      -- the last place of another proxy has the relay 0 as well
      obtain ⟨k, hk, hmax⟩ := ((Finset.range proxies.length).filter
        fun i => proxies.getD i p ≠ p).exists_max_image id ⟨i, by simp [hi, hne]⟩
      simp only [Finset.mem_filter, Finset.mem_range] at hk hmax
      obtain ⟨hk, hkne⟩ := hk
      rw [List.getD_eq_getElem _ _ hk] at hkne
      have hafter (j : ℕ) (hj : j < proxies.length) (hlt : k < j) : proxies[j] = p := by
        by_contra hjne
        exact absurd (hmax j ⟨hj, by rwa [List.getD_eq_getElem _ _ hj]⟩) (by simpa using hlt)
      obtain ⟨hkmem, -⟩ := relay_mem π hex hk
        (fun j hj hlt => by rw [hafter j hj hlt]; exact hkne.symm) happart
      have hsame := List.inj_on_of_nodup_map happart.nodup hmem hkmem rfl
      rw [Prod.mk.injEq, hp] at hsame
      exact hkne hsame.1.symm
  · rintro (rfl | ⟨htwo, p, hpne, hall⟩)
    · exact ⟨List.nodup_nil, by simp [OrderedMap.mem_def, OrderedMap.empty],
        by simp [OrderedMap.mem_def, OrderedMap.empty]⟩
    · have hpmem : p ∈ proxies := by
        have hmem := List.getElem_mem (l := proxies) (n := 0) (by omega)
        rwa [hall _ hmem] at hmem
      have hone : (sampledFrom π 0 N proxies).length ≤ 1 := by
        by_contra hmany
        have heq (i : ℕ) (hi : i < (sampledFrom π 0 N proxies).length) :
            (sampledFrom π 0 N proxies)[i] = p :=
          hall _ ((mem_sampledFrom π hex).mp (List.getElem_mem hi))
        have hsame := (heq 0 (by omega)).trans (heq 1 (by omega)).symm
        exact absurd ((sampledFrom_nodup π hex).getElem_inj_iff.mp hsame) (by decide)
      have hvalue (e : ℤ × ℤ) (he : e ∈ (proxies.zip
          (sampleRangeExcluding π 0 N proxies proxies.length)).foldl assignRelay
            OrderedMap.empty) : e = (p, 0) := by
        obtain ⟨i, hi, rfl, hlater⟩ := (mem_relays hlength).mp he
        have hlast : i = proxies.length - 1 := by
          by_contra hbefore
          refine hlater (i + 1) (by omega) (by omega) ?_
          rw [hall _ (List.getElem_mem _), hall _ (List.getElem_mem hi)]
        have hzero := getElem_sampleRangeExcluding π hex (n := proxies.length) (i := i) (by omega)
        rw [if_neg (by omega)] at hzero
        rw [hzero, hall _ (List.getElem_mem hi)]
      have hrange := hex.range p hpmem
      refine ⟨?_, fun e he => ?_, fun e he => ?_⟩
      · refine List.Nodup.map_on (fun e he e' he' _ => ?_) ?_
        · rw [hvalue e he, hvalue e' he']
        · exact (OrderedMap.keys_nodup _).of_map
      · rw [hvalue e he]
        exact ⟨le_rfl, hrange.1.trans_lt hrange.2⟩
      · rw [hvalue e he]
        exact fun hzero => hpne (hall 0 hzero).symm

end Relays

/-- The sample is one of values that are not excluded only where nothing is sampled, or where
nothing is excluded and the one value to sample may be 0. The relays of a meter are other
meters than its proxies only where it has no proxies, or where all its proxies are the same
one, other than meter 0. -/
theorem sampleRangeExcluding_law (π : IterationOrder) :
    (∀ (b e : ℤ) (excludeValues : List ℤ) (n : ℕ), b ≤ e →
      Excludable b e excludeValues → (n : ℤ) + excludeValues.toFinset.card ≤ e - b →
      (IsSample b e excludeValues n (sampleRangeExcluding π b e excludeValues n) ↔
        n = 0 ∨ excludeValues = [] ∧ n = 1 ∧ b ≤ 0 ∧ 0 < e)) ∧
      ∀ (N : ℤ) (proxies : List ℤ), (∀ p ∈ proxies, 0 ≤ p ∧ p < N) →
        2 * (proxies.length : ℤ) ≤ N →
        (RelaysApart N proxies (relaysFor π N proxies) ↔
          proxies = [] ∨ 2 ≤ proxies.length ∧ ∃ p ≠ 0, ∀ q ∈ proxies, q = p) := by
  refine ⟨fun b e excludeValues n _ hex _ => isSample_iff π hex, fun N proxies hproxies _ => ?_⟩
  have hmem (p : ℤ) : p ∈ proxies.insertionSort (· ≤ ·) ↔ p ∈ proxies :=
    List.mem_insertionSort _
  have hex : Excludable 0 N (proxies.insertionSort (· ≤ ·)) :=
    ⟨List.pairwise_insertionSort _ proxies, fun p hp => hproxies p ((hmem p).mp hp)⟩
  have hiff := relaysApart_iff_of_sorted π hex
  have hnil : proxies.insertionSort (· ≤ ·) = [] ↔ proxies = [] := by
    rw [← List.length_eq_zero_iff, List.length_insertionSort, List.length_eq_zero_iff]
  simp only [hnil, hmem, List.length_insertionSort] at hiff
  rw [← hiff, relaysFor]
  simp only [List.length_insertionSort]
  constructor
  · exact fun h => ⟨h.nodup, h.range, fun e he hp => h.notMem e he ((hmem _).mp hp)⟩
  · exact fun h => ⟨h.nodup, h.range, fun e he hp => h.notMem e he ((hmem _).mpr hp)⟩

/-- One meter of four is excluded and sampled; two proxies are their own relays. -/
theorem excluded_is_sampled :
    (Excludable 0 4 [1] ∧ (1 : ℤ) + ([1] : List ℤ).toFinset.card ≤ 4 ∧
      ¬ IsSample 0 4 [1] 1 (sampleRangeExcluding .insertion 0 4 [1] 1)) ∧
      ((∀ p ∈ [1, 2], (0 : ℤ) ≤ p ∧ p < 4) ∧ 2 * (([1, 2] : List ℤ).length : ℤ) ≤ 4 ∧
        ¬ RelaysApart 4 [1, 2] (relaysFor .insertion 4 [1, 2])) := by
  refine ⟨⟨⟨by decide, by decide⟩, by decide, fun h => ?_⟩, by decide, by decide, fun h => ?_⟩
  · exact h.notMem 1 (by decide) (by decide)
  · exact h.notMem (1, 1) (by decide) (by decide)

/-- With two proxies there is no sample of other meters among nine. -/
theorem sampleRangeExcluding_law_nine :
    (Excludable 0 9 [3, 7] ∧ (2 : ℤ) + ([3, 7] : List ℤ).toFinset.card ≤ 9 - 0) ∧
      (IsSample 0 9 [3, 7] 2 (sampleRangeExcluding .insertion 0 9 [3, 7] 2) ↔
        2 = 0 ∨ ([3, 7] : List ℤ) = [] ∧ 2 = 1 ∧ (0 : ℤ) ≤ 0 ∧ (0 : ℤ) < 9) := by
  have hex : Excludable 0 9 [3, 7] := ⟨by decide, by decide⟩
  have hsize : (2 : ℤ) + ([3, 7] : List ℤ).toFinset.card ≤ 9 - 0 := by decide
  exact ⟨⟨hex, hsize⟩,
    (sampleRangeExcluding_law .insertion).1 0 9 [3, 7] 2 (by decide) hex hsize⟩

section WithoutReplacement

/-- The loop that marks the values picked, over the outcomes of its draws: `none` where they
do not suffice for it to stop. -/
def pickLoop (numValues : ℤ) : List ℤ → List Bool → ℤ → Except Fault (Option (List Bool))
  | [], picked, numPicked => .ok (if numPicked < numValues then none else some picked)
  | value :: outcomes, picked, numPicked =>
      if numPicked < numValues then
        if 0 ≤ value ∧ value < picked.length then
          if picked.getD value.toNat false then pickLoop numValues outcomes picked numPicked
          else pickLoop numValues outcomes (picked.set value.toNat true) (numPicked + 1)
        else .error .undefinedBehaviour
      else .ok (some picked)

/-- Distinct values below `max`. The draws are from 0 to `max`, both inclusive. -/
def pickWithoutReplacement (max numValues : ℤ) (outcomes : List ℤ) :
    Except Fault (Option (List ℤ)) :=
  match pickLoop numValues outcomes (List.replicate max.toNat false) 0 with
  | .error fault => .error fault
  | .ok none => .ok none
  | .ok (some picked) =>
      .ok (some (((List.range max.toNat).filter fun val => picked.getD val false).map
        fun val : ℕ => (val : ℤ)))

/-- The slots marked, which are as many as the counter says, are those of the values drawn. -/
structure Marks (max : ℤ) (drawn : Finset ℤ) (picked : List Bool) (numPicked : ℤ) : Prop where
  length : picked.length = max.toNat
  count : numPicked = drawn.card
  range : ∀ value ∈ drawn, 0 ≤ value ∧ value < max
  marked : ∀ val : ℕ, picked.getD val false = true ↔ (val : ℤ) ∈ drawn

/-- After these draws the largest outcome comes before so many different values have. -/
def Early (max numValues : ℤ) (drawn : Finset ℤ) (outcomes : List ℤ) : Prop :=
  ∃ i : ℕ, outcomes[i]? = some max ∧ ((drawn ∪ (outcomes.take i).toFinset).card : ℤ) < numValues

variable {max numValues value numPicked : ℤ} {drawn : Finset ℤ} {picked : List Bool}

theorem marks_init (max : ℤ) : Marks max ∅ (List.replicate max.toNat false) 0 where
  length := List.length_replicate ..
  count := by simp
  range := by simp
  marked val := by
    simp only [List.getD_eq_getElem?_getD, List.getElem?_replicate]
    split_ifs <;> simp

theorem Marks.pick (h : Marks max drawn picked numPicked) (hvalue : 0 ≤ value) (hmax : value < max)
    (hnew : value ∉ drawn) :
    Marks max (insert value drawn) (picked.set value.toNat true) (numPicked + 1) where
  length := by rw [List.length_set, h.length]
  count := by
    rw [Finset.card_insert_of_notMem hnew, h.count]
    push_cast
    rfl
  range := by
    intro v hv
    rcases Finset.mem_insert.mp hv with rfl | hv
    · exact ⟨hvalue, hmax⟩
    · exact h.range v hv
  marked val := by
    have hsize := h.length
    rw [Finset.mem_insert, ← h.marked val]
    by_cases heq : value.toNat = val
    · subst heq
      simp only [List.getD_eq_getElem?_getD, Int.toNat_of_nonneg hvalue, true_or, iff_true]
      rw [List.getElem?_set_self (by omega)]
      rfl
    · have hne : (val : ℤ) ≠ value := by omega
      simp only [List.getD_eq_getElem?_getD, List.getElem?_set_ne heq, hne, false_or]

theorem early_cons {outcomes : List ℤ} : Early max numValues drawn (value :: outcomes) ↔
    value = max ∧ (drawn.card : ℤ) < numValues ∨
      Early max numValues (insert value drawn) outcomes := by
  constructor
  · rintro ⟨i, hi, hcard⟩
    cases i with
    | zero => exact .inl ⟨by simpa using hi, by simpa using hcard⟩
    | succ i =>
      refine .inr ⟨i, by simpa using hi, ?_⟩
      rwa [List.take_succ_cons, List.toFinset_cons, Finset.union_insert, ← Finset.insert_union]
        at hcard
  · rintro (⟨rfl, hcard⟩ | ⟨i, hi, hcard⟩)
    · exact ⟨0, rfl, by simpa using hcard⟩
    · refine ⟨i + 1, by simpa using hi, ?_⟩
      rwa [List.take_succ_cons, List.toFinset_cons, Finset.union_insert, ← Finset.insert_union]

theorem not_early_of_le {outcomes : List ℤ} (h : numValues ≤ drawn.card) :
    ¬ Early max numValues drawn outcomes := by
  rintro ⟨i, -, hcard⟩
  have hle := Finset.card_le_card
    (Finset.subset_union_left : drawn ⊆ drawn ∪ (outcomes.take i).toFinset)
  omega

theorem pickLoop_spec {outcomes : List ℤ} (hrange : ∀ v ∈ outcomes, 0 ≤ v ∧ v ≤ max)
    (h : Marks max drawn picked numPicked) (hle : numPicked ≤ numValues) :
    match pickLoop numValues outcomes picked numPicked with
    | .error _ => Early max numValues drawn outcomes
    | .ok none => ((drawn ∪ outcomes.toFinset).card : ℤ) < numValues
    | .ok (some picked') => ¬ Early max numValues drawn outcomes ∧
        ∃ drawn', Marks max drawn' picked' numValues ∧
          numValues ≤ (drawn ∪ outcomes.toFinset).card := by
  induction outcomes generalizing drawn picked numPicked with
  | nil =>
    have hcount := h.count
    rw [pickLoop]
    split_ifs with hlt
    · simpa [← hcount] using hlt
    · obtain rfl : numPicked = numValues := by omega
      exact ⟨not_early_of_le hcount.le, drawn, h, by simp [← hcount]⟩
  | cons value outcomes ih =>
    obtain ⟨hvalue, hrest⟩ := List.forall_mem_cons.mp hrange
    have hcount := h.count
    have hsize := h.length
    have hunion : drawn ∪ (value :: outcomes).toFinset =
        insert value drawn ∪ outcomes.toFinset := by
      rw [List.toFinset_cons, Finset.union_insert, ← Finset.insert_union]
    have hearly (hne : value ≠ max) : Early max numValues drawn (value :: outcomes) ↔
        Early max numValues (insert value drawn) outcomes := by
      rw [early_cons, or_iff_right fun h => hne h.1]
    rw [hunion, pickLoop]
    split_ifs with hlt hin hmarked
    · -- a value drawn before
      rw [h.marked, Int.toNat_of_nonneg hvalue.1] at hmarked
      rw [hearly (by omega), Finset.insert_eq_of_mem hmarked]
      exact ih hrest h hle
    · rw [h.marked, Int.toNat_of_nonneg hvalue.1] at hmarked
      rw [hearly (by omega)]
      exact ih hrest (h.pick hvalue.1 (by omega) hmarked) (by omega)
    · exact early_cons.mpr (.inl ⟨by omega, by omega⟩)
    · obtain rfl : numPicked = numValues := by omega
      refine ⟨not_early_of_le hcount.le, drawn, h, ?_⟩
      rw [← hunion, hcount]
      exact_mod_cast Finset.card_le_card Finset.subset_union_left

theorem Marks.values (h : Marks max drawn picked numPicked) :
    let values := ((List.range max.toNat).filter fun val => picked.getD val false).map
      fun val : ℕ => (val : ℤ)
    values.Nodup ∧ (values.length : ℤ) = numPicked ∧ ∀ v ∈ values, 0 ≤ v ∧ v < max := by
  intro values
  have hnodup : values.Nodup :=
    (List.nodup_range.filter _).map fun _ _ heq => Nat.cast_inj.mp heq
  have hmem (v : ℤ) : v ∈ values ↔ v ∈ drawn := by
    rw [List.mem_map]
    constructor
    · rintro ⟨val, hval, rfl⟩
      exact (h.marked val).mp (List.mem_filter.mp hval).2
    · intro hv
      obtain ⟨hnonneg, hlt⟩ := h.range v hv
      refine ⟨v.toNat, List.mem_filter.mpr ⟨List.mem_range.mpr (by omega), ?_⟩, by omega⟩
      exact (h.marked _).mpr (by rwa [Int.toNat_of_nonneg hnonneg])
  have hset : values.toFinset = drawn := by
    ext v
    rw [List.mem_toFinset, hmem]
  refine ⟨hnodup, ?_, fun v hv => h.range v ((hmem v).mp hv)⟩
  rw [h.count, ← hset, List.toFinset_card_of_nodup hnodup]

theorem pickWithoutReplacement_spec {outcomes : List ℤ} (hrange : ∀ v ∈ outcomes, 0 ≤ v ∧ v ≤ max)
    (hnonneg : 0 ≤ numValues) :
    match pickWithoutReplacement max numValues outcomes with
    | .error _ => Early max numValues ∅ outcomes
    | .ok none => (outcomes.toFinset.card : ℤ) < numValues
    | .ok (some values) => ¬ Early max numValues ∅ outcomes ∧
        numValues ≤ outcomes.toFinset.card ∧ values.Nodup ∧ (values.length : ℤ) = numValues ∧
          ∀ v ∈ values, 0 ≤ v ∧ v < max := by
  have hspec := pickLoop_spec hrange (marks_init max) hnonneg
  rw [Finset.empty_union] at hspec
  unfold pickWithoutReplacement
  split at hspec
  · exact hspec
  · exact hspec
  · obtain ⟨hearly, drawn, hmarks, hcard⟩ := hspec
    exact ⟨hearly, hcard, hmarks.values⟩

def firstDraws (draws : ℕ → ℤ) (k : ℕ) : List ℤ := (List.range k).map draws

theorem toFinset_firstDraws (draws : ℕ → ℤ) (k : ℕ) :
    (firstDraws draws k).toFinset = (Finset.range k).image draws := by
  ext v
  simp [firstDraws]

theorem early_firstDraws {draws : ℕ → ℤ} {k : ℕ} :
    Early max numValues ∅ (firstDraws draws k) ↔
      ∃ i < k, draws i = max ∧ (((Finset.range i).image draws).card : ℤ) < numValues := by
  refine exists_congr fun i => ?_
  rw [Finset.empty_union]
  by_cases hi : i < k
  · have htake : (firstDraws draws k).take i = firstDraws draws i := by
      rw [firstDraws, ← List.map_take, List.take_range, min_eq_left hi.le]
      rfl
    rw [htake, toFinset_firstDraws, and_iff_right hi]
    simp [firstDraws, hi]
  · simp [firstDraws, hi]

end WithoutReplacement

/-- Where the loop stops, it has picked as many distinct values below the bound as it was to,
unless the bound itself is drawn before so many different values have been, which is outside
of the marks. -/
theorem pickWithoutReplacement_law {max numValues : ℤ} (hnonneg : 0 ≤ numValues)
    (_hle : numValues ≤ max) {draws : ℕ → ℤ} (hdraws : ∀ i, 0 ≤ draws i ∧ draws i ≤ max)
    (hstops : ∃ k, pickWithoutReplacement max numValues (firstDraws draws k) ≠ .ok none) :
    (∃ k values, pickWithoutReplacement max numValues (firstDraws draws k) = .ok (some values) ∧
      values.Nodup ∧ (values.length : ℤ) = numValues ∧ ∀ v ∈ values, 0 ≤ v ∧ v < max) ↔
      ∀ i, draws i = max → numValues ≤ ((Finset.range i).image draws).card := by
  have hrange (k : ℕ) : ∀ v ∈ firstDraws draws k, 0 ≤ v ∧ v ≤ max := by
    simpa [firstDraws] using fun i _ => hdraws i
  have hspec (k : ℕ) := pickWithoutReplacement_spec (hrange k) hnonneg
  simp only [early_firstDraws, toFinset_firstDraws] at hspec
  constructor
  · rintro ⟨k, values, heq, -⟩ i hi
    have hk := hspec k
    simp only [heq] at hk
    by_cases hlt : i < k
    · by_contra hearly
      exact hk.1 ⟨i, hlt, hi, by omega⟩
    · have hsub : (Finset.range k).image draws ⊆ (Finset.range i).image draws :=
        Finset.image_subset_image (Finset.range_subset_range.mpr (by omega))
      exact hk.2.1.trans (by exact_mod_cast Finset.card_le_card hsub)
  · intro hlate
    obtain ⟨k, hk⟩ := hstops
    have hresult := hspec k
    split at hresult
    · obtain ⟨i, -, hi, hcard⟩ := hresult
      have hle := hlate i hi
      omega
    · contradiction
    · exact ⟨k, _, by assumption, hresult.2.2⟩

/-- The first draw is already the bound. -/
theorem bound_drawn : ((0 : ℤ) ≤ 1 ∧ (1 : ℤ) ≤ 1) ∧
    pickWithoutReplacement 1 1 (firstDraws (fun _ => 1) 1) = .error .undefinedBehaviour ∧
      ¬ ∃ k values, pickWithoutReplacement 1 1 (firstDraws (fun _ => 1) k) = .ok (some values) := by
  refine ⟨by decide, by decide, ?_⟩
  rintro ⟨k, values, h⟩
  cases k with
  | zero => exact absurd h (by simp [pickWithoutReplacement, firstDraws, pickLoop])
  | succ k =>
    simp [pickWithoutReplacement, firstDraws, List.range_succ_eq_map, pickLoop] at h

/-- Two values of three after a repeated draw, and the bound too late to do harm. -/
theorem pickWithoutReplacement_law_three : ((0 : ℤ) ≤ 2 ∧ (2 : ℤ) ≤ 3) ∧
    ((∃ k values, pickWithoutReplacement 3 2 (firstDraws (fun i => if i < 6 then i / 2 else 3) k) =
        .ok (some values) ∧
      values.Nodup ∧ (values.length : ℤ) = 2 ∧ ∀ v ∈ values, 0 ≤ v ∧ v < 3) ↔
      ∀ i : ℕ, (if i < 6 then (i : ℤ) / 2 else 3) = 3 →
        (2 : ℤ) ≤ ((Finset.range i).image fun i : ℕ => if i < 6 then (i : ℤ) / 2 else 3).card) := by
  have hdraws (i : ℕ) : 0 ≤ (if i < 6 then (i : ℤ) / 2 else 3) ∧
      (if i < 6 then (i : ℤ) / 2 else 3) ≤ 3 := by
    split_ifs <;> omega
  exact ⟨by decide, pickWithoutReplacement_law (by decide) (by decide) hdraws
    ⟨3, by decide⟩⟩

end Pddm
