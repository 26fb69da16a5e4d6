import Pddm.Journeys
import Pddm.PathFinder

/-!
# What the path search finds

The search follows an infection of the gossip graph from the source, and returns the way
by which it reaches the target first, apart from the rounds it takes to be too early.
-/
namespace Pddm

/-- The edges of the gossip graph on `n` nodes. -/
def gossip (n round id : ℤ) : ℤ := gossipTarget id round n

theorem modPowLoop_le {mod : ℕ} (hmod : 0 < mod) (bits : ℕ) {result : ℕ} (num pow : ℕ)
    (hresult : result ≤ mod) : modPowLoop mod bits result num pow ≤ mod := by
  induction bits generalizing result num pow with
  | zero => exact hresult
  | succ bits ih =>
    rw [modPowLoop]
    split_ifs
    · exact ih _ _ (Nat.mod_lt _ hmod).le
    · exact ih _ _ hresult
    · exact hresult

theorem uint32_of_lt {x : ℤ} (hx : 0 ≤ x) (hlt : x < 2 ^ 31) : (uint32 x : ℤ) = x := by
  unfold uint32
  rw [Int.toNat_of_nonneg (by omega)]
  omega

/-- The edges of a round lead from each node to the one some fixed distance further. -/
theorem gossip_eq_add {n : ℤ} (hpos : 0 < n) (hlt : n < 2 ^ 31) (round : ℤ) :
    ∃ c : ℤ, ∀ id, 0 ≤ id → id < n → gossip n round id = (id + c) % n := by
  refine ⟨modPow 2 (uint32 round) (uint32 n), fun id hid hidlt => ?_⟩
  have hn : (uint32 n : ℤ) = n := uint32_of_lt hpos.le hlt
  have hpow : modPow 2 (uint32 round) (uint32 n) ≤ uint32 n := by
    apply modPowLoop_le
    · omega
    · omega
  unfold gossip gossipTarget
  rw [hn, uint32_of_lt hid (by omega)]
  rw [Int.emod_eq_of_lt (b := 2 ^ 32) (by omega) (by omega)]

theorem gossip_mem {n : ℤ} (hpos : 0 < n) (hlt : n < 2 ^ 31) {round id : ℤ} (hid : 0 ≤ id)
    (hidlt : id < n) : 0 ≤ gossip n round id ∧ gossip n round id < n := by
  obtain ⟨c, hc⟩ := gossip_eq_add hpos hlt round
  rw [hc id hid hidlt]
  exact ⟨Int.emod_nonneg _ hpos.ne', Int.emod_lt_of_pos _ hpos⟩

theorem gossip_injOn {n : ℤ} (hpos : 0 < n) (hlt : n < 2 ^ 31) {round a b : ℤ} (ha : 0 ≤ a)
    (halt : a < n) (hb : 0 ≤ b) (hblt : b < n) (h : gossip n round a = gossip n round b) :
    a = b := by
  obtain ⟨c, hc⟩ := gossip_eq_add hpos hlt round
  rw [hc a ha halt, hc b hb hblt] at h
  have hmod := Int.ModEq.add_right_cancel' c (show a + c ≡ b + c [ZMOD n] from h)
  unfold Int.ModEq at hmod
  rwa [Int.emod_eq_of_lt ha halt, Int.emod_eq_of_lt hb hblt] at hmod

theorem modPowLoop_lt {mod : ℕ} (hmod : 0 < mod) (bits : ℕ) {result : ℕ} (num pow : ℕ)
    (hresult : result < mod) : modPowLoop mod bits result num pow < mod := by
  induction bits generalizing result num pow with
  | zero => exact hresult
  | succ bits ih =>
    rw [modPowLoop]
    split_ifs
    · exact ih _ _ (Nat.mod_lt _ hmod)
    · exact ih _ _ hresult
    · exact hresult

theorem gossip_predecessor {n : ℤ} (hn : 2 ≤ n) (hlt : n < 2 ^ 31) (round : ℤ) {id : ℤ}
    (hid : 0 ≤ id) (hidlt : id < n) : 0 ≤ gossipPredecessor id round n ∧ gossipPredecessor id round n < n ∧
      gossip n round (gossipPredecessor id round n) = id := by
  have hnat : (uint32 n : ℤ) = n := uint32_of_lt (by omega) hlt
  have hpow : modPow 2 (uint32 round) (uint32 n) < uint32 n := by
    apply modPowLoop_lt
    · omega
    · omega
  unfold gossip gossipTarget gossipPredecessor modSubtract
  generalize modPow 2 (uint32 round) (uint32 n) = c at hpow ⊢
  by_cases hge : id ≥ c
  · rw [if_pos hge, Int.tmod_eq_of_lt (by omega) (by omega), hnat, uint32_of_lt (by omega) (by omega)]
    refine ⟨by omega, by omega, ?_⟩
    have hsum : (id - c + 0 + c) % 2 ^ 32 = id := by omega
    rw [hsum, Int.emod_eq_of_lt hid hidlt]
  · rw [if_neg hge]
    have hmod : (id - c).tmod n = id - c := by
      rw [← neg_sub, Int.neg_tmod, Int.tmod_eq_of_lt (by omega) (by omega)]
    rw [hmod, hnat, uint32_of_lt (by omega) (by omega)]
    refine ⟨by omega, by omega, ?_⟩
    have hsum : (id - c + n + c) % 2 ^ 32 = id + n := by omega
    rw [hsum, Int.add_emod_right, Int.emod_eq_of_lt hid hidlt]

section Search
variable {π : IterationOrder} {n source target start : ℤ} {excludeNodes : List ℤ}

/-- The nodes that a search must spare: the used ones, and its target until the end. -/
def spared (target : ℤ) (excludeNodes : List ℤ) : Set ℤ := {v | v ∈ excludeNodes ∨ v = target}

abbrev searched (n source target start : ℤ) (excludeNodes : List ℤ) (k : ℕ) : Set ℤ :=
  infected (gossip n) (spared target excludeNodes) source start k

/-- In round `start + k` an infected node has an edge to the target. -/
def Hits (n source target start : ℤ) (excludeNodes : List ℤ) (k : ℕ) (v : ℤ) : Prop :=
  v ∈ searched n source target start excludeNodes k ∧ gossip n (start + k) v = target

/-- A node of the search, with the way by which the infection came to it. -/
def IsTraced (n source target start : ℤ) (excludeNodes : List ℤ) (k : ℕ) (node : InfectedNode) :
    Prop :=
  ∃ j ≤ k, node.infectedOnRound = start + j ∧
    Foremost (gossip n) (spared target excludeNodes) source start (node.id :: node.parents) j

structure IsSpread (n source target start : ℤ) (excludeNodes : List ℤ) (k : ℕ)
    (nodes : List InfectedNode) : Prop where
  traced : ∀ node ∈ nodes, IsTraced n source target start excludeNodes k node
  complete : ∀ v ∈ searched n source target start excludeNodes k, ∃ node ∈ nodes, node.id = v

theorem infect_subset {nodes : List InfectedNode} {node x : InfectedNode}
    (hx : x ∈ infect nodes node) : x ∈ nodes ∨ x = node ∧ ∀ y ∈ nodes, y.id ≠ x.id := by
  unfold infect at hx
  split_ifs at hx with hany
  · exact .inl hx
  · rcases List.mem_append.mp hx with hx | hx
    · exact .inl hx
    · obtain rfl := List.mem_singleton.mp hx
      refine .inr ⟨rfl, fun y hy hid => hany ?_⟩
      exact List.any_eq_true.mpr ⟨y, hy, by simpa using hid⟩

theorem subset_infect {nodes : List InfectedNode} (node : InfectedNode) {x : InfectedNode}
    (hx : x ∈ nodes) : x ∈ infect nodes node := by
  unfold infect
  split_ifs
  · exact hx
  · exact List.mem_append_left _ hx

theorem exists_infect (nodes : List InfectedNode) (node : InfectedNode) :
    ∃ x ∈ infect nodes node, x.id = node.id := by
  unfold infect
  split_ifs with hany
  · obtain ⟨x, hx, hid⟩ := List.any_eq_true.mp hany
    exact ⟨x, hx, of_decide_eq_true hid⟩
  · exact ⟨node, List.mem_append_right _ (List.mem_singleton_self _), rfl⟩

theorem foldl_infect_subset {added nodes : List InfectedNode} {x : InfectedNode}
    (hx : x ∈ added.foldl infect nodes) : x ∈ nodes ∨ x ∈ added ∧ ∀ y ∈ nodes, y.id ≠ x.id := by
  induction added generalizing nodes with
  | nil => exact .inl hx
  | cons node added ih =>
    rcases ih hx with hx | ⟨hx, hnew⟩
    · rcases infect_subset hx with hx | ⟨rfl, hnew⟩
      · exact .inl hx
      · exact .inr ⟨by simp, hnew⟩
    · exact .inr ⟨List.mem_cons_of_mem _ hx, fun y hy => hnew y (subset_infect node hy)⟩

theorem subset_foldl_infect (added : List InfectedNode) {nodes : List InfectedNode}
    {x : InfectedNode} (hx : x ∈ nodes) : x ∈ added.foldl infect nodes := by
  induction added generalizing nodes with
  | nil => exact hx
  | cons node added ih => exact ih (subset_infect node hx)

theorem exists_foldl_infect {added : List InfectedNode} (nodes : List InfectedNode)
    {node : InfectedNode} (hnode : node ∈ added) :
    ∃ x ∈ added.foldl infect nodes, x.id = node.id := by
  induction added generalizing nodes with
  | nil => cases hnode
  | cons first added ih =>
    rcases List.mem_cons.mp hnode with rfl | hnode
    · obtain ⟨x, hx, hid⟩ := exists_infect nodes node
      exact ⟨x, subset_foldl_infect added hx, hid⟩
    · exact ih _ hnode

/-- The node that an infected node infects in a round. -/
def endPoint (n time : ℤ) (node : InfectedNode) : InfectedNode :=
  ⟨gossip n time node.id, time + 1, node.id :: node.parents⟩

theorem spreadInfection_error {time : ℤ} {nodes newInfected : List InfectedNode} {path : List ℤ}
    (h : spreadInfection target n start time excludeNodes nodes newInfected = .error path) :
    ∃ node ∈ nodes, minPathLength ≤ time - start ∧ gossip n time node.id = target ∧
      path = (target :: node.id :: node.parents).reverse := by
  induction nodes generalizing newInfected with
  | nil => cases h
  | cons node rest ih =>
    have hlater : ∀ newInfected,
        spreadInfection target n start time excludeNodes rest newInfected = .error path →
        ∃ node' ∈ node :: rest, minPathLength ≤ time - start ∧ gossip n time node'.id = target ∧
          path = (target :: node'.id :: node'.parents).reverse := by
      intro newInfected h
      obtain ⟨node', hnode', hfound⟩ := ih h
      exact ⟨node', List.mem_cons_of_mem _ hnode', hfound⟩
    unfold spreadInfection at h
    dsimp only at h
    split_ifs at h with hused hearly htarget
    · exact hlater _ h
    · exact hlater _ h
    · refine ⟨node, by simp, ?_, htarget, ?_⟩
      · have hlate := not_and.mp hearly htarget
        omega
      · simp only [Except.error.injEq] at h
        subst h
        simp [htarget]
    · exact hlater _ h

/-- What a round adds if the target is not reached. -/
structure Spreads (target n start time : ℤ) (excludeNodes : List ℤ)
    (nodes newInfected newInfected' : List InfectedNode) : Prop where
  misses : minPathLength ≤ time - start → ∀ node ∈ nodes, gossip n time node.id ≠ target
  sound : ∀ x ∈ newInfected', x ∈ newInfected ∨ ∃ node ∈ nodes, x = endPoint n time node ∧
    x.id ∉ spared target excludeNodes
  keeps : ∀ x ∈ newInfected, x ∈ newInfected'
  complete : ∀ node ∈ nodes, gossip n time node.id ∉ spared target excludeNodes →
    ∃ x ∈ newInfected', x.id = gossip n time node.id

theorem spreadInfection_ok {time : ℤ} {nodes newInfected newInfected' : List InfectedNode}
    (h : spreadInfection target n start time excludeNodes nodes newInfected = .ok newInfected') :
    Spreads target n start time excludeNodes nodes newInfected newInfected' := by
  induction nodes generalizing newInfected with
  | nil =>
    obtain rfl := Except.ok.inj h
    exact ⟨by simp, fun x hx => .inl hx, fun x hx => hx, by simp⟩
  | cons node rest ih =>
    unfold spreadInfection at h
    dsimp only at h
    have hskip (h : spreadInfection target n start time excludeNodes rest newInfected =
        .ok newInfected') (hmiss : minPathLength ≤ time - start → gossip n time node.id ≠ target)
        (hspared : gossip n time node.id ∈ spared target excludeNodes) :
        Spreads target n start time excludeNodes (node :: rest) newInfected newInfected' := by
      obtain ⟨hmisses, hsound, hkeeps, hcomplete⟩ := ih h
      refine ⟨fun hmin x hx => ?_, fun x hx => ?_, hkeeps, fun x hx hfree => ?_⟩
      · rcases List.mem_cons.mp hx with rfl | hx
        · exact hmiss hmin
        · exact hmisses hmin x hx
      · rcases hsound x hx with hx | ⟨y, hy, heq⟩
        · exact .inl hx
        · exact .inr ⟨y, List.mem_cons_of_mem _ hy, heq⟩
      · rcases List.mem_cons.mp hx with rfl | hx
        · exact absurd hspared hfree
        · exact hcomplete x hx hfree
    split_ifs at h with hused hearly htarget
    · exact hskip h (fun _ => hused.2) (.inl hused.1)
    · refine hskip h (fun hmin => ?_) (.inr hearly.1)
      have hlt := hearly.2
      omega
    · have hnotUsed : gossip n time node.id ∉ spared target excludeNodes := by
        rintro (hmem | heq)
        · exact hused ⟨hmem, htarget⟩
        · exact htarget heq
      obtain ⟨hmisses, hsound, hkeeps, hcomplete⟩ := ih h
      refine ⟨fun hmin x hx => ?_, fun x hx => ?_, fun x hx => hkeeps x (subset_infect _ hx),
        fun x hx hfree => ?_⟩
      · rcases List.mem_cons.mp hx with rfl | hx
        · exact htarget
        · exact hmisses hmin x hx
      · rcases hsound x hx with hx | ⟨y, hy, heq⟩
        · rcases infect_subset hx with hx | ⟨rfl, -⟩
          · exact .inl hx
          · exact .inr ⟨node, by simp, rfl, hnotUsed⟩
        · exact .inr ⟨y, List.mem_cons_of_mem _ hy, heq⟩
      · rcases List.mem_cons.mp hx with rfl | hx
        · obtain ⟨y, hy, hid⟩ := exists_infect newInfected (endPoint n time x)
          exact ⟨y, hkeeps y hy, hid⟩
        · exact hcomplete x hx hfree

theorem IsSpread.next {k : ℕ} {nodes newInfected : List InfectedNode}
    (hnodes : IsSpread n source target start excludeNodes k nodes)
    (h : spreadInfection target n start (start + k) excludeNodes (π.order nodes) [] =
      .ok newInfected) :
    IsSpread n source target start excludeNodes (k + 1)
      ((π.order newInfected).foldl infect nodes) := by
  obtain ⟨-, hsound, -, hcomplete⟩ := spreadInfection_ok h
  constructor
  · intro x hx
    rcases foldl_infect_subset hx with hx | ⟨hx, hnew⟩
    · obtain ⟨j, hj, htraced⟩ := hnodes.traced x hx
      exact ⟨j, by omega, htraced⟩
    · rcases hsound x (π.mem_order.mp hx) with hx | ⟨node, hnode, rfl, hfree⟩
      · cases hx
      · obtain ⟨j, hj, -, hforemost⟩ := hnodes.traced node (π.mem_order.mp hnode)
        refine ⟨k + 1, le_rfl, by simp [endPoint, add_assoc], ?_⟩
        refine hforemost.pass hj rfl hfree fun hinfected => ?_
        obtain ⟨y, hy, hid⟩ := hnodes.complete _ hinfected
        exact hnew y hy hid
  · rintro v (hv | ⟨hfree, u, hu, rfl⟩)
    · obtain ⟨node, hnode, hid⟩ := hnodes.complete v hv
      exact ⟨node, subset_foldl_infect _ hnode, hid⟩
    · obtain ⟨node, hnode, rfl⟩ := hnodes.complete u hu
      obtain ⟨x, hx, hid⟩ := hcomplete node (π.mem_order.mpr hnode) hfree
      obtain ⟨y, hy, hid'⟩ := exists_foldl_infect nodes (π.mem_order.mpr hx)
      exact ⟨y, hy, hid'.trans hid⟩

/-- What a search returns: the way to the node that reaches the target first. -/
structure Found (n source target start : ℤ) (excludeNodes : List ℤ) (k : ℕ) (path : List ℤ) :
    Prop where
  late : minPathLength ≤ k
  first : ∀ j, minPathLength ≤ j → j < k → ∀ v, ¬ Hits n source target start excludeNodes j v
  way : ∃ v visited j, j ≤ k ∧
    Foremost (gossip n) (spared target excludeNodes) source start (v :: visited) j ∧
    gossip n (start + k) v = target ∧ path = (target :: v :: visited).reverse

/-- The round in which the search reaches its target, if it does. -/
def targetRoundFrom (π : IterationOrder) (target n startingRound : ℤ) (excludeNodes : List ℤ) :
    ℕ → ℤ → List InfectedNode → Option ℤ
  | 0, _, _ => none
  | rounds + 1, time, infected =>
      match spreadInfection target n startingRound time excludeNodes (π.order infected) [] with
      | .error _ => some time
      | .ok newInfected =>
          targetRoundFrom π target n startingRound excludeNodes rounds (time + 1)
            ((π.order newInfected).foldl infect infected)

def targetRound (π : IterationOrder) (source target n startingRound maxRound : ℤ)
    (excludeNodes : List ℤ) : Option ℤ :=
  targetRoundFrom π target n startingRound excludeNodes (maxRound - startingRound).toNat
    startingRound [⟨source, startingRound, []⟩]

theorem findPathFrom_spec (π : IterationOrder) (rounds : ℕ) {k : ℕ} {nodes : List InfectedNode}
    (hnodes : IsSpread n source target start excludeNodes k nodes)
    (hfirst : ∀ j, minPathLength ≤ j → j < k → ∀ v, ¬ Hits n source target start excludeNodes j v) :
    match findPathFrom π target n start excludeNodes rounds (start + k) nodes with
    | .ok path => ∃ k', k ≤ k' ∧ k' < k + rounds ∧
        Found n source target start excludeNodes k' path ∧
        targetRoundFrom π target n start excludeNodes rounds (start + k) nodes = some (start + k')
    | .error _ => ∀ j, minPathLength ≤ j → j < k + rounds →
        ∀ v, ¬ Hits n source target start excludeNodes j v := by
  induction rounds generalizing k nodes with
  | zero =>
    exact hfirst
  | succ rounds ih =>
    unfold findPathFrom targetRoundFrom
    cases hspread : spreadInfection target n start (start + k) excludeNodes (π.order nodes) [] with
    | error path =>
      obtain ⟨node, hnode, hlate, hhit, rfl⟩ := spreadInfection_error hspread
      obtain ⟨j, hj, -, hforemost⟩ := hnodes.traced node (π.mem_order.mp hnode)
      exact ⟨k, le_rfl, by omega, ⟨by omega, hfirst, node.id, node.parents, j, hj, hforemost, hhit,
        rfl⟩, rfl⟩
    | ok newInfected =>
      have hmisses (hmin : minPathLength ≤ k) (v : ℤ) :
          ¬ Hits n source target start excludeNodes k v := by
        rintro ⟨hv, hhit⟩
        obtain ⟨node, hnode, rfl⟩ := hnodes.complete v hv
        exact (spreadInfection_ok hspread).misses (by omega) node (π.mem_order.mpr hnode) hhit
      have hfirst' (j : ℕ) (hmin : minPathLength ≤ j) (hlt : j < k + 1) :
          ∀ v, ¬ Hits n source target start excludeNodes j v := by
        rcases Nat.lt_succ_iff_lt_or_eq.mp hlt with hlt | rfl
        · exact hfirst j hmin hlt
        · exact hmisses hmin
      have hrest := ih (hnodes.next hspread) hfirst'
      have hround : start + ((k + 1 : ℕ) : ℤ) = start + k + 1 := by
        push_cast
        ring
      rw [hround] at hrest
      dsimp only
      cases hresult : findPathFrom π target n start excludeNodes rounds (start + k + 1)
          ((π.order newInfected).foldl infect nodes) with
      | ok path =>
        rw [hresult] at hrest
        obtain ⟨k', hle, hlt, hfound, hround'⟩ := hrest
        exact ⟨k', by omega, by omega, hfound, hround'⟩
      | error e =>
        rw [hresult] at hrest
        exact fun j hmin hlt => hrest j hmin (by omega)

theorem isSpread_source : IsSpread n source target start excludeNodes 0 [⟨source, start, []⟩] := by
  constructor
  · intro node hnode
    obtain rfl := List.mem_singleton.mp hnode
    exact ⟨0, le_rfl, by simp, .source⟩
  · rintro v rfl
    exact ⟨_, List.mem_singleton_self _, rfl⟩

theorem findPath_spec (π : IterationOrder) (n source target start maxRound : ℤ)
    (excludeNodes : List ℤ) :
    match findPath π source target n start maxRound excludeNodes with
    | .ok path => ∃ k : ℕ, start + k < maxRound ∧
        Found n source target start excludeNodes k path ∧
        targetRound π source target n start maxRound excludeNodes = some (start + k)
    | .error _ => ∀ j : ℕ, minPathLength ≤ j → start + j < maxRound →
        ∀ v, ¬ Hits n source target start excludeNodes j v := by
  have hspread : IsSpread n source target start excludeNodes 0 [⟨source, start, []⟩] :=
    isSpread_source
  have hspec := findPathFrom_spec π (maxRound - start).toNat hspread fun j _ hlt => by omega
  rw [Int.natCast_zero, add_zero] at hspec
  unfold findPath
  cases hresult : findPathFrom π target n start excludeNodes (maxRound - start).toNat start
      [⟨source, start, []⟩] with
  | ok path =>
    rw [hresult] at hspec
    obtain ⟨k, -, hlt, hfound, hround⟩ := hspec
    exact ⟨k, by omega, hfound, hround⟩
  | error e =>
    rw [hresult] at hspec
    exact fun j hmin hlt => hspec j hmin (by omega)

theorem searched_mem (hpos : 0 < n) (hlt : n < 2 ^ 31) (hsource : 0 ≤ source) (hsourcelt : source < n)
    {k : ℕ} {v : ℤ} (hv : v ∈ searched n source target start excludeNodes k) : 0 ≤ v ∧ v < n := by
  induction k generalizing v with
  | zero =>
    obtain rfl := hv
    exact ⟨hsource, hsourcelt⟩
  | succ k ih =>
    rcases hv with hv | ⟨-, u, hu, rfl⟩
    · exact ih hv
    · obtain ⟨h0, h1⟩ := ih hu
      exact gossip_mem hpos hlt h0 h1

theorem Found.hops {k : ℕ} {path : List ℤ}
    (hfound : Found n source target start excludeNodes k path) :
    ∃ v visited j, j ≤ k ∧
      Foremost (gossip n) (spared target excludeNodes) source start (v :: visited) j ∧
      gossip n (start + k) v = target ∧ path.tail.reverse ++ [source] = target :: v :: visited := by
  obtain ⟨v, visited, j, hj, hforemost, hhit, rfl⟩ := hfound.way
  obtain ⟨hops, hhops⟩ := hforemost.journey.ends_at_source
  refine ⟨v, visited, j, hj, hforemost, hhit, ?_⟩
  rw [hhops]
  simp

theorem Found.nodup {k : ℕ} {path : List ℤ}
    (hfound : Found n source target start excludeNodes k path) : path.tail.Nodup := by
  obtain ⟨v, visited, j, -, hforemost, -, hhops⟩ := hfound.hops
  have hreverse : path.tail.reverse = target :: (v :: visited).dropLast := by
    rw [← List.dropLast_cons_of_ne_nil (by simp), ← hhops, List.dropLast_concat]
  rw [← List.nodup_reverse, hreverse]
  refine List.nodup_cons.mpr ⟨fun hmem => ?_, hforemost.nodup.sublist (List.dropLast_sublist _)⟩
  exact hforemost.spared target hmem (.inr rfl)

theorem findAnother_eq_ok {maxRound : ℤ} {path used : List ℤ}
    (h : findAnother π source target n start maxRound excludeNodes = .ok (path, used)) :
    findPath π source target n start maxRound excludeNodes = .ok path ∧
      used = excludeNodes ++ path.filter fun hop => hop ≠ source ∧ hop ≠ target := by
  unfold findAnother at h
  split_ifs at h
  obtain ⟨path', hpath, h⟩ := exists_of_bind_eq_ok h
  obtain ⟨rfl, rfl⟩ := Prod.mk.inj (Except.ok.inj h)
  exact ⟨hpath, rfl⟩

theorem findPathsFrom_cons_eq_ok {target : ℤ} {targets usedNodes : List ℤ} {maxRound : ℤ}
    {paths : List (List ℤ)}
    (h : findPathsFrom π source n start maxRound (target :: targets) usedNodes = .ok paths) :
    ∃ path used rest, findAnother π source target n start maxRound usedNodes = .ok (path, used) ∧
      findPathsFrom π source n start maxRound targets used = .ok rest ∧
      paths = path.tail :: rest := by
  obtain ⟨⟨path, used⟩, hfound, h⟩ := exists_of_bind_eq_ok h
  obtain ⟨rest, hrest, h⟩ := exists_of_bind_eq_ok h
  obtain rfl := Except.ok.inj h
  exact ⟨path, used, rest, hfound, hrest, rfl⟩

theorem findAnother_ok {maxRound : ℤ} {path used : List ℤ}
    (h : findAnother π source target n start maxRound excludeNodes = .ok (path, used)) :
    ∃ k : ℕ, start + k < maxRound ∧ Found n source target start excludeNodes k path ∧
      targetRound π source target n start maxRound excludeNodes = some (start + k) := by
  have hspec := findPath_spec π n source target start maxRound excludeNodes
  rwa [(findAnother_eq_ok h).1] at hspec

/-- `C` holds of the target and the used nodes of every search that `find_paths` makes. -/
def EachSearch (C : ℤ → List ℤ → Prop) (π : IterationOrder) (sourceId numNodes startRound maxRound : ℤ) :
    List ℤ → List ℤ → Prop
  | [], _ => True
  | target :: targets, usedNodes => C target usedNodes ∧ ∀ path used,
      findAnother π sourceId target numNodes startRound maxRound usedNodes = .ok (path, used) →
      EachSearch C π sourceId numNodes startRound maxRound targets used

/-- What each search decides of its own path is decided of all paths. -/
theorem forall_paths_iff {C : ℤ → List ℤ → Prop} {Q : List ℤ → Prop} {maxRound : ℤ}
    (hsearch : ∀ target usedNodes path used,
      findAnother π source target n start maxRound usedNodes = .ok (path, used) →
      (Q path.tail ↔ C target usedNodes))
    {targets usedNodes : List ℤ} {paths : List (List ℤ)}
    (hpaths : findPathsFrom π source n start maxRound targets usedNodes = .ok paths) :
    (∀ path ∈ paths, Q path) ↔ EachSearch C π source n start maxRound targets usedNodes := by
  induction targets generalizing usedNodes paths with
  | nil =>
    obtain rfl := Except.ok.inj hpaths
    simp [EachSearch]
  | cons target targets ih =>
    obtain ⟨path, used, rest, hfound, hrest, rfl⟩ := findPathsFrom_cons_eq_ok hpaths
    rw [EachSearch, List.forall_mem_cons, hsearch target usedNodes path used hfound, ih hrest]
    constructor
    · rintro ⟨hC, heach⟩
      refine ⟨hC, fun path' used' hfound' => ?_⟩
      obtain ⟨-, rfl⟩ := Prod.mk.inj (Except.ok.inj (hfound.symm.trans hfound'))
      exact heach
    · rintro ⟨hC, heach⟩
      exact ⟨hC, heach path used hfound⟩

end Search
end Pddm
