import Pddm.HftDelivery
import Pddm.Sampling

/-!
# A query with heavy failures

From the contributions and relays of the meters to the values of the proxies, when Aggregate
begins.
-/
namespace Pddm

namespace HftProtocolState
open ProtocolState

def scattering (env : ProtocolEnv) (queryNum : ℤ) (relays : OrderedMap ℤ ℤ)
    (contribution : ValueTuple) (s : State) : State :=
  ProtocolState.leaving { s with
    myContribution :=
      some { contribution with proxies := contribution.proxies.insertionSort (· ≤ ·) }
    impl := ⟨.scatter, 0, (relays.entries.map
      (scatterMessage env queryNum (.ofTuple contribution))).foldl emplaceMessage [], []⟩ } .start

def gathering (s : State) : State :=
  { s with impl := ⟨.gather, s.overlayRound, s.impl.relayMessages, []⟩ }

section Messages
variable {query : ℤ}

def gatherMessage (query : ℤ) (contribution : ValueTuple) (proxy : ℤ) : OverlayMessage :=
  ⟨query, proxy, true, true, none, .valueContribution (.ofTuple contribution)⟩

def relayMessage (query : ℤ) (contribution : ValueTuple) (proxyRelay : ℤ × ℤ) : OverlayMessage :=
  ⟨query, proxyRelay.2, true, true, none, (gatherMessage query contribution proxyRelay.1).toBody⟩

theorem scatterMessage_dummy {env : ProtocolEnv} (hcrypto : env.crypto = dummyCrypto)
    (contribution : ValueTuple) (e : ℤ × ℤ) :
    scatterMessage env query (.ofTuple contribution) e = relayMessage query contribution e := by
  rw [scatterMessage, hcrypto]
  rfl

theorem gatherMessage_floods (contribution : ValueTuple) (proxy : ℤ) :
    Floods query (gatherMessage query contribution proxy) :=
  ⟨⟨rfl, by simp [gatherMessage, MessageBody.asOverlayMessage]⟩, rfl, rfl, by simp [gatherMessage]⟩

@[simp] theorem asOverlayMessage_relayMessage (contribution : ValueTuple) (e : ℤ × ℤ) :
    (relayMessage query contribution e).body.asOverlayMessage =
      some (gatherMessage query contribution e.1) :=
  (gatherMessage query contribution e.1).asOverlayMessage_toBody

theorem relayMessage_floods (contribution : ValueTuple) (e : ℤ × ℤ) :
    Floods query (relayMessage query contribution e) := by
  refine ⟨⟨rfl, fun w hw => ?_⟩, rfl, rfl,
    by simp [relayMessage, gatherMessage, OverlayMessage.toBody]⟩
  rw [asOverlayMessage_relayMessage] at hw
  obtain rfl := Option.some.inj hw
  exact (gatherMessage_floods contribution e.1).body

theorem foldl_emplaceMessage_of_body {messages held : List OverlayMessage}
    (h : ∀ m ∈ messages, m.body ≠ .null) :
    messages.foldl emplaceMessage held = held ++ messages := by
  induction messages generalizing held with
  | nil => simp
  | cons m messages ih =>
    rw [List.foldl_cons, emplaceMessage_of_body (h m (by simp)),
      ih fun m' hm' => h m' (List.mem_cons_of_mem _ hm')]
    simp

end Messages

section Logarithm

/-- Flooding takes at least as many rounds as there are bits in the number of meters. -/
theorem lt_two_pow_ceilLog2 {n : ℤ} (hn : 3 ≤ n) (hodd : Odd n) : n < 2 ^ ceilLog2 n := by
  have hlog : n.toNat - 1 < 2 ^ (Nat.log2 (n.toNat - 1) + 1) := Nat.lt_log2_self
  have heven : 2 ∣ 2 ^ (Nat.log2 (n.toNat - 1) + 1) := dvd_pow_self 2 (by omega)
  obtain ⟨k, hk⟩ := hodd
  rw [ceilLog2, if_neg (by omega)]
  zify at hlog
  have hcast : ((n.toNat - 1 : ℕ) : ℤ) = n - 1 := by omega
  have hpower : ((2 ^ (Nat.log2 (n.toNat - 1) + 1) : ℕ) : ℤ) =
      2 ^ (Nat.log2 (n.toNat - 1) + 1) := by
    push_cast
    rfl
  rw [hcast] at hlog
  omega

theorem one_le_of_lt {n : ℤ} {rounds : ℕ} (hn : 2 ≤ n) (hrounds : n < 2 ^ rounds) :
    1 ≤ rounds := by
  cases rounds with
  | zero => norm_num at hrounds; omega
  | succ rounds => omega

/-- Where the powers are exact the targets of successive rounds double. -/
theorem doubling_gossip {n first : ℤ} {rounds : ℕ} (hn : 2 ≤ n) (hlt : n < 2 ^ 31)
    (hexact : ∀ t, first ≤ t → t < first + rounds → gossipDistance n t = 2 ^ t.toNat % n) :
    Doubling (gossip n) n first rounds := by
  intro k hk v hv hvn
  rw [gossip, gossipTarget_eq_distance hn hlt _ hv hvn, hexact _ (by omega) (by omega),
    Int.add_emod_emod]

end Logarithm

section Query
variable {n query : ℤ} {g : ℕ} {contributions : ℤ → ValueTuple} {relays : ℤ → OrderedMap ℤ ℤ}
  {run : Lockstep protocol n query 0 (2 * g + 1)}

/-- The meters go into the rounds of a query with these contributions and relays. -/
structure Starts (run : Lockstep protocol n query 0 (2 * g + 1)) (contributions : ℤ → ValueTuple)
    (relays : ℤ → OrderedMap ℤ ℤ) : Prop where
  starts : ∀ i, 0 ≤ i → i < n → ∃ s : State, s.overlayRound = -1 ∧ s.waitingMessages = [] ∧
    s.outgoingMessages = [] ∧ s.proxyValues = [] ∧
      endOverlayRoundImpl (run.env i)
        (scattering (run.env i) query (relays i) (contributions i) s) = .done (run.ready 0 i)
  queryNum : ∀ i, 0 ≤ i → i < n → (contributions i).queryNum = query
  proxies : ∀ i, 0 ≤ i → i < n → ∀ proxy,
    (∃ relay, (proxy, relay) ∈ (relays i).entries) ↔ proxy ∈ (contributions i).proxies
  relays_mem : ∀ i, 0 ≤ i → i < n → ∀ e ∈ (relays i).entries, 0 ≤ e.2 ∧ e.2 < n

theorem Starts.floodable (h : Starts run contributions relays) {i : ℤ} (hi : 0 ≤ i) (hin : i < n) :
    ∃ s, Floodable query 0 s ∧ run.ready 0 i = flood (run.env i) s ∧
      s.impl = ⟨.scatter, 0, (relays i).entries.map (relayMessage query (contributions i)), []⟩ ∧
      s.proxyValues = [] := by
  obtain ⟨s, hround, hwaiting, houtgoing, hvalues, hready⟩ := h.starts i hi hin
  have hmessages : ((relays i).entries.map (scatterMessage (run.env i) query
      (.ofTuple (contributions i)))).foldl emplaceMessage [] =
      (relays i).entries.map (relayMessage query (contributions i)) := by
    rw [List.map_congr_left fun e _ => scatterMessage_dummy (run.crypto i) (contributions i) e]
    apply foldl_emplaceMessage_of_body
    intro m hm
    obtain ⟨e, -, rfl⟩ := List.mem_map.mp hm
    exact (relayMessage_floods (contributions i) e).body
  have hstays : endPhase (run.env i)
      (scattering (run.env i) query (relays i) (contributions i) s) =
        .done (scattering (run.env i) query (relays i) (contributions i) s) := by
    have hlog : 0 ≤ (run.env i).log2n := Int.natCast_nonneg _
    unfold endPhase
    rw [if_neg, if_neg]
    · simp [scattering, leaving, act]
    · simp only [scattering, leaving, act, hround]
      omega
  refine ⟨scattering (run.env i) query (relays i) (contributions i) s, ?_, ?_, ?_, hvalues⟩
  · refine ⟨hwaiting, houtgoing, ?_, rfl, ?_⟩
    · simp [scattering, leaving, act, hround]
    · intro m hm
      have hm' : m ∈ (relays i).entries.map (relayMessage query (contributions i)) :=
        hmessages ▸ hm
      obtain ⟨e, -, rfl⟩ := List.mem_map.mp hm'
      exact relayMessage_floods (contributions i) e
  · rw [endOverlayRoundImpl, hstays] at hready
    exact (Outcome.done.inj hready).symm
  · unfold scattering
    rw [hmessages]
    rfl

theorem Starts.scatterIn_zero (h : Starts run contributions relays) : ScatterIn run 0 := by
  have hstate : Nonempty State := ⟨run.ready 0 0⟩
  choose! before hfloodable hready himpl hvalues using fun i hi hin => h.floodable (i := i) hi hin
  constructor
  case floodsIn => exact floodsIn_of_flood hfloodable hready
  case phase =>
    intro i hi hin
    rw [hready i hi hin, (hfloodable i hi hin).flood_eq]
    simp [himpl i hi hin]
  case values =>
    intro i hi hin
    rw [hready i hi hin, (hfloodable i hi hin).flood_eq]
    exact hvalues i hi hin
  case relays =>
    intro i hi hin w
    rw [hready i hi hin, (hfloodable i hi hin).flood_eq]
    simp [himpl i hi hin, arrived_self]

theorem Starts.mem_sends (h : Starts run contributions relays) {j : ℤ} (hj : 0 ≤ j) (hjn : j < n)
    (m : OverlayMessage) : m ∈ sends run 0 j ↔ ∃ e ∈ (relays j).entries,
      (relayMessage query (contributions j) e).opened dummyCrypto = m := by
  obtain ⟨s, hfloodable, hready, himpl, -⟩ := h.floodable hj hjn
  rw [mem_sends_of_flood hfloodable hready, himpl]
  simp

theorem lt_two_pow_length (hn : 3 ≤ n) (hodd : Odd n) (hg : PhaseLength run g) : n < 2 ^ g := by
  have hlength := hg 0
  rw [ProtocolEnv.log2n, run.numMeters] at hlength
  have hle : ceilLog2 n ≤ g := by omega
  calc n < 2 ^ ceilLog2 n := lt_two_pow_ceilLog2 hn hodd
    _ ≤ 2 ^ g := pow_le_pow_right₀ (by norm_num) hle

variable (hg : PhaseLength run g) (hn : 2 ≤ n) (hlt : n < 2 ^ 31)
include hg hn hlt

theorem Starts.scatterIn (h : Starts run contributions relays) {r : ℕ} (hr : r ≤ g) :
    ScatterIn run r := by
  induction r with
  | zero => simpa using h.scatterIn_zero
  | succ r ih =>
    push_cast
    exact ((ih (by omega)).next hg hn hlt (by omega) (by omega) (by omega)).1

theorem Starts.scatter_flood (h : Starts run contributions relays) :
    Flood (gossip n) OverlayMessage.destination {i | 0 ≤ i ∧ i < n} 0 (0 + (g + 1 : ℕ))
      (sends run) := by
  apply flood_of_ends hn hlt
  intro r i hr hrg hi hin
  push_cast at hrg
  have hscatter := h.scatterIn hg hn hlt (r := r.toNat) (by omega)
  rw [Int.toNat_of_nonneg hr] at hscatter
  exact (hscatter.next hg hn hlt hr (by omega) (by omega)).2 i hi hin

theorem Starts.ends_scatter (h : Starts run contributions relays) {i : ℤ} (hi : 0 ≤ i)
    (hin : i < n) :
    endPhase (run.env i) (run.closed g i) = .done (gathering (run.closed g i)) := by
  have hlast := h.scatterIn hg hn hlt le_rfl
  have hends := hlast.floodsIn.ends hn hlt (by omega) (by omega) hi hin
  have hlength := hg i
  have hround := hends.overlayRound
  unfold endPhase
  apply if_pos
  exact ⟨hends.phase.trans (hlast.phase i hi hin), by omega⟩

variable (hodd : Odd n) (hrounds : n < 2 ^ g)
  (hexact : ∀ t : ℤ, 0 ≤ t → t ≤ 2 * g → gossipDistance n t = 2 ^ t.toNat % n)
include hodd hrounds hexact

/-- When Scatter ends each meter has put aside what it is to relay. -/
theorem Starts.relayed (h : Starts run contributions relays) {i : ℤ} (hi : 0 ≤ i) (hin : i < n)
    (w : OverlayMessage) :
    w ∈ (run.closed g i).impl.relayMessages ↔ ∃ j, (0 ≤ j ∧ j < n) ∧ ∃ proxy,
      (proxy, i) ∈ (relays j).entries ∧ gatherMessage query (contributions j) proxy = w := by
  have hlast := h.scatterIn hg hn hlt le_rfl
  have hends := hlast.floodsIn.ends hn hlt (by omega) (by omega) hi hin
  have harrived : w ∈ (run.closed g i).impl.relayMessages ↔
      Arrived run 0 (0 + (g + 1 : ℕ)) i fun m => m.body.asOverlayMessage = some w := by
    rw [hends.relays, hlast.relays i hi hin, hlast.phase i hi hin, zero_add]
    push_cast
    rw [arrived_next (by omega)]
    simp
  have hmore : n < 2 ^ (g + 1) := by
    rw [pow_succ]
    omega
  have hdoubling : Doubling (gossip n) n 0 (g + 1) :=
    doubling_gossip hn hlt fun t ht hlast => hexact t ht (by omega)
  rw [harrived, arrived_iff (by omega) hodd le_rfl hmore hdoubling
    (h.scatter_flood hg hn hlt) hi hin]
  refine exists_congr fun j => and_congr_right fun hj => ?_
  constructor
  · rintro ⟨m, hm, hdestination, hw⟩
    obtain ⟨⟨proxy, relay⟩, he, rfl⟩ := (h.mem_sends hj.1 hj.2 m).mp hm
    rw [opened_destination] at hdestination
    rw [opened_body, asOverlayMessage_relayMessage] at hw
    obtain rfl : relay = i := hdestination
    exact ⟨proxy, he, Option.some.inj hw⟩
  · rintro ⟨proxy, he, rfl⟩
    exact ⟨_, (h.mem_sends hj.1 hj.2 _).mpr ⟨_, he, rfl⟩, by simp [relayMessage], by simp⟩

theorem Starts.switched (h : Starts run contributions relays) {i : ℤ} (hi : 0 ≤ i) (hin : i < n) :
    ∃ s, Floodable query (g + 1) s ∧ run.ready (g + 1) i = flood (run.env i) s ∧
      s.impl.protocolPhase = .gather ∧ s.impl.gatherStartRound = g ∧ s.proxyValues = [] ∧
        s.impl.currentFloodMessages = (run.closed g i).impl.relayMessages := by
  have hone : 1 ≤ g := one_le_of_lt hn hrounds
  have hlast := h.scatterIn hg hn hlt le_rfl
  have hends := hlast.floodsIn.ends hn hlt (by omega) (by omega) hi hin
  have hphase := h.ends_scatter hg hn hlt hi hin
  have hnext := run.ends g i (by omega) (by omega) hi hin
  change endOverlayRoundImpl (run.env i) (run.closed g i) = _ at hnext
  rw [endOverlayRoundImpl, hphase] at hnext
  refine ⟨gathering (run.closed g i), ⟨hends.waiting, hends.outgoing, ?_, rfl, ?_⟩,
    (Outcome.done.inj hnext).symm, rfl, hends.overlayRound, ?_, rfl⟩
  · change (run.closed g i).overlayRound + 1 = _
    rw [hends.overlayRound]
  · intro w hw
    obtain ⟨j, -, proxy, -, rfl⟩ := (h.relayed hg hn hlt hodd hrounds hexact hi hin w).mp hw
    exact gatherMessage_floods _ _
  · change (run.closed g i).proxyValues = []
    rw [List.eq_nil_iff_forall_not_mem]
    intro v
    rw [hends.values, hlast.values i hi hin, hlast.phase i hi hin]
    simp

theorem Starts.gatherIn_first (h : Starts run contributions relays) :
    GatherIn run g (g + 1) := by
  have hstate : Nonempty State := ⟨run.ready 0 0⟩
  choose! before hfloodable hready hphase hgather hvalues hfloods using fun i hi hin =>
    h.switched hg hn hlt hodd hrounds hexact (i := i) hi hin
  constructor
  case floodsIn => exact floodsIn_of_flood hfloodable hready
  case phase =>
    intro i hi hin
    rw [hready i hi hin, (hfloodable i hi hin).flood_eq]
    exact hphase i hi hin
  case gatherStart =>
    intro i hi hin
    rw [hready i hi hin, (hfloodable i hi hin).flood_eq]
    exact hgather i hi hin
  case values =>
    intro i hi hin v
    rw [hready i hi hin, (hfloodable i hi hin).flood_eq]
    simp [hvalues i hi hin, arrived_self]

theorem Starts.gatherIn (h : Starts run contributions relays) {k : ℕ} (hk : k < g) :
    GatherIn run g (g + 1 + k) := by
  induction k with
  | zero => simpa using h.gatherIn_first hg hn hlt hodd hrounds hexact
  | succ k ih =>
    have hnext := (ih (by omega)).next hg hn hlt (by omega) (by omega) (by omega) (by omega)
    push_cast
    rw [← add_assoc]
    exact hnext.1

theorem Starts.gatherIn_last (h : Starts run contributions relays) : GatherIn run g (2 * g) := by
  have hone : 1 ≤ g := one_le_of_lt hn hrounds
  have hlast := h.gatherIn hg hn hlt hodd hrounds hexact (k := g - 1) (by omega)
  have hround : (g : ℤ) + 1 + (g - 1 : ℕ) = 2 * g := by omega
  rwa [hround] at hlast

theorem Starts.gather_flood (h : Starts run contributions relays) :
    Flood (gossip n) OverlayMessage.destination {i | 0 ≤ i ∧ i < n} (g + 1) (g + 1 + g)
      (sends run) := by
  apply flood_of_ends hn hlt
  intro r i hr hrg hi hin
  obtain ⟨k, rfl⟩ : ∃ k : ℕ, r = g + 1 + k := ⟨(r - (g + 1)).toNat, by omega⟩
  have hgather := h.gatherIn hg hn hlt hodd hrounds hexact (k := k) (by omega)
  exact (hgather.next hg hn hlt (by omega) (by omega) (by omega) (by omega)).2 i hi hin

/-- When Gather ends each meter has the contributions that it is a proxy for. -/
theorem Starts.gathered (h : Starts run contributions relays) {i : ℤ} (hi : 0 ≤ i) (hin : i < n)
    (v : ValueContribution) : v ∈ (run.closed (2 * g) i).proxyValues ↔
      ∃ j, (0 ≤ j ∧ j < n) ∧ i ∈ (contributions j).proxies ∧ v = .ofTuple (contributions j) := by
  have hone : 1 ≤ g := one_le_of_lt hn hrounds
  have hlast := h.gatherIn_last hg hn hlt hodd hrounds hexact
  have hends := hlast.floodsIn.ends hn hlt (by omega) (by omega) hi hin
  have harrived : v ∈ (run.closed (2 * g) i).proxyValues ↔
      Arrived run (g + 1) (g + 1 + g) i fun m =>
        m.body.asValueContribution = some v ∧ v.value.queryNum = query := by
    have hstop : (g : ℤ) + 1 + g = 2 * g + 1 := by ring
    rw [hends.values, hlast.values i hi hin, hlast.phase i hi hin, hstop, arrived_next (by omega)]
    simp
  have hdoubling : Doubling (gossip n) n (g + 1) g :=
    doubling_gossip hn hlt fun t ht hlast => hexact t (by omega) (by omega)
  rw [harrived, arrived_iff (by omega) hodd (by omega) hrounds hdoubling
    (h.gather_flood hg hn hlt hodd hrounds hexact) hi hin]
  constructor
  · rintro ⟨relay, hrelay, m, hm, hdestination, hv, hquery⟩
    obtain ⟨s, hfloodable, hready, -, -, -, hfloods⟩ :=
      h.switched hg hn hlt hodd hrounds hexact hrelay.1 hrelay.2
    obtain ⟨w, hw, rfl⟩ := (mem_sends_of_flood hfloodable hready m).mp hm
    rw [hfloods, h.relayed hg hn hlt hodd hrounds hexact hrelay.1 hrelay.2] at hw
    obtain ⟨j, hj, proxy, he, rfl⟩ := hw
    rw [opened_destination] at hdestination
    obtain rfl : proxy = i := hdestination
    rw [opened_body] at hv
    exact ⟨j, hj, (h.proxies j hj.1 hj.2 proxy).mp ⟨relay, he⟩, (Option.some.inj hv).symm⟩
  · rintro ⟨j, hj, hproxy, rfl⟩
    obtain ⟨relay, he⟩ := (h.proxies j hj.1 hj.2 i).mpr hproxy
    have hrelay := h.relays_mem j hj.1 hj.2 _ he
    obtain ⟨s, hfloodable, hready, -, -, -, hfloods⟩ :=
      h.switched hg hn hlt hodd hrounds hexact hrelay.1 hrelay.2
    have hw : gatherMessage query (contributions j) i ∈ s.impl.currentFloodMessages := by
      rw [hfloods, h.relayed hg hn hlt hodd hrounds hexact hrelay.1 hrelay.2]
      exact ⟨j, hj, i, he, rfl⟩
    refine ⟨relay, hrelay, _, (mem_sends_of_flood hfloodable hready _).mpr ⟨_, hw, rfl⟩, ?_, ?_, ?_⟩
    · rw [opened_destination]
      rfl
    · rw [opened_body]
      rfl
    · exact h.queryNum j hj.1 hj.2

theorem Starts.ends_gather (h : Starts run contributions relays) {i : ℤ} (hi : 0 ≤ i)
    (hin : i < n) : endPhase (run.env i) (run.closed (2 * g) i) =
      enterAggregatePhase (run.env i) aggregatePhase
        ((run.closed (2 * g) i).onImpl fun i => { i with currentFloodMessages := [] }) := by
  have hone : 1 ≤ g := one_le_of_lt hn hrounds
  have hlast := h.gatherIn_last hg hn hlt hodd hrounds hexact
  have hends := hlast.floodsIn.ends hn hlt (by omega) (by omega) hi hin
  have hlength := hg i
  have hphase := hends.phase.trans (hlast.phase i hi hin)
  have hround := hends.overlayRound
  have hstart := hends.gatherStart.trans (hlast.gatherStart i hi hin)
  unfold endPhase
  rw [if_neg (by simp [hphase]), if_pos ⟨hphase, by omega⟩]

end Query

section Assignment
variable (shuffle : IterationOrder) (n : ℤ) (proxies : List ℤ)

theorem exists_relay_foldl (entries : List (ℤ × ℤ)) (proxy : ℤ) :
    (∃ relay, (proxy, relay) ∈ entries.foldl assignRelay OrderedMap.empty) ↔
      proxy ∈ entries.map Prod.fst := by
  induction entries using List.reverseRecOn with
  | nil => simp [OrderedMap.mem_def, OrderedMap.empty]
  | append_singleton entries entry ih =>
    rw [List.foldl_append, List.foldl_cons, List.foldl_nil, List.map_append, List.mem_append, ← ih]
    simp only [mem_assignRelay, List.map_cons, List.map_nil, List.mem_singleton]
    constructor
    · rintro ⟨relay, rfl | ⟨hrelay, -⟩⟩
      · exact Or.inr rfl
      · exact Or.inl ⟨relay, hrelay⟩
    · by_cases hkey : proxy = entry.1
      · exact fun _ => ⟨entry.2, Or.inl (by rw [hkey])⟩
      · rintro (⟨relay, hrelay⟩ | heq)
        · exact ⟨relay, Or.inr ⟨hrelay, hkey⟩⟩
        · exact absurd heq hkey

theorem mem_of_mem_setIntersection {x : ℤ} (xs : List ℤ) {ys : List ℤ}
    (hx : x ∈ setIntersection xs ys) : x ∈ xs := by
  induction xs generalizing ys with
  | nil => simp [setIntersection] at hx
  | cons y xs ih =>
    unfold setIntersection at hx
    split at hx
    · cases hx
    · split_ifs at hx
      · exact List.mem_cons_of_mem _ (ih hx)
      · rcases List.mem_cons.mp hx with rfl | hx
        · simp
        · exact List.mem_cons_of_mem _ (ih hx)

variable {shuffle n} in
theorem mem_sampleRangeExcluding {excludeValues : List ℤ} {k : ℕ} {x : ℤ} (hn : 0 < n)
    (hx : x ∈ sampleRangeExcluding shuffle 0 n excludeValues k) : 0 ≤ x ∧ x < n := by
  simp only [sampleRangeExcluding, List.mem_append, List.mem_replicate] at hx
  rcases hx with hx | ⟨-, rfl⟩
  · have hrange := mem_of_mem_setIntersection _ (shuffle.mem_order.mp (List.mem_of_mem_take hx))
    obtain ⟨k, hk, rfl⟩ := List.mem_map.mp hrange
    rw [List.mem_range] at hk
    omega
  · omega

/-- The relays that a meter draws are assigned to its proxies, and to no one else. -/
theorem exists_relaysFor (proxy : ℤ) :
    (∃ relay, (proxy, relay) ∈ (relaysFor shuffle n proxies).entries) ↔ proxy ∈ proxies := by
  refine (exists_relay_foldl _ proxy).trans ?_
  rw [List.map_fst_zip (by rw [length_sampleRangeExcluding]), List.mem_insertionSort]

variable {shuffle n proxies} in
theorem relaysFor_range (hn : 0 < n) {e : ℤ × ℤ} (he : e ∈ (relaysFor shuffle n proxies).entries) :
    0 ≤ e.2 ∧ e.2 < n := by
  obtain ⟨k, hk, hentry, -⟩ := (mem_foldl_assignRelay _).mp he
  have hzip : e ∈ (proxies.insertionSort (· ≤ ·)).zip (sampleRangeExcluding shuffle 0 n
      (proxies.insertionSort (· ≤ ·)) (proxies.insertionSort (· ≤ ·)).length) :=
    hentry ▸ List.getElem_mem hk
  exact mem_sampleRangeExcluding hn (List.of_mem_zip hzip).2

end Assignment

/-- When the meters enter Aggregate each has as values of a proxy the contributions that name it,
and no others. Scatter has brought all messages to the relays, Gather all that these relay to the
proxies. -/
theorem proxies_get_values {n query : ℤ} {g : ℕ} (hn : 3 ≤ n) (hlt : n < 2 ^ 31) (hodd : Odd n)
    (hexact : ∀ t : ℤ, 0 ≤ t → t ≤ 2 * g → gossipDistance n t = 2 ^ t.toNat % n)
    {contributions : ℤ → ValueTuple} {relays : ℤ → OrderedMap ℤ ℤ}
    (run : Lockstep protocol n query 0 (2 * g + 1)) (hg : PhaseLength run g)
    (h : Starts run contributions relays) {i : ℤ} (hi : 0 ≤ i) (hin : i < n) :
    (endPhase (run.env i) (run.closed g i) = .done (gathering (run.closed g i)) ∧
      ∀ w, w ∈ (run.closed g i).impl.relayMessages ↔ ∃ j, (0 ≤ j ∧ j < n) ∧ ∃ proxy,
        (proxy, i) ∈ (relays j).entries ∧ gatherMessage query (contributions j) proxy = w) ∧
    ∃ s : State,
      endPhase (run.env i) (run.closed (2 * g) i) =
        enterAggregatePhase (run.env i) aggregatePhase s ∧
        ∀ v, v ∈ s.proxyValues ↔ ∃ j, (0 ≤ j ∧ j < n) ∧ i ∈ (contributions j).proxies ∧
          v = .ofTuple (contributions j) := by
  have hrounds : n < 2 ^ g := lt_two_pow_length hn hodd hg
  have htwo : 2 ≤ n := by omega
  refine ⟨⟨h.ends_scatter hg htwo hlt hi hin, h.relayed hg htwo hlt hodd hrounds hexact hi hin⟩, ?_⟩
  refine ⟨_, h.ends_gather hg htwo hlt hodd hrounds hexact hi hin, ?_⟩
  exact h.gathered hg htwo hlt hodd hrounds hexact hi hin

section Samples

theorem sampleFlood_meters : (0 : ℤ) < 3 := by decide

/-- Three meters, of which the first names both others as its proxies. -/
def sampleFloodEnv (i : ℤ) : ProtocolEnv where
  meterId := i
  numMeters := 3
  numMeters_pos := sampleFlood_meters
  failuresTolerated := 0
  numAggregationGroups := 1
  crypto := dummyCrypto
  π := .insertion
  sendOk _ := true
  draws _ _ := 0
  shuffle _ := .insertion

def sampleContribution (i : ℤ) : ValueTuple :=
  ⟨7, [i + 5], if i = 0 then [1, 2] else if i = 1 then [0] else []⟩

def sampleRelays (i : ℤ) : OrderedMap ℤ ℤ := relaysFor .insertion 3 (sampleContribution i).proxies

def sampleIdle : State :=
  { ProtocolState.init HftProtocolState.init with overlayRound := -1 }

def sampleFlood (i : ℤ) : State :=
  (endOverlayRoundImpl (sampleFloodEnv i) (scattering (sampleFloodEnv i) 7 (sampleRelays i)
    (sampleContribution i) sampleIdle)).state

theorem sampleFlood_goes (r i : ℕ) (hr : (r : ℤ) < 2 * (2 : ℕ) + 1) (hi : (i : ℤ) < 3) :
    RoundGoes sampleFloodEnv protocol 3 7 (2 * (2 : ℕ) + 1) sampleFlood r i := by
  have hall : ∀ r < 5, ∀ i < 3,
      RoundGoes sampleFloodEnv protocol 3 7 (2 * (2 : ℕ) + 1) sampleFlood r (i : ℕ) := by
    decide +kernel
  exact hall r (by omega) i (by omega)

def sampleFloodRun : Lockstep protocol 3 7 0 (2 * (2 : ℕ) + 1) :=
  .generate (fun _ => rfl) (fun _ => rfl) (fun _ => rfl) (fun _ _ => rfl) sampleFlood_goes

theorem sampleFloodRun_starts : Starts sampleFloodRun sampleContribution sampleRelays where
  starts i hi hin := by
    refine ⟨sampleIdle, rfl, rfl, rfl, rfl, ?_⟩
    interval_cases i <;> decide +kernel
  queryNum _ _ _ := rfl
  proxies i _ _ proxy := exists_relaysFor .insertion 3 (sampleContribution i).proxies proxy
  relays_mem _ _ _ _ he := relaysFor_range (by decide) he

/-- In round 4 the second meter goes on to Aggregate with the value of the first one alone. -/
theorem proxies_get_values_second : ∃ s : State,
    endPhase (sampleFloodEnv 1) (sampleFloodRun.closed (2 * (2 : ℕ)) 1) =
      enterAggregatePhase (sampleFloodEnv 1) aggregatePhase s ∧
    ∀ v, v ∈ s.proxyValues ↔ v = .ofTuple (sampleContribution 0) := by
  have hexact (t : ℤ) (ht : 0 ≤ t) (hlast : t ≤ 2 * (2 : ℕ)) :
      gossipDistance 3 t = 2 ^ t.toNat % 3 := by
    push_cast at hlast
    interval_cases t <;> decide
  have hlength : PhaseLength sampleFloodRun (2 : ℕ) := fun _ =>
    (by decide : (ceilLog2 3 : ℤ) + (0 : ℕ) = (2 : ℕ))
  obtain ⟨-, s, hends, hvalues⟩ := proxies_get_values (by decide) (by decide) (by decide) hexact
    sampleFloodRun hlength sampleFloodRun_starts (i := 1) (by decide) (by decide)
  refine ⟨s, hends, fun v => (hvalues v).trans ⟨?_, ?_⟩⟩
  · rintro ⟨j, ⟨hj, hjn⟩, hproxy, rfl⟩
    interval_cases j
    · rfl
    · exact absurd hproxy (by decide)
    · exact absurd hproxy (by decide)
  · rintro rfl
    exact ⟨0, by decide, by decide, rfl⟩

end Samples
end HftProtocolState
end Pddm
