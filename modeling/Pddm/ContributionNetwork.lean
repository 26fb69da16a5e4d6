import Pddm.ContributionOrigins
import Pddm.SealedNetwork

/-!
# Where the sums come from

In a network of meters, whatever is lost, delayed or repeated on the way, a meter adds up only
what some meter has contributed, and only as a proxy of that contribution.
-/
namespace Pddm

/-- Proxies come in order, one from each group, and without the meter itself. -/
theorem proxies_of_pickProxies {G N nodeId : ℤ} {draws : ℕ → ℤ} {proxies : List ℤ}
    (hsizes : ValidSizes G N) (hdraws : ValidDraws draws nodeId G N)
    (h : pickProxies draws nodeId G N = .ok proxies) : proxies.Pairwise (· < ·) ∧
      (∀ p ∈ proxies, 0 ≤ p ∧ p < N ∧ p ≠ nodeId) ∧
      ∀ p ∈ proxies, ∀ q ∈ proxies, aggregationGroupFor p G N = aggregationGroupFor q G N →
        p = q := by
  obtain rfl := Except.ok.inj (h.symm.trans (pickProxies_eq hsizes draws nodeId))
  have hG := hsizes.groups
  have hgroup {g : ℕ} (hg : g ∈ List.range G.toNat) : (g : ℤ) < G := by
    have hrange := List.mem_range.mp hg
    omega
  refine ⟨?_, fun p hp => ?_, fun p hp q hq hpq => ?_⟩
  · rw [List.pairwise_map]
    refine List.pairwise_lt_range.imp_of_mem fun {g g'} hg hg' hlt => ?_
    have hmem := pickProxy_mem_group hsizes hdraws (hgroup hg)
    have hmem' := pickProxy_mem_group hsizes hdraws (hgroup hg')
    rw [mem_groupMembers_iff hsizes.nonempty (by omega) (hgroup hg)] at hmem
    rw [mem_groupMembers_iff hsizes.nonempty (by omega) (hgroup hg')] at hmem'
    have hle := groupFirst_add_le hsizes.nonempty (Int.ofNat_lt.mpr hlt) (hgroup hg')
    omega
  · obtain ⟨g, hg, rfl⟩ := List.mem_map.mp hp
    obtain ⟨hnonneg, hlt, -⟩ := mem_groupMembers.mp (pickProxy_mem_group hsizes hdraws (hgroup hg))
    obtain ⟨hbegin, hend⟩ := hdraws g (hgroup hg)
    exact ⟨hnonneg, hlt, pickProxy_ne hend hbegin⟩
  · obtain ⟨g, hg, rfl⟩ := List.mem_map.mp hp
    obtain ⟨g', hg', rfl⟩ := List.mem_map.mp hq
    obtain ⟨-, -, hfor⟩ := mem_groupMembers.mp (pickProxy_mem_group hsizes hdraws (hgroup hg))
    obtain ⟨-, -, hfor'⟩ := mem_groupMembers.mp (pickProxy_mem_group hsizes hdraws (hgroup hg'))
    have hsame : (g : ℤ) = g' := hfor.symm.trans (hpq.trans hfor')
    rw [Int.ofNat_inj.mp hsame]

/-- Meters in groups, whose libraries leave what they send readable. -/
structure OpenNetwork where
  env : ℤ → ProtocolEnv
  numMeters : ℤ
  numGroups : ℤ
  sizes : ValidSizes numGroups numMeters
  meterId : ∀ i, (env i).meterId = i
  env_numMeters : ∀ i, (env i).numMeters = numMeters
  env_numGroups : ∀ i, (env i).numAggregationGroups = numGroups
  onlyMarks : ∀ i, (env i).crypto.OnlyMarks
  draws : ∀ i k, ValidDraws ((env i).draws k) i numGroups numMeters

namespace OpenNetwork
open ProtocolState (Event Layered KeepsOrigins Traceable TracedSoFar Originates)
open MeterNetwork (Sent Delivers)
variable {ι : Type} (net : OpenNetwork) (P : Protocol ι) (fuel : ℕ)

def step : ℤ → Outcome Fault (ProtocolState ι) → Event → Outcome Fault (ProtocolState ι) :=
  fun i => ProtocolState.step (net.env i) P fuel

def start : ℤ → Outcome Fault (ProtocolState ι) := fun _ => .done (.init P.init)

def run (es : List (ℤ × Event)) : ℤ → Outcome Fault (ProtocolState ι) :=
  es.foldl (partyStep (net.step P fuel)) (start P)

/-- An overlay message that arrives has been sent to where it arrives, at some time before. -/
def Genuine : List (ℤ × Event) → ℤ × Event → Prop :=
  SentBefore (net.step P fuel) (start P) Sent Delivers

def Contributed (es : List (ℤ × Event)) (c : ValueTuple) : Prop :=
  ∃ i request, (i, .startQuery request c.value) ∈ es ∧ c.queryNum = request.queryNumber ∧
    ∃ k, pickProxies ((net.env i).draws k) i net.numGroups net.numMeters = .ok c.proxies

variable {net P fuel} {es : List (ℤ × Event)}

theorem Contributed.sorted (c : ValueTuple) (h : net.Contributed es c) :
    c.proxies.Pairwise (· < ·) := by
  obtain ⟨i, request, -, -, k, hproxies⟩ := h
  exact (proxies_of_pickProxies net.sizes (net.draws i k) hproxies).1

theorem Contributed.one_in_group {c : ValueTuple} (h : net.Contributed es c) {p q : ℤ}
    (hp : p ∈ c.proxies) (hq : q ∈ c.proxies)
    (hgroup : aggregationGroupFor p net.numGroups net.numMeters =
      aggregationGroupFor q net.numGroups net.numMeters) : p = q := by
  obtain ⟨i, request, -, -, k, hproxies⟩ := h
  exact (proxies_of_pickProxies net.sizes (net.draws i k) hproxies).2.2 p hp q hq hgroup

theorem contributed_of_mem {i : ℤ} {request : QueryRequest} {data : List FixedPoint}
    (h : (i, .startQuery request data) ∈ es) {k : ℕ} {proxies : List ℤ}
    (hproxies : pickProxies ((net.env i).draws k) (net.env i).meterId
      (net.env i).numAggregationGroups (net.env i).numMeters = .ok proxies) :
    net.Contributed es ⟨request.queryNumber, data, proxies⟩ := by
  rw [net.meterId, net.env_numGroups, net.env_numMeters] at hproxies
  exact ⟨i, request, h, rfl, k, hproxies⟩

/-- The invariant of each meter holds through every run, if all of them take the same
contributions for good and what is started in the run is one of those. -/
theorem traced_of_genuine {L : Layered P}
    {O : ∀ i, Origins P.toAggregatePhase (net.env i).meterId} {good : ValueContribution → Prop}
    (K : ∀ i, KeepsOrigins L (net.env i) (O i)) (hgood : ∀ i, (O i).good = good)
    (hmine : ∀ i, (O i).mine = net.Contributed es)
    (hinit : ∀ i, (O i).stored P.init = [] ∧ (O i).sound P.init)
    (hes : EveryEntry (net.Genuine P fuel) es) (i : ℤ) :
    TracedSoFar (O i) (net.run P fuel es i).state := by
  have hstart (i : ℤ) : (start P i).Ends (Traceable (O i)) (TracedSoFar (O i)) :=
    ProtocolState.traceable_init (hinit i).1 (hinit i).2
  have hmem : EveryEntry (fun _ e => e ∈ es) es := fun pre e post h => by simp [h]
  have hall := invariant_of_sentBefore
    (fun i o => Outcome.Ends (Traceable (O i)) (TracedSoFar (O i)) o)
    (fun m : ℤ × OverlayTransportMessage => GoesTo good m.1 m.2.body) hstart
    (fun i o ho m hm => ?_) (fun before e he hdelivers ho => ?_) hes hmem es List.prefix_rfl i
  · exact Outcome.holds_iff.mp (hall.mono (fun _ hs => hs.trace) fun _ hs => hs)
  · obtain ⟨batch, hbatch, hmem⟩ := hm
    have htraced : TracedSoFar (O i) o.state :=
      Outcome.holds_iff.mp (ho.mono (fun _ hs => hs.trace) fun _ hs => hs)
    exact hgood i ▸ htraced _ hbatch m.2 hmem
  · obtain ⟨j, e⟩ := e
    have hevent : Originates (O j) e := by
      cases e with
      | startQuery request data =>
        intro k proxies hproxies
        rw [hmine j]
        exact contributed_of_mem he hproxies
      | overlay message =>
        change GoesTo (O j).good (net.env j).meterId message.body
        rw [hgood j, net.meterId j]
        exact hdelivers (j, message) ⟨rfl, rfl⟩
      | _ => trivial
    change Outcome.Ends _ _ (ProtocolState.step (net.env j) P fuel _ e)
    cases ho' : (before.foldl (partyStep (net.step P fuel)) (start P)) j with
    | halted error s =>
      rw [show before.foldl (partyStep (net.step P fuel)) (start P) (j, e).1 = _ from ho'] at ho
      exact ho
    | done s =>
      rw [show before.foldl (partyStep (net.step P fuel)) (start P) (j, e).1 = _ from ho'] at ho
      exact ((K j).maintainsAll (net.onlyMarks j) fuel).handle ho hevent

def AddsOnly (states : ℤ → Outcome Fault (ProtocolState ι))
    (Q : ℤ → ℤ → ValueContribution → Prop) : Prop :=
  ∀ i queryNum values, .computeAggregate queryNum values ∈ (states i).state.trace →
    ∀ v ∈ values, Q i queryNum v

theorem AddsOnly.mono {states : ℤ → Outcome Fault (ProtocolState ι)}
    {Q Q' : ℤ → ℤ → ValueContribution → Prop} (h : AddsOnly states Q)
    (hQ : ∀ i queryNum v, Q i queryNum v → Q' i queryNum v) : AddsOnly states Q' :=
  fun i queryNum values hmem v hv => hQ i queryNum v (h i queryNum values hmem v hv)

theorem addsOnly_ct (hes : EveryEntry (net.Genuine CtProtocolState.protocol fuel) es) :
    AddsOnly (net.run CtProtocolState.protocol fuel es) (AddedFor (net.Contributed es)) := by
  intro i queryNum values hmem v hv
  have htraced := traced_of_genuine (L := CtProtocolState.layered)
    (O := fun i => CtProtocolState.origins (net.Contributed es) (net.env i).meterId Contributed.sorted)
    (fun i => CtProtocolState.keepsOrigins (net.onlyMarks i)) (fun _ => rfl) (fun _ => rfl)
    (fun _ => ⟨rfl, trivial⟩) hes i
  exact net.meterId i ▸ htraced _ hmem v hv

theorem addsOnly_hft (hes : EveryEntry (net.Genuine HftProtocolState.protocol fuel) es) :
    AddsOnly (net.run HftProtocolState.protocol fuel es) (AddedFor (net.Contributed es)) := by
  intro i queryNum values hmem v hv
  have htraced := traced_of_genuine (L := HftProtocolState.layered)
    (O := fun i => HftProtocolState.origins (net.Contributed es) (net.env i).meterId Contributed.sorted)
    (fun i => HftProtocolState.keepsOrigins (net.onlyMarks i)) (fun _ => rfl) (fun _ => rfl)
    (fun _ => ⟨rfl, trivial⟩) hes i
  exact net.meterId i ▸ htraced _ hmem v hv

theorem addsOnly_bft (hes : EveryEntry (net.Genuine BftProtocolState.protocol fuel) es) :
    AddsOnly (net.run BftProtocolState.protocol fuel es)
      (BftProtocolState.AddedBy (net.Contributed es)) := by
  intro i queryNum values hmem v hv
  have htraced := traced_of_genuine (L := BftProtocolState.layered)
    (O := fun i => BftProtocolState.origins (net.Contributed es) (net.env i).meterId Contributed.sorted)
    (fun i => BftProtocolState.keepsOrigins (net.onlyMarks i)) (fun _ => rfl) (fun _ => rfl)
    (fun _ => ⟨rfl, nofun, nofun⟩) hes i
  exact net.meterId i ▸ htraced _ hmem v hv

/-- Whatever the order of events and whichever messages are lost, delayed or repeated, a meter
adds up what some meter has contributed and what names it as a proxy, and without signatures it
does so for the query of the contribution. -/
theorem adds_contributed (net : OpenNetwork) (fuel : ℕ) :
    (∀ es, EveryEntry (net.Genuine CtProtocolState.protocol fuel) es →
      AddsOnly (net.run CtProtocolState.protocol fuel es) (AddedFor (net.Contributed es))) ∧
      (∀ es, EveryEntry (net.Genuine HftProtocolState.protocol fuel) es →
        AddsOnly (net.run HftProtocolState.protocol fuel es) (AddedFor (net.Contributed es))) ∧
      ∀ es, EveryEntry (net.Genuine BftProtocolState.protocol fuel) es →
        AddsOnly (net.run BftProtocolState.protocol fuel es)
          (BftProtocolState.AddedBy (net.Contributed es)) :=
  ⟨fun _ => addsOnly_ct, fun _ => addsOnly_hft, fun _ => addsOnly_bft⟩

/-- No contribution is added up by two meters of one group, not even for different queries. -/
def AddedOnceInGroup (net : OpenNetwork) (states : ℤ → Outcome Fault (ProtocolState ι)) : Prop :=
  ∀ i j q q' values values', .computeAggregate q values ∈ (states i).state.trace →
    .computeAggregate q' values' ∈ (states j).state.trace →
    aggregationGroupFor i net.numGroups net.numMeters =
      aggregationGroupFor j net.numGroups net.numMeters →
    ∀ v ∈ values, ∀ v' ∈ values', v.value = v'.value → i = j

theorem addedOnceInGroup_of_addsOnly {states : ℤ → Outcome Fault (ProtocolState ι)}
    (h : AddsOnly states (BftProtocolState.AddedBy (net.Contributed es))) :
    net.AddedOnceInGroup states := by
  intro i j q q' values values' hi hj hgroup v hv v' hv' hsame
  obtain ⟨hcontributed, hproxy⟩ := h i q values hi v hv
  obtain ⟨-, hproxy'⟩ := h j q' values' hj v' hv'
  exact hcontributed.one_in_group hproxy (hsame ▸ hproxy') hgroup

theorem addedBy_of_addedFor {mine : ValueTuple → Prop} (i queryNum : ℤ) (v : ValueContribution)
    (h : AddedFor mine i queryNum v) : BftProtocolState.AddedBy mine i queryNum v :=
  ⟨h.contributed.1, h.proxy⟩

/-- In every run of a network a contribution enters the sum of a group through one meter only. -/
theorem added_once_in_group (net : OpenNetwork) (fuel : ℕ) :
    (∀ es, EveryEntry (net.Genuine CtProtocolState.protocol fuel) es →
      net.AddedOnceInGroup (net.run CtProtocolState.protocol fuel es)) ∧
      (∀ es, EveryEntry (net.Genuine HftProtocolState.protocol fuel) es →
        net.AddedOnceInGroup (net.run HftProtocolState.protocol fuel es)) ∧
      ∀ es, EveryEntry (net.Genuine BftProtocolState.protocol fuel) es →
        net.AddedOnceInGroup (net.run BftProtocolState.protocol fuel es) :=
  ⟨fun _ hes => addedOnceInGroup_of_addsOnly ((addsOnly_ct hes).mono addedBy_of_addedFor),
    fun _ hes => addedOnceInGroup_of_addsOnly ((addsOnly_hft hes).mono addedBy_of_addedFor),
    fun _ hes => addedOnceInGroup_of_addsOnly (addsOnly_bft hes)⟩

section Samples

def arrivals (o : Outcome Fault (ProtocolState ι)) : List (ℤ × Event) :=
  ((o.state.trace.filterMap fun
    | .sendOverlay batch recipientId => some (batch.map fun x => (recipientId, Event.overlay x))
    | _ => none).getLast?).getD []

theorem exists_of_mem_arrivals {o : Outcome Fault (ProtocolState ι)} {e : ℤ × Event}
    (he : e ∈ arrivals o) : ∃ batch x, .sendOverlay batch e.1 ∈ o.state.trace ∧ x ∈ batch ∧
      e.2 = .overlay x := by
  unfold arrivals at he
  cases hlast : (o.state.trace.filterMap fun
      | .sendOverlay batch recipientId => some (batch.map fun x => (recipientId, Event.overlay x))
      | _ => none).getLast? with
  | none => simp [hlast] at he
  | some sent =>
    rw [hlast, Option.getD_some] at he
    obtain ⟨a, ha, hsent⟩ := List.mem_filterMap.mp (List.mem_of_getLast? hlast)
    cases a with
    | sendOverlay batch recipientId =>
      obtain rfl := Option.some.inj hsent
      obtain ⟨x, hx, rfl⟩ := List.mem_map.mp he
      exact ⟨batch, x, ha, hx, rfl⟩
    | _ => cases hsent

theorem genuine_of_mem_arrivals {before : List (ℤ × Event)} (hbefore : es <+: before) {j : ℤ}
    {e : ℤ × Event} (he : e ∈ arrivals (net.run P fuel es j)) : net.Genuine P fuel before e := by
  rintro m ⟨hrecipient, hevent⟩
  obtain ⟨batch, x, hbatch, hx, hoverlay⟩ := exists_of_mem_arrivals he
  obtain rfl := Event.overlay.inj (hoverlay.symm.trans hevent)
  rw [← show m.1 = e.1 from hrecipient] at hbatch
  exact ⟨es, hbefore, j, batch, hbatch, hx⟩

theorem five_sizes : ValidSizes 2 5 := ⟨by decide, by decide⟩

def fiveEnv (i : ℤ) : ProtocolEnv :=
  (MeterClient.sampleEnv i 5 MeterClient.five_meters 1 2 fun _ => true).toProtocolEnv

theorem fiveEnv_meterId : ∀ i, (fiveEnv i).meterId = i := fun _ => rfl
theorem fiveEnv_numMeters : ∀ i, (fiveEnv i).numMeters = 5 := fun _ => rfl
theorem fiveEnv_numGroups : ∀ i, (fiveEnv i).numAggregationGroups = 2 := fun _ => rfl
theorem fiveEnv_onlyMarks : ∀ i, (fiveEnv i).crypto.OnlyMarks := fun _ => dummyCrypto_onlyMarks

theorem fiveEnv_draws (i : ℤ) (k : ℕ) : ValidDraws ((fiveEnv i).draws k) i 2 5 :=
  fun _ hg => ⟨le_rfl, drawRange_nonempty five_sizes hg i⟩

def fiveNetwork : OpenNetwork where
  env := fiveEnv
  numMeters := 5
  numGroups := 2
  sizes := five_sizes
  meterId := fiveEnv_meterId
  env_numMeters := fiveEnv_numMeters
  env_numGroups := fiveEnv_numGroups
  onlyMarks := fiveEnv_onlyMarks
  draws := fiveEnv_draws

def fiveMeters : List ℤ := [0, 1, 2, 3, 4]

def fiveStarts : List (ℤ × Event) :=
  fiveMeters.map fun i => (i, .startQuery ⟨.currUsageSum, 1, 7⟩ [10 * i + 1])

def fiveArrivals (states : ℤ → Outcome Fault (ProtocolState ι)) : List (ℤ × Event) :=
  fiveMeters.flatMap fun i => arrivals (states i)

/-- All meters have started the query and gone through some rounds in which all messages arrive. -/
def afterRounds (P : Protocol ι) : ℕ → ℤ → Outcome Fault (ProtocolState ι)
  | 0 => fiveNetwork.run P 100 fiveStarts
  | r + 1 =>
      let states := afterRounds P r
      (fiveArrivals states).foldl (partyStep (fiveNetwork.step P 100)) states

def fiveRounds (P : Protocol ι) : ℕ → List (ℤ × Event)
  | 0 => fiveStarts
  | r + 1 => fiveRounds P r ++ fiveArrivals (afterRounds P r)

theorem run_fiveRounds (P : Protocol ι) (r : ℕ) :
    fiveNetwork.run P 100 (fiveRounds P r) = afterRounds P r := by
  induction r with
  | zero => rfl
  | succ r ih =>
    rw [fiveRounds, run, List.foldl_append]
    exact congrArg (List.foldl _ · _) ih

theorem genuine_fiveRounds (P : Protocol ι) (r : ℕ) :
    EveryEntry (fiveNetwork.Genuine P 100) (fiveRounds P r) := by
  induction r with
  | zero =>
    have hstarts : EveryEntry (fiveNetwork.Genuine P 100) ([] ++ fiveStarts) := by
      refine everyEntry_nil.append_of_forall fun e he before m hm => ?_
      obtain ⟨i, -, rfl⟩ := List.mem_map.mp he
      cases hm.2
    exact hstarts
  | succ r ih =>
    refine ih.append fun e he before hbefore => ?_
    obtain ⟨j, -, he⟩ := List.mem_flatMap.mp he
    rw [← run_fiveRounds] at he
    exact genuine_of_mem_arrivals hbefore he

theorem five_add_contributed :
    AddsOnly (fiveNetwork.run CtProtocolState.protocol 100 (fiveRounds CtProtocolState.protocol 17))
        (AddedFor (fiveNetwork.Contributed (fiveRounds CtProtocolState.protocol 17))) ∧
      AddsOnly (fiveNetwork.run HftProtocolState.protocol 100 (fiveRounds HftProtocolState.protocol 9))
        (AddedFor (fiveNetwork.Contributed (fiveRounds HftProtocolState.protocol 9))) ∧
      AddsOnly (fiveNetwork.run BftProtocolState.protocol 100 (fiveRounds BftProtocolState.protocol 1))
        (BftProtocolState.AddedBy
          (fiveNetwork.Contributed (fiveRounds BftProtocolState.protocol 1))) := by
  obtain ⟨hct, hhft, hbft⟩ := adds_contributed fiveNetwork 100
  exact ⟨hct _ (genuine_fiveRounds _ 17), hhft _ (genuine_fiveRounds _ 9),
    hbft _ (genuine_fiveRounds _ 1)⟩

theorem five_added_once :
    fiveNetwork.AddedOnceInGroup
        (fiveNetwork.run CtProtocolState.protocol 100 (fiveRounds CtProtocolState.protocol 17)) ∧
      fiveNetwork.AddedOnceInGroup
        (fiveNetwork.run HftProtocolState.protocol 100 (fiveRounds HftProtocolState.protocol 9)) ∧
      fiveNetwork.AddedOnceInGroup
        (fiveNetwork.run BftProtocolState.protocol 100 (fiveRounds BftProtocolState.protocol 1)) := by
  obtain ⟨hct, hhft, hbft⟩ := added_once_in_group fiveNetwork 100
  exact ⟨hct _ (genuine_fiveRounds _ 17), hhft _ (genuine_fiveRounds _ 9),
    hbft _ (genuine_fiveRounds _ 1)⟩

end Samples
end OpenNetwork
end Pddm
