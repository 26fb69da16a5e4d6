import Pddm.AccountTotals
import Pddm.ContributionNetwork
import Pddm.Gathering

/-!
# What reaches the roots

Where aggregates arrive once and in their own query, an aggregate adds up distinct contributions,
though messages are lost or late: none of them gets into it along two ways.
-/
namespace Pddm

theorem ProtocolState.KeepsAll.handle {ι : Type} {env : ProtocolEnv} {P : Protocol ι}
    {I H : ProtocolState ι → Prop} (h : ProtocolState.KeepsAll env P I H) (fuel : ℕ)
    {s : ProtocolState ι} (hs : I s) (e : ProtocolState.Event) :
    (s.handle env P fuel e).Ends I H := by
  cases e with
  | startQuery request data => exact h.start fuel request data s hs
  | overlay message => exact h.receiveOverlay fuel message hs
  | aggregation message => exact h.aggregation message s hs
  | ping message => exact h.handlePingMessage message hs
  | signatureResponse message =>
    exact h.signature _ message s (fun _ => h.endOverlayRound fuel) hs
  | timerExpires id => exact h.timerExpires fuel id hs

namespace OpenNetwork
open ProtocolState (Event Layered KeepsAccounts KeepsWaiting InAccount AccountedSoFar)
variable {ι : Type} (net : OpenNetwork) (P : Protocol ι) (fuel : ℕ)

def SentAggregate (o : Outcome Fault (ProtocolState ι)) (m : ℤ × AggregationMessage) : Prop :=
  ∃ queryNum, .sendAggregate queryNum m.2 m.1 ∈ o.state.trace

def DeliversAggregate (i : ℤ) (e : Event) (m : ℤ × AggregationMessage) : Prop :=
  m.1 = i ∧ e = .aggregation m.2

/-- An aggregate that arrives has been sent to where it arrives, at some time before. -/
def GenuineAggregate : List (ℤ × Event) → ℤ × Event → Prop :=
  SentBefore (net.step P fuel) (start P) SentAggregate DeliversAggregate

def aggregateArrivals (es : List (ℤ × Event)) : List (ℤ × AggregationMessage) :=
  es.filterMap fun
    | (i, .aggregation message) => some (i, message)
    | _ => none

def queryStarts (es : List (ℤ × Event)) : List (ℤ × ℤ) :=
  es.filterMap fun
    | (i, .startQuery request _) => some (i, request.queryNumber)
    | _ => none

/-- A run in which messages may be lost or late and sends may fail. A meter starts a query once,
and an aggregate arrives at most once, where it was sent to. It is taken in during its own query
only, and where the Aggregate phase starts there are no more aggregates in store than awaited. -/
structure Orderly (requests : ℤ → QueryRequest) (es : List (ℤ × Event)) : Prop where
  meters : ∀ e ∈ es, 0 ≤ e.1 ∧ e.1 < net.numMeters
  genuine : EveryEntry (net.Genuine P fuel) es
  genuineAggregates : EveryEntry (net.GenuineAggregate P fuel) es
  arriveOnce : (aggregateArrivals es).Nodup
  startOnce : (queryStarts es).Nodup
  oneRequest : ∀ i request data, (i, .startQuery request data) ∈ es →
    request = requests request.queryNumber
  fits : ∀ i, BuffersFit (net.env i) (net.run P fuel es i).state.trace
  current : ∀ i, AllCurrent (net.env i) (net.run P fuel es i).state.trace

/-- A step towards the root of the group. -/
def Rises (n p : ℤ) : Prop :=
  aggregationTreeParent n net.numGroups net.numMeters = p ∧ p < n ∧
    aggregationGroupFor n net.numGroups net.numMeters =
      aggregationGroupFor p net.numGroups net.numMeters

/-- The aggregate is the sum of these contributions to the query, each through one of these
meters, and counts the contributions and the meters. These are a part of the tree of the group with
the sender as its root. -/
structure SumsUp (es : List (ℤ × Event)) (single : Bool) (i queryNum : ℤ)
    (aggregate : AggregationMessage) (counted : Finset ValueTuple) (meters : Finset ℤ) : Prop where
  tree : Gathering.TreeBelow net.Rises i meters
  contributed : ∀ c ∈ counted, net.Contributed es c ∧ c.queryNum = queryNum ∧
    ∃ j ∈ meters, j ∈ c.proxies
  body : ∀ k, entry single aggregate.body k = ∑ c ∈ counted, entry single c.value k
  numContributors : aggregate.numContributors = counted.card + meters.card

variable {net P fuel} {L : Layered P} {requests : ℤ → QueryRequest} {es : List (ℤ × Event)}

theorem run_concat (es : List (ℤ × Event)) (e : ℤ × Event) :
    net.run P fuel (es ++ [e]) = partyStep (net.step P fuel) (net.run P fuel es) e := by
  rw [run, List.foldl_append]
  rfl

/-- What one event preserves at one meter holds of all meters at the end. -/
theorem ends_of_handle {I H : ℤ → ProtocolState ι → Prop} (hinit : ∀ i, I i (.init P.init))
    (hstep : ∀ i e s, (i, e) ∈ es → I i s → (s.handle (net.env i) P fuel e).Ends (I i) (H i))
    (i : ℤ) : (net.run P fuel es i).Ends (I i) (H i) := by
  induction es using List.reverseRecOn generalizing i with
  | nil => exact hinit i
  | append_singleton es e ih =>
    have hall := ih fun i e s he => hstep i e s (List.mem_append_left _ he)
    rw [run_concat]
    refine partyStep_preserves (I := fun i o => Outcome.Ends (I i) (H i) o) hall ?_ i
    change Outcome.Ends _ _ (ProtocolState.step (net.env e.1) P fuel (net.run P fuel es e.1) e.2)
    have he := hall e.1
    cases ho : net.run P fuel es e.1 with
    | halted error s =>
      rw [ho] at he
      exact he
    | done s =>
      rw [ho] at he
      exact hstep e.1 e.2 s (List.mem_append_right _ (List.mem_singleton_self e)) he

theorem trace_prefix_of_run (K : KeepsWaiting L) {before : List (ℤ × Event)} (hbefore : before <+: es)
    (i : ℤ) : (net.run P fuel before i).state.trace <+: (net.run P fuel es i).state.trace := by
  obtain ⟨rest, rfl⟩ := hbefore
  induction rest using List.reverseRecOn with
  | nil => rw [List.append_nil]
  | append_singleton rest e ih =>
    rw [← List.append_assoc, run_concat]
    refine ih.trans ?_
    unfold partyStep
    by_cases hi : i = e.1
    · subst hi
      rw [Function.update_self]
      change _ <+: (ProtocolState.step (net.env e.1) P fuel _ e.2).state.trace
      cases net.run P fuel (before ++ rest) e.1 with
      | halted error s => exact List.prefix_rfl
      | done s => exact ProtocolState.trace_prefix_handle K (net.env e.1) fuel e.2 s
    · rw [Function.update_of_ne hi]

theorem run_of_forall_ne {i : ℤ} (h : ∀ e ∈ es, e.1 ≠ i) :
    net.run P fuel es i = .done (.init P.init) := by
  induction es using List.reverseRecOn with
  | nil => rfl
  | append_singleton es e ih =>
    rw [run_concat, partyStep, Function.update_of_ne (h e (by simp)).symm]
    exact ih fun e he => h e (List.mem_append_left _ he)

theorem exists_event_of_mem_trace {i : ℤ} {a : Action} (ha : a ∈ (net.run P fuel es i).state.trace) :
    ∃ e ∈ es, e.1 = i := by
  by_contra h
  push Not at h
  rw [run_of_forall_ne h] at ha
  cases ha

def arrivedAt (es : List (ℤ × Event)) (i : ℤ) : Multiset AggregationMessage :=
  ((aggregateArrivals es).filter fun m => m.1 = i).map Prod.snd

def startedAt (es : List (ℤ × Event)) (i : ℤ) : List ℤ :=
  ((queryStarts es).filter fun m => m.1 = i).map Prod.snd

theorem arrivedAt_concat (es : List (ℤ × Event)) (i j : ℤ) (e : Event) :
    arrivedAt (es ++ [(j, e)]) i = (if j = i then e.aggregates else 0) + arrivedAt es i := by
  unfold arrivedAt aggregateArrivals
  rw [List.filterMap_append, List.filter_append, List.map_append, ← Multiset.coe_add, add_comm]
  congr 1
  by_cases hj : j = i <;> cases e <;> simp [hj, Event.aggregates]

theorem startedAt_concat (es : List (ℤ × Event)) (i j : ℤ) (e : Event) :
    startedAt (es ++ [(j, e)]) i = startedAt es i ++ if j = i then e.starts else [] := by
  unfold startedAt queryStarts
  rw [List.filterMap_append, List.filter_append, List.map_append]
  congr 1
  by_cases hj : j = i <;> cases e <;> simp [hj, Event.starts]

theorem nodup_map_filter {α β : Type*} [DecidableEq α] {l : List (α × β)} (h : l.Nodup) (a : α) :
    ((l.filter fun m => m.1 = a).map Prod.snd).Nodup := by
  refine List.Nodup.map_on (fun m hm m' hm' hsame => ?_) (h.filter _)
  have ha := of_decide_eq_true (List.mem_filter.mp hm).2
  have ha' := of_decide_eq_true (List.mem_filter.mp hm').2
  exact Prod.ext (ha.trans ha'.symm) hsame

theorem inAccount_of_run (K : KeepsAccounts L)
    (hrequest : ∀ i request data, (i, .startQuery request data) ∈ es →
      request = requests request.queryNumber) (i : ℤ) :
    (net.run P fuel es i).Ends (InAccount (net.env i) requests (arrivedAt es i))
      (AccountedSoFar (net.env i) requests (arrivedAt es i)) := by
  induction es using List.reverseRecOn generalizing i with
  | nil => exact ProtocolState.inAccount_init P.init
  | append_singleton es e ih =>
    have hall := ih (fun i request data h => hrequest i request data (List.mem_append_left _ h)) i
    obtain ⟨j, e⟩ := e
    rw [run_concat, partyStep, arrivedAt_concat]
    by_cases hi : i = j
    · subst hi
      rw [if_pos rfl, Function.update_self]
      change Outcome.Ends _ _ (ProtocolState.step (net.env i) P fuel (net.run P fuel es i) e)
      cases ho : net.run P fuel es i with
      | halted error s =>
        rw [ho] at hall
        exact ⟨hall.added.trans (Multiset.le_add_left _ _), hall.entries⟩
      | done s =>
        rw [ho] at hall
        refine K.handle fuel hall fun request data he => ?_
        exact hrequest i request data (List.mem_append_right _ (by rw [he]; exact List.mem_singleton_self _))
    · rw [if_neg fun h => hi h.symm, zero_add, Function.update_of_ne hi]
      exact hall

theorem startedQueries_of_run (K : KeepsWaiting L) (i : ℤ) :
    ((startedQueries (net.run P fuel es i).state.trace).Sublist (startedAt es i)) := by
  induction es using List.reverseRecOn with
  | nil => exact List.Sublist.refl _
  | append_singleton es e ih =>
    obtain ⟨j, e⟩ := e
    rw [run_concat, partyStep, startedAt_concat]
    by_cases hi : i = j
    · subst hi
      rw [if_pos rfl, Function.update_self]
      change (startedQueries (ProtocolState.step (net.env i) P fuel (net.run P fuel es i)
        e).state.trace).Sublist _
      cases ho : net.run P fuel es i with
      | halted error s =>
        rw [ho] at ih
        exact ih.trans (List.sublist_append_left _ _)
      | done s =>
        rw [ho] at ih
        have hstarts := Outcome.holds_iff.mp
          (ProtocolState.startedQueries_handle K (net.env i) fuel e s)
        change (startedQueries (s.handle (net.env i) P fuel e).state.trace).Sublist _
        rw [hstarts]
        exact ih.append (List.Sublist.refl _)
    · rw [if_neg fun h => hi h.symm, List.append_nil, Function.update_of_ne hi]
      exact ih

theorem rooting (net : OpenNetwork) : Gathering.Rooting net.Rises where
  unique _ _ _ h h' := h.1.symm.trans h'.1
  lt _ _ h := h.2.1

theorem group_of_reaches {n p : ℤ} (h : Relation.ReflTransGen net.Rises n p) :
    aggregationGroupFor n net.numGroups net.numMeters =
      aggregationGroupFor p net.numGroups net.numMeters := by
  induction h with
  | refl => rfl
  | tail _ hstep ih => exact ih.trans hstep.2.2

theorem rises_of_parent {n p : ℤ} (hn : 0 ≤ n ∧ n < net.numMeters) (hp : 0 ≤ p)
    (hparent : p = aggregationTreeParent n net.numGroups net.numMeters) : net.Rises n p := by
  obtain ⟨hgroup, hlast⟩ := net.sizes.nonempty.group_mem (N := net.numMeters) hn.1
  have hmem : n ∈ groupMembers (aggregationGroupFor n net.numGroups net.numMeters) net.numGroups
      net.numMeters := mem_groupMembers.mpr ⟨hn.1, hn.2, rfl⟩
  obtain ⟨hparentMem, hlt⟩ := aggregationTreeParent_mem net.sizes.nonempty hgroup hlast hmem
    (by omega)
  rw [hparent]
  exact ⟨rfl, hlt, (mem_groupMembers.mp hparentMem).2.2.symm⟩

def ownTotal (states : ℤ → Outcome Fault (ProtocolState ι)) (single : Bool) (queryNum i : ℤ) :
    Tally :=
  ownTally single (ownValues queryNum (states i).state.trace) + (0, 1)

section Orderly
variable (h : net.Orderly P fuel requests es)
include h

theorem Orderly.mem_of_mem_trace {i : ℤ} {a : Action}
    (ha : a ∈ (net.run P fuel es i).state.trace) : 0 ≤ i ∧ i < net.numMeters := by
  obtain ⟨e, he, rfl⟩ := exists_event_of_mem_trace ha
  exact h.meters e he

theorem Orderly.soundBooks (K : KeepsAccounts L)
    (hsends : ∀ i, ProtocolState.SentOnce (net.env i) (net.run P fuel es i).state)
    (hown : ∀ i, ProtocolState.AddsOwn (net.env i) (net.run P fuel es i).state) (i : ℤ) :
    SoundBooks (net.env i) requests (arrivedAt es i) (net.run P fuel es i).state.trace where
  toInBooks := Outcome.holds_iff.mp
    ((inAccount_of_run K h.oneRequest i).mono (fun _ hs => hs.soFar) fun _ hs => hs)
  starts := (startedQueries_of_run K.waiting i).nodup (nodup_map_filter h.startOnce i)
  once := hsends i (h.fits i)
  own := hown i (h.current i)

/-- An aggregate that arrives has been sent by some meter. -/
theorem Orderly.exists_sender (K : KeepsWaiting L) {i : ℤ} {m : AggregationMessage}
    (hm : m ∈ arrivedAt es i) : (0 ≤ i ∧ i < net.numMeters) ∧
      ∃ j queryNum, .sendAggregate queryNum m i ∈ (net.run P fuel es j).state.trace := by
  obtain ⟨⟨i', m'⟩, hmem, rfl⟩ := List.mem_map.mp hm
  obtain ⟨harrival, hi⟩ := List.mem_filter.mp hmem
  obtain rfl : i' = i := of_decide_eq_true hi
  obtain ⟨⟨j, e⟩, he, hevent⟩ := List.mem_filterMap.mp harrival
  cases e with
  | aggregation message =>
    obtain ⟨rfl, rfl⟩ := Prod.mk.inj (Option.some.inj hevent)
    refine ⟨h.meters _ he, ?_⟩
    obtain ⟨before, after, hes⟩ := List.append_of_mem he
    obtain ⟨earlier, hearlier, k, queryNum, hsent⟩ :=
      h.genuineAggregates before _ after hes (j, message) ⟨rfl, rfl⟩
    have hprefix : earlier <+: es := hearlier.trans ⟨_, hes.symm⟩
    exact ⟨k, queryNum, (trace_prefix_of_run K hprefix k).subset hsent⟩
  | _ => cases hevent

variable (K : KeepsAccounts L)
  (hbooks : ∀ i, SoundBooks (net.env i) requests (arrivedAt es i) (net.run P fuel es i).state.trace)
include K hbooks

/-- What a meter has received for a query comes from its children, from each of them once. -/
theorem Orderly.exists_child {i queryNum : ℤ} {m : AggregationMessage}
    (hm : m ∈ addedMessages (net.run P fuel es i).state.trace) (hnum : m.queryNum = queryNum) :
    net.Rises m.senderId i ∧
      .sendAggregate queryNum m i ∈ (net.run P fuel es m.senderId).state.trace := by
  obtain ⟨hi, j, number, hsent⟩ :=
    h.exists_sender K.waiting (Multiset.mem_of_le (hbooks i).added (Multiset.mem_coe.mpr hm))
  obtain ⟨before, -, hsum⟩ := (hbooks j).sendsSum hsent
  obtain rfl : m.senderId = j := hsum.senderId.trans (net.meterId j)
  obtain rfl : number = queryNum := hsum.queryNumber.symm.trans hnum
  refine ⟨rises_of_parent (h.mem_of_mem_trace hsent) hi.1 ?_, hsent⟩
  have hparent := hsum.parent
  rwa [net.meterId, net.env_numGroups, net.env_numMeters] at hparent

/-- Every aggregate is gathered from meters below. -/
theorem Orderly.gathered {i queryNum : ℤ} {aggregate : AggregationMessage} {parentId : ℤ}
    (hsend : .sendAggregate queryNum aggregate parentId ∈ (net.run P fuel es i).state.trace) :
    Gathering.Gathered net.Rises (ownTotal (net.run P fuel es)
      (requests queryNum).requestType.isSingleValuedQuery queryNum) i
      (aggregate.tally (requests queryNum).requestType.isSingleValuedQuery) := by
  -- children have larger IDs, and IDs are bounded
  induction hn : (net.numMeters - i).toNat using Nat.strong_induction_on generalizing i aggregate
    parentId with
  | _ n ih =>
    obtain ⟨received, hsublist, hnumbers, htally⟩ := (hbooks i).aggregate_eq hsend
    have hchild (m : AggregationMessage) (hm : m ∈ received) :=
      h.exists_child K hbooks (hsublist.subset hm) (hnumbers m hm)
    have hnodup : received.Nodup := by
      refine hsublist.nodup ?_
      have harrived : (arrivedAt es i).Nodup :=
        Multiset.coe_nodup.mpr (nodup_map_filter h.arriveOnce i)
      exact Multiset.coe_nodup.mp (Multiset.nodup_of_le (hbooks i).added harrived)
    have hpass (hsenders hrises hgathered) := @Gathering.Gathered.pass _ _ _ net.Rises
      (ownTotal (net.run P fuel es) (requests queryNum).requestType.isSingleValuedQuery queryNum) i
      (received.map fun m => (m.senderId, m.tally (requests queryNum).requestType.isSingleValuedQuery))
      hsenders hrises hgathered
    simp only [List.map_map] at hpass
    rw [htally]
    refine hpass ?_ ?_ ?_
    · refine hnodup.map_on fun m hm m' hm' hsame => ?_
      have hsent := (hchild m' hm').2
      rw [← show m.senderId = m'.senderId from hsame] at hsent
      exact (hbooks m.senderId).aggregate_unique (hchild m hm).2 hsent
    · intro r hr
      obtain ⟨m, hm, rfl⟩ := List.mem_map.mp hr
      exact (hchild m hm).1
    · intro r hr
      obtain ⟨m, hm, rfl⟩ := List.mem_map.mp hr
      obtain ⟨hrises, hsent⟩ := hchild m hm
      have hlt := h.mem_of_mem_trace hsent
      have hrisen := hrises.2.1
      exact ih _ (by omega) hsent rfl

end Orderly

theorem ownTally_eq (single : Bool) (values : List ValueContribution) : ownTally single values =
    (fun k => (values.map fun v => entry single v.value.value k).sum, (values.length : ℤ)) := by
  induction values with
  | nil => rfl
  | cons v values ih =>
    have hcons : ownTally single (v :: values) =
        (entry single v.value.value, 1) + ownTally single values := by
      rw [ownTally, ownTally, List.map_cons, List.sum_cons]
    rw [hcons, ih]
    refine Prod.ext (funext fun k => ?_) ?_
    · simp only [List.map_cons, List.sum_cons]
      rfl
    · change 1 + (values.length : ℤ) = ((values.length + 1 : ℕ) : ℤ)
      push_cast
      ring

def ownTuples (states : ℤ → Outcome Fault (ProtocolState ι)) (queryNum i : ℤ) : List ValueTuple :=
  (ownValues queryNum (states i).state.trace).map (·.value)

def tuplesOf (states : ℤ → Outcome Fault (ProtocolState ι)) (queryNum : ℤ) (meters : Finset ℤ) :
    Finset ValueTuple :=
  meters.biUnion fun i => (ownTuples states queryNum i).toFinset

section Counts
variable {states : ℤ → Outcome Fault (ProtocolState ι)} {arrived : ℤ → Multiset AggregationMessage}
  (hadds : AddsOnly states (AddedFor (net.Contributed es)))
  (hbooks : ∀ i, SoundBooks (net.env i) requests (arrived i) (states i).state.trace)
include hadds hbooks

theorem addedFor_of_mem_ownValues {i queryNum : ℤ} {v : ValueContribution}
    (hv : v ∈ ownValues queryNum (states i).state.trace) :
    AddedFor (net.Contributed es) i queryNum v := by
  rcases (hbooks i).ownValues_eq queryNum with hnone | ⟨values, hcompute, -, hvalues⟩
  · rw [hnone] at hv
    cases hv
  · rw [hvalues] at hv
    exact hadds i queryNum values hcompute v hv

theorem ownTuples_nodup (i queryNum : ℤ) : (ownTuples states queryNum i).Nodup := by
  have hnodup : (ownValues queryNum (states i).state.trace).Nodup := by
    rcases (hbooks i).ownValues_eq queryNum with hnone | ⟨values, -, hnodup, hvalues⟩
    · rw [hnone]
      exact List.nodup_nil
    · rwa [hvalues]
  refine hnodup.map_on fun v hv v' hv' hsame => ?_
  -- without a signature a value is its tuple
  have hplain := (addedFor_of_mem_ownValues hadds hbooks hv).contributed.2
  have hplain' := (addedFor_of_mem_ownValues hadds hbooks hv').contributed.2
  rw [hplain, hplain', hsame]

theorem addedFor_of_mem_ownTuples {i queryNum : ℤ} {c : ValueTuple}
    (hc : c ∈ ownTuples states queryNum i) :
    net.Contributed es c ∧ c.queryNum = queryNum ∧ i ∈ c.proxies := by
  obtain ⟨v, hv, rfl⟩ := List.mem_map.mp hc
  have hadded := addedFor_of_mem_ownValues hadds hbooks hv
  exact ⟨hadded.contributed.1, hadded.queryNum, hadded.proxy⟩

/-- Meters of one group add different tuples. -/
theorem pairwiseDisjoint_ownTuples {meters : Finset ℤ} {i queryNum : ℤ}
    (hgroup : ∀ j ∈ meters, aggregationGroupFor j net.numGroups net.numMeters =
      aggregationGroupFor i net.numGroups net.numMeters) :
    (meters : Set ℤ).PairwiseDisjoint fun j => (ownTuples states queryNum j).toFinset := by
  intro j hj j' hj' hne
  refine Finset.disjoint_left.mpr fun c hc hc' => hne ?_
  obtain ⟨hcontributed, -, hproxy⟩ :=
    addedFor_of_mem_ownTuples hadds hbooks (List.mem_toFinset.mp hc)
  obtain ⟨-, -, hproxy'⟩ := addedFor_of_mem_ownTuples hadds hbooks (List.mem_toFinset.mp hc')
  exact hcontributed.one_in_group hproxy hproxy' ((hgroup j hj).trans (hgroup j' hj').symm)

/-- What meters of one group add up is the sum over distinct tuples. -/
theorem sum_ownTotal {meters : Finset ℤ} {i queryNum : ℤ} (single : Bool)
    (hgroup : ∀ j ∈ meters, aggregationGroupFor j net.numGroups net.numMeters =
      aggregationGroupFor i net.numGroups net.numMeters) :
    ∑ j ∈ meters, ownTotal states single queryNum j =
      (fun k => ∑ c ∈ tuplesOf states queryNum meters, entry single c.value k,
        ((tuplesOf states queryNum meters).card : ℤ) + meters.card) := by
  have hdisjoint : (meters : Set ℤ).PairwiseDisjoint fun j =>
      (ownTuples states queryNum j).toFinset :=
    pairwiseDisjoint_ownTuples hadds hbooks hgroup
  have hlength (j : ℤ) : (ownTuples states queryNum j).toFinset.card =
      (ownValues queryNum (states j).state.trace).length := by
    rw [List.toFinset_card_of_nodup (ownTuples_nodup hadds hbooks j queryNum), ownTuples,
      List.length_map]
  refine Prod.ext (funext fun k => ?_) ?_
  · dsimp only
    rw [Prod.fst_sum, Finset.sum_apply, tuplesOf, Finset.sum_biUnion hdisjoint]
    refine Finset.sum_congr rfl fun j _ => ?_
    rw [List.sum_toFinset _ (ownTuples_nodup hadds hbooks j queryNum), ownTuples, List.map_map,
      ownTotal, ownTally_eq, Prod.fst_add, Pi.add_apply]
    exact add_zero _
  · dsimp only
    rw [Prod.snd_sum, tuplesOf, Finset.card_biUnion hdisjoint, Finset.card_eq_sum_ones meters]
    push_cast
    rw [← Finset.sum_add_distrib]
    refine Finset.sum_congr rfl fun j _ => ?_
    rw [hlength, ownTotal, ownTally_eq, Prod.snd_add]

end Counts

/-- Every aggregate is the sum of distinct contributions. -/
theorem Orderly.sumsUp (h : net.Orderly P fuel requests es) (K : KeepsAccounts L)
    (hbooks : ∀ i, SoundBooks (net.env i) requests (arrivedAt es i)
      (net.run P fuel es i).state.trace)
    (hadds : AddsOnly (net.run P fuel es) (AddedFor (net.Contributed es)))
    {i queryNum : ℤ} {aggregate : AggregationMessage} {parentId : ℤ}
    (hsend : .sendAggregate queryNum aggregate parentId ∈ (net.run P fuel es i).state.trace) :
    ∃ counted meters, net.SumsUp es (requests queryNum).requestType.isSingleValuedQuery i queryNum
      aggregate counted meters := by
  obtain ⟨meters, htree, hsum⟩ := (h.gathered K hbooks hsend).exists_tree net.rooting
  have hgroup (j : ℤ) (hj : j ∈ meters) := group_of_reaches (htree.reaches j hj)
  rw [sum_ownTotal hadds hbooks _ hgroup] at hsum
  refine ⟨_, meters, htree, fun c hc => ?_, fun k => ?_, congrArg Prod.snd hsum⟩
  · obtain ⟨j, hj, hc⟩ := Finset.mem_biUnion.mp hc
    obtain ⟨hcontributed, hnum, hproxy⟩ :=
      addedFor_of_mem_ownTuples hadds hbooks (List.mem_toFinset.mp hc)
    exact ⟨hcontributed, hnum, j, hj, hproxy⟩
  · exact congrFun (congrArg Prod.fst hsum) k

/-- Every aggregate that is sent in a run sums up distinct contributions. -/
def EverySumsUp (net : OpenNetwork) (requests : ℤ → QueryRequest) (es : List (ℤ × Event))
    (states : ℤ → Outcome Fault (ProtocolState ι)) : Prop :=
  ∀ i queryNum aggregate parentId,
    .sendAggregate queryNum aggregate parentId ∈ (states i).state.trace →
      ∃ counted meters, net.SumsUp es (requests queryNum).requestType.isSingleValuedQuery i queryNum
        aggregate counted meters

theorem Orderly.soundBooks_ct (h : net.Orderly CtProtocolState.protocol fuel requests es) (i : ℤ) :
    SoundBooks (net.env i) requests (arrivedAt es i)
      (net.run CtProtocolState.protocol fuel es i).state.trace := by
  refine h.soundBooks CtProtocolState.keepsAccounts (fun i => ?_) (fun i => ?_) i
  · exact Outcome.holds_iff.mp ((ends_of_handle (fun i => CtProtocolState.once_keepsAll.init)
      (fun i e s _ hs => CtProtocolState.once_keepsAll.handle fuel hs e) i).mono
        (fun _ hs => hs.sentOnce) fun _ hs => hs)
  · exact Outcome.holds_iff.mp ((ends_of_handle (fun i => CtProtocolState.numbered_keepsAll.init)
      (fun i e s _ hs => CtProtocolState.numbered_keepsAll.handle fuel hs e) i).mono
        (fun _ hs => hs.adds) fun _ hs => hs)

theorem Orderly.soundBooks_hft (h : net.Orderly HftProtocolState.protocol fuel requests es) (i : ℤ) :
    SoundBooks (net.env i) requests (arrivedAt es i)
      (net.run HftProtocolState.protocol fuel es i).state.trace := by
  refine h.soundBooks HftProtocolState.keepsAccounts (fun i => ?_) (fun i => ?_) i
  · exact Outcome.holds_iff.mp ((ends_of_handle (fun i => HftProtocolState.once_keepsAll.init)
      (fun i e s _ hs => HftProtocolState.once_keepsAll.handle fuel hs e) i).mono
        (fun _ hs => hs.sentOnce) fun _ hs => hs)
  · exact Outcome.holds_iff.mp ((ends_of_handle (fun i => HftProtocolState.numbered_keepsAll.init)
      (fun i e s _ hs => HftProtocolState.numbered_keepsAll.handle fuel hs e) i).mono
        (fun _ hs => hs.adds) fun _ hs => hs)

theorem sumsUp_ct (h : net.Orderly CtProtocolState.protocol fuel requests es) :
    net.EverySumsUp requests es (net.run CtProtocolState.protocol fuel es) :=
  fun _ _ _ _ hsend => h.sumsUp CtProtocolState.keepsAccounts h.soundBooks_ct
    (addsOnly_ct h.genuine) hsend

theorem sumsUp_hft (h : net.Orderly HftProtocolState.protocol fuel requests es) :
    net.EverySumsUp requests es (net.run HftProtocolState.protocol fuel es) :=
  fun _ _ _ _ hsend => h.sumsUp HftProtocolState.keepsAccounts h.soundBooks_hft
    (addsOnly_hft h.genuine) hsend

/-- In orderly runs of the protocols without signatures no contribution is counted twice in an
aggregate, and the aggregate says how many there are. -/
theorem counts_each_once (net : OpenNetwork) (fuel : ℕ) (requests : ℤ → QueryRequest) :
    (∀ es, net.Orderly CtProtocolState.protocol fuel requests es →
      net.EverySumsUp requests es (net.run CtProtocolState.protocol fuel es)) ∧
      ∀ es, net.Orderly HftProtocolState.protocol fuel requests es →
        net.EverySumsUp requests es (net.run HftProtocolState.protocol fuel es) :=
  ⟨fun _ => sumsUp_ct, fun _ => sumsUp_hft⟩

section Samples

/-- What a meter has sent to its parent arrives. -/
def ascents (o : Outcome Fault (ProtocolState ι)) : List (ℤ × Event) :=
  o.state.trace.filterMap fun
    | .sendAggregate _ message parentId =>
        if parentId = -1 then none else some (parentId, .aggregation message)
    | _ => none

/-- The meters go through some rounds, and the aggregates they have sent by then arrive. -/
def fiveQuery (P : Protocol ι) (r : ℕ) : List (ℤ × Event) :=
  fiveRounds P r ++ fiveMeters.flatMap fun i => ascents (afterRounds P r i)

def fiveRequest (queryNum : ℤ) : QueryRequest := ⟨.currUsageSum, 1, queryNum⟩

/-- No aggregate is buffered where the Aggregate phase starts, and none arrives in another query. -/
def actionInTurn : Action → Bool
  | .startAggregate _ _ buffered => buffered.isEmpty
  | .receiveAggregate queryNum message => message.queryNum = queryNum
  | _ => true

def eventInTurn (e : ℤ × Event) : Bool :=
  decide (0 ≤ e.1 ∧ e.1 < 5) && match e.2 with
    | .startQuery request _ => decide (request = fiveRequest request.queryNumber)
    | _ => true

/-- What is to be checked of a sample run by evaluation. -/
def inTurn (P : Protocol ι) (r : ℕ) : Bool :=
  let es := fiveQuery P r
  es.all eventInTurn && decide (aggregateArrivals es).Nodup && decide (queryStarts es).Nodup &&
    fiveMeters.all fun i => (fiveNetwork.run P 100 es i).state.trace.all actionInTurn

theorem fits_of_actionInTurn {env : ProtocolEnv} {trace : List Action}
    (h : ∀ a ∈ trace, actionInTurn a = true) : BuffersFit env trace ∧ AllCurrent env trace := by
  refine ⟨fun a ha => ?_, fun a ha => ?_⟩
  · have hturn := h a ha
    cases a with
    | startAggregate queryNum failed buffered =>
      obtain rfl := List.isEmpty_iff.mp hturn
      exact le_total _ _
    | _ => trivial
  · have hturn := h a ha
    cases a with
    | startAggregate queryNum failed buffered =>
      obtain rfl := List.isEmpty_iff.mp hturn
      exact .inr (by simp)
    | receiveAggregate queryNum message =>
      change message.queryNum = queryNum
      exact of_decide_eq_true hturn
    | _ => trivial

/-- Up to the Aggregate phase no aggregates arrive. -/
theorem genuineAggregate_fiveRounds (P : Protocol ι) (r : ℕ) :
    EveryEntry (fiveNetwork.GenuineAggregate P 100) (fiveRounds P r) := by
  induction r with
  | zero =>
    have hstarts : EveryEntry (fiveNetwork.GenuineAggregate P 100) ([] ++ fiveStarts) := by
      refine everyEntry_nil.append_of_forall fun e he before m hm => ?_
      obtain ⟨i, -, rfl⟩ := List.mem_map.mp he
      cases hm.2
    exact hstarts
  | succ r ih =>
    refine ih.append_of_forall fun e he before m hm => ?_
    obtain ⟨j, -, he⟩ := List.mem_flatMap.mp he
    obtain ⟨_, message, -, -, hmessage⟩ := exists_of_mem_arrivals he
    cases hmessage.symm.trans hm.2

theorem orderly_of_inTurn (P : Protocol ι) (r : ℕ) (h : inTurn P r = true) :
    fiveNetwork.Orderly P 100 fiveRequest (fiveQuery P r) := by
  unfold inTurn at h
  simp only [Bool.and_eq_true, List.all_eq_true, decide_eq_true_eq] at h
  obtain ⟨⟨⟨hevents, harrive⟩, hstart⟩, htraces⟩ := h
  have hrange (e : ℤ × Event) (he : e ∈ fiveQuery P r) : 0 ≤ e.1 ∧ e.1 < 5 :=
    of_decide_eq_true (Bool.and_eq_true_iff.mp (hevents e he)).1
  have hturn (i : ℤ) : ∀ a ∈ (fiveNetwork.run P 100 (fiveQuery P r) i).state.trace,
      actionInTurn a = true := by
    by_cases hi : 0 ≤ i ∧ i < 5
    · refine htraces i ?_
      have hmem : i = 0 ∨ i = 1 ∨ i = 2 ∨ i = 3 ∨ i = 4 := by omega
      simpa [fiveMeters] using hmem
    · have hnone : ∀ e ∈ fiveQuery P r, e.1 ≠ i := by
        rintro e he rfl
        exact hi (hrange e he)
      rw [run_of_forall_ne hnone]
      intro a ha
      cases ha
  refine ⟨hrange, ?_, ?_, harrive, hstart, fun i request data he => ?_,
    fun i => (fits_of_actionInTurn (hturn i)).1, fun i => (fits_of_actionInTurn (hturn i)).2⟩
  · refine (genuine_fiveRounds P r).append fun e he before _ m hm => ?_
    obtain ⟨i, -, he⟩ := List.mem_flatMap.mp he
    obtain ⟨a, -, ha⟩ := List.mem_filterMap.mp he
    cases a with
    | sendAggregate queryNum message parentId =>
      dsimp only at ha
      split_ifs at ha
      obtain rfl := Option.some.inj ha
      cases hm.2
    | _ => cases ha
  · refine (genuineAggregate_fiveRounds P r).append fun e he before hbefore m hm => ?_
    obtain ⟨i, -, he⟩ := List.mem_flatMap.mp he
    obtain ⟨a, hsent, ha⟩ := List.mem_filterMap.mp he
    cases a with
    | sendAggregate queryNum message parentId =>
      dsimp only at ha
      split_ifs at ha
      obtain rfl := Option.some.inj ha
      obtain ⟨hrecipient, hevent⟩ := hm
      obtain rfl := Event.aggregation.inj hevent
      refine ⟨fiveRounds P r, hbefore, i, queryNum, ?_⟩
      rw [show m.1 = parentId from hrecipient]
      rw [← run_fiveRounds] at hsent
      exact hsent
    | _ => cases ha
  · exact of_decide_eq_true (Bool.and_eq_true_iff.mp (hevents _ he)).2

theorem inTurn_ct : inTurn CtProtocolState.protocol 17 = true := by decide +kernel

theorem inTurn_hft : inTurn HftProtocolState.protocol 9 = true := by decide +kernel

theorem five_count_each_once :
    fiveNetwork.EverySumsUp fiveRequest (fiveQuery CtProtocolState.protocol 17)
        (fiveNetwork.run CtProtocolState.protocol 100 (fiveQuery CtProtocolState.protocol 17)) ∧
      fiveNetwork.EverySumsUp fiveRequest (fiveQuery HftProtocolState.protocol 9)
        (fiveNetwork.run HftProtocolState.protocol 100
          (fiveQuery HftProtocolState.protocol 9)) := by
  obtain ⟨hct, hhft⟩ := counts_each_once fiveNetwork 100 fiveRequest
  exact ⟨hct _ (orderly_of_inTurn _ 17 inTurn_ct), hhft _ (orderly_of_inTurn _ 9 inTurn_hft)⟩

end Samples
end OpenNetwork
end Pddm
