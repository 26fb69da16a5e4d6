import Pddm.AggregationRun
import Pddm.OverlayPhases

/-!
# Counting every meter

From proxy selection to the result of a group, in the crash-tolerant protocol. Proxy values
are a set without owners, so that equal contributions of two meters become one.
-/
namespace Pddm

/-- The choices of a query, and what each meter contributes. -/
structure CtQuery where
  numGroups : ℤ
  numMeters : ℤ
  envs : ℤ → ClientEnv
  query : QueryRequest
  length : ℕ
  data : ℤ → List FixedPoint
  draws : ℤ → ℕ → ℤ
  proxies : ℤ → List ℤ
  sizes : ValidSizes numGroups numMeters
  envs_meterId : ∀ id, (envs id).meterId = id
  envs_numMeters : ∀ id, (envs id).numMeters = numMeters
  envs_numGroups : ∀ id, (envs id).numAggregationGroups = numGroups
  sendOk : ∀ id n, (envs id).sendOk n = true
  length_pos : 0 < length
  data_length : ∀ id, (data id).length = length
  draws_valid : ∀ id, ValidDraws (draws id) id numGroups numMeters
  proxies_picked : ∀ id, pickProxies (draws id) id numGroups numMeters = .ok (proxies id)

namespace CtQuery
variable (Q : CtQuery)

def meters : Finset ℤ := (Finset.range Q.numMeters.toNat).image fun i : ℕ => (i : ℤ)

def tuple (id : ℤ) : ValueTuple := ⟨Q.query.queryNumber, Q.data id, Q.proxies id⟩

def contribution (id : ℤ) : ValueContribution := .ofTuple (Q.tuple id)

def aggregation (id : ℤ) : TreeAggregationState := .make id Q.numGroups Q.numMeters Q.query

end CtQuery

/-- What the meters do from the start of the query up to the Aggregate phase. No meter
fails, and every contribution reaches all the proxies it names. -/
structure CtRun extends CtQuery where
  start : ℤ → CtProtocolState.State
  events : ℤ → List CtProtocolState.OverlayEvent
  started : ∀ id,
    CtProtocolState.Overlaying (toCtQuery.tuple id) (toCtQuery.aggregation id) [] [] (start id)
  completes : ∀ id, ∃ s, CtProtocolState.overlayRun (envs id).toProtocolEnv (events id) (start id) =
    .done s ∧ CtProtocolState.echoFinished (envs id).toProtocolEnv s
  only : ∀ id, ∀ c ∈ CtProtocolState.delivered id (events id),
    ∃ i ∈ toCtQuery.meters, c = toCtQuery.contribution i ∧ id ∈ proxies i
  reaches : ∀ i ∈ toCtQuery.meters, ∀ p ∈ proxies i,
    toCtQuery.contribution i ∈ CtProtocolState.delivered p (events p)

/-- The meters of a group, and what each is still to do before the Aggregate phase. -/
structure CtRunState where
  group : GroupState CtProtocolState
  remaining : ℤ → List CtProtocolState.OverlayEvent

inductive CtRunEvent
  | overlay (id : ℤ)
  | group (e : GroupEvent)

namespace CtRun
open CtProtocolState
variable (R : CtRun)

def final (id : ℤ) : State := (overlayRun (R.envs id).toProtocolEnv (R.events id) (R.start id)).state

theorem final_overlaying (id : ℤ) : Overlaying (R.tuple id) (R.aggregation id) []
    (delivered id (R.events id)) (R.final id) := by
  obtain ⟨s, hs, -⟩ := R.completes id
  have hmeter : (R.envs id).toProtocolEnv.meterId = id := R.envs_meterId id
  have hrun := overlayRun_overlaying (R.envs id).toProtocolEnv (R.sendOk id) (R.started id)
    (R.events id) ?_
  · rw [hmeter, hs] at hrun
    rw [final, hs]
    exact hrun
  · intro c hc
    rw [hmeter] at hc
    obtain ⟨i, -, rfl, -⟩ := R.only id c hc
    rfl

theorem mem_final {id : ℤ} {c : ValueContribution} :
    c ∈ (R.final id).proxyValues ↔ ∃ i ∈ R.meters, c = R.contribution i ∧ id ∈ R.proxies i := by
  rw [(R.final_overlaying id).mem]
  constructor
  · exact R.only id c
  · rintro ⟨i, hi, rfl, hp⟩
    exact R.reaches i hi id hp

/-- The Aggregate phase of a group, with the proxy values that the meters end up with. -/
def setup (group : ℤ) (hnonneg : 0 ≤ group) (hlt : group < R.numGroups) :
    GroupSetup CtProtocolState where
  numGroups := R.numGroups
  numMeters := R.numMeters
  group := group
  envs := R.envs
  protocol := protocol
  query := R.query
  length := R.length
  values id := (R.final id).proxyValues
  sizes := R.sizes
  group_nonneg := hnonneg
  group_lt := hlt
  envs_meterId := R.envs_meterId
  envs_numMeters := R.envs_numMeters
  envs_numGroups := R.envs_numGroups
  length_pos := R.length_pos
  values_length id value hvalue := by
    obtain ⟨i, -, rfl, -⟩ := R.mem_final.mp hvalue
    exact R.data_length i

def groupStep (S : GroupSetup CtProtocolState) (e : GroupEvent) (x : CtRunState) :
    Outcome Fault CtRunState :=
  (S.step x.group e).map fun g => { x with group := g }

/-- A meter enters the Aggregate phase of a group after all that comes before it; messages
may reach the meter earlier. -/
def step (S : GroupSetup CtProtocolState) (x : CtRunState) : CtRunEvent → Outcome Fault CtRunState
  | .overlay id =>
      match x.remaining id with
      | [] => .done x
      | e :: es =>
          ((x.group.meters id).onPrimary (overlayStep (S.envs id).toProtocolEnv e)).map fun c =>
            { group := { x.group with meters := Function.update x.group.meters id c }
              remaining := Function.update x.remaining id es }
  | .group (.enter id) => if x.remaining id = [] then groupStep S (.enter id) x else .done x
  | .group (.deliver n) => groupStep S (.deliver n) x

def run (S : GroupSetup CtProtocolState) (es : List CtRunEvent) (x : CtRunState) :
    Outcome Fault CtRunState :=
  es.foldl (fun o e => o.andThen fun x => step S x e) (.done x)

def init : CtRunState where
  group := { meters := fun id => ⟨R.start id, none⟩, network := [], utility := [] }
  remaining := R.events

def finalState : GroupState CtProtocolState where
  meters id := ⟨R.final id, none⟩
  network := []
  utility := []

/-- `h` is the state in which every meter of `x` has done what it is still to do. -/
structure Completes (x : CtRunState) (h : GroupState CtProtocolState) : Prop where
  network : h.network = x.group.network
  utility : h.utility = x.group.utility
  done : ∀ id, x.remaining id = [] → h.meters id = x.group.meters id
  running : ∀ id, x.remaining id ≠ [] → ∃ s buffered values,
    h.meters id = { x.group.meters id with primary := s } ∧
      overlayRun (R.envs id).toProtocolEnv (x.remaining id) (x.group.meters id).primary = .done s ∧
      Overlaying (R.tuple id) (R.aggregation id) buffered values (x.group.meters id).primary
  only : ∀ id, ∀ c ∈ delivered id (x.remaining id), c.value.queryNum = R.query.queryNumber

variable {R} {x : CtRunState} {h h' : GroupState CtProtocolState} {group : ℤ}
  {hnonneg : 0 ≤ group} {hlt : group < R.numGroups}

theorem ready_finalState : (R.setup group hnonneg hlt).Ready R.finalState where
  preparing id _ :=
    { aggregation := by
        have hagg := (R.final_overlaying id).aggregation
        have hmeter : (R.envs id).meterId = id := R.envs_meterId id
        simpa [setup, finalState, GroupSetup.task, CtQuery.aggregation, hmeter,
          R.envs_numGroups, R.envs_numMeters] using hagg
      contribution :=
        ⟨R.tuple id, (R.final_overlaying id).contribution, rfl, R.data_length id⟩
      inactive := isInAggregatePhase_of_overlay (R.final_overlaying id).overlay
      values := rfl
      failed := (R.final_overlaying id).failed
      buffered := by
        have hbuffers : (R.finalState.meters id).primary.futureAggregationMessages = [] :=
          (R.final_overlaying id).buffers
        rw [hbuffers]
        rfl
      lengths := by
        have hbuffers : (R.finalState.meters id).primary.futureAggregationMessages = [] :=
          (R.final_overlaying id).buffers
        rw [hbuffers]
        intro m hm
        cases hm
      unsent := (R.final_overlaying id).unsent }
  network := rfl
  utility := rfl

theorem completes_init : R.Completes R.init R.finalState where
  network := rfl
  utility := rfl
  done id hrem := by
    have hevents : R.events id = [] := hrem
    have hfinal : R.final id = R.start id := by
      rw [final, hevents]
      rfl
    exact congrArg (fun s => (⟨s, none⟩ : MeterClient _)) hfinal
  running id _ := by
    obtain ⟨s, hs, -⟩ := R.completes id
    have hfinal : R.final id = s := by rw [final, hs]; rfl
    exact ⟨s, [], [], congrArg (fun s => (⟨s, none⟩ : MeterClient _)) hfinal, hs, R.started id⟩
  only id c hc := by
    obtain ⟨i, -, rfl, -⟩ := R.only id c hc
    rfl

theorem completes_overlay (hx : R.Completes x h) (id : ℤ) :
    ∃ x', step (R.setup group hnonneg hlt) x (.overlay id) = .done x' ∧ R.Completes x' h := by
  cases hrem : x.remaining id with
  | nil => exact ⟨x, by rw [step, hrem], hx⟩
  | cons e es =>
    obtain ⟨s, buffered, values, hmeter, hrun, hoverlaying⟩ := hx.running id (by simp [hrem])
    have hid : (R.envs id).toProtocolEnv.meterId = id := R.envs_meterId id
    have honly : ∀ c ∈ delivered id (e :: es), c.value.queryNum = R.query.queryNumber := by
      intro c hc
      exact hx.only id c (hrem.symm ▸ hc)
    rw [delivered_cons] at honly
    rw [hrem, overlayRun, Outcome.forEach_cons] at hrun
    have hends := overlayStep_overlaying (R.envs id).toProtocolEnv (R.sendOk id)
      hoverlaying e fun c hc => honly c (List.mem_append_left _ (hid ▸ hc))
    cases hstep : overlayStep (R.envs id).toProtocolEnv e (x.group.meters id).primary with
    | halted error t =>
      rw [hstep] at hrun
      cases hrun
    | done t =>
      rw [hstep] at hrun hends
      have hstep' : overlayStep ((R.setup group hnonneg hlt).envs id).toProtocolEnv e
          (x.group.meters id).primary = .done t := hstep
      have hrest : overlayRun (R.envs id).toProtocolEnv es t = .done s := hrun
      have hdone : step (R.setup group hnonneg hlt) x (.overlay id) = .done
          { group := { x.group with
              meters := Function.update x.group.meters id { x.group.meters id with primary := t } }
            remaining := Function.update x.remaining id es } := by
        rw [step, hrem]
        simp only [MeterClient.onPrimary, hstep']
        rfl
      refine ⟨_, hdone, hx.network, hx.utility, fun j hj => ?_, fun j hj => ?_, fun j c hc => ?_⟩
      · by_cases hji : j = id
        · subst hji
          simp only [Function.update_self] at hj ⊢
          rw [hj, overlayRun, Outcome.forEach_nil, Outcome.done.injEq] at hrest
          rw [hmeter, hrest]
        · simp only [Function.update_of_ne hji] at hj ⊢
          exact hx.done j hj
      · by_cases hji : j = id
        · subst hji
          simp only [Function.update_self]
          exact ⟨s, _, _, hmeter, hrest, hends⟩
        · simp only [Function.update_of_ne hji] at hj ⊢
          exact hx.running j hj
      · by_cases hji : j = id
        · subst hji
          simp only [Function.update_self] at hc
          exact honly c (List.mem_append_right _ hc)
        · simp only [Function.update_of_ne hji] at hc
          exact hx.only j c hc

theorem Completes.update (hx : R.Completes x h) {id : ℤ} (hrem : x.remaining id = [])
    (c : MeterClient CtProtocolState) :
    R.Completes { x with group := GroupSetup.update id c x.group }
      (GroupSetup.update id c h) where
  network := by
    simp only [GroupSetup.update, hx.network, hx.done id hrem]
  utility := by
    simp only [GroupSetup.update, hx.utility, hx.done id hrem]
  done j hj := by
    by_cases hji : j = id
    · rw [hji, GroupSetup.meters_update_self, GroupSetup.meters_update_self]
    · rw [GroupSetup.meters_update_of_ne _ hji, GroupSetup.meters_update_of_ne _ hji]
      exact hx.done j hj
  running j hj := by
    have hji : j ≠ id := fun heq => hj (heq.symm ▸ hrem)
    rw [GroupSetup.meters_update_of_ne _ hji, GroupSetup.meters_update_of_ne _ hji]
    exact hx.running j hj
  only := hx.only

theorem completes_enter (hx : R.Completes x h) {id : ℤ}
    (hstep : (R.setup group hnonneg hlt).step h (.enter id) = .done h')
    (hrem : x.remaining id = []) :
    ∃ x', step (R.setup group hnonneg hlt) x (.group (.enter id)) = .done x' ∧
      R.Completes x' h' := by
  have hmeter := hx.done id hrem
  have hentered : GroupSetup.hasEntered x.group id = GroupSetup.hasEntered h id := by
    rw [GroupSetup.hasEntered, GroupSetup.hasEntered, hmeter]
  rw [step, if_pos hrem, groupStep]
  rw [GroupSetup.step] at hstep ⊢
  rw [hentered, ← hmeter]
  split_ifs at hstep ⊢ with hmember
  · cases hc : (h.meters id).onPrimary (ProtocolState.enterAggregatePhase
      ((R.setup group hnonneg hlt).envs id).toProtocolEnv
      (R.setup group hnonneg hlt).protocol.toAggregatePhase) with
    | halted e c =>
      rw [hc] at hstep
      cases hstep
    | done c =>
      rw [hc] at hstep
      obtain rfl := Outcome.done.inj hstep
      exact ⟨_, rfl, hx.update hrem c⟩
  · obtain rfl := Outcome.done.inj hstep
    exact ⟨_, rfl, hx⟩

theorem Completes.buffer (hx : R.Completes x h) {id : ℤ} (hrem : x.remaining id ≠ [])
    (message : AggregationMessage) :
    ∃ c c', (x.group.meters id).onPrimary (ProtocolState.receiveAggregation
        (R.envs id).toProtocolEnv protocol.toAggregatePhase message) = .done c ∧
      (h.meters id).onPrimary (ProtocolState.receiveAggregation (R.envs id).toProtocolEnv
        protocol.toAggregatePhase message) = .done c' ∧
      R.Completes { x with group := GroupSetup.update id c x.group }
        (GroupSetup.update id c' h) := by
  obtain ⟨s, buffered, values, hmeter, hrun, hoverlaying⟩ := hx.running id hrem
  have hid : (R.envs id).toProtocolEnv.meterId = id := R.envs_meterId id
  have hfinal := overlayRun_overlaying (R.envs id).toProtocolEnv (R.sendOk id) hoverlaying
    (x.remaining id) fun c hc => hx.only id c (by rwa [hid] at hc)
  rw [hrun] at hfinal
  have hnow := receiveAggregation_overlaying (R.envs id).toProtocolEnv hoverlaying message
  have hlater := receiveAggregation_overlaying (R.envs id).toProtocolEnv hfinal message
  refine ⟨{ x.group.meters id with
      primary := keepAggregate R.query.queryNumber message (x.group.meters id).primary },
    { x.group.meters id with primary := keepAggregate R.query.queryNumber message s }, ?_, ?_, ?_⟩
  · exact congrArg (Outcome.map _) hnow
  · rw [hmeter]
    exact congrArg (Outcome.map _) hlater
  have htrace : (keepAggregate R.query.queryNumber message s).trace =
      (h.meters id).primary.trace := by
    rw [hmeter]
    exact keepAggregate_trace ..
  have hkept : ∀ (g : GroupState CtProtocolState) (c : MeterClient CtProtocolState),
      c.primary.trace = (g.meters id).primary.trace →
        (GroupSetup.update id c g).network = g.network ∧
          (GroupSetup.update id c g).utility = g.utility :=
    fun g c hc => GroupSetup.update_keeps hc
  obtain ⟨hnetwork, hutility⟩ := hkept x.group
    { x.group.meters id with
      primary := keepAggregate R.query.queryNumber message (x.group.meters id).primary }
    (keepAggregate_trace ..)
  obtain ⟨hnetwork', hutility'⟩ := hkept h
    { x.group.meters id with primary := keepAggregate R.query.queryNumber message s } htrace
  refine ⟨?_, ?_, fun j hj => ?_, fun j hj => ?_, hx.only⟩
  · rw [hnetwork, hnetwork', hx.network]
  · rw [hutility, hutility', hx.utility]
  · have hji : j ≠ id := fun heq => hrem (heq ▸ hj)
    rw [GroupSetup.meters_update_of_ne _ hji, GroupSetup.meters_update_of_ne _ hji]
    exact hx.done j hj
  · by_cases hji : j = id
    · subst hji
      obtain ⟨buffered', hoverlaying'⟩ := hoverlaying.keepAggregate R.query.queryNumber message
      rw [GroupSetup.meters_update_self, GroupSetup.meters_update_self]
      refine ⟨_, buffered', values, rfl, ?_, hoverlaying'⟩
      rw [overlayRun_keepAggregate, hrun]
      rfl
    · rw [GroupSetup.meters_update_of_ne _ hji, GroupSetup.meters_update_of_ne _ hji]
      exact hx.running j hj

theorem completes_deliver (hx : R.Completes x h) {n : ℕ}
    {a : Convergecast.State ℤ Tally} (hrefines : (R.setup group hnonneg hlt).Refines none h a)
    (ha : Convergecast.Inv (R.setup group hnonneg hlt).tree (R.setup group hnonneg hlt).own a)
    (hstep : (R.setup group hnonneg hlt).step h (.deliver n) = .done h') :
    ∃ x', step (R.setup group hnonneg hlt) x (.group (.deliver n)) = .done x' ∧
      R.Completes x' h' := by
  have herase : R.Completes
      { x with group := { x.group with network := x.group.network.eraseIdx n } }
      { h with network := h.network.eraseIdx n } :=
    ⟨by rw [hx.network], hx.utility, hx.done, hx.running, hx.only⟩
  rw [step, groupStep]
  rw [GroupSetup.step] at hstep ⊢
  rw [← hx.network]
  cases hn : h.network[n]? with
  | none =>
    rw [hn] at hstep
    obtain rfl := Outcome.done.inj hstep
    exact ⟨_, rfl, hx⟩
  | some entry =>
    obtain ⟨id, message⟩ := entry
    obtain ⟨hmessage, -, rest, -, hnetwork⟩ := GroupSetup.under_way hrefines hn
    have hid := (ha.waits hnetwork).1
    rw [hn] at hstep
    simp only [GroupSetup.handleAggregation_eq hid hmessage] at hstep ⊢
    rw [← hx.network] at herase
    by_cases hrem : x.remaining id = []
    · rw [← hx.done id hrem]
      cases hc : (h.meters id).onPrimary (ProtocolState.receiveAggregation
          ((R.setup group hnonneg hlt).envs id).toProtocolEnv
          (R.setup group hnonneg hlt).protocol.toAggregatePhase message) with
      | halted e c =>
        rw [hc] at hstep
        cases hstep
      | done c =>
        rw [hc] at hstep
        obtain rfl := Outcome.done.inj hstep
        exact ⟨_, rfl, herase.update hrem c⟩
    · obtain ⟨c, c', hnow, hlater, hcompletes⟩ := herase.buffer hrem message
      have hlater' : (h.meters id).onPrimary (ProtocolState.receiveAggregation
          ((R.setup group hnonneg hlt).envs id).toProtocolEnv
          (R.setup group hnonneg hlt).protocol.toAggregatePhase message) = .done c' := hlater
      have hnow' : (x.group.meters id).onPrimary (ProtocolState.receiveAggregation
          ((R.setup group hnonneg hlt).envs id).toProtocolEnv
          (R.setup group hnonneg hlt).protocol.toAggregatePhase message) = .done c := hnow
      rw [hlater'] at hstep
      obtain rfl := Outcome.done.inj hstep
      rw [hnow']
      exact ⟨_, rfl, hcompletes⟩

/-- A state, with the one it is on its way to and a convergecast in step with that one. -/
def Simulated (S : GroupSetup CtProtocolState) (x : CtRunState) : Prop :=
  ∃ h a, R.Completes x h ∧ S.Refines none h a ∧
    Relation.ReflTransGen (Convergecast.Step S.tree S.own) .init a

theorem simulated_step (hx : Simulated (R := R) (R.setup group hnonneg hlt) x) (e : CtRunEvent) :
    ∃ x', step (R.setup group hnonneg hlt) x e = .done x' ∧
      Simulated (R := R) (R.setup group hnonneg hlt) x' := by
  obtain ⟨h, a, hcompletes, hrefines, hreach⟩ := hx
  have hinv := Convergecast.inv_of_reachable hreach
  cases e with
  | overlay id =>
    obtain ⟨x', hstep, hcompletes'⟩ := completes_overlay hcompletes id
    exact ⟨x', hstep, h, a, hcompletes', hrefines, hreach⟩
  | group e =>
    obtain ⟨h', hstep, a', hsteps, hrefines'⟩ := GroupSetup.simulates_step hrefines hinv e
    cases e with
    | enter id =>
      by_cases hrem : x.remaining id = []
      · obtain ⟨x', hstep', hcompletes'⟩ := completes_enter hcompletes hstep hrem
        exact ⟨x', hstep', h', a', hcompletes', hrefines', hreach.trans hsteps⟩
      · exact ⟨x, by rw [step, if_neg hrem], h, a, hcompletes, hrefines, hreach⟩
    | deliver n =>
      obtain ⟨x', hstep', hcompletes'⟩ := completes_deliver hcompletes hrefines hinv hstep
      exact ⟨x', hstep', h', a', hcompletes', hrefines', hreach.trans hsteps⟩

theorem simulated_run (es : List CtRunEvent)
    (hx : Simulated (R := R) (R.setup group hnonneg hlt) x) :
    ∃ x', run (R.setup group hnonneg hlt) es x = .done x' ∧
      Simulated (R := R) (R.setup group hnonneg hlt) x' := by
  induction es generalizing x with
  | nil => exact ⟨x, rfl, hx⟩
  | cons e es ih =>
    obtain ⟨x', hstep, hx'⟩ := simulated_step hx e
    have hrun : run (R.setup group hnonneg hlt) (e :: es) x =
        run (R.setup group hnonneg hlt) es x' := by
      rw [run, List.foldl_cons, Outcome.done_andThen, hstep]
      rfl
    rw [hrun]
    exact ih hx'

/-- When every meter of the group has entered the phase, none is still on its way. -/
theorem Completes.settled (hx : R.Completes x h)
    (hsettled : (R.setup group hnonneg hlt).Settled x.group) :
    (R.setup group hnonneg hlt).Settled h := by
  refine ⟨fun id hid => ?_, hx.network.trans hsettled.2⟩
  have hentered := hsettled.1 id hid
  by_cases hrem : x.remaining id = []
  · rw [GroupSetup.hasEntered, hx.done id hrem]
    exact hentered
  · obtain ⟨s, buffered, values, -, -, hoverlaying⟩ := hx.running id hrem
    rw [GroupSetup.hasEntered, hoverlaying.aggregation] at hentered
    cases hentered

variable (R)

def distinct : Finset ValueContribution := R.meters.image R.contribution

/-- Every contribution is a proxy value of one member of the group. -/
theorem sum_members {M : Type*} [AddCommMonoid M] (hnonneg : 0 ≤ group)
    (hlt : group < R.numGroups) (f : ValueContribution → M) :
    ∑ id ∈ groupMembers group R.numGroups R.numMeters,
        ((R.final id).proxyValues.map f).sum = ∑ c ∈ R.distinct, f c := by
  have hsum : ∀ id, ((R.final id).proxyValues.map f).sum =
      ∑ c ∈ (R.final id).proxyValues.toFinset, f c :=
    fun id => (List.sum_toFinset f (R.final_overlaying id).nodup).symm
  have hunique : ∀ i, ∃! p, p ∈ R.proxies i ∧ p ∈ groupMembers group R.numGroups R.numMeters :=
    fun i => existsUnique_proxy R.sizes (R.draws_valid i) (R.proxies_picked i) hnonneg hlt
  have hdisjoint : Set.PairwiseDisjoint
      (groupMembers group R.numGroups R.numMeters : Set ℤ)
      fun id => (R.final id).proxyValues.toFinset := by
    intro p hp q hq hne
    refine Finset.disjoint_left.mpr fun c hc hc' => hne ?_
    obtain ⟨i, -, rfl, hpi⟩ := R.mem_final.mp (List.mem_toFinset.mp hc)
    obtain ⟨j, -, hsame, hqj⟩ := R.mem_final.mp (List.mem_toFinset.mp hc')
    have hproxies : R.proxies i = R.proxies j :=
      congrArg (fun c : ValueContribution => c.value.proxies) hsame
    exact (hunique i).unique ⟨hpi, hp⟩ ⟨hproxies ▸ hqj, hq⟩
  have hunion : (groupMembers group R.numGroups R.numMeters).biUnion
      (fun id => (R.final id).proxyValues.toFinset) = R.distinct := by
    ext c
    simp only [Finset.mem_biUnion, List.mem_toFinset, R.mem_final, distinct, Finset.mem_image]
    constructor
    · rintro ⟨p, -, i, hi, rfl, -⟩
      exact ⟨i, hi, rfl⟩
    · rintro ⟨i, hi, rfl⟩
      obtain ⟨p, ⟨hp, hgroup⟩, -⟩ := hunique i
      exact ⟨p, hgroup, i, hi, rfl, hp⟩
  rw [Finset.sum_congr rfl fun id _ => hsum id, ← hunion, Finset.sum_biUnion hdisjoint]

def totalBody : List FixedPoint :=
  (List.range R.length).map fun k =>
    if R.query.requestType.isSingleValuedQuery && k ≠ 0 then 0
    else ∑ i ∈ R.meters, (R.data i).getD k 0

def SumsEveryMeter (x : CtRunState) : Prop :=
  ∃ aggregate, x.group.utility = [aggregate] ∧ aggregate.body = R.totalBody

def CountsEachOnce (group : ℤ) : Prop :=
  ∑ id ∈ groupMembers group R.numGroups R.numMeters,
    ((R.final id).proxyValues : Multiset ValueContribution) = R.meters.val.map R.contribution

def repeats : Finset ℤ :=
  R.meters.filter fun i => ∃ j ∈ R.meters, j < i ∧ R.contribution j = R.contribution i

/-- Their values add up to nothing in each element that is summed. -/
def RepeatsCancel : Prop :=
  ∀ k < R.length, (R.query.requestType.isSingleValuedQuery && k ≠ 0) = false →
    ∑ i ∈ R.repeats, (R.data i).getD k 0 = 0

theorem sum_distinct {M : Type*} [AddCommMonoid M] (f : ValueContribution → M) :
    ∑ i ∈ R.repeats, f (R.contribution i) + ∑ c ∈ R.distinct, f c =
      ∑ i ∈ R.meters, f (R.contribution i) := by
  have hfirst : R.distinct = (R.meters.filter fun i =>
      ¬ ∃ j ∈ R.meters, j < i ∧ R.contribution j = R.contribution i).image R.contribution := by
    ext c
    simp only [distinct, Finset.mem_image, Finset.mem_filter]
    constructor
    · rintro ⟨i, hi, rfl⟩
      -- the first meter with this contribution
      obtain ⟨j, hj, hmin⟩ := Finset.exists_min_image
        (R.meters.filter fun j => R.contribution j = R.contribution i) id
        ⟨i, Finset.mem_filter.mpr ⟨hi, rfl⟩⟩
      obtain ⟨hjm, hji⟩ := Finset.mem_filter.mp hj
      refine ⟨j, ⟨hjm, ?_⟩, hji⟩
      rintro ⟨l, hl, hlt, hlj⟩
      have hle := hmin l (Finset.mem_filter.mpr ⟨hl, hlj.trans hji⟩)
      exact absurd hlt (not_lt.mpr hle)
    · rintro ⟨i, ⟨hi, -⟩, rfl⟩
      exact ⟨i, hi, rfl⟩
  rw [hfirst, Finset.sum_image, repeats, Finset.sum_filter_add_sum_filter_not]
  intro i hi j hj hij
  obtain ⟨him, hifirst⟩ := Finset.mem_filter.mp hi
  obtain ⟨hjm, hjfirst⟩ := Finset.mem_filter.mp hj
  rcases lt_trichotomy i j with hlt | heq | hlt
  · exact absurd ⟨i, him, hlt, hij⟩ hjfirst
  · exact heq
  · exact absurd ⟨j, hjm, hlt, hij.symm⟩ hifirst

theorem countsEachOnce_iff (hnonneg : 0 ≤ group) (hlt : group < R.numGroups) :
    R.CountsEachOnce group ↔ Set.InjOn R.contribution R.meters := by
  have hcounted : ∑ id ∈ groupMembers group R.numGroups R.numMeters,
      ((R.final id).proxyValues : Multiset ValueContribution) = R.distinct.val := by
    have hsum := R.sum_members hnonneg hlt fun c => ({c} : Multiset ValueContribution)
    rw [Finset.sum_multiset_singleton] at hsum
    rw [← hsum]
    refine Finset.sum_congr rfl fun id _ => ?_
    rw [← Multiset.sum_map_singleton ((R.final id).proxyValues : Multiset ValueContribution)]
    rfl
  have hnodup : (R.meters.val.map R.contribution).Nodup ↔
      Set.InjOn R.contribution R.meters :=
    Multiset.nodup_map_iff_inj_on R.meters.nodup
  rw [CountsEachOnce, hcounted, distinct, Finset.image_val, Multiset.dedup_eq_self, hnodup]

/-- The result of a group is the sum over the different contributions. -/
theorem sumsEveryMeter_iff (hnonneg : 0 ≤ group) (hlt : group < R.numGroups)
    {aggregate : AggregationMessage} (hutility : x.group.utility = [aggregate])
    (hbody : aggregate.body = (R.setup group hnonneg hlt).totalBody) :
    R.SumsEveryMeter x ↔ R.RepeatsCancel := by
  have hdistinct : ∀ k, ∑ id ∈ (R.setup group hnonneg hlt).members,
      (((R.setup group hnonneg hlt).values id).map fun value => value.value.value.getD k 0).sum =
        ∑ c ∈ R.distinct, c.value.value.getD k 0 :=
    fun k => R.sum_members hnonneg hlt fun c => c.value.value.getD k 0
  have hsplit : ∀ k, ∑ i ∈ R.repeats, (R.data i).getD k 0 +
      ∑ c ∈ R.distinct, c.value.value.getD k 0 = ∑ i ∈ R.meters, (R.data i).getD k 0 :=
    fun k => R.sum_distinct fun c => c.value.value.getD k 0
  have hsingle : (R.setup group hnonneg hlt).single =
      R.query.requestType.isSingleValuedQuery := rfl
  have hlength : (R.setup group hnonneg hlt).length = R.length := rfl
  have hbodies : R.SumsEveryMeter x ↔ (R.setup group hnonneg hlt).totalBody = R.totalBody := by
    rw [SumsEveryMeter, hutility, ← hbody]
    constructor
    · rintro ⟨aggregate', hsame, hsum⟩
      rwa [(List.cons.inj hsame).1]
    · exact fun hsum => ⟨aggregate, rfl, hsum⟩
  rw [hbodies, GroupSetup.totalBody, totalBody, hsingle, hlength, List.map_inj_left, RepeatsCancel]
  simp only [List.mem_range, hdistinct]
  refine forall_congr' fun k => imp_congr_right fun _ => ?_
  have hk := hsplit k
  cases hskip : R.query.requestType.isSingleValuedQuery && decide (k ≠ 0) with
  | true => simp
  | false =>
    simp only [Bool.false_eq_true, if_false, true_imp_iff]
    rw [← hk]
    exact right_eq_add

/-- The result is right when the values of repeated contributions cancel, and every meter
is counted once when no contribution is repeated. -/
theorem sums_every_meter_iff (hnonneg : 0 ≤ group) (hlt : group < R.numGroups)
    (es : List CtRunEvent) :
    ∃ x, run (R.setup group hnonneg hlt) es R.init = .done x ∧
      ((R.setup group hnonneg hlt).Settled x.group →
        (R.SumsEveryMeter x ↔ R.RepeatsCancel) ∧
        (R.CountsEachOnce group ↔ Set.InjOn R.contribution R.meters)) := by
  have hinit : Simulated (R := R) (R.setup group hnonneg hlt) R.init :=
    ⟨R.finalState, .init, completes_init, GroupSetup.refines_init ready_finalState, .refl⟩
  obtain ⟨x, hrun, h, a, hcompletes, hrefines, hreach⟩ := simulated_run es hinit
  refine ⟨x, hrun, fun hsettled => ⟨?_, R.countsEachOnce_iff hnonneg hlt⟩⟩
  obtain ⟨-, aggregate, hutility, hcarries⟩ :=
    hrefines.settled hreach (hcompletes.settled hsettled)
  exact R.sumsEveryMeter_iff hnonneg hlt (hcompletes.utility.symm.trans hutility)
    (GroupSetup.carries_totalBody hcarries)

end CtRun

namespace CtRun
open CtProtocolState

def sampleDraws (id : ℤ) (g : ℕ) : ℤ :=
  if g = 0 then (if id = 2 ∨ id = 3 then 1 else 0) else if id = 2 ∨ id = 4 then 3 else 2

/-- Meters 0 and 3 measure the same and pick the same proxies. -/
def sampleQuery : CtQuery where
  numGroups := 2
  numMeters := 5
  envs id := MeterClient.sampleEnv id 5 MeterClient.five_meters 1 2 fun _ => true
  query := ⟨.currUsageSum, 1, 0⟩
  length := 1
  data _ := [5]
  draws := sampleDraws
  proxies id := (List.range 2).map fun g : ℕ =>
    pickProxy (sampleDraws id g) id (proxyRange 2 5 g).1 (proxyRange 2 5 g).2
  sizes := GroupSetup.sampleGroup.sizes
  envs_meterId := GroupSetup.sampleGroup.envs_meterId
  envs_numMeters := GroupSetup.sampleGroup.envs_numMeters
  envs_numGroups := GroupSetup.sampleGroup.envs_numGroups
  sendOk _ _ := rfl
  length_pos := GroupSetup.sampleGroup.length_pos
  data_length _ := rfl
  draws_valid id g hg := by
    have hfirst : proxyRange 2 5 0 = (0, 1) := by decide
    have hsecond : proxyRange 2 5 1 = (2, 4) := by decide
    obtain rfl | rfl : g = 0 ∨ g = 1 := by omega
    · simp only [sampleDraws, Nat.cast_zero, hfirst, if_true]
      split_ifs <;> omega
    · simp only [sampleDraws, Nat.cast_one, hsecond, one_ne_zero, if_false]
      split_ifs <;> omega
  proxies_picked id := pickProxies_eq ⟨by decide, by decide⟩ (sampleDraws id) id

/-- Each contribution is delivered in Shuffle, and the rounds of Shuffle and Echo pass. -/
def sampleEvents (id : ℤ) : List OverlayEvent :=
  (([0, 1, 2, 3, 4] : List ℤ).filter fun i => id ∈ sampleQuery.proxies i).map (fun i =>
      .handle (.make 0 id (.valueContribution (sampleQuery.contribution i)) false)) ++
    List.replicate 18 .endRound

def sampleStart (id : ℤ) : State :=
  { ProtocolState.init ⟨0, .shuffle⟩ with
    myContribution := some (sampleQuery.tuple id)
    aggregationPhaseState := some (sampleQuery.aggregation id) }

/-- IDs that are no meter's have nothing to do. -/
def sampleRun : CtRun where
  toCtQuery := sampleQuery
  start id := if id ∈ sampleQuery.meters then sampleStart id
    else { sampleStart id with overlayRound := 100, impl := ⟨0, .echo⟩ }
  events id := if id ∈ sampleQuery.meters then sampleEvents id else []
  started id := by
    split_ifs
    · exact ⟨rfl, rfl, rfl, rfl, rfl, ⟨rfl, rfl⟩, List.nodup_nil, fun _ => Iff.rfl⟩
    · exact ⟨rfl, rfl, rfl, rfl, rfl, ⟨rfl, rfl⟩, List.nodup_nil, fun _ => Iff.rfl⟩
  completes id := by
    have hmeters : ∀ i ∈ sampleQuery.meters,
        (match overlayRun (sampleQuery.envs i).toProtocolEnv (sampleEvents i) (sampleStart i) with
          | .done s => decide (echoFinished (sampleQuery.envs i).toProtocolEnv s)
          | .halted _ _ => false) = true := by
      decide +kernel
    split_ifs with hid
    · have hfinished := hmeters id hid
      cases hrun : overlayRun (sampleQuery.envs id).toProtocolEnv (sampleEvents id)
          (sampleStart id) with
      | done s =>
        rw [hrun] at hfinished
        exact ⟨s, rfl, of_decide_eq_true hfinished⟩
      | halted e s =>
        rw [hrun] at hfinished
        cases hfinished
    · have hrounds : (100 : ℤ) ≥ 0 + (1 : ℕ) + 2 * ceilLog2 5 + 1 := by decide
      exact ⟨_, rfl, rfl, hrounds⟩
  only id c hc := by
    have hmeters : ∀ p ∈ sampleQuery.meters, ∀ c ∈ delivered p (sampleEvents p),
        ∃ i ∈ sampleQuery.meters, c = sampleQuery.contribution i ∧ p ∈ sampleQuery.proxies i := by
      decide +kernel
    split_ifs at hc with hid
    · exact hmeters id hid c hc
    · cases hc
  reaches := by
    decide +kernel

/-- Both members of the first group go through their rounds, one after the other. -/
def sampleOrder : List CtRunEvent :=
  List.replicate 22 (.overlay 1) ++ [.group (.enter 1), .group (.deliver 0)] ++
    List.replicate 22 (.overlay 0) ++ [.group (.enter 0)]

def sampleSetup : GroupSetup CtProtocolState := sampleRun.setup 0 (by decide) (by decide)

/-- Five meters measure 5 each, and the result is 20. -/
theorem equal_contributions_counted_once :
    ¬ sampleRun.SumsEveryMeter (run sampleSetup sampleOrder sampleRun.init).state := by
  rintro ⟨aggregate, hutility, hbody⟩
  have hresult : (run sampleSetup sampleOrder sampleRun.init).state.group.utility.map
      AggregationMessage.body = [[20]] := by
    decide +kernel
  rw [hutility, List.map_singleton, hbody] at hresult
  revert hresult
  decide +kernel

theorem sample_sums_every_meter_iff :
    ∃ x, run sampleSetup sampleOrder sampleRun.init = .done x ∧ sampleSetup.Settled x.group ∧
      ¬ sampleRun.SumsEveryMeter x ∧ ¬ sampleRun.CountsEachOnce 0 := by
  obtain ⟨x, hrun, hend⟩ := @sums_every_meter_iff sampleRun 0 (by decide) (by decide) sampleOrder
  have hsettled : sampleSetup.Settled (run sampleSetup sampleOrder sampleRun.init).state.group := by
    decide +kernel
  have hrun' : run sampleSetup sampleOrder sampleRun.init = .done x := hrun
  rw [hrun'] at hsettled
  obtain ⟨hsums, hcounts⟩ := hend hsettled
  refine ⟨x, hrun, hsettled, ?_, ?_⟩
  · rw [hsums]
    intro hcancel
    have hfirst := hcancel 0 (by decide) (by decide)
    revert hfirst
    decide +kernel
  · rw [hcounts]
    intro hinj
    have hsame : sampleRun.contribution 0 = sampleRun.contribution 3 := by decide +kernel
    have hmembers : (0 : ℤ) ∈ sampleRun.meters ∧ (3 : ℤ) ∈ sampleRun.meters := by decide +kernel
    exact absurd (hinj hmembers.1 hmembers.2 hsame) (by decide)

end CtRun
end Pddm
