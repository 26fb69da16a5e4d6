import Pddm.AggregateSums
import Pddm.Groups

/-!
# Aggregation in a group

The meters of one group, the messages between them, and what has reached the utility.
A run of the Aggregate phase refines a convergecast on the tree of the group.
-/
namespace Pddm

structure GroupState (ι : Type) where
  meters : ℤ → MeterClient ι
  /-- Messages under way, with their recipients. -/
  network : List (ℤ × AggregationMessage)
  utility : List AggregationMessage

inductive GroupEvent
  | enter (id : ℤ)
  | deliver (n : ℕ)

/-- The meters of one group before the Aggregate phase of a query. No message is longer
or shorter than the others. -/
structure GroupSetup (ι : Type) where
  numGroups : ℤ
  numMeters : ℤ
  group : ℤ
  envs : ℤ → ClientEnv
  protocol : Protocol ι
  query : QueryRequest
  length : ℕ
  values : ℤ → List ValueContribution
  sizes : ValidSizes numGroups numMeters
  group_nonneg : 0 ≤ group
  group_lt : group < numGroups
  envs_meterId : ∀ id, (envs id).meterId = id
  envs_numMeters : ∀ id, (envs id).numMeters = numMeters
  envs_numGroups : ∀ id, (envs id).numAggregationGroups = numGroups
  length_pos : 0 < length
  values_length : ∀ id, ∀ value ∈ values id, value.value.value.length = length

namespace GroupSetup
variable {ι : Type} (S : GroupSetup ι)

def members : Finset ℤ := groupMembers S.group S.numGroups S.numMeters

def root : ℤ := groupFirst S.group S.numGroups S.numMeters

def task (id : ℤ) : AggregationTask ι where
  env := (S.envs id).toProtocolEnv
  phase := S.protocol.toAggregatePhase
  query := S.query
  length := S.length
  values := S.values id
  length_pos := S.length_pos
  values_length := S.values_length id

def hasEntered (g : GroupState ι) (id : ℤ) : Bool :=
  (g.meters id).primary.aggregationPhaseState.any TreeAggregationState.initialized

/-- A meter has changed, and what it has sent is on its way. -/
def update (id : ℤ) (c : MeterClient ι) (g : GroupState ι) : GroupState ι :=
  let sent := aggregatesSent (c.primary.trace.drop (g.meters id).primary.trace.length)
  { meters := Function.update g.meters id c
    network := g.network ++ sent.filter fun e => e.1 ≠ -1
    utility := g.utility ++ (sent.filter fun e => e.1 = -1).map Prod.snd }

def step (g : GroupState ι) : GroupEvent → Outcome Fault (GroupState ι)
  | .enter id =>
      if id ∈ S.members ∧ hasEntered g id = false then
        ((g.meters id).onPrimary (ProtocolState.enterAggregatePhase (S.envs id).toProtocolEnv
          S.protocol.toAggregatePhase)).map fun c => update id c g
      else .done g
  | .deliver n =>
      match g.network[n]? with
      | none => .done g
      | some (id, message) =>
          ((g.meters id).handleAggregation (S.envs id) S.protocol message).map fun c =>
            update id c { g with network := g.network.eraseIdx n }

def run (es : List GroupEvent) (g : GroupState ι) : Outcome Fault (GroupState ι) :=
  es.foldl (fun o e => o.andThen fun g => S.step g e) (.done g)

structure Ready (g : GroupState ι) : Prop where
  preparing : ∀ id ∈ S.members, (S.task id).Preparing 0 (g.meters id).primary
  network : g.network = []
  utility : g.utility = []

def Settled (g : GroupState ι) : Prop :=
  (∀ id ∈ S.members, hasEntered g id = true) ∧ g.network = []

def tree : Convergecast.Tree ℤ := groupTree S.sizes.nonempty S.group_nonneg S.group_lt

def own (id : ℤ) : Tally := (S.task id).own

def single : Bool := S.query.requestType.isSingleValuedQuery

structure Sendable (m : AggregationMessage) : Prop where
  senderId : m.senderId ∈ S.members
  queryNum : m.queryNum = S.query.queryNumber
  length : m.body.length = S.length

/-- The meters, and what is under way, are in the state that the convergecast is in, but
for one meter that may be busy with a message. -/
structure Refines (busy : Option ℤ) (g : GroupState ι) (a : Convergecast.State ℤ Tally) :
    Prop where
  preparing : ∀ id ∈ S.members, id ∉ a.joined →
    (S.task id).Preparing (a.received id) (g.meters id).primary
  collecting : ∀ id ∈ a.joined, id ∉ a.passed → busy ≠ some id →
    (S.task id).Collecting (a.received id) (g.meters id).primary
  finished : ∀ id ∈ a.passed, (S.task id).Finished (g.meters id).primary
  network : (g.network.map fun e => (e.1, e.2.tally S.single) : Multiset (ℤ × Tally)) = a.network
  utility : (g.utility.map fun m => m.tally S.single : Multiset Tally) = a.output
  sendable : ∀ e ∈ g.network, S.Sendable e.2
  results : ∀ m ∈ g.utility, (S.task S.root).Carries (m.tally S.single) m

variable {S} {g g' : GroupState ι} {a : Convergecast.State ℤ Tally}

theorem awaited_eq {id : ℤ} (hid : id ∈ S.members) :
    (S.task id).awaited = (S.tree.children id).card := by
  have hcard := card_children S.sizes.nonempty S.group_nonneg S.group_lt hid
  rw [tree, hcard]
  simp only [AggregationTask.awaited, task, S.envs_meterId, S.envs_numGroups, S.envs_numMeters]

theorem parent_eq (id : ℤ) :
    (S.task id).parent = aggregationTreeParent id S.numGroups S.numMeters := by
  simp only [AggregationTask.parent, task, S.envs_meterId, S.envs_numGroups, S.envs_numMeters]

theorem refines_init (h : S.Ready g) : S.Refines none g Convergecast.State.init where
  preparing id hid _ := h.preparing id hid
  collecting id hid := by simp [Convergecast.State.init] at hid
  finished id hid := by simp [Convergecast.State.init] at hid
  network := by simp [h.network, Convergecast.State.init]
  utility := by simp [h.utility, Convergecast.State.init]
  sendable := by simp [h.network]
  results := by simp [h.utility]

theorem meters_update_self (g : GroupState ι) (id : ℤ) (c : MeterClient ι) :
    (update id c g).meters id = c := Function.update_self ..

theorem meters_update_of_ne (g : GroupState ι) {id j : ℤ} (h : j ≠ id) (c : MeterClient ι) :
    (update id c g).meters j = g.meters j := Function.update_of_ne h ..

theorem update_waits {id : ℤ} {c : MeterClient ι} {ext : List Action}
    (htrace : c.primary.trace = (g.meters id).primary.trace ++ ext)
    (hnone : aggregatesSent ext = []) :
    (update id c g).network = g.network ∧ (update id c g).utility = g.utility := by
  rw [update, htrace, List.drop_left, hnone]
  simp

theorem update_keeps {id : ℤ} {c : MeterClient ι}
    (htrace : c.primary.trace = (g.meters id).primary.trace) :
    (update id c g).network = g.network ∧ (update id c g).utility = g.utility := by
  have happend : c.primary.trace = (g.meters id).primary.trace ++ [] := by
    rw [htrace, List.append_nil]
  exact update_waits happend rfl

theorem update_sends {id p : ℤ} {c : MeterClient ι} {ext : List Action}
    {aggregate : AggregationMessage}
    (htrace : c.primary.trace = (g.meters id).primary.trace ++ ext)
    (hsent : aggregatesSent ext = [(p, aggregate)]) :
    (update id c g).network = (if p = -1 then g.network else g.network ++ [(p, aggregate)]) ∧
      (update id c g).utility = if p = -1 then g.utility ++ [aggregate] else g.utility := by
  rw [update, htrace, List.drop_left, hsent]
  by_cases hp : p = -1 <;> simp [hp]

theorem refines_waits {id : ℤ} (h : S.Refines (some id) g a) (hjoined : id ∈ a.joined)
    (hnew : id ∉ a.passed) {c : MeterClient ι}
    (hc : (S.task id).Collecting (a.received id) c.primary)
    (hnetwork : (update id c g).network = g.network)
    (hutility : (update id c g).utility = g.utility) : S.Refines none (update id c g) a := by
  refine ⟨fun j hj hjnew => ?_, fun j hj hjnew _ => ?_, fun j hj => ?_, ?_, ?_, ?_, ?_⟩
  · have hji : j ≠ id := fun heq => hjnew (heq.symm ▸ hjoined)
    rw [meters_update_of_ne g hji]
    exact h.preparing j hj hjnew
  · by_cases hji : j = id
    · rw [hji, meters_update_self]
      exact hc
    · rw [meters_update_of_ne g hji]
      exact h.collecting j hj hjnew fun heq => hji (Option.some.inj heq).symm
  · have hji : j ≠ id := fun heq => hnew (heq ▸ hj)
    rw [meters_update_of_ne g hji]
    exact h.finished j hj
  · rw [hnetwork]
    exact h.network
  · rw [hutility]
    exact h.utility
  · rw [hnetwork]
    exact h.sendable
  · rw [hutility]
    exact h.results

theorem refines_sends {id : ℤ} (h : S.Refines (some id) g a) (hid : id ∈ S.members)
    (hjoined : id ∈ a.joined) {c : MeterClient ι} {aggregate : AggregationMessage}
    (hc : (S.task id).Finished c.primary)
    (hcarries : (S.task id).Carries (a.carried S.own id) aggregate)
    (hnetwork : (update id c g).network = if (S.task id).parent = -1 then g.network
      else g.network ++ [((S.task id).parent, aggregate)])
    (hutility : (update id c g).utility =
      if (S.task id).parent = -1 then g.utility ++ [aggregate] else g.utility) :
    S.Refines none (update id c g) (a.pass S.tree S.own id) := by
  have htally : aggregate.tally S.single = a.carried S.own id := hcarries.tally
  have hsender : aggregate.senderId = id := hcarries.senderId.trans (S.envs_meterId id)
  have hpreparing : ∀ j ∈ S.members, j ∉ a.joined →
      (S.task j).Preparing (a.received j) ((update id c g).meters j).primary := by
    intro j hj hjnew
    have hji : j ≠ id := fun heq => hjnew (heq.symm ▸ hjoined)
    rw [meters_update_of_ne g hji]
    exact h.preparing j hj hjnew
  have hcollecting : ∀ j ∈ a.joined, j ∉ insert id a.passed →
      (S.task j).Collecting (a.received j) ((update id c g).meters j).primary := by
    intro j hj hjnew
    obtain ⟨hji, hjpassed⟩ := not_or.mp fun hor => hjnew (Finset.mem_insert.mpr hor)
    rw [meters_update_of_ne g hji]
    exact h.collecting j hj hjpassed fun heq => hji (Option.some.inj heq).symm
  have hfinished : ∀ j ∈ insert id a.passed,
      (S.task j).Finished ((update id c g).meters j).primary := by
    intro j hj
    by_cases hji : j = id
    · rw [hji, meters_update_self]
      exact hc
    · rw [meters_update_of_ne g hji]
      exact h.finished j ((Finset.mem_insert.mp hj).resolve_left hji)
  rw [parent_eq] at hnetwork hutility
  have hparent : S.tree.parent id = groupParent S.numGroups S.numMeters id := rfl
  unfold Convergecast.State.pass
  rw [hparent, groupParent]
  by_cases hroot : aggregationTreeParent id S.numGroups S.numMeters = -1
  · rw [if_pos hroot] at hnetwork hutility ⊢
    have hidroot : id = S.root := by
      refine S.tree.eq_root_of_parent hid ?_
      rw [hparent, groupParent, if_pos hroot]
    refine ⟨hpreparing, fun j hj hjnew _ => hcollecting j hj hjnew, hfinished, ?_, ?_, ?_, ?_⟩
    · rw [hnetwork]
      exact h.network
    · rw [hutility, List.map_append, ← h.utility, ← htally]
      exact Multiset.coe_eq_coe.mpr (List.perm_append_singleton _ _)
    · rw [hnetwork]
      exact h.sendable
    · rw [hutility]
      intro m hm
      rcases List.mem_append.mp hm with hm | hm
      · exact h.results m hm
      · obtain rfl := List.mem_singleton.mp hm
        rw [htally, ← hidroot]
        exact hcarries
  · rw [if_neg hroot] at hnetwork hutility ⊢
    refine ⟨hpreparing, fun j hj hjnew _ => hcollecting j hj hjnew, hfinished, ?_, ?_, ?_, ?_⟩
    · rw [hnetwork, List.map_append, ← h.network, ← htally]
      exact Multiset.coe_eq_coe.mpr (List.perm_append_singleton _ _)
    · rw [hutility]
      exact h.utility
    · rw [hnetwork]
      intro e he
      rcases List.mem_append.mp he with he | he
      · exact h.sendable e he
      · obtain rfl := List.mem_singleton.mp he
        exact ⟨hsender ▸ hid, hcarries.queryNum, hcarries.length⟩
    · rw [hutility]
      exact h.results

/-- After a member has taken in what it received, it is in step with the convergecast
in which its node has been settled. -/
theorem refines_update {id : ℤ} (h : S.Refines (some id) g a) (hid : id ∈ S.members)
    (hjoined : id ∈ a.joined) (hnew : id ∉ a.passed) {c : MeterClient ι}
    (hc : (S.task id).Advances (a.received id) (g.meters id).primary c.primary)
    (hle : (a.received id).card ≤ (S.tree.children id).card) :
    S.Refines none (update id c g) (a.settle S.tree S.own id) := by
  obtain ⟨ext, htrace, ⟨hlt, hcollects, hnone⟩ | ⟨hfull, hfinishes, aggregate, hcarries, hsent⟩⟩ :=
    hc
  · rw [awaited_eq hid] at hlt
    have hcomplete : ¬ a.Complete S.tree id := by
      unfold Convergecast.State.Complete
      omega
    obtain ⟨hnetwork, hutility⟩ := update_waits htrace hnone
    rw [Convergecast.State.settle, if_neg fun h => hcomplete h.2]
    exact refines_waits h hjoined hnew hcollects hnetwork hutility
  · rw [awaited_eq hid] at hfull
    have hcomplete : a.Complete S.tree id := by
      unfold Convergecast.State.Complete
      omega
    obtain ⟨hnetwork, hutility⟩ := update_sends htrace hsent
    rw [Convergecast.State.settle, if_pos ⟨hjoined, hcomplete⟩]
    exact refines_sends h hid hjoined hfinishes hcarries hnetwork hutility

theorem hasEntered_iff (h : S.Refines none g a) {id : ℤ} (hid : id ∈ S.members) : hasEntered g id = true ↔ id ∈ a.joined := by
  by_cases hjoined : id ∈ a.joined
  · refine ⟨fun _ => hjoined, fun _ => ?_⟩
    by_cases hpassed : id ∈ a.passed
    · exact (h.finished id hpassed).initialized
    · obtain ⟨aggregation, hagg, htallies⟩ := (h.collecting id hjoined hpassed (by simp)).tallies
      rw [hasEntered, hagg]
      exact htallies.initialized
  · refine ⟨fun hentered => ?_, fun hmem => absurd hmem hjoined⟩
    rw [hasEntered, (h.preparing id hid hjoined).aggregation] at hentered
    cases hentered

theorem received_le (ha : Convergecast.Inv S.tree S.own a) {id : ℤ} (hid : id ∈ S.members) :
    (a.received id).card ≤ (S.tree.children id).card := by
  have hcount := ha.counts id hid
  have hle : (S.tree.children id ∩ a.passed).card ≤ (S.tree.children id).card :=
    Finset.card_le_card Finset.inter_subset_left
  omega

theorem simulates_enter (h : S.Refines none g a) (ha : Convergecast.Inv S.tree S.own a) {id : ℤ}
    (hid : id ∈ S.members) (hnew : id ∉ a.joined) :
    ∃ g', S.step g (.enter id) = .done g' ∧
      S.Refines none g' ((a.join id).settle S.tree S.own id) := by
  have hentered : hasEntered g id = false := by
    rw [← Bool.not_eq_true, hasEntered_iff h hid]
    exact hnew
  have hpassed : id ∉ a.passed := fun hmem => hnew (ha.passed_joined hmem)
  have hle := received_le ha hid
  obtain ⟨t, ht, hadvances⟩ := AggregationTask.enterAggregatePhase_advances
    (h.preparing id hid hnew) (by rw [awaited_eq hid]; exact_mod_cast hle)
  have hbusy : S.Refines (some id) g (a.join id) := by
    refine ⟨fun j hj hjnew => ?_, fun j hj hjpassed hne => ?_, h.finished, h.network, h.utility,
      h.sendable, h.results⟩
    · exact h.preparing j hj fun hmem => hjnew (Finset.mem_insert_of_mem hmem)
    · have hji : j ≠ id := fun heq => hne (congrArg some heq.symm)
      exact h.collecting j ((Finset.mem_insert.mp hj).resolve_left hji) hjpassed (by simp)
  refine ⟨update id { g.meters id with primary := t } g, ?_, refines_update hbusy hid
    (Finset.mem_insert_self id a.joined) hpassed hadvances hle⟩
  have henter : ProtocolState.enterAggregatePhase (S.envs id).toProtocolEnv
      S.protocol.toAggregatePhase (g.meters id).primary = .done t := ht
  rw [step, if_pos ⟨hid, hentered⟩, MeterClient.onPrimary, henter]
  rfl

/-- A message that is delivered comes from the group of its recipient. -/
theorem handleAggregation_eq {id : ℤ} (hid : id ∈ S.members) {message : AggregationMessage}
    (hmessage : S.Sendable message) (c : MeterClient ι) :
    c.handleAggregation (S.envs id) S.protocol message =
      c.onPrimary (ProtocolState.receiveAggregation (S.envs id).toProtocolEnv
        S.protocol.toAggregatePhase message) := by
  have hsize := S.sizes.size
  have hsender := (mem_groupMembers.mp hmessage.senderId).2.2
  have hself := (mem_groupMembers.mp hid).2.2
  have hsame : MeterClient.sameGroup (S.envs id) message.senderId (S.envs id).meterId = true := by
    rw [MeterClient.sameGroup, S.envs_numGroups, S.envs_numMeters, S.envs_meterId, hsender, hself]
    exact decide_eq_true rfl
  rw [MeterClient.handleAggregation, S.envs_numGroups, S.envs_numMeters, if_neg (by omega),
    if_pos hsame]

theorem refines_buffered {id : ℤ} {x : Tally} {rest : Multiset (ℤ × Tally)} {t : ProtocolState ι}
    (h : S.Refines none g a) (hpassed : id ∉ a.passed) {network : List (ℤ × AggregationMessage)}
    (hnetwork : (network.map fun e => (e.1, e.2.tally S.single) : Multiset (ℤ × Tally)) = rest)
    (hsub : ∀ e ∈ network, e ∈ g.network) (hjoined : id ∉ a.joined)
    (ht : (S.task id).Preparing (x ::ₘ a.received id) t)
    (htrace : t.trace = (g.meters id).primary.trace) :
    S.Refines none (update id { g.meters id with primary := t } { g with network := network })
      (a.receive id x rest) := by
  have hkeeps : (update id { g.meters id with primary := t }
      { g with network := network }).network = network ∧
      (update id { g.meters id with primary := t } { g with network := network }).utility =
        g.utility :=
    update_keeps htrace
  obtain ⟨hsame, hutility⟩ := hkeeps
  refine ⟨fun j hj hjnew => ?_, fun j hj hjpassed hne => ?_, fun j hj => ?_, ?_, ?_, ?_, ?_⟩
  · by_cases hji : j = id
    · subst hji
      rw [meters_update_self, Convergecast.State.received_receive_self]
      exact ht
    · rw [meters_update_of_ne _ hji, a.received_receive_of_ne hji]
      exact h.preparing j hj hjnew
  · have hji : j ≠ id := fun heq => hjoined (heq ▸ hj)
    rw [meters_update_of_ne _ hji, a.received_receive_of_ne hji]
    exact h.collecting j hj hjpassed hne
  · have hji : j ≠ id := fun heq => hpassed (heq ▸ hj)
    rw [meters_update_of_ne _ hji]
    exact h.finished j hj
  · rw [hsame]
    exact hnetwork
  · rw [hutility]
    exact h.utility
  · rw [hsame]
    exact fun e he => h.sendable e (hsub e he)
  · rw [hutility]
    exact h.results

theorem under_way (h : S.Refines none g a) {n : ℕ} {id : ℤ} {message : AggregationMessage} (hn : g.network[n]? = some (id, message)) :
    S.Sendable message ∧ (∀ e ∈ g.network.eraseIdx n, e ∈ g.network) ∧
      ∃ rest : Multiset (ℤ × Tally),
        ((g.network.eraseIdx n).map fun e => (e.1, e.2.tally S.single) : Multiset _) = rest ∧
        a.network = (id, message.tally S.single) ::ₘ rest := by
  obtain ⟨hlt, hget⟩ := List.getElem?_eq_some_iff.mp hn
  have hperm : ((id, message) :: g.network.eraseIdx n).Perm g.network :=
    hget ▸ List.getElem_cons_eraseIdx_perm hlt
  refine ⟨h.sendable (id, message) (hget ▸ List.getElem_mem hlt),
    fun e he => hperm.mem_iff.mp (List.mem_cons_of_mem _ he), _, rfl, ?_⟩
  rw [← h.network, Multiset.cons_coe]
  exact Multiset.coe_eq_coe.mpr (hperm.symm.map _)

theorem simulates_deliver (h : S.Refines none g a) (ha : Convergecast.Inv S.tree S.own a) {n : ℕ}
    {id : ℤ} {message : AggregationMessage} (hn : g.network[n]? = some (id, message)) :
    ∃ g', S.step g (.deliver n) = .done g' ∧
      ∃ a', Convergecast.Step S.tree S.own a a' ∧ S.Refines none g' a' := by
  obtain ⟨hmessage, hsub, rest, hrest, hnetwork⟩ := under_way h hn
  obtain ⟨hid, hpassed, hwaits⟩ := ha.waits hnetwork
  have hstep : Convergecast.Step S.tree S.own a _ := .deliver hnetwork
  rw [step, hn]
  simp only [handleAggregation_eq hid hmessage]
  by_cases hjoined : id ∈ a.joined
  · obtain ⟨t, ht, hadvances⟩ := AggregationTask.receiveAggregation_advances
      (h.collecting id hjoined hpassed (by simp)) hmessage.length
    have hbusy : S.Refines (some id) { g with network := g.network.eraseIdx n }
        (a.receive id (message.tally S.single) rest) := by
      refine ⟨fun j hj hjnew => ?_, fun j hj hjpassed hne => ?_, h.finished, hrest, h.utility,
        fun e he => h.sendable e (hsub e he), h.results⟩
      · have hji : j ≠ id := fun heq => hjnew (heq.symm ▸ hjoined)
        rw [a.received_receive_of_ne hji]
        exact h.preparing j hj hjnew
      · have hji : j ≠ id := fun heq => hne (congrArg some heq.symm)
        rw [a.received_receive_of_ne hji]
        exact h.collecting j hj hjpassed (by simp)
    have hreceive : ProtocolState.receiveAggregation (S.envs id).toProtocolEnv
        S.protocol.toAggregatePhase message (g.meters id).primary = .done t := ht
    refine ⟨_, ?_, _, hstep, refines_update hbusy hid hjoined hpassed
      (c := { g.meters id with primary := t }) ?_ ?_⟩
    · rw [MeterClient.onPrimary, hreceive]
      rfl
    · rw [Convergecast.State.received_receive_self]
      exact hadvances
    · rw [Convergecast.State.received_receive_self, Multiset.card_cons]
      exact hwaits
  · obtain ⟨t, ht, hprepares, htrace⟩ := AggregationTask.receiveAggregation_prepares
      (h.preparing id hid hjoined) hmessage.queryNum hmessage.length
    have hreceive : ProtocolState.receiveAggregation (S.envs id).toProtocolEnv
        S.protocol.toAggregatePhase message (g.meters id).primary = .done t := ht
    have hsettle : ∀ b : Convergecast.State ℤ Tally, b.joined = a.joined →
        b.settle S.tree S.own id = b := by
      intro b hb
      rw [Convergecast.State.settle, hb, if_neg fun hand => hjoined hand.1]
    refine ⟨update id { g.meters id with primary := t }
      { g with network := g.network.eraseIdx n }, ?_, _, hstep, ?_⟩
    · rw [MeterClient.onPrimary, hreceive]
      rfl
    · rw [hsettle (a.receive id (message.tally S.single) rest) rfl]
      exact refines_buffered h hpassed hrest hsub hjoined hprepares htrace

/-- Every step goes through, and is one of the convergecast or none. -/
theorem simulates_step (h : S.Refines none g a) (ha : Convergecast.Inv S.tree S.own a)
    (e : GroupEvent) :
    ∃ g', S.step g e = .done g' ∧
      ∃ a', Relation.ReflTransGen (Convergecast.Step S.tree S.own) a a' ∧
        S.Refines none g' a' := by
  cases e with
  | enter id =>
    by_cases hid : id ∈ S.members ∧ hasEntered g id = false
    · have hnew : id ∉ a.joined := by
        rw [← hasEntered_iff h hid.1, hid.2]
        exact Bool.false_ne_true
      obtain ⟨g', hg', hrefines⟩ := simulates_enter h ha hid.1 hnew
      exact ⟨g', hg', _, .single (.join hid.1 hnew), hrefines⟩
    · exact ⟨g, by rw [step, if_neg hid], a, .refl, h⟩
  | deliver n =>
    cases hn : g.network[n]? with
    | none => exact ⟨g, by rw [step, hn], a, .refl, h⟩
    | some entry =>
      obtain ⟨g', hg', a', hstep, hrefines⟩ := simulates_deliver h ha hn
      exact ⟨g', hg', a', .single hstep, hrefines⟩

theorem simulates_run (es : List GroupEvent) (h : S.Refines none g a)
    (hreach : Relation.ReflTransGen (Convergecast.Step S.tree S.own) .init a) :
    ∃ g', S.run es g = .done g' ∧
      ∃ a', Relation.ReflTransGen (Convergecast.Step S.tree S.own) .init a' ∧
        S.Refines none g' a' := by
  induction es generalizing g a with
  | nil => exact ⟨g, rfl, a, hreach, h⟩
  | cons e es ih =>
    obtain ⟨g', hg', a', hsteps, hrefines⟩ :=
      simulates_step h (Convergecast.inv_of_reachable hreach) e
    have hrun : S.run (e :: es) g = S.run es g' := by
      rw [run, List.foldl_cons, Outcome.done_andThen, hg']
      rfl
    rw [hrun]
    exact ih hrefines (hreach.trans hsteps)

variable (S)

/-- The sums of the values of all members. For a query of one value the first elements
are added only. -/
def totalBody : List FixedPoint :=
  (List.range S.length).map fun k =>
    if S.single && k ≠ 0 then 0
    else ∑ id ∈ S.members, ((S.values id).map fun value => value.value.value.getD k 0).sum

def totalContributions : ℕ := ∑ id ∈ S.members, (S.values id).length

variable {S}

theorem own_fst (id : ℤ) (k : ℕ) : (S.own id).1 k =
    if S.single && k ≠ 0 then 0
    else ((S.values id).map fun value => value.value.value.getD k 0).sum := by
  have hlist : ∀ values : List ValueContribution,
      (values.map fun value => ((entry S.single value.value.value, 1) : Tally)).sum.1 k =
        if S.single && k ≠ 0 then 0
        else (values.map fun value => value.value.value.getD k 0).sum := by
    intro values
    induction values with
    | nil => simp
    | cons value values ih =>
      rw [List.map_cons, List.sum_cons, Prod.fst_add, Pi.add_apply, ih, List.map_cons,
        List.sum_cons]
      simp only [entry]
      split_ifs
      · exact add_zero _
      · rfl
  have hinitial : ((0, 1) : Tally).1 k = 0 := rfl
  rw [own, AggregationTask.own, Prod.fst_add, Pi.add_apply, hinitial, add_zero]
  exact hlist (S.values id)

theorem own_snd (id : ℤ) : (S.own id).2 = (S.values id).length + 1 := by
  have hlist : ∀ values : List ValueContribution,
      (values.map fun value => ((entry S.single value.value.value, 1) : Tally)).sum.2 =
        values.length := by
    intro values
    induction values with
    | nil => rfl
    | cons value values ih =>
      rw [List.map_cons, List.sum_cons, Prod.snd_add, ih, List.length_cons]
      push_cast
      ring
  rw [own, AggregationTask.own, Prod.snd_add]
  exact congrArg (· + 1) (hlist (S.values id))

theorem carries_totalBody {aggregate : AggregationMessage}
    (h : (S.task S.root).Carries (∑ id ∈ S.members, S.own id) aggregate) :
    aggregate.body = S.totalBody := by
  have hlength : aggregate.body.length = S.length := h.length
  have hsum : ∀ k, aggregate.body.getD k 0 =
      if S.single && k ≠ 0 then 0
      else ∑ id ∈ S.members, ((S.values id).map fun value => value.value.value.getD k 0).sum := by
    intro k
    rw [h.body k, Prod.fst_sum, Finset.sum_apply, Finset.sum_congr rfl fun id _ => own_fst id k]
    split_ifs
    · exact Finset.sum_const_zero
    · rfl
  apply List.ext_getElem
  · rw [hlength, totalBody, List.length_map, List.length_range]
  · intro k hk hk'
    rw [← List.getD_eq_getElem aggregate.body 0 hk, hsum]
    simp [totalBody]

/-- At the end of a run the aggregate of the root carries the sum over the group. -/
theorem Refines.settled (h : S.Refines none g a)
    (hreach : Relation.ReflTransGen (Convergecast.Step S.tree S.own) .init a)
    (hsettled : S.Settled g) : (∀ id ∈ S.members, (S.task id).Finished (g.meters id).primary) ∧
      ∃ aggregate, g.utility = [aggregate] ∧
        (S.task S.root).Carries (∑ id ∈ S.members, S.own id) aggregate := by
  have hinv := Convergecast.inv_of_reachable hreach
  have hjoined : a.joined = S.tree.nodes := by
    apply Finset.Subset.antisymm hinv.joined_nodes
    exact fun id hid => (hasEntered_iff h hid).mp (hsettled.1 id hid)
  have hnetwork : a.network = 0 := by
    rw [← h.network, hsettled.2]
    rfl
  have hpassed := hinv.all_passed hjoined hnetwork
  have houtput := hinv.output_eq hjoined hnetwork
  refine ⟨fun id hid => h.finished id (hpassed ▸ hid), ?_⟩
  rw [← h.utility, Multiset.coe_eq_singleton] at houtput
  obtain ⟨aggregate, hutility, htally⟩ := List.map_eq_singleton_iff.mp houtput
  have hcarries := h.results aggregate (by rw [hutility]; exact List.mem_singleton_self _)
  rw [htally] at hcarries
  exact ⟨aggregate, hutility, hcarries⟩

/-- No meter sends more than once. -/
theorem Refines.once (h : S.Refines none g a) {id : ℤ} (hid : id ∈ S.members) :
    countSince Action.isCompute (g.meters id).primary.trace ≤ 1 ∧
      countSince Action.isSend (g.meters id).primary.trace ≤ 1 := by
  by_cases hpassed : id ∈ a.passed
  · have hfinished := h.finished id hpassed
    exact ⟨hfinished.computed.le, hfinished.sent.le⟩
  · have hunsent : Unsent (g.meters id).primary.trace := by
      by_cases hjoined : id ∈ a.joined
      · exact (h.collecting id hjoined hpassed (by simp)).unsent
      · exact (h.preparing id hid hjoined).unsent
    exact ⟨hunsent.1.le.trans (Nat.zero_le 1), hunsent.2.le.trans (Nat.zero_le 1)⟩

/-- However messages and entries are ordered, every meter sends one aggregate, and the
root's is the sum of all values of the group. -/
theorem group_sends_sum (h : S.Ready g) (es : List GroupEvent) :
    ∃ g', S.run es g = .done g' ∧
      (∀ id ∈ S.members, countSince Action.isCompute (g'.meters id).primary.trace ≤ 1 ∧
        countSince Action.isSend (g'.meters id).primary.trace ≤ 1) ∧
      (S.Settled g' →
        (∀ id ∈ S.members, countSince Action.isCompute (g'.meters id).primary.trace = 1 ∧
          countSince Action.isSend (g'.meters id).primary.trace = 1) ∧
        ∃ aggregate, g'.utility = [aggregate] ∧ aggregate.senderId = S.root ∧
          aggregate.body = S.totalBody) := by
  obtain ⟨g', hrun, a, hreach, hrefines⟩ := simulates_run es (refines_init h) .refl
  refine ⟨g', hrun, fun id hid => hrefines.once hid, fun hsettled => ?_⟩
  obtain ⟨hfinished, aggregate, hutility, hcarries⟩ := hrefines.settled hreach hsettled
  refine ⟨fun id hid => ⟨(hfinished id hid).computed, (hfinished id hid).sent⟩, aggregate,
    hutility, ?_, carries_totalBody hcarries⟩
  exact hcarries.senderId.trans (S.envs_meterId S.root)

instance (g : GroupState ι) : Decidable (S.Settled g) :=
  inferInstanceAs (Decidable (_ ∧ _))

/-- Meters 2, 3 and 4 of five, with a value for each of them. -/
def sampleGroup : GroupSetup CtProtocolState where
  numGroups := 2
  numMeters := 5
  group := 1
  envs id := MeterClient.sampleEnv id 5 MeterClient.five_meters 1 2 fun _ => true
  protocol := CtProtocolState.protocol
  query := ⟨.currUsageSum, 1, 0⟩
  length := 1
  values id := [.ofTuple ⟨0, [id], [0, id]⟩]
  sizes := ⟨by decide, by decide⟩
  group_nonneg := by decide
  group_lt := by decide
  envs_meterId _ := rfl
  envs_numMeters _ := rfl
  envs_numGroups _ := rfl
  length_pos := by decide
  values_length _ _ h := by rw [List.mem_singleton.mp h]; rfl

def sampleStart : GroupState CtProtocolState where
  meters id :=
    { primary :=
        { ProtocolState.init ⟨0, .echo⟩ with
          myContribution := some ⟨0, [id], [0, id]⟩
          proxyValues := sampleGroup.values id
          aggregationPhaseState := some (.make id 2 5 sampleGroup.query) }
      secondary := none }
  network := []
  utility := []

/-- The first aggregate reaches the root before it has entered the phase. -/
def sampleEvents : List GroupEvent := [.enter 3, .deliver 0, .enter 2, .enter 4, .deliver 0]

theorem sampleStart_ready : sampleGroup.Ready sampleStart where
  preparing id _ :=
    { aggregation := rfl
      contribution := ⟨_, rfl, rfl, rfl⟩
      inactive := rfl
      values := rfl
      failed := rfl
      buffered := rfl
      lengths := by simp [sampleStart, ProtocolState.init]
      unsent := ⟨rfl, rfl⟩ }
  network := rfl
  utility := rfl

theorem sample_sends_sum : ∃ g, sampleGroup.run sampleEvents sampleStart = .done g ∧
    sampleGroup.Settled g ∧ ∃ aggregate, g.utility = [aggregate] ∧ aggregate.body = [9] := by
  obtain ⟨g, hrun, -, hend⟩ := group_sends_sum sampleStart_ready sampleEvents
  have hsettled : sampleGroup.Settled (sampleGroup.run sampleEvents sampleStart).state := by
    decide +kernel
  rw [hrun] at hsettled
  obtain ⟨-, aggregate, hutility, -, hbody⟩ := hend hsettled
  exact ⟨g, hrun, hsettled, aggregate, hutility, hbody.trans (by decide +kernel)⟩

/-- The aggregate that the utility receives counts the contributions in it. -/
def CountsContributions (S : GroupSetup ι) (g : GroupState ι) : Prop :=
  ∃ aggregate, g.utility = [aggregate] ∧ aggregate.numContributors = S.totalContributions

/-- Every meter of the group is counted as a contributor on top of the contributions. -/
theorem group_counts_members (h : S.Ready g) (es : List GroupEvent) :
    ∃ g', S.run es g = .done g' ∧ (S.Settled g' →
      (∃ aggregate, g'.utility = [aggregate] ∧
        aggregate.numContributors = S.totalContributions + S.members.card) ∧
      ¬ S.CountsContributions g') := by
  obtain ⟨g', hrun, a, hreach, hrefines⟩ := simulates_run es (refines_init h) .refl
  refine ⟨g', hrun, fun hsettled => ?_⟩
  obtain ⟨-, aggregate, hutility, hcarries⟩ := hrefines.settled hreach hsettled
  have hcount : aggregate.numContributors = S.totalContributions + S.members.card := by
    have htally : aggregate.numContributors = (∑ id ∈ S.members, S.own id).2 := by
      rw [← hcarries.tally, AggregationMessage.tally]
    rw [htally, Prod.snd_sum, Finset.sum_congr rfl fun id _ => own_snd id,
      Finset.sum_add_distrib, totalContributions]
    simp
  refine ⟨⟨aggregate, hutility, hcount⟩, ?_⟩
  rintro ⟨aggregate', hutility', hcount'⟩
  obtain rfl : aggregate = aggregate' := by simpa [hutility] using hutility'
  have hpos : 0 < S.members.card := Finset.card_pos.mpr ⟨S.root, S.tree.root_mem⟩
  omega

theorem sample_counts_members : ∃ g, sampleGroup.run sampleEvents sampleStart = .done g ∧
    ∃ aggregate, g.utility = [aggregate] ∧ aggregate.numContributors = 6 := by
  obtain ⟨g, hrun, hend⟩ := group_counts_members sampleStart_ready sampleEvents
  have hsettled : sampleGroup.Settled (sampleGroup.run sampleEvents sampleStart).state := by
    decide +kernel
  rw [hrun] at hsettled
  obtain ⟨⟨aggregate, hutility, hcount⟩, -⟩ := hend hsettled
  exact ⟨g, hrun, aggregate, hutility, hcount.trans (by decide +kernel)⟩

/-- Three contributions reach the utility under a count of six. -/
theorem three_contributions_counted_as_six :
    ¬ sampleGroup.CountsContributions (sampleGroup.run sampleEvents sampleStart).state := by
  rintro ⟨aggregate, hutility, hcount⟩
  have hsix : (sampleGroup.run sampleEvents sampleStart).state.utility.map
      AggregationMessage.numContributors = [6] := by
    decide +kernel
  have htotal : sampleGroup.totalContributions = 3 := by decide +kernel
  rw [hutility, List.map_singleton, hcount, htotal] at hsix
  exact absurd hsix (by decide)

end GroupSetup
end Pddm
