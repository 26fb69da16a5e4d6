import Pddm.Flooding
import Pddm.GossipLaw
import Pddm.HftRounds
import Pddm.PathDelivery

/-!
# Delivery by flooding

Meters in lockstep flood their messages to the relays, and the relays flood what these
enclose to the proxies.
-/
namespace Pddm

namespace HftProtocolState
open ProtocolState

section Rounds
variable {n query start stop : ℤ} (run : Lockstep protocol n query start stop)

/-- What a meter sends in a round, as its target reads it. -/
def sends (r i : ℤ) : Set OverlayMessage :=
  {m | ∃ x ∈ (run.ready r i).outgoingMessages, x.opened dummyCrypto = m}

def ArrivesAt (r i : ℤ) (m : OverlayMessage) : Prop :=
  m.destination = i ∧ ∃ j, (0 ≤ j ∧ j < n) ∧ gossip n r j = i ∧ m ∈ sends run r j

/-- At the start of the round all meters are about to send what they flood. -/
structure FloodsIn (r : ℤ) : Prop where
  waiting : ∀ i, 0 ≤ i → i < n → (run.ready r i).waitingMessages = []
  outgoing : ∀ i, 0 ≤ i → i < n → ∀ m ∈ (run.ready r i).outgoingMessages, Floods query m
  current : ∀ i, 0 ≤ i → i < n → ∀ m, m ∈ (run.ready r i).impl.currentFloodMessages ↔
    m ∈ (run.ready r i).outgoingMessages ∧ gossip n r i ≠ m.destination

variable {run}

@[simp] theorem opened_opened (m : OverlayMessage) :
    (m.opened dummyCrypto).opened dummyCrypto = m.opened dummyCrypto := by
  simp only [OverlayMessage.opened_dummy]

@[simp] theorem opened_destination (m : OverlayMessage) :
    (m.opened dummyCrypto).destination = m.destination := by
  rw [OverlayMessage.opened_dummy]

@[simp] theorem opened_body (m : OverlayMessage) : (m.opened dummyCrypto).body = m.body := by
  rw [OverlayMessage.opened_dummy]

/-- All that is flooded is sent, or a dummy if there is nothing. -/
theorem FloodsIn.due {r : ℤ} (h : FloodsIn run r) {i : ℤ} (hi : 0 ≤ i) (hin : i < n) :
    dueMessages (run.env i) (run.ready r i) = (run.ready r i).outgoingMessages ∧
      keptMessages (run.env i) (run.ready r i) = [] := by
  have hflood (m : OverlayMessage) (hm : m ∈ (run.ready r i).outgoingMessages) :
      m.flood = true := (h.outgoing i hi hin m hm).flood
  constructor
  · rw [dueMessages, h.waiting i hi hin, List.filter_nil, List.nil_append, List.filter_eq_self]
    intro m hm
    simp [hflood m hm]
  · rw [keptMessages, h.waiting i hi hin, List.filter_nil, List.nil_append, List.filter_eq_nil_iff]
    intro m hm
    simp [hflood m hm]

theorem FloodsIn.inbox (h : FloodsIn run r) (hn : 2 ≤ n) (hlt : n < 2 ^ 31) (hr : start ≤ r)
    (hrs : r < stop) {j : ℤ} (hj : 0 ≤ j) (hjn : j < n) :
    (∀ m ∈ run.inbox r (gossip n r j), Known m) ∧
      ∀ m, m.body ≠ .null →
        (m ∈ run.inbox r (gossip n r j) ↔ m ∈ (run.ready r j).outgoingMessages) := by
  have hquery : ((run.ready r j).outgoingMessages.filter fun m => m.queryNum = query) =
      (run.ready r j).outgoingMessages := by
    rw [List.filter_eq_self]
    intro m hm
    simpa using (h.outgoing j hj hjn m hm).queryNum
  rw [Lockstep.inbox_gossip hn hlt hr hrs hj hjn, (h.due hj hjn).1]
  split_ifs with hnone
  · constructor
    · intro m hm
      obtain rfl := List.mem_singleton.mp (List.mem_of_mem_filter hm)
      exact ⟨rfl, by simp [OverlayMessage.make, MessageBody.asOverlayMessage]⟩
    · intro m hbody
      rw [hnone]
      constructor
      · intro hm
        obtain rfl := List.mem_singleton.mp (List.mem_of_mem_filter hm)
        exact absurd rfl hbody
      · intro hm
        cases hm
  · rw [hquery]
    exact ⟨fun m hm => (h.outgoing j hj hjn m hm).toKnown, fun m _ => Iff.rfl⟩

structure Ends (run : Lockstep protocol n query start stop) (r i : ℤ) : Prop where
  waiting : (run.closed r i).waitingMessages = []
  outgoing : (run.closed r i).outgoingMessages = []
  overlayRound : (run.closed r i).overlayRound = r
  phase : (run.closed r i).impl.protocolPhase = (run.ready r i).impl.protocolPhase
  gatherStart : (run.closed r i).impl.gatherStartRound = (run.ready r i).impl.gatherStartRound
  floods : ∀ m ∈ (run.closed r i).impl.currentFloodMessages, Floods query m
  current : ∀ m, (∃ x ∈ (run.closed r i).impl.currentFloodMessages, x.opened dummyCrypto = m) ↔
    (m ∈ sends run r i ∧ gossip n r i ≠ m.destination) ∨
      ∃ j, (0 ≤ j ∧ j < n) ∧ gossip n r j = i ∧ m ∈ sends run r j ∧ m.destination ≠ i
  relays : ∀ w, w ∈ (run.closed r i).impl.relayMessages ↔ w ∈ (run.ready r i).impl.relayMessages ∨
    (run.ready r i).impl.protocolPhase = .scatter ∧
      ∃ m, ArrivesAt run r i m ∧ m.body.asOverlayMessage = some w
  values : ∀ v, v ∈ (run.closed r i).proxyValues ↔ v ∈ (run.ready r i).proxyValues ∨
    (run.ready r i).impl.protocolPhase = .gather ∧
      ∃ m, ArrivesAt run r i m ∧ m.body.asValueContribution = some v ∧ v.value.queryNum = query

theorem closed_overlayRound (hn : 2 ≤ n) (hlt : n < 2 ^ 31) {r i : ℤ} (hr : start ≤ r)
    (hrs : r < stop) (hi : 0 ≤ i) (hin : i < n) : (run.closed r i).overlayRound = r := by
  have hany : KeptInRound steady (run.env i) query r fun _ _ => True :=
    ⟨fun _ _ _ _ _ => trivial, fun _ _ _ _ _ _ _ _ _ => trivial⟩
  obtain ⟨s, ⟨hstep, -⟩, hclosed, -⟩ := run.closing hn hlt hr hrs hi hin hany trivial
  rw [hclosed]
  exact hstep.overlayRound

theorem FloodsIn.ends {r : ℤ} (h : FloodsIn run r) (hn : 2 ≤ n) (hlt : n < 2 ^ 31) (hr : start ≤ r)
    (hrs : r < stop) {i : ℤ} (hi : 0 ≤ i) (hin : i < n) : Ends run r i := by
  obtain ⟨hj, hjn, hgossip⟩ := gossip_predecessor hn hlt r hi hin
  have hunique (j : ℤ) (hj' : 0 ≤ j ∧ j < n) (heq : gossip n r j = i) :
      j = gossipPredecessor i r n :=
    gossip_injOn (by omega) hlt hj'.1 hj'.2 hj hjn (heq.trans hgossip.symm)
  obtain ⟨hknown, hinbox⟩ := h.inbox hn hlt hr hrs hj hjn
  rw [hgossip] at hknown hinbox
  obtain ⟨hwaiting, houtgoing, hphase, hgather, hfloods, hrelays, hvalues⟩ :=
    closed_collected hn hlt hr hrs hi hin hknown
  obtain ⟨-, hkept, hempty, -, hproxies, himpl, -⟩ :=
    entered_fields (run.sendOk i) (run.ready r i)
  rw [← run.begun_eq hr hrs hi hin] at hkept hempty hproxies himpl
  rw [himpl] at hphase hgather hfloods hrelays
  rw [hproxies, himpl] at hvalues
  have hsent (m : OverlayMessage) : m ∈ sends run r (gossipPredecessor i r n) ↔
      ∃ x ∈ run.inbox r i, x.body ≠ .null ∧ x.opened dummyCrypto = m := by
    constructor
    · rintro ⟨x, hx, rfl⟩
      have hbody := (h.outgoing _ hj hjn x hx).body
      exact ⟨x, (hinbox x hbody).mpr hx, hbody, rfl⟩
    · rintro ⟨x, hx, hbody, rfl⟩
      exact ⟨x, (hinbox x hbody).mp hx, rfl⟩
  have harrives (m : OverlayMessage) : ArrivesAt run r i m ↔
      m.destination = i ∧ m ∈ sends run r (gossipPredecessor i r n) := by
    unfold ArrivesAt
    constructor
    · rintro ⟨hdestination, j, hj', heq, hm⟩
      rw [← hunique j hj' heq]
      exact ⟨hdestination, hm⟩
    · rintro ⟨hdestination, hm⟩
      exact ⟨hdestination, _, ⟨hj, hjn⟩, hgossip, hm⟩
  have hhandled (p : MessageBody → Prop) (hp : ∀ body, p body → body ≠ .null) :
      (∃ x ∈ run.inbox r i, x.destination = i ∧ p x.body) ↔
        ∃ m, ArrivesAt run r i m ∧ p m.body := by
    constructor
    · rintro ⟨x, hx, hdestination, hbody⟩
      refine ⟨x.opened dummyCrypto, (harrives _).mpr ⟨by simpa using hdestination, ?_⟩, by simpa⟩
      exact (hsent _).mpr ⟨x, hx, hp _ hbody, rfl⟩
    · rintro ⟨m, hm, hbody⟩
      obtain ⟨hdestination, hm⟩ := (harrives m).mp hm
      obtain ⟨x, hx, -, rfl⟩ := (hsent m).mp hm
      exact ⟨x, hx, by simpa using hdestination, by simpa using hbody⟩
  constructor
  case waiting => rw [hwaiting, hkept, (h.due hi hin).2]
  case outgoing => rw [houtgoing, hempty]
  case overlayRound => exact closed_overlayRound hn hlt hr hrs hi hin
  case phase => exact hphase
  case gatherStart => exact hgather
  case floods =>
    intro m hm
    rw [hfloods] at hm
    rcases List.mem_append.mp hm with hm | hm
    · exact h.outgoing i hi hin m ((h.current i hi hin m).mp hm).1
    · obtain ⟨x, hx, hm⟩ := List.mem_flatMap.mp hm
      unfold newFloods at hm
      split_ifs at hm with hnew
      · rw [List.mem_singleton.mp hm]
        exact (h.outgoing _ hj hjn x ((hinbox x hnew.1).mp hx)).opened
      · cases hm
  case current =>
    intro m
    rw [hfloods]
    constructor
    · rintro ⟨x, hx, rfl⟩
      rcases List.mem_append.mp hx with hx | hx
      · obtain ⟨hout, hne⟩ := (h.current i hi hin x).mp hx
        exact Or.inl ⟨⟨x, hout, rfl⟩, by simpa using hne⟩
      · obtain ⟨y, hy, hx⟩ := List.mem_flatMap.mp hx
        unfold newFloods at hx
        split_ifs at hx with hnew
        · obtain rfl := List.mem_singleton.mp hx
          refine Or.inr ⟨_, ⟨hj, hjn⟩, hgossip, ?_, by simpa using hnew.2⟩
          exact (hsent _).mpr ⟨y, hy, hnew.1, by simp⟩
        · cases hx
    · rintro (⟨⟨x, hx, rfl⟩, hne⟩ | ⟨j, hj', heq, hm, hne⟩)
      · refine ⟨x, List.mem_append_left _ ?_, rfl⟩
        exact (h.current i hi hin x).mpr ⟨hx, by simpa using hne⟩
      · rw [hunique j hj' heq] at hm
        obtain ⟨x, hx, hbody, rfl⟩ := (hsent m).mp hm
        refine ⟨x.opened dummyCrypto, List.mem_append_right _ ?_, by simp⟩
        refine List.mem_flatMap.mpr ⟨x, hx, ?_⟩
        have hnew : x.body ≠ .null ∧ x.destination ≠ i := ⟨hbody, by simpa using hne⟩
        simp [newFloods, hnew]
  case relays =>
    intro w
    have hnew := hhandled (fun body => body.asOverlayMessage = some w) fun body hw hnull => by
      simp [hnull, MessageBody.asOverlayMessage] at hw
    rw [hrelays, List.mem_append, List.mem_flatMap, ← hnew]
    refine or_congr_right ?_
    unfold newRelays
    by_cases hscatter : (run.ready r i).impl.protocolPhase = .scatter
    · simp only [hscatter, true_and]
      refine exists_congr fun x => and_congr_right fun _ => ?_
      split_ifs with hhere <;> simp [hhere]
    · simp [hscatter]
  case values =>
    intro v
    have hnew := hhandled
      (fun body => body.asValueContribution = some v ∧ v.value.queryNum = query)
      fun body hv hnull => by simp [hnull, MessageBody.asValueContribution] at hv
    rw [hvalues, List.mem_flatMap, ← hnew]
    refine or_congr_right ?_
    unfold newValues
    by_cases hgathers : (run.ready r i).impl.protocolPhase = .gather
    · simp only [hgathers, true_and]
      refine exists_congr fun x => and_congr_right fun _ => ?_
      split_ifs with hhere <;> simp [hhere]
    · simp [hgathers]

structure Floodable (query r : ℤ) (s : State) : Prop where
  waiting : s.waitingMessages = []
  outgoing : s.outgoingMessages = []
  overlayRound : s.overlayRound + 1 = r
  phase : isInOverlayPhase s.impl = true
  floods : ∀ m ∈ s.impl.currentFloodMessages, Floods query m

theorem Floodable.flood_eq {query r : ℤ} {s : State} (h : Floodable query r s) (env : ProtocolEnv) :
    flood env s = { s with
      outgoingMessages := env.π.order s.impl.currentFloodMessages
      impl := { s.impl with
        currentFloodMessages := s.impl.currentFloodMessages.filter fun m =>
          gossipTarget env.meterId r env.numMeters ≠ m.destination } } := by
  unfold flood
  rw [if_pos h.phase, h.outgoing, h.overlayRound]
  rfl

theorem floodsIn_of_flood {r : ℤ} {before : ℤ → State}
    (hbefore : ∀ i, 0 ≤ i → i < n → Floodable query r (before i))
    (hready : ∀ i, 0 ≤ i → i < n → run.ready r i = flood (run.env i) (before i)) :
    FloodsIn run r := by
  constructor
  case waiting =>
    intro i hi hin
    rw [hready i hi hin, (hbefore i hi hin).flood_eq]
    exact (hbefore i hi hin).waiting
  case outgoing =>
    intro i hi hin m hm
    rw [hready i hi hin, (hbefore i hi hin).flood_eq] at hm
    exact (hbefore i hi hin).floods m ((run.env i).π.mem_order.mp hm)
  case current =>
    intro i hi hin m
    rw [hready i hi hin, (hbefore i hi hin).flood_eq]
    simp only [List.mem_filter, decide_eq_true_eq, IterationOrder.mem_order, run.meterId,
      run.numMeters, gossip]

/-- What is sent in a round is what was held at the end of the one before. -/
theorem mem_sends_of_flood {r i : ℤ} {s : State} (h : Floodable query r s)
    (hready : run.ready r i = flood (run.env i) s) (m : OverlayMessage) :
    m ∈ sends run r i ↔ ∃ x ∈ s.impl.currentFloodMessages, x.opened dummyCrypto = m := by
  unfold sends
  rw [hready, h.flood_eq]
  simp only [Set.mem_ofPred_eq, IterationOrder.mem_order]

theorem ready_next (hends : ∀ i, 0 ≤ i → i < n → Ends run r i) (hr : start ≤ r)
    (hrs : r + 1 < stop)
    (hphase : ∀ i, 0 ≤ i → i < n → endPhase (run.env i) (run.closed r i) = .done (run.closed r i))
    {i : ℤ} (hi : 0 ≤ i) (hin : i < n)
    (hoverlay : isInOverlayPhase (run.ready r i).impl = true) :
    Floodable query (r + 1) (run.closed r i) ∧
      run.ready (r + 1) i = flood (run.env i) (run.closed r i) := by
  have h := hends i hi hin
  constructor
  · refine ⟨h.waiting, h.outgoing, by rw [h.overlayRound], ?_, h.floods⟩
    unfold isInOverlayPhase at hoverlay ⊢
    rw [h.phase]
    exact hoverlay
  · have hnext := run.ends r i hr hrs hi hin
    change endOverlayRoundImpl (run.env i) (run.closed r i) = _ at hnext
    rw [endOverlayRoundImpl, hphase i hi hin] at hnext
    exact (Outcome.done.inj hnext).symm

end Rounds

section Phases
variable {n query g stop : ℤ} {run : Lockstep protocol n query 0 stop}

/-- How far apart the end of Scatter and that of Gather are from their beginnings. -/
def PhaseLength (run : Lockstep protocol n query 0 stop) (g : ℤ) : Prop :=
  ∀ i, (run.env i).log2n + (run.env i).failuresTolerated = g

/-- Something arrives at the meter in a round from `first` on and before `r`. -/
def Arrived (run : Lockstep protocol n query 0 stop) (first r i : ℤ) (p : OverlayMessage → Prop) :
    Prop :=
  ∃ r', first ≤ r' ∧ r' < r ∧ ∃ m, ArrivesAt run r' i m ∧ p m

theorem arrived_self {r i : ℤ} {p : OverlayMessage → Prop} : ¬ Arrived run r r i p := by
  rintro ⟨r', hfirst, hlast, -⟩
  omega

theorem arrived_next {first r i : ℤ} {p : OverlayMessage → Prop} (hr : first ≤ r) :
    Arrived run first (r + 1) i p ↔ Arrived run first r i p ∨ ∃ m, ArrivesAt run r i m ∧ p m := by
  constructor
  · rintro ⟨r', hfirst, hlast, harrives⟩
    by_cases heq : r' = r
    · exact Or.inr (heq ▸ harrives)
    · exact Or.inl ⟨r', hfirst, by omega, harrives⟩
  · rintro (⟨r', hfirst, hlast, harrives⟩ | harrives)
    · exact ⟨r', hfirst, by omega, harrives⟩
    · exact ⟨r, hr, by omega, harrives⟩

theorem flood_of_ends {first last : ℤ} (hn : 2 ≤ n) (hlt : n < 2 ^ 31)
    (hends : ∀ r i, first ≤ r → r + 1 < last → 0 ≤ i → i < n → Ends run r i ∧
      Floodable query (r + 1) (run.closed r i) ∧
        run.ready (r + 1) i = flood (run.env i) (run.closed r i)) :
    Flood (gossip n) OverlayMessage.destination {i | 0 ≤ i ∧ i < n} first last (sends run) where
  target_mem r v hv := gossip_mem (by omega) hlt hv.1 hv.2
  sends_next r v m hr hrs hv := by
    obtain ⟨h, hfloodable, hready⟩ := hends r v hr hrs hv.1 hv.2
    rw [mem_sends_of_flood hfloodable hready, h.current]
    rfl

structure ScatterIn (run : Lockstep protocol n query 0 stop) (r : ℤ) : Prop where
  floodsIn : FloodsIn run r
  phase : ∀ i, 0 ≤ i → i < n → (run.ready r i).impl.protocolPhase = .scatter
  values : ∀ i, 0 ≤ i → i < n → (run.ready r i).proxyValues = []
  relays : ∀ i, 0 ≤ i → i < n → ∀ w, w ∈ (run.ready r i).impl.relayMessages ↔
    Arrived run 0 r i fun m => m.body.asOverlayMessage = some w

theorem ScatterIn.next (hg : PhaseLength run g) (hn : 2 ≤ n) (hlt : n < 2 ^ 31) {r : ℤ}
    (h : ScatterIn run r) (hr : 0 ≤ r) (hrg : r < g) (hrs : r + 1 < stop) :
    ScatterIn run (r + 1) ∧ ∀ i, 0 ≤ i → i < n → Ends run r i ∧
      Floodable query (r + 1) (run.closed r i) ∧
        run.ready (r + 1) i = flood (run.env i) (run.closed r i) := by
  have hends (i : ℤ) (hi : 0 ≤ i) (hin : i < n) : Ends run r i :=
    h.floodsIn.ends hn hlt hr (by omega) hi hin
  have hphase (i : ℤ) (hi : 0 ≤ i) (hin : i < n) :
      (run.closed r i).impl.protocolPhase = .scatter :=
    (hends i hi hin).phase.trans (h.phase i hi hin)
  have hstays (i : ℤ) (hi : 0 ≤ i) (hin : i < n) :
      endPhase (run.env i) (run.closed r i) = .done (run.closed r i) := by
    unfold endPhase
    rw [hphase i hi hin, (hends i hi hin).overlayRound, hg i, if_neg (by omega),
      if_neg (by simp)]
  have hnext (i : ℤ) (hi : 0 ≤ i) (hin : i < n) :=
    ready_next hends hr hrs hstays hi hin (by simp [isInOverlayPhase, h.phase i hi hin])
  refine ⟨⟨?_, ?_, ?_, ?_⟩, fun i hi hin => ⟨hends i hi hin, hnext i hi hin⟩⟩
  · exact floodsIn_of_flood (fun i hi hin => (hnext i hi hin).1) fun i hi hin => (hnext i hi hin).2
  · intro i hi hin
    rw [(hnext i hi hin).2, (hnext i hi hin).1.flood_eq]
    exact hphase i hi hin
  · intro i hi hin
    rw [(hnext i hi hin).2, (hnext i hi hin).1.flood_eq]
    have hnone : (run.closed r i).proxyValues = [] := by
      rw [List.eq_nil_iff_forall_not_mem]
      intro v
      rw [(hends i hi hin).values, h.values i hi hin, h.phase i hi hin]
      simp
    exact hnone
  · intro i hi hin w
    rw [(hnext i hi hin).2, (hnext i hi hin).1.flood_eq]
    refine ((hends i hi hin).relays w).trans ?_
    rw [h.relays i hi hin, h.phase i hi hin, arrived_next hr]
    simp

structure GatherIn (run : Lockstep protocol n query 0 stop) (g r : ℤ) : Prop where
  floodsIn : FloodsIn run r
  phase : ∀ i, 0 ≤ i → i < n → (run.ready r i).impl.protocolPhase = .gather
  gatherStart : ∀ i, 0 ≤ i → i < n → (run.ready r i).impl.gatherStartRound = g
  values : ∀ i, 0 ≤ i → i < n → ∀ v, v ∈ (run.ready r i).proxyValues ↔
    Arrived run (g + 1) r i fun m =>
      m.body.asValueContribution = some v ∧ v.value.queryNum = query

theorem GatherIn.next (hg : PhaseLength run g) (hn : 2 ≤ n) (hlt : n < 2 ^ 31) {r : ℤ}
    (h : GatherIn run g r) (hstart : 0 ≤ g) (hr : g + 1 ≤ r) (hrg : r < g + g)
    (hrs : r + 1 < stop) :
    GatherIn run g (r + 1) ∧ ∀ i, 0 ≤ i → i < n → Ends run r i ∧
      Floodable query (r + 1) (run.closed r i) ∧
        run.ready (r + 1) i = flood (run.env i) (run.closed r i) := by
  have hends (i : ℤ) (hi : 0 ≤ i) (hin : i < n) : Ends run r i :=
    h.floodsIn.ends hn hlt (by omega) (by omega) hi hin
  have hphase (i : ℤ) (hi : 0 ≤ i) (hin : i < n) :
      (run.closed r i).impl.protocolPhase = .gather :=
    (hends i hi hin).phase.trans (h.phase i hi hin)
  have hstays (i : ℤ) (hi : 0 ≤ i) (hin : i < n) :
      endPhase (run.env i) (run.closed r i) = .done (run.closed r i) := by
    have hlength := hg i
    unfold endPhase
    rw [hphase i hi hin, (hends i hi hin).overlayRound, (hends i hi hin).gatherStart,
      h.gatherStart i hi hin, if_neg (by simp), if_neg (by omega)]
  have hnext (i : ℤ) (hi : 0 ≤ i) (hin : i < n) :=
    ready_next hends (by omega) hrs hstays hi hin (by simp [isInOverlayPhase, h.phase i hi hin])
  refine ⟨⟨?_, ?_, ?_, ?_⟩, fun i hi hin => ⟨hends i hi hin, hnext i hi hin⟩⟩
  · exact floodsIn_of_flood (fun i hi hin => (hnext i hi hin).1) fun i hi hin => (hnext i hi hin).2
  · intro i hi hin
    rw [(hnext i hi hin).2, (hnext i hi hin).1.flood_eq]
    exact hphase i hi hin
  · intro i hi hin
    rw [(hnext i hi hin).2, (hnext i hi hin).1.flood_eq]
    exact (hends i hi hin).gatherStart.trans (h.gatherStart i hi hin)
  · intro i hi hin v
    rw [(hnext i hi hin).2, (hnext i hi hin).1.flood_eq]
    refine ((hends i hi hin).values v).trans ?_
    rw [h.values i hi hin, h.phase i hi hin, arrived_next hr]
    simp

/-- Over as many rounds as there are bits in the number of meters, exactly those messages arrive
that were sent in the first of these rounds. -/
theorem arrived_iff {first : ℤ} {rounds : ℕ} (hn : 0 < n) (hodd : Odd n) (hfirst : 0 ≤ first)
    (hrounds : n < 2 ^ rounds) (hdoubling : Doubling (fun r v => gossip n r v) n first rounds)
    (hflood : Flood (gossip n) OverlayMessage.destination {i | 0 ≤ i ∧ i < n} first (first + rounds)
      (sends run)) {i : ℤ} (hi : 0 ≤ i) (hin : i < n) (p : OverlayMessage → Prop) :
    Arrived run first (first + rounds) i p ↔
      ∃ j, (0 ≤ j ∧ j < n) ∧ ∃ m ∈ sends run first j, m.destination = i ∧ p m := by
  constructor
  · rintro ⟨r, hr, hrs, m, ⟨hdestination, j, hj, -, hm⟩, hp⟩
    obtain ⟨k, hk⟩ : ∃ k : ℕ, r = first + k := ⟨(r - first).toNat, by omega⟩
    subst hk
    obtain ⟨origin, horigin, hsent⟩ := hflood.origin k hrs hj hm
    exact ⟨origin, horigin, m, hsent, hdestination, hp⟩
  · rintro ⟨j, hj, m, hm, hdestination, hp⟩
    obtain ⟨k, hk, v, hv, hlast⟩ :=
      exists_reached hn hodd hfirst hrounds hdoubling hj.1 hj.2 hi hin
    obtain ⟨r, hr, hrs, u, hu, hsent, htarget⟩ :=
      hflood.arrives hj hm (by omega) hv (hlast.trans hdestination.symm)
    exact ⟨r, hr, hrs, m, ⟨hdestination, u, hu, htarget.trans hdestination, hsent⟩, hp⟩

end Phases

end HftProtocolState
end Pddm
