import Pddm.SimNetwork

/-!
# Runs of the simulated network

The network's record of its meters agrees with what has been told of them, in every run in which
any clients send and receive.
-/
namespace Pddm.Simulation.NetworkRun
open NetworkEntry (underway receipt FailedAt Reaches Fair)
variable {κ μ β : Type}

section Records
variable {s t : NetworkRun κ μ β} {log : List (NetworkEntry κ μ)} {entry : NetworkEntry κ μ}

theorem failedAt_concat_none {id : ℤ} (h : NetworkEntry.failure id entry = none) :
    FailedAt (log ++ [entry]) id ↔ FailedAt log id := by
  simp [FailedAt, h]

theorem failedAt_concat_some {id : ℤ} {b : Bool}
    (h : NetworkEntry.failure id entry = some b) : FailedAt (log ++ [entry]) id ↔ b = true := by
  simp [FailedAt, h]

theorem reaches_concat {id : ℤ} {client : κ} (h : ∀ clients, entry ≠ .finished clients) :
    Reaches (log ++ [entry]) id client ↔ Reaches log id client := by
  have hnot : ∀ clients, ¬ .finished clients = entry := fun clients heq => h clients heq.symm
  simp [Reaches, hnot]

theorem Recorded.frame (h : s.Recorded) (hlog : t.log = s.log) (hnetwork : t.network = s.network) :
    t.Recorded where
  failed := by rw [hlog, hnetwork]; exact h.failed
  setup := by rw [hlog, hnetwork]; exact h.setup
  clients := by rw [hlog, hnetwork]; exact h.clients
  fair := by rw [hlog]; exact h.fair

theorem Recorded.note (h : s.Recorded) (hfailure : ∀ id, NetworkEntry.failure id entry = none)
    (hfinished : ∀ clients, entry ≠ .finished clients) (hfair : Fair s.log entry) :
    (s.note entry).Recorded where
  failed := fun id => (failedAt_concat_none (hfailure id)).trans (h.failed id)
  setup := fun id client hmem => List.mem_append_left _ (h.setup id client hmem)
  clients := fun id client => (reaches_concat hfinished).trans (h.clients id client)
  fair := everyEntry_concat.mpr ⟨h.fair, hfair⟩

section Vectors
variable {failed failed' : List Bool} {id : ℤ} {b : Bool}

theorem readAt_cases (h : readAt failed id = .ok b) :
    (0 ≤ id ∧ failed[id.toNat]? = some true) ↔ b = true := by
  obtain ⟨hid, hread⟩ := readAt_eq_ok.mp h
  simp [hid, hread]

theorem writeAt_cases (h : writeAt failed id b = .ok failed') (id' : ℤ) :
    (0 ≤ id' ∧ failed'[id'.toNat]? = some true) ↔
      if id = id' then b = true else 0 ≤ id' ∧ failed[id'.toNat]? = some true := by
  unfold writeAt at h
  split_ifs at h with hid
  · obtain rfl := Except.ok.inj h
    split_ifs with heq
    · subst heq
      have hlt : id.toNat < failed.length := by omega
      simp [hid.1, hlt]
    · refine and_congr_right fun hid' => ?_
      rw [List.getElem?_set_ne (by omega)]

theorem resized_cases (n : ℕ) (i : ℕ) :
    (failed ++ List.replicate n false)[i]? = some true ↔ failed[i]? = some true := by
  rw [List.getElem?_append]
  split_ifs with hlt
  · rfl
  · simp [List.getElem?_replicate, List.getElem?_eq_none (not_lt.mp hlt)]

end Vectors

theorem Recorded.mark (h : s.Recorded) {failed' : List Bool} {id : ℤ} {b : Bool}
    (hfailed : ∀ id', (0 ≤ id' ∧ failed'[id'.toNat]? = some true) ↔
      if id = id' then b = true else 0 ≤ id' ∧ s.network.failed[id'.toNat]? = some true)
    (hentry : ∀ id', NetworkEntry.failure id' entry = if id = id' then some b else none) (id' : ℤ) :
    FailedAt (s.log ++ [entry]) id' ↔ 0 ≤ id' ∧ failed'[id'.toNat]? = some true := by
  rw [hfailed]
  by_cases heq : id = id'
  · rw [if_pos heq]
    exact failedAt_concat_some ((hentry id').trans (if_pos heq))
  · rw [if_neg heq]
    exact (failedAt_concat_none ((hentry id').trans (if_neg heq))).trans (h.failed id')

theorem Recorded.connectMeter (h : s.Recorded) (client : κ) (id : ℤ) :
    (s.connectMeter client id).Holds Recorded := by
  unfold NetworkRun.connectMeter
  dsimp only
  split
  · exact h
  · rename_i failed hwrite
    constructor
    · refine h.mark (b := false) (fun id' => ?_) fun id' => rfl
      exact (writeAt_cases hwrite id').trans (by simp only [resized_cases])
    · intro id' client' hmem
      rcases OrderedMap.mem_insertNew.mp hmem with hmem | ⟨heq, -⟩
      · exact List.mem_append_left _ (h.setup id' client' hmem)
      · obtain ⟨rfl, rfl⟩ := Prod.mk.inj heq
        exact List.mem_append_right _ (by simp)
    · exact fun id' client' => (reaches_concat (by simp)).trans (h.clients id' client')
    · exact everyEntry_concat.mpr ⟨h.fair, trivial⟩

theorem Recorded.markFailed (h : s.Recorded) (id : ℤ) : (s.markFailed id).Holds Recorded := by
  unfold NetworkRun.markFailed
  split
  · exact h
  · rename_i failed hwrite
    exact
      { failed := h.mark (writeAt_cases hwrite) fun id' => rfl
        setup := fun id' client hmem => List.mem_append_left _ (h.setup id' client hmem)
        clients := fun id' client => (reaches_concat (by simp)).trans (h.clients id' client)
        fair := everyEntry_concat.mpr ⟨h.fair, trivial⟩ }

theorem Recorded.resetFailures (h : s.Recorded) : s.resetFailures.Recorded where
  failed := by
    intro id
    refine (failedAt_concat_some rfl).trans ?_
    simp [NetworkRun.resetFailures, List.getElem?_replicate]
  setup := fun id client hmem => List.mem_append_left _ (h.setup id client hmem)
  clients := fun id client => (reaches_concat (by simp)).trans (h.clients id client)
  fair := everyEntry_concat.mpr ⟨h.fair, trivial⟩

theorem getElem?_of_mapM {α γ : Type} {f : α → Option γ} {xs : List α} {ys : List γ} {i : ℕ} {y : γ}
    (h : xs.mapM f = some ys) (hy : ys[i]? = some y) : ∃ x, xs[i]? = some x ∧ f x = some y := by
  induction xs generalizing ys i with
  | nil =>
    obtain rfl : [] = ys := by simpa using h
    simp at hy
  | cons x xs ih =>
    simp only [List.mapM_cons, Option.bind_eq_bind, Option.bind_eq_some_iff, Option.pure_def,
      Option.some.injEq] at h
    obtain ⟨first, hfirst, rest, hrest, rfl⟩ := h
    cases i with
    | zero =>
      obtain rfl : first = y := by simpa using hy
      exact ⟨x, rfl, hfirst⟩
    | succ i => exact ih hrest (by simpa using hy)

theorem mem_setup_of_setupClients {n : Network κ} {lastId : ℤ} {clients : List κ} {i : ℕ}
    {client : κ} (h : n.setupClients lastId = some clients) (hi : clients[i]? = some client) :
    ((i : ℤ), client) ∈ n.meterClientsSetup := by
  unfold Network.setupClients at h
  obtain ⟨id, hid, hclient⟩ := getElem?_of_mapM h hi
  obtain ⟨hlt, rfl⟩ := List.getElem?_eq_some_iff.mp hid
  obtain ⟨entry, hentry, rfl⟩ := Option.map_eq_some_iff.mp hclient
  have hkey := List.find?_some hentry
  simp only [List.getElem_range, decide_eq_true_eq] at hkey
  rw [← hkey]
  exact List.mem_of_find?_eq_some hentry

theorem Recorded.finishSetup (h : s.Recorded) : s.finishSetup.Holds Recorded := by
  unfold NetworkRun.finishSetup
  split_ifs with hclients
  · exact h
  · split
    · exact h
    · split
      · exact h
      · rename_i clients hsetup
        have hfresh : s.network.meterClients = [] := not_not.mp hclients
        constructor
        · exact fun id => (failedAt_concat_none rfl).trans (h.failed id)
        · intro id client hmem
          cases hmem
        · intro id client
          have hnone : ¬ Reaches s.log id client := by simp [h.clients, hfresh]
          constructor
          · rintro ⟨clients', hmem, hid, hclient⟩
            rcases List.mem_append.mp hmem with hmem | hmem
            · exact absurd ⟨clients', hmem, hid, hclient⟩ hnone
            · obtain rfl := NetworkEntry.finished.inj (List.mem_singleton.mp hmem)
              exact ⟨hid, hclient⟩
          · rintro ⟨hid, hclient⟩
            exact ⟨clients, by simp, hid, hclient⟩
        · exact everyEntry_concat.mpr ⟨h.fair, fun id client hclient =>
            h.setup id client (mem_setup_of_setupClients hsetup hclient)⟩

section Sends
variable {messages : List (TypeMessagePair μ)} {senderId recipientId : ℤ}

theorem Recorded.isFailed (h : s.Recorded) {senderFailed : Bool}
    (hsender : s.network.isFailed senderId = .ok senderFailed) :
    FailedAt s.log senderId ↔ senderFailed = true := by
  rw [h.failed]
  unfold Network.isFailed at hsender
  split_ifs at hsender with hid
  · exact readAt_cases hsender
  · obtain rfl := Except.ok.inj hsender
    simp only [Bool.false_eq_true, iff_false, not_and]
    omega

theorem Recorded.post (h : s.Recorded) (latency : ℕ → ℕ) (messages : List (TypeMessagePair μ))
    (hsender : ¬ FailedAt s.log senderId) (hto : recipientId = utilityNodeId ∨
      (∃ client, Reaches s.log recipientId client) ∧ ¬ FailedAt s.log recipientId) :
    (s.post latency messages senderId recipientId).Holds Recorded := by
  unfold NetworkRun.post
  dsimp only
  split
  · exact h
  · refine Recorded.note (h.frame rfl rfl) (fun _ => rfl) (by simp)
      ⟨by simp, by simp [hsender, hto], ?_⟩
    rcases hto with hto | ⟨hclient, hlive⟩
    · simp [hto]
    · simp [hclient, hlive]

theorem Recorded.refused (h : s.Recorded) (hsender : ¬ FailedAt s.log senderId)
    (hne : recipientId ≠ utilityNodeId)
    (hto : (∃ client, Reaches s.log recipientId client) → FailedAt s.log recipientId) :
    Recorded
      (s.note (.sent s.manager.simulationTime messages senderId recipientId false none)) := by
  refine h.note (fun _ => rfl) (by simp) ⟨by simp, ?_, by simpa [hsender, hne] using hto⟩
  simp only [Option.isSome_none, Bool.false_eq_true, hsender, hne, false_or, false_iff, not_and,
    not_not, not_false_eq_true, true_and]
  exact hto

theorem Recorded.refuse (h : s.Recorded) (latency : ℕ → ℕ) (hsender : ¬ FailedAt s.log senderId)
    (hne : recipientId ≠ utilityNodeId) (hto : FailedAt s.log recipientId) :
    (s.refuse latency messages senderId recipientId).Holds Recorded := by
  unfold NetworkRun.refuse
  dsimp only
  split_ifs
  · split
    · exact h
    · rename_i client _
      have hdelayed : Recorded ({ s with drawn := s.drawn + 2 }.note
          (.delayed client ((latency s.drawn + latency (s.drawn + 1)) * 1000))) :=
        Recorded.note (h.frame rfl rfl) (fun _ => rfl) (by simp) trivial
      refine hdelayed.refused ?_ hne fun _ => ?_
      · exact mt (failedAt_concat_none rfl).mp hsender
      · exact (failedAt_concat_none rfl).mpr hto
  · exact h.refused hsender hne fun _ => hto

theorem Recorded.send (h : s.Recorded) (latency : ℕ → ℕ) (messages : List (TypeMessagePair μ))
    (senderId recipientId : ℤ) : (s.send latency messages senderId recipientId).Holds Recorded := by
  unfold NetworkRun.send
  split
  · exact h
  · rename_i hsender
    have hlost : FailedAt s.log senderId := (h.isFailed hsender).mpr rfl
    exact h.note (fun _ => rfl) (by simp) ⟨by simp, by simp [hlost], by simp [hlost]⟩
  · rename_i hsender
    have hlive : ¬ FailedAt s.log senderId := by simp [h.isFailed hsender]
    split_ifs with hutility hlt
    · exact h.post latency messages hlive (.inl hutility)
    · split
      · exact h
      · rename_i hread
        exact h.refuse latency hlive hutility ((h.failed _).mpr ((readAt_cases hread).mpr rfl))
      · rename_i hread
        refine h.post latency messages hlive (.inr ⟨?_, ?_⟩)
        · have hid : 0 ≤ recipientId := (readAt_eq_ok.mp hread).1
          have hlt' : recipientId.toNat < s.network.meterClients.length := by omega
          exact ⟨_, (h.clients _ _).mpr ⟨hid, List.getElem?_eq_getElem hlt'⟩⟩
        · rw [h.failed, readAt_cases hread]
          simp
    · refine h.refused hlive hutility fun hclient => ?_
      obtain ⟨client, hclient⟩ := hclient
      obtain ⟨hid, hclient⟩ := (h.clients _ _).mp hclient
      obtain ⟨hlt', -⟩ := List.getElem?_eq_some_iff.mp hclient
      omega

end Sends

theorem Recorded.perform (h : s.Recorded) (latency : ℕ → ℕ) (command : NetworkCommand κ μ β) :
    (s.perform latency command).Holds Recorded := by
  cases command with
  | connectMeter client id => exact h.connectMeter client id
  | connectUtility =>
    exact { failed := h.failed, setup := h.setup, clients := h.clients, fair := h.fair }
  | finishSetup => exact h.finishSetup
  | send messages senderId recipientId => exact h.send latency messages senderId recipientId
  | markFailed id => exact h.markFailed id
  | resetFailures => exact h.resetFailures
  | submit action delay isTimeout =>
    unfold NetworkRun.perform
    dsimp only
    split
    · exact h
    · exact h.frame rfl rfl
  | cancel id =>
    unfold NetworkRun.perform
    dsimp only
    split_ifs
    · exact h.frame rfl rfl
    · exact h

theorem Recorded.performs (h : s.Recorded) (latency : ℕ → ℕ)
    (commands : List (NetworkCommand κ μ β)) :
    (Outcome.forEach commands (NetworkRun.perform latency) s).Holds Recorded :=
  Outcome.forEach_ends h fun command _ _ ht => ht.perform latency command

theorem Recorded.receive (h : s.Recorded) (env : NetworkSurroundings κ μ β) (recipientId : ℤ)
    (message : TypeMessagePair μ) : (s.receive env recipientId message).Holds Recorded := by
  unfold NetworkRun.receive
  cases hreceiver : s.network.receiver recipientId with
  | error fault => exact h
  | ok receiver =>
    dsimp only
    refine Recorded.performs (h.note (fun _ => rfl) (by simp) ?_) env.latency _
    unfold Network.receiver at hreceiver
    split_ifs at hreceiver with hid hutility
    · obtain rfl := Except.ok.inj hreceiver
      exact hid
    · cases hread : readAt s.network.meterClients recipientId with
      | error fault => simp [hread, Except.map] at hreceiver
      | ok client =>
        simp only [hread, Except.map, Except.ok.injEq] at hreceiver
        obtain rfl := hreceiver
        exact (h.clients _ _).mpr (readAt_eq_ok.mp hread)

theorem Recorded.pass (h : s.Recorded) (π : IterationOrder) (env : NetworkSurroundings κ μ β) :
    (s.pass π env).Holds Recorded := by
  unfold NetworkRun.pass
  split
  · exact h
  · exact h.frame rfl rfl
  · rename_i event m _
    have hframe : Recorded { s with manager := m } := h.frame rfl rfl
    unfold NetworkRun.act
    split_ifs
    · exact hframe
    · split
      · exact Outcome.forEach_ends hframe fun message _ _ ht => ht.receive env _ message
      · exact hframe.performs env.latency _

end Records

section Runs
variable {s : NetworkRun κ μ β} {m : EventManager (NetworkAction μ β)}

def Settled (s : NetworkRun κ μ β) : Prop := ∃ delivered, s.Carries delivered [] []

def Stopped (s : NetworkRun κ μ β) : Prop :=
  ∃ delivered inHand taken, s.Carries delivered inHand taken ∧ inHand.length ≤ 1 ∧
    taken <+: inHand.flatMap Batch.receipts

theorem Settled.stopped (h : s.Settled) : s.Stopped := by
  obtain ⟨delivered, h⟩ := h
  exact ⟨delivered, [], [], h, by simp, by simp⟩

theorem Settled.punctual (h : s.Settled) : s.manager.Punctual := by
  obtain ⟨delivered, h⟩ := h
  exact h.punctual

theorem Settled.performs (h : s.Settled) (latency : ℕ → ℕ)
    (commands : List (NetworkCommand κ μ β)) :
    (Outcome.forEach commands (NetworkRun.perform latency) s).Ends Settled Stopped := by
  obtain ⟨delivered, h⟩ := h
  exact (h.performs latency commands).mono (fun t ht => ⟨delivered, ht⟩)
    fun t ht => Settled.stopped ⟨delivered, ht⟩

theorem Carries.act {delivered : List (Batch μ)} {e : Event (NetworkAction μ β)}
    (h : s.Carries delivered (flight e).toList [])
    (env : NetworkSurroundings κ μ β) : (s.act env e).Ends Settled Stopped := by
  unfold NetworkRun.act
  split_ifs with hcancelled
  · rw [flight_of_cancelled hcancelled] at h
    exact ⟨delivered, h⟩
  · cases haction : e.action with
    | other action =>
      rw [flight_of_other (by simp [haction, NetworkAction.isOther])] at h
      exact Settled.performs ⟨delivered, h⟩ env.latency _
    | deliver recipientId messages =>
      have hflight : flight e = some ⟨e.fireTime, recipientId, messages⟩ := by
        simp [flight, hcancelled, haction]
      rw [hflight] at h
      refine (h.receives env messages).mono (fun t ht => ⟨_, ht.finish⟩) fun t ht => ?_
      obtain ⟨first, hprefix, ht⟩ := ht
      exact ⟨delivered, _, _, ht, by simp, by simpa [Batch.receipts] using hprefix.map _⟩

theorem Settled.pass (h : s.Settled) (π : IterationOrder) (env : NetworkSurroundings κ μ β) :
    (s.pass π env).Ends Settled Stopped := by
  unfold NetworkRun.pass
  obtain ⟨delivered, h⟩ := h
  rcases EventManager.turn_cases h.punctual π with ⟨m, hturn, hends⟩ | ⟨e, m, hturn, hfires⟩
  · rw [hturn]
    obtain ⟨hnone, hnone'⟩ := inFlight_ends hends
    refine ⟨delivered, h.requeue (by rw [hnone, hnone']) hends.time fun e he => ?_⟩
    rw [hends.nothing] at he
    cases he
  · rw [hturn]
    exact (h.fires hfires).act env

theorem settled_start (hm : m.pending = []) : (start m : NetworkRun κ μ β).Settled := by
  refine ⟨[], ?_⟩
  constructor <;> simp [start, inFlight, EventManager.Punctual, hm]

theorem recorded_start : (start m : NetworkRun κ μ β).Recorded where
  failed := by simp [start, Network.initial, FailedAt]
  setup := by
    intro id client hmem
    cases hmem
  clients := by simp [start, Network.initial, Reaches]
  fair := everyEntry_nil

theorem simulate_recorded (initial : List (NetworkCommand κ μ β)) (π : ℕ → IterationOrder)
    (env : NetworkSurroundings κ μ β) (passes : ℕ) :
    (simulate m initial π env passes).Holds Recorded :=
  (recorded_start.performs env.latency initial).andThen fun _ hs =>
    Outcome.forEach_ends hs fun i _ _ ht => ht.pass (π i) env

/-- The simulation ends when nothing is on its way. -/
def EndsQuiet (s : NetworkRun κ μ β) : Prop :=
  ∀ π m, s.manager.turn π = .ok (none, m) → inFlight s.manager = []

theorem Settled.endsQuiet (h : s.Settled) : s.EndsQuiet := by
  intro π m hturn
  rcases EventManager.turn_cases h.punctual π with ⟨m', hturn', hends⟩ | ⟨e, m', hturn', -⟩
  · exact (inFlight_ends hends).1
  · rw [hturn] at hturn'
    cases hturn'

/-- Whatever clients do when a message reaches them, the network delivers all that it has taken
on, once, at its time and to the client of the recipient's ID. It takes on what is sent to the
utility or a meter that has not failed, unless the sender has. -/
theorem simulate_network (hm : m.pending = []) (initial : List (NetworkCommand κ μ β))
    (π : ℕ → IterationOrder) (env : NetworkSurroundings κ μ β) (passes : ℕ) :
    (simulate m initial π env passes).Ends
      (fun s => s.Settled ∧ s.EndsQuiet ∧ EveryEntry Fair s.log)
      fun s => s.Stopped ∧ EveryEntry Fair s.log := by
  have hsettled : (simulate m initial π env passes).Ends Settled Stopped :=
    ((settled_start hm).performs env.latency initial).andThen fun _ hs =>
      Outcome.forEach_ends hs fun i _ _ ht => ht.pass (π i) env
  have hrecorded : (simulate m initial π env passes).Holds Recorded :=
    simulate_recorded initial π env passes
  refine (hsettled.and hrecorded).mono (fun s hs => ?_) fun s hs => ?_
  · exact ⟨hs.1, hs.1.endsQuiet, hs.2.fair⟩
  · exact ⟨hs.1, hs.2.fair⟩

/-- The second of two meters fails while messages are on their way to it. They arrive, its answers
are lost, and what is sent to it later is refused. -/
def failingMeter : NetworkSurroundings Bool ℕ Unit where
  latency := fun _ => 5
  handler := fun _ receiver message =>
    if receiver = .meter true then
      [.send [(.ping, message.2 + 1)] 1 0, .send [(.ping, message.2 + 2)] 0 1] else []
  events := fun _ _ => [.markFailed 1]

def failingSetup : List (NetworkCommand Bool ℕ Unit) :=
  [.connectMeter true 1, .connectMeter false 0, .connectUtility, .finishSetup,
    .send [(.overlay, 7), (.ping, 8)] 0 1, .submit () 3 false, .send [(.aggregation, 9)] 0 (-1)]

theorem simulate_network_failing : (simulate .empty failingSetup (fun _ => .insertion)
    failingMeter 4).Ends (fun s => s.Settled ∧ s.EndsQuiet ∧ EveryEntry Fair s.log)
      fun s => s.Stopped ∧ EveryEntry Fair s.log :=
  simulate_network rfl _ _ _ _

example : (simulate .empty failingSetup (fun _ => .insertion) failingMeter 4).state.log.drop 3 =
    [.sent 0 [(.overlay, 7), (.ping, 8)] 0 1 true (some 5),
      .sent 0 [(.aggregation, 9)] 0 (-1) true (some 5), .marked 1,
      .received 5 (-1) .utility (.aggregation, 9),
      .received 5 1 (.meter true) (.overlay, 7), .sent 5 [(.ping, 8)] 1 0 true none,
      .delayed false 10000, .sent 5 [(.ping, 9)] 0 1 false none,
      .received 5 1 (.meter true) (.ping, 8), .sent 5 [(.ping, 9)] 1 0 true none,
      .delayed false 10000, .sent 5 [(.ping, 10)] 0 1 false none] := by decide

end Runs
end Pddm.Simulation.NetworkRun
