import Pddm.NetworkRuns
import Pddm.PrimeModuli

/-!
# The setup of a simulation

The simulator makes a meter for each home and gives some of the meters a second ID, so that there
are as many IDs as the overlay needs.
-/
namespace Pddm.Simulation
variable {μ β : Type}

/-- The clients are known by their places in `meter_clients`. Each may have a second ID. -/
structure SimulatorSetup (μ β : Type) where
  modulus : ℕ
  secondIds : List (Option ℤ)
  run : NetworkRun ℕ μ β

namespace SimulatorSetup

def initial (m : EventManager (NetworkAction μ β)) : SimulatorSetup μ β := ⟨0, [], .start m⟩

def connect (latency : ℕ → ℕ) (command : NetworkCommand ℕ μ β) (s : SimulatorSetup μ β) :
    Outcome Fault (SimulatorSetup μ β) :=
  (s.run.perform latency command).map fun run => { s with run := run }

def addHome (latency : ℕ → ℕ) (s : SimulatorSetup μ β) : Outcome Fault (SimulatorSetup μ β) :=
  let nextId := s.secondIds.length
  (s.connect latency (.connectMeter nextId nextId)).map fun t =>
    { t with secondIds := t.secondIds ++ [none] }

/-- The IDs go on where those of the homes end. -/
def addSecondId (latency : ℕ → ℕ) (doubleIdPointer : ℕ) (s : SimulatorSetup μ β) :
    Outcome Fault (SimulatorSetup μ β) :=
  let currentId : ℤ := s.secondIds.length + doubleIdPointer
  match writeAt s.secondIds doubleIdPointer (some currentId) with
  | .error fault => .halted fault s
  | .ok secondIds =>
      connect latency (.connectMeter doubleIdPointer currentId) { s with secondIds := secondIds }

def addHomes (latency : ℕ → ℕ) (numHomes : ℕ) (s : SimulatorSetup μ β) :
    Outcome Fault (SimulatorSetup μ β) :=
  Outcome.forEach (List.range numHomes) (fun _ => addHome latency) s

def addSecondIds (latency : ℕ → ℕ) (s : SimulatorSetup μ β) : Outcome Fault (SimulatorSetup μ β) :=
  Outcome.forEach (List.range (s.modulus - s.secondIds.length)) (addSecondId latency) s

/-- The part of `setup_simulation` that is about IDs, for a number of homes that is not negative. -/
def setupSimulation (latency : ℕ → ℕ) (numHomes : ℕ) (m : EventManager (NetworkAction μ β)) :
    Outcome Fault (SimulatorSetup μ β) :=
  match getValidPrimeModulus numHomes with
  | none => .halted .undefinedBehaviour (initial m)
  | some modulus =>
      ((({ initial m with modulus := modulus }.connect latency .connectUtility).andThen
        (addHomes latency numHomes)).andThen (addSecondIds latency)).andThen
          (connect latency .finishSetup)

/-- Messages to any ID of the overlay reach a client: to the first IDs that of the home, and to the
others one that has it as its second ID. -/
structure Ready (numHomes : ℕ) (s : SimulatorSetup μ β) : Prop where
  prime : GossipPrime s.modulus
  enough : numHomes ≤ s.modulus
  least : ∀ n : ℕ, GossipPrime n → numHomes ≤ n → s.modulus ≤ n
  utility : s.run.network.receiver utilityNodeId = .ok .utility
  reached : ∀ (id : ℤ) (client : ℕ), s.run.network.receiver id = .ok (.meter client) ↔
    client < numHomes ∧ (id = client ∨ s.secondIds[client]? = some (some id))
  covered : ∀ id : ℤ, (∃ client, s.run.network.receiver id = .ok (.meter client)) ↔
    0 ≤ id ∧ id < s.modulus
  live : ∀ id : ℤ, 0 ≤ id → id < s.modulus → s.run.network.isFailed id = .ok false

def owner (numHomes id : ℕ) : ℕ := if id < numHomes then id else id - numHomes

def assigned (numHomes count : ℕ) : List (Option ℤ) :=
  (List.range numHomes).map fun client =>
    if client < count then some ((numHomes : ℤ) + client) else none

structure Connects (owner : ℕ → ℕ) (count : ℕ) (s : NetworkRun ℕ μ β) : Prop where
  entries : s.network.meterClientsSetup.entries =
    (List.range count).map fun id : ℕ => ((id : ℤ), owner id)
  failed : s.network.failed = List.replicate count false
  utility : s.network.utility = true
  fresh : s.network.meterClients = []

section Connections
variable {f : ℕ → ℕ} {count : ℕ} {r : NetworkRun ℕ μ β}

theorem insertEntry_of_lt {κ ν : Type} [LinearOrder κ] {k : κ} {v : ν} {es : List (κ × ν)}
    (h : ∀ e ∈ es, e.1 < k) : OrderedMap.insertEntry k v es = es ++ [(k, v)] := by
  induction es with
  | nil => rfl
  | cons e es ih =>
    have hlt := h e (by simp)
    rw [OrderedMap.insertEntry, if_neg hlt.not_gt, if_neg hlt.ne',
      ih fun e' he' => h e' (List.mem_cons_of_mem _ he'), List.cons_append]

theorem Connects.connectMeter (h : Connects f count r) :
    ∃ r', r.connectMeter (f count) count = .done r' ∧ Connects f (count + 1) r' := by
  have hresized : r.network.failed ++
      List.replicate (((count : ℤ) + 1).toNat - r.network.failed.length) false =
        List.replicate (count + 1) false := by
    have hone : ((count : ℤ) + 1).toNat - count = 1 := by omega
    rw [h.failed, List.length_replicate, hone, ← List.replicate_add]
  have hwrite : writeAt (List.replicate (count + 1) false) (count : ℤ) false =
      .ok (List.replicate (count + 1) false) := by
    rw [writeAt, if_pos (by simp)]
    simp
  unfold NetworkRun.connectMeter
  simp only [hresized, hwrite]
  refine ⟨_, rfl, ?_⟩
  constructor
  · simp only [NetworkRun.note_network, OrderedMap.insertNew]
    rw [insertEntry_of_lt, h.entries]
    · simp [List.range_succ]
    · rw [h.entries]
      simp
  · rfl
  · exact h.utility
  · exact h.fresh

theorem mapM_of_forall {α γ : Type} {g : α → Option γ} {g' : α → γ} {xs : List α}
    (h : ∀ x ∈ xs, g x = some (g' x)) : xs.mapM g = some (xs.map g') := by
  induction xs with
  | nil => rfl
  | cons x xs ih =>
    rw [List.mapM_cons, h x (by simp), ih fun y hy => h y (List.mem_cons_of_mem _ hy)]
    rfl

theorem Connects.finishSetup (h : Connects f count r) (hpos : 0 < count) :
    ∃ r', r.finishSetup = .done r' ∧ r'.network.meterClients = (List.range count).map f ∧
      r'.network.failed = List.replicate count false ∧ r'.network.utility = true := by
  have hlast : r.network.meterClientsSetup.entries.getLast? =
      some (((count - 1 : ℕ) : ℤ), f (count - 1)) := by
    rw [h.entries, List.getLast?_map, List.getLast?_range, if_neg (by omega)]
    rfl
  have hclients : r.network.setupClients ((count - 1 : ℕ) : ℤ) =
      some ((List.range count).map f) := by
    have hcount : (((count - 1 : ℕ) : ℤ) + 1).toNat = count := by omega
    unfold Network.setupClients
    rw [hcount]
    refine mapM_of_forall fun id hid => ?_
    have hmem : ((id : ℤ), f id) ∈ r.network.meterClientsSetup := by
      rw [OrderedMap.mem_def, h.entries]
      exact List.mem_map_of_mem hid
    cases hfind : r.network.meterClientsSetup.entries.find? fun entry => entry.1 = (id : ℤ) with
    | none => simpa using List.find?_eq_none.mp hfind _ hmem
    | some entry =>
      have hkey : entry.1 = (id : ℤ) := by simpa using List.find?_some hfind
      obtain ⟨key, client⟩ := entry
      obtain rfl := hkey
      exact congrArg some (OrderedMap.entry_unique (List.mem_of_find?_eq_some hfind) hmem)
  unfold NetworkRun.finishSetup
  rw [if_neg (by simp [h.fresh]), hlast]
  dsimp only
  rw [hclients]
  exact ⟨_, rfl, rfl, h.failed, h.utility⟩

end Connections

section Homes
variable {numHomes count : ℕ} {s : SimulatorSetup μ β} (latency : ℕ → ℕ)

theorem Connects.addHome (h : Connects (owner numHomes) count s.run) (hlt : count < numHomes)
    (hids : s.secondIds = List.replicate count none) :
    ∃ t, s.addHome latency = .done t ∧ Connects (owner numHomes) (count + 1) t.run ∧
      t.secondIds = List.replicate (count + 1) none ∧ t.modulus = s.modulus := by
  obtain ⟨r, hr, hconnects⟩ := h.connectMeter
  have howner : owner numHomes count = count := if_pos hlt
  rw [howner] at hr
  refine ⟨⟨s.modulus, s.secondIds ++ [none], r⟩, ?_, hconnects, ?_, rfl⟩
  · have hlength : s.secondIds.length = count := by simp [hids]
    simp only [SimulatorSetup.addHome, connect, NetworkRun.perform, hlength, hr, Outcome.map]
  · simp [hids, List.replicate_succ']

theorem addHomes_connects (h : Connects (owner numHomes) 0 s.run) (hids : s.secondIds = [])
    (hle : count ≤ numHomes) :
    ∃ t, s.addHomes latency count = .done t ∧ Connects (owner numHomes) count t.run ∧
      t.secondIds = List.replicate count none ∧ t.modulus = s.modulus := by
  induction count with
  | zero => exact ⟨s, rfl, h, hids, rfl⟩
  | succ count ih =>
    obtain ⟨t, ht, hconnects, hids', hmodulus⟩ := ih (by omega)
    obtain ⟨t', ht', hconnects', hids'', hmodulus'⟩ :=
      hconnects.addHome latency (by omega) hids'
    refine ⟨t', ?_, hconnects', hids'', hmodulus'.trans hmodulus⟩
    unfold addHomes at ht ⊢
    rw [List.range_succ, Outcome.forEach_append, ht]
    simp [ht']

@[simp] theorem length_assigned (numHomes count : ℕ) :
    (assigned numHomes count).length = numHomes := by
  simp [assigned]

theorem getElem?_assigned {id : ℤ} {client : ℕ} :
    (assigned numHomes count)[client]? = some (some id) ↔
      client < numHomes ∧ client < count ∧ id = numHomes + client := by
  simp only [assigned, List.getElem?_map, Option.map_eq_some_iff, List.getElem?_eq_some_iff,
    List.getElem_range, List.length_range]
  constructor
  · rintro ⟨client', ⟨hlt, rfl⟩, hid⟩
    split_ifs at hid with hcount
    exact ⟨hlt, hcount, (Option.some.inj hid).symm⟩
  · rintro ⟨hlt, hcount, rfl⟩
    exact ⟨client, ⟨hlt, rfl⟩, if_pos hcount⟩

theorem assigned_zero (numHomes : ℕ) : assigned numHomes 0 = List.replicate numHomes none := by
  simp [assigned]

theorem writeAt_assigned (hlt : count < numHomes) :
    writeAt (assigned numHomes count) count (some ((numHomes : ℤ) + count)) =
      .ok (assigned numHomes (count + 1)) := by
  rw [writeAt, if_pos (by simp [hlt]), Int.toNat_natCast]
  congr 1
  apply List.ext_getElem
  · simp
  · intro i hi _
    rw [List.getElem_set]
    simp only [assigned, List.getElem_map, List.getElem_range]
    by_cases heq : count = i
    · simp [heq]
    · have hcount : i < count + 1 ↔ i < count := by omega
      simp [heq, hcount]

theorem Connects.addSecondId (h : Connects (owner numHomes) (numHomes + count) s.run)
    (hlt : count < numHomes) (hids : s.secondIds = assigned numHomes count) :
    ∃ t, s.addSecondId latency count = .done t ∧
      Connects (owner numHomes) (numHomes + (count + 1)) t.run ∧
      t.secondIds = assigned numHomes (count + 1) ∧ t.modulus = s.modulus := by
  obtain ⟨r, hr, hconnects⟩ := h.connectMeter
  have howner : owner numHomes (numHomes + count) = count := by simp [owner]
  rw [howner] at hr
  push_cast at hr
  refine ⟨⟨s.modulus, assigned numHomes (count + 1), r⟩, ?_, hconnects, rfl, rfl⟩
  simp only [SimulatorSetup.addSecondId, hids, length_assigned, writeAt_assigned hlt, connect,
    NetworkRun.perform, hr, Outcome.map]

theorem addSecondIds_connects (h : Connects (owner numHomes) numHomes s.run)
    (hids : s.secondIds = List.replicate numHomes none) (hle : count ≤ numHomes) :
    ∃ t, Outcome.forEach (List.range count) (addSecondId latency) s = .done t ∧
      Connects (owner numHomes) (numHomes + count) t.run ∧
      t.secondIds = assigned numHomes count ∧ t.modulus = s.modulus := by
  induction count with
  | zero => exact ⟨s, rfl, h, hids.trans (assigned_zero _).symm, rfl⟩
  | succ count ih =>
    obtain ⟨t, ht, hconnects, hids', hmodulus⟩ := ih (by omega)
    obtain ⟨t', ht', hconnects', hids'', hmodulus'⟩ :=
      hconnects.addSecondId latency (by omega) hids'
    refine ⟨t', ?_, hconnects', hids'', hmodulus'.trans hmodulus⟩
    rw [List.range_succ, Outcome.forEach_append, ht]
    simp [ht']

theorem addSecondIds_halted (h : Connects (owner numHomes) numHomes s.run)
    (hids : s.secondIds = List.replicate numHomes none) (hlt : numHomes < count) :
    ∃ t, Outcome.forEach (List.range count) (addSecondId latency) s =
      .halted .undefinedBehaviour t := by
  obtain ⟨t, ht, -, hids', -⟩ := addSecondIds_connects latency h hids le_rfl
  have hfirst : addSecondId latency numHomes t = .halted .undefinedBehaviour t := by
    have hwrite (x : Option ℤ) : writeAt t.secondIds numHomes x = .error .undefinedBehaviour := by
      rw [writeAt, if_neg (by simp [hids'])]
    simp only [addSecondId, hwrite]
  obtain ⟨rest, rfl⟩ := Nat.exists_eq_add_of_lt hlt
  refine ⟨t, ?_⟩
  rw [show numHomes + rest + 1 = numHomes + (1 + rest) by omega, List.range_add,
    Outcome.forEach_append, ht, Outcome.done_andThen, List.range_add, List.map_append,
    Outcome.forEach_append]
  simp [hfirst]

/-- After the setup, everything follows from the clients in the order of their IDs. -/
theorem ready_of_clients (hprime : getValidPrimeModulus numHomes = some s.modulus)
    (hle : s.modulus ≤ 2 * numHomes)
    (hclients : s.run.network.meterClients = (List.range s.modulus).map (owner numHomes))
    (hfailed : s.run.network.failed = List.replicate s.modulus false)
    (hutility : s.run.network.utility = true)
    (hids : s.secondIds = assigned numHomes (s.modulus - numHomes)) : s.Ready numHomes := by
  obtain ⟨hgossip, henough, -, -, hleast⟩ := getValidPrimeModulus_eq_some hprime
  have hreceiver (id : ℤ) (client : ℕ) : s.run.network.receiver id = .ok (.meter client) ↔
      0 ≤ id ∧ id < s.modulus ∧ owner numHomes id.toNat = client := by
    unfold Network.receiver
    split_ifs with hid
    · simp [hid, utilityNodeId]
    · cases hread : readAt s.run.network.meterClients id with
      | error fault =>
        simp only [Except.map, reduceCtorEq, false_iff]
        rintro ⟨hnonneg, hlt, -⟩
        have hlt' : id.toNat < s.modulus := by omega
        have hsome : readAt s.run.network.meterClients id = .ok (owner numHomes id.toNat) :=
          readAt_eq_ok.mpr ⟨hnonneg, by simp [hclients, hlt']⟩
        rw [hread] at hsome
        cases hsome
      | ok client' =>
        obtain ⟨hnonneg, hsome⟩ := readAt_eq_ok.mp hread
        obtain ⟨hlt, hclient⟩ := List.getElem?_eq_some_iff.mp hsome
        simp only [hclients, List.length_map, List.length_range, List.getElem_map,
          List.getElem_range] at hlt hclient
        have hlt' : id < s.modulus := by omega
        simp [Except.map, hnonneg, hlt', hclient]
  constructor
  · exact hgossip
  · exact henough
  · exact hleast
  · simp [Network.receiver, hutility]
  · intro id client
    rw [hreceiver, hids, getElem?_assigned, owner]
    split_ifs <;> omega
  · intro id
    simp only [hreceiver]
    constructor
    · rintro ⟨client, hid, hlt, -⟩
      exact ⟨hid, hlt⟩
    · rintro ⟨hid, hlt⟩
      exact ⟨_, hid, hlt, rfl⟩
  · intro id hid hlt
    have hlt' : id.toNat < s.modulus := by omega
    rw [Network.isFailed, if_pos (by omega), readAt_eq_ok]
    exact ⟨hid, by simp [hfailed, hlt']⟩

/-- Whether there are enough meters for the IDs depends on the number of homes alone. Where there
are, a message to any ID of the overlay reaches the one client that stands for it. -/
theorem setup_simulation_connects (numHomes : ℕ) (m : EventManager (NetworkAction μ β)) :
    (setupSimulation latency numHomes m).Ends
      (fun s => (2 ≤ numHomes ∧ numHomes ≤ 24317) ∧ s.Ready numHomes)
      fun _ => numHomes < 2 ∨ 24317 < numHomes := by
  unfold setupSimulation
  cases hprime : getValidPrimeModulus numHomes with
  | none => exact .inr (getValidPrimeModulus_eq_none hprime)
  | some modulus =>
    obtain ⟨hgossip, henough, hlast, htwice, -⟩ := getValidPrimeModulus_eq_some hprime
    have hthree := (mem_moduli (List.mem_of_find?_eq_some hprime)).1
    obtain ⟨s, hs, hconnected, hids, hmodulus⟩ : ∃ s : SimulatorSetup μ β,
        connect latency .connectUtility { initial m with modulus := modulus } = .done s ∧
          Connects (owner numHomes) 0 s.run ∧ s.secondIds = [] ∧ s.modulus = modulus :=
      ⟨_, rfl, ⟨rfl, rfl, rfl, rfl⟩, rfl, rfl⟩
    obtain ⟨t, ht, hconnected', hids', hmodulus'⟩ :=
      addHomes_connects latency hconnected hids (le_refl numHomes)
    have hsize : t.modulus - t.secondIds.length = modulus - numHomes := by
      rw [hids', hmodulus', hmodulus, List.length_replicate]
    dsimp only
    rw [hs, Outcome.done_andThen, ht, Outcome.done_andThen, addSecondIds, hsize]
    by_cases hle : modulus ≤ 2 * numHomes
    · obtain ⟨u, hu, hconnected'', hids'', hmodulus''⟩ := addSecondIds_connects latency
        hconnected' hids' (show modulus - numHomes ≤ numHomes by omega)
      have hcount : numHomes + (modulus - numHomes) = modulus := by omega
      rw [hcount] at hconnected''
      obtain ⟨r, hr, hclients, hfailed, hutility⟩ := hconnected''.finishSetup (by omega)
      obtain rfl : modulus = u.modulus := by rw [hmodulus'', hmodulus', hmodulus]
      rw [hu, Outcome.done_andThen, connect, NetworkRun.perform, hr]
      exact ⟨⟨by omega, by omega⟩,
        ready_of_clients (s := ⟨u.modulus, u.secondIds, r⟩) hprime hle hclients hfailed hutility
          hids''⟩
    · obtain ⟨u, hu⟩ := addSecondIds_halted latency hconnected' hids'
        (show numHomes < modulus - numHomes by omega)
      rw [hu]
      exact .inl (by by_contra hnot; exact hle (htwice (by omega)))

example : (setupSimulation (fun _ => 0) 9
    (.empty : EventManager (NetworkAction ℕ Unit))).state.run.network.meterClients =
      [0, 1, 2, 3, 4, 5, 6, 7, 8, 0, 1] := by decide

end Homes

end SimulatorSetup
end Pddm.Simulation
