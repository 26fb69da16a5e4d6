import Pddm.DataLengths
import Pddm.Parties

/-!
# Networks of clients

Clients that answer the queries of a utility together, some of them under two IDs. What they add
up has the length that it needs, except where a second ID has nothing to contribute.
-/
namespace Pddm

namespace MeterClient
variable {ι : Type} {env : ClientEnv} {P : Protocol ι} {fuel : ℕ}

/-- What reaches the states of a client meets `A`. -/
def Admits (A : ProtocolState.Event → Prop) (c : MeterClient ι) : Event → Prop
  | .setSecondId _ => True
  | .queryRequest meter request =>
      A (.startQuery request (meter.contributedData request)) ∧
        ∀ id s, c.secondary = some (id, s) → A (.startQuery request [])
  | .overlay message => A (.overlay message)
  | .aggregation message => A (.aggregation message)
  | .ping message => A (.ping message)
  | .signatureResponse message => A (.signatureResponse message)
  | .timerExpires id | .secondTimerExpires id => A (.timerExpires id)

theorem handle_both {A : ProtocolState.Event → Prop} {I H : ProtocolEnv → ProtocolState ι → Prop}
    (h : ∀ e : ProtocolEnv, e.crypto = env.crypto → ∀ s a, I e s → A a →
      (ProtocolState.handle e P fuel s a).Ends (I e) (H e))
    (hweaken : ∀ e s, I e s → H e s) (hinit : ∀ e, I e (.init P.init)) {c : MeterClient ι}
    (hc : Both env I c) {e : Event} (he : c.Admits A e) :
    (c.handle env P fuel e).Ends (Both env I) (Both env H) := by
  have hfirst (a : ProtocolState.Event) (ha : A a) :
      (ProtocolState.handle env.toProtocolEnv P fuel c.primary a).Ends (I env.toProtocolEnv)
        (H env.toProtocolEnv) := h _ rfl _ a hc.primary ha
  have hsecond (a : ProtocolState.Event) (ha : A a) (id : ℤ) (s : ProtocolState ι)
      (hs : I (env.second id) s) : (ProtocolState.handle (env.second id) P fuel s a).Ends
        (I (env.second id)) (H (env.second id)) := h (env.second id) rfl s a hs ha
  cases e with
  | setSecondId id =>
    refine ⟨hc.primary, fun id' s heq => ?_⟩
    obtain ⟨rfl, rfl⟩ := Prod.mk.inj (Option.some.inj heq)
    exact hinit _
  | queryRequest meter request =>
    have hprimary : (c.onPrimary (ProtocolState.startQuery env.toProtocolEnv P fuel request
        (meter.contributedData request))).Ends
        (fun d => Both env I d ∧ d.secondary = c.secondary) (Both env H) :=
      (hfirst _ he.1).map
        (fun _ hs => ⟨⟨hs, hc.secondary⟩, rfl⟩) fun _ hs => ⟨hs, (hc.mono hweaken).secondary⟩
    refine hprimary.andThen fun d ⟨hd, hsame⟩ => ?_
    exact hd.onSecondary hweaken fun id s hs ht =>
      hsecond (.startQuery request []) (he.2 id s (hsame ▸ hs)) id s ht
  | overlay message =>
    simp only [handle, handleOverlay]
    split_ifs
    · exact hc.onPrimary hweaken (hfirst _ he)
    · cases c.secondary with
      | none => exact hc
      | some second =>
        dsimp only
        split_ifs
        · exact hc.onSecondary hweaken fun id s _ hs => hsecond _ he id s hs
        · exact hc
  | aggregation message =>
    simp only [handle, handleAggregation]
    split_ifs
    · exact hc.mono hweaken
    · exact hc.onPrimary hweaken (hfirst _ he)
    · cases c.secondary with
      | none => exact hc
      | some second =>
        dsimp only
        split_ifs
        · exact hc.onSecondary hweaken fun id s _ hs => hsecond _ he id s hs
        · exact hc
  | ping message =>
    have hprimary : (c.onPrimary fun s =>
        .done (s.handlePingMessage env.toProtocolEnv message)).Ends (Both env I) (Both env H) :=
      hc.onPrimary hweaken (hfirst (.ping message) he)
    change (handlePing env message c).Ends _ _
    refine hprimary.andThen fun d hd => hd.onSecondary hweaken fun id s _ hs => ?_
    exact hsecond (.ping message) he id s hs
  | signatureResponse message =>
    exact hc.onPrimary hweaken (hfirst (.signatureResponse message) he)
  | timerExpires id => exact hc.onPrimary hweaken (hfirst (.timerExpires id) he)
  | secondTimerExpires timer =>
    change (c.onSecondary env fun env => ProtocolState.timerExpires env P fuel timer).Ends _ _
    exact hc.onSecondary hweaken fun id s _ hs => hsecond (.timerExpires timer) he id s hs

inductive Has (c : MeterClient ι) : ProtocolState ι → Prop
  | primary : Has c c.primary
  | secondary (id : ℤ) (s : ProtocolState ι) (h : c.secondary = some (id, s)) : Has c s

theorem Both.has {I : ProtocolEnv → ProtocolState ι → Prop} {c : MeterClient ι} (h : Both env I c)
    {s : ProtocolState ι} (hs : c.Has s) : ∃ e, I e s := by
  cases hs with
  | primary => exact ⟨_, h.primary⟩
  | secondary id s heq => exact ⟨_, h.secondary id s heq⟩

end MeterClient

theorem ProtocolState.sent_of_mem_lastBatch {ι : Type} {s : ProtocolState ι}
    {x : OverlayTransportMessage} (hx : x ∈ s.lastBatch) :
    ∃ batch recipientId, .sendOverlay batch recipientId ∈ s.trace ∧ x ∈ batch := by
  unfold ProtocolState.lastBatch at hx
  cases hlast : (s.trace.filterMap Action.sentBatch).getLast? with
  | none => simp [hlast] at hx
  | some batch =>
    rw [hlast] at hx
    obtain ⟨a, ha, hsent⟩ := List.mem_filterMap.mp (List.mem_of_getLast? hlast)
    cases a with
    | sendOverlay messages recipientId =>
      obtain rfl := Option.some.inj hsent
      exact ⟨messages, recipientId, ha, hx⟩
    | _ => cases hsent

/-- Clients, the request of the utility with each number, and for how many timesteps after the
first every meter projects its usage in a time window. -/
structure ClientNetwork where
  env : ℤ → ClientEnv
  meterId : ∀ k, (env k).meterId = k
  keepsBody : ∀ k, (env k).crypto.KeepsBody
  request : ℤ → QueryRequest
  timesteps : ℤ → ℕ

namespace ClientNetwork
open MeterClient (Event Both)
variable (net : ClientNetwork) (fuel : ℕ)

def dataLength (queryNum : ℤ) : ℕ :=
  match (net.request queryNum).requestType with
  | .currUsageSum | .currUsageHistogram | .cumulativeUsage => 1
  | .availableOffsetBreakdown => 2
  | .projectedSum | .projectedHistogram => net.timesteps (net.request queryNum).timeWindow + 1

abbrev Client := Outcome Fault (MeterClient CtProtocolState)

inductive Sent (o : Client) : OverlayTransportMessage ⊕ AggregationMessage → Prop
  | overlay (s : CtProtocolState.State) (batch : List OverlayTransportMessage) (recipientId : ℤ)
      (x : OverlayTransportMessage) (hs : o.state.Has s)
      (hbatch : .sendOverlay batch recipientId ∈ s.trace) (hx : x ∈ batch) : Sent o (.inl x)
  | aggregate (s : CtProtocolState.State) (queryNum : ℤ) (m : AggregationMessage) (parentId : ℤ)
      (hs : o.state.Has s) (hm : .sendAggregate queryNum m parentId ∈ s.trace) : Sent o (.inr m)

def Delivers (_ : ℤ) (e : Event) : OverlayTransportMessage ⊕ AggregationMessage → Prop
  | .inl x => e = .overlay x
  | .inr m => e = .aggregation m

def step (k : ℤ) : Client → Event → Client :=
  MeterClient.step (net.env k) CtProtocolState.protocol fuel

def start : ℤ → Client := fun _ => .done (.init CtProtocolState.protocol)

def run (es : List (ℤ × Event)) : ℤ → Client := es.foldl (partyStep (net.step fuel)) start

/-- An event of a run: a message that has been sent, a request that the utility has for all
meters, to a meter that projects its usage for as long as all do, or anything else. -/
def Genuine (before : List (ℤ × Event)) (e : ℤ × Event) : Prop :=
  SentBefore (net.step fuel) start Sent Delivers before e ∧
    ∀ meter request, e.2 = .queryRequest meter request →
      request = net.request request.queryNumber ∧
        ∀ timeWindow, (meter.simulateProjectedUsage timeWindow).length = net.timesteps timeWindow + 1

def FirstIdOnly (before : List (ℤ × Event)) (e : ℤ × Event) : Prop :=
  ∀ meter request, e.2 = .queryRequest meter request →
    (net.run fuel before e.1).state.secondary = none

variable {net fuel}

theorem dataLength_pos (queryNum : ℤ) : 0 < net.dataLength queryNum := by
  unfold dataLength
  split <;> omega

/-- What a meter contributes, it contributes in the length of the query. -/
theorem length_contributedData {meter : MeterInterface} {request : QueryRequest}
    (hrequest : request = net.request request.queryNumber)
    (hmeter : ∀ timeWindow,
      (meter.simulateProjectedUsage timeWindow).length = net.timesteps timeWindow + 1) :
    (meter.contributedData request).length = net.dataLength request.queryNumber := by
  unfold MeterInterface.contributedData dataLength
  rw [← hrequest]
  cases request.requestType with
  | projectedSum | projectedHistogram => exact hmeter _
  | _ => rfl

/-- The invariant of a client, also where a handler has stopped part-way. -/
def Measured (net : ClientNetwork) (k : ℤ) (o : Client) : Prop :=
  o.Ends (Both (net.env k) fun env s => ProtocolState.Sized env net.dataLength s)
    (Both (net.env k) fun env s => ProtocolState.Fitting env net.dataLength s)

theorem Measured.fitting {k : ℤ} {o : Client} (ho : net.Measured k o) :
    Both (net.env k) (fun env s => ProtocolState.Fitting env net.dataLength s) o.state :=
  Outcome.holds_iff.mp (Outcome.Ends.mono ho (fun _ hc => hc.mono fun _ _ hs => hs.fitting)
    fun _ hc => hc)

theorem measured_start (k : ℤ) : net.Measured k (start k) where
  primary := ProtocolState.sized_init _
  secondary _ _ h := by simp [MeterClient.init] at h

/-- What arrives has the length of its query. -/
def Measures (net : ClientNetwork) : OverlayTransportMessage ⊕ AggregationMessage → Prop
  | .inl x => x.body.body.Sized net.dataLength
  | .inr m => m.body.length = net.dataLength m.queryNum

theorem Measured.sent {k : ℤ} {o : Client} (ho : net.Measured k o)
    {m : OverlayTransportMessage ⊕ AggregationMessage} (hm : Sent o m) : net.Measures m := by
  cases hm with
  | overlay s batch recipientId x hs hbatch hx =>
    obtain ⟨e, hfitting⟩ := ho.fitting.has hs
    exact hfitting.trace _ hbatch x hx
  | aggregate s queryNum m parentId hs hm =>
    obtain ⟨e, hfitting⟩ := ho.fitting.has hs
    exact hfitting.trace _ hm

theorem Measured.step {k : ℤ} {o : Client} (ho : net.Measured k o) {e : Event}
    (he : o.state.Admits (·.Sized net.dataLength) e) : net.Measured k (net.step fuel k o e) := by
  cases o with
  | halted error c => exact ho
  | done c =>
    refine MeterClient.handle_both (fun env' hcrypto s a hs ha => ?_) (fun _ _ hs => hs.fitting)
      (fun _ => ProtocolState.sized_init _) ho he
    have hbody : env'.crypto.KeepsBody := hcrypto ▸ net.keepsBody k
    exact (CtProtocolState.sized_maintainsAll hbody net.dataLength fuel).handle hs ha

/-- In every network run of the crash-tolerant protocol in which no request reaches a client with
a second ID, all that is added has the length that it needs. -/
theorem adds_fit_of_first_ids (net : ClientNetwork) (fuel : ℕ) {es : List (ℤ × Event)}
    (hes : EveryEntry (net.Genuine fuel) es) (hfirst : EveryEntry (net.FirstIdOnly fuel) es)
    {before : List (ℤ × Event)} (hbefore : before <+: es) (k : ℤ) :
    Both (net.env k) (fun env s => AllCurrent env s.trace → s.AddsFit)
      (net.run fuel before k).state := by
  have hall := invariant_of_sentBefore net.Measured net.Measures measured_start
    (fun _ _ ho _ hm => ho.sent hm) (fun earlier e he hdelivers ho => ?_)
    (fun pre e post h => (hes pre e post h).1)
    (fun pre e post h => And.intro (hes pre e post h).2 (hfirst pre e post h)) before hbefore k
  · exact hall.fitting.mono fun _ _ hs => hs.adds
  · obtain ⟨k, e⟩ := e
    refine ho.step ?_
    cases e with
    | queryRequest meter request =>
      obtain ⟨hrequest, hmeter⟩ := he.1 meter request rfl
      have hnone := he.2 meter request rfl
      refine ⟨⟨dataLength_pos _, length_contributedData hrequest hmeter⟩, fun id s hsecond => ?_⟩
      rw [show (net.run fuel earlier k).state.secondary = _ from hsecond] at hnone
      cases hnone
    | overlay x => exact hdelivers (.inl x) rfl
    | aggregation m => exact hdelivers (.inr m) rfl
    | _ => trivial

section Samples

def elevenEnv (k : ℤ) : ClientEnv :=
  MeterClient.sampleEnv k 11 MeterClient.eleven_meters 4 5 fun _ => true

theorem elevenEnv_meterId : ∀ k, (elevenEnv k).meterId = k := fun _ => rfl

theorem elevenEnv_keepsBody : ∀ k, (elevenEnv k).crypto.KeepsBody := fun _ => dummyCrypto_keepsBody

/-- Eleven meters, which tolerate four failures. -/
def elevenNetwork : ClientNetwork where
  env := elevenEnv
  meterId := elevenEnv_meterId
  keepsBody := elevenEnv_keepsBody
  request queryNum := ⟨.currUsageSum, 1, queryNum⟩
  timesteps _ := 0

/-- The client that has an ID: of ten clients, the first stands in for meter 10. -/
def owner (id : ℤ) : ℤ := if id = 10 then 0 else id

def stateOf (clients : ℤ → Client) (id : ℤ) : Option CtProtocolState.State :=
  if id = 10 then (clients 0).state.secondary.map Prod.snd else some (clients id).state.primary

def requests : List (ℤ × Event) :=
  (0, .setSecondId 10) ::
    ([0, 1, 2, 3, 4, 5, 6, 7, 8, 9] : List ℤ).map fun k => (k, MeterClient.sampleQuery 7)

def delivery (clients : ℤ → Client) (r id : ℤ) : List (ℤ × Event) :=
  (((stateOf clients id).map ProtocolState.lastBatch).getD []).map fun x =>
    (owner (gossipTarget id r 11), .overlay x)

def deliveries (clients : ℤ → Client) (r : ℤ) : List (ℤ × Event) :=
  ([0, 1, 2, 3, 4, 5, 6, 7, 8, 9, 10] : List ℤ).flatMap (delivery clients r)

def afterRounds : ℕ → ℤ → Client
  | 0 => elevenNetwork.run 100 requests
  | r + 1 => (deliveries (afterRounds r) r).foldl (partyStep (elevenNetwork.step 100)) (afterRounds r)

def rounds : ℕ → List (ℤ × Event)
  | 0 => requests
  | r + 1 => rounds r ++ deliveries (afterRounds r) r

theorem run_rounds (r : ℕ) : elevenNetwork.run 100 (rounds r) = afterRounds r := by
  induction r with
  | zero => rfl
  | succ r ih =>
    rw [rounds, run, List.foldl_append]
    exact congrArg (List.foldl _ · _) ih

theorem genuine_of_mem_delivery {es before : List (ℤ × Event)} (hbefore : es <+: before) {r id : ℤ}
    {e : ℤ × Event} (he : e ∈ delivery (elevenNetwork.run 100 es) r id) :
    elevenNetwork.Genuine 100 before e := by
  unfold delivery at he
  obtain ⟨x, hx, rfl⟩ := List.mem_map.mp he
  refine ⟨fun m hm => ⟨es, hbefore, ?_⟩, fun meter request h => ?_⟩
  · cases m with
    | inr m => cases hm
    | inl y =>
      obtain rfl := Event.overlay.inj hm
      cases hstate : stateOf (elevenNetwork.run 100 es) id with
      | none => simp [hstate] at hx
      | some s =>
        rw [hstate] at hx
        obtain ⟨batch, recipientId, hbatch, hmem⟩ := ProtocolState.sent_of_mem_lastBatch hx
        unfold stateOf at hstate
        split_ifs at hstate
        · obtain ⟨⟨second, t⟩, hsecond, rfl⟩ := Option.map_eq_some_iff.mp hstate
          exact ⟨0, .overlay _ batch recipientId x (.secondary second _ hsecond) hbatch hmem⟩
        · obtain rfl := Option.some.inj hstate
          exact ⟨id, .overlay _ batch recipientId x .primary hbatch hmem⟩
  · cases h

theorem genuine_request (before : List (ℤ × Event)) (k queryNum : ℤ) :
    elevenNetwork.Genuine 100 before (k, MeterClient.sampleQuery queryNum) := by
  refine ⟨fun m hm => ?_, fun meter request h => ?_⟩
  · cases m <;> cases hm
  · obtain ⟨rfl, rfl⟩ := Event.queryRequest.inj h
    exact ⟨rfl, fun _ => rfl⟩

theorem genuine_rounds (r : ℕ) : EveryEntry (elevenNetwork.Genuine 100) (rounds r) := by
  induction r with
  | zero =>
    refine (everyEntry_nil (P := elevenNetwork.Genuine 100)).append_of_forall
      fun e he before => ?_
    rcases List.mem_cons.mp he with rfl | he
    · refine ⟨fun m hm => ?_, fun _ _ h => ?_⟩
      · cases m <;> cases hm
      · cases h
    · obtain ⟨k, -, rfl⟩ := List.mem_map.mp he
      exact genuine_request before k 7
  | succ r ih =>
    refine ih.append fun e he before hbefore => ?_
    obtain ⟨id, -, he⟩ := List.mem_flatMap.mp he
    rw [← run_rounds] at he
    exact genuine_of_mem_delivery hbefore he

theorem adds_to_none_after_rounds :
    (afterRounds 27 0).state.secondary.any (fun second => second.2.addsToNone) = true := by
  decide +kernel

/-- Meter 0 has nothing to contribute as meter 10, and adds the value for which meter 1 is a proxy
into a vector with no elements. -/
theorem second_id_adds_to_none : EveryEntry (elevenNetwork.Genuine 100) (rounds 27) ∧
    ¬ Both (elevenNetwork.env 0) (fun _ s => s.AddsFit)
      (elevenNetwork.run 100 (rounds 27) 0).state := by
  refine ⟨genuine_rounds 27, fun hfit => ?_⟩
  rw [run_rounds] at hfit
  obtain ⟨⟨id, s⟩, hsecond, hadds⟩ := (Option.any_eq_true _ _).mp adds_to_none_after_rounds
  exact ProtocolState.not_addsFit_of_addsToNone hadds (hfit.secondary id s hsecond)

def twoRequests : List (ℤ × Event) := [(3, MeterClient.sampleQuery 7), (4, MeterClient.sampleQuery 7)]

/-- The first batch of meter 3 comes to meter 4. -/
theorem adds_fit_of_first_batch : Both (elevenNetwork.env 4)
    (fun env s => AllCurrent env s.trace → s.AddsFit)
    (elevenNetwork.run 100
      (twoRequests ++ delivery (elevenNetwork.run 100 twoRequests) 0 3) 4).state := by
  refine adds_fit_of_first_ids elevenNetwork 100 ?_ ?_ List.prefix_rfl 4
  · have htwo : EveryEntry (elevenNetwork.Genuine 100) twoRequests :=
      everyEntry_concat.mpr ⟨everyEntry_concat.mpr ⟨everyEntry_nil, genuine_request _ 3 7⟩,
        genuine_request _ 4 7⟩
    exact htwo.append fun e he before hbefore => genuine_of_mem_delivery hbefore he
  · have htwo : EveryEntry (elevenNetwork.FirstIdOnly 100) twoRequests :=
      everyEntry_concat.mpr ⟨everyEntry_concat.mpr ⟨everyEntry_nil, fun _ _ _ => rfl⟩,
        fun _ _ _ => rfl⟩
    refine htwo.append fun e he before hbefore => ?_
    unfold delivery at he
    obtain ⟨x, -, rfl⟩ := List.mem_map.mp he
    intro _ _ h
    cases h

end Samples
end ClientNetwork
end Pddm
