import Pddm.SealedRuns

/-!
# Who opens what

A network of meters whose libraries seal messages for each other. A meter opens what is sealed
for it, and what passes it on the way to another meter as well.
-/
namespace Pddm

/-- Meters that seal messages for each other. -/
structure MeterNetwork where
  env : ℤ → ProtocolEnv
  meterId : ∀ i, (env i).meterId = i
  seals : SealsBody fun i => (env i).crypto

namespace MeterNetwork
open ProtocolState (Event KeepsSeals KeptWhile WellKept Layered)
variable {ι : Type} (net : MeterNetwork) (P : Protocol ι) (fuel : ℕ)

def crypto (i : ℤ) : CryptoLibrary := (net.env i).crypto

def Sent (o : Outcome Fault (ProtocolState ι)) (m : ℤ × OverlayTransportMessage) : Prop :=
  ∃ batch, .sendOverlay batch m.1 ∈ o.state.trace ∧ m.2 ∈ batch

def Delivers (i : ℤ) (e : Event) (m : ℤ × OverlayTransportMessage) : Prop :=
  m.1 = i ∧ e = .overlay m.2

def step : (ℤ → Outcome Fault (ProtocolState ι)) → ℤ × Event → ℤ → Outcome Fault (ProtocolState ι) :=
  partyStep fun i => ProtocolState.step (net.env i) P fuel

def run (es : List (ℤ × Event)) : ℤ → Outcome Fault (ProtocolState ι) :=
  es.foldl (net.step P fuel) fun _ => .done (.init P.init)

/-- Every overlay message that arrives has been sent to where it arrives. -/
def Genuine (es : List (ℤ × Event)) : Prop :=
  Along (net.step P fuel) (Authentic Sent Delivers) (fun _ => .done (.init P.init)) es

/-- Each meter has decrypted only what was sealed for it. -/
def OpensOwn (states : ℤ → Outcome Fault (ProtocolState ι)) : Prop :=
  ∀ i, ∀ m ∈ (states i).state.decrypted, SealedFor net.crypto i m ∧ m.addressee = i

/-- No meter has been handed an encrypted message on its way to another one. -/
def NoneOnTheWay (states : ℤ → Outcome Fault (ProtocolState ι)) : Prop :=
  ∀ i, ∀ m ∈ (states i).state.decrypted, m.destination = i ∧ m.remainingPath.getD [] = []

variable {net P fuel} {L : Layered P} {stored : ι → List OverlayMessage}

theorem authentic_start (states : ℤ → Outcome Fault (ProtocolState ι)) (i : ℤ)
    (request : QueryRequest) (data : List FixedPoint) :
    Authentic Sent Delivers states (i, .startQuery request data) := by
  rintro m ⟨-, hevent⟩
  cases hevent

theorem authentic_overlay {states : ℤ → Outcome Fault (ProtocolState ι)} {i j : ℤ}
    {message : OverlayTransportMessage} (h : Sent (states j) (i, message)) :
    Authentic Sent Delivers states (i, .overlay message) := by
  rintro ⟨k, other⟩ ⟨hrecipient, hevent⟩
  obtain rfl : k = i := hrecipient
  obtain rfl := Event.overlay.inj hevent
  exact ⟨j, h⟩

theorem decrypted_subset_step (K : KeepsSeals L net.crypto stored) (env : ProtocolEnv)
    (o : Outcome Fault (ProtocolState ι)) (e : Event) :
    o.state.decrypted ⊆ (ProtocolState.step env P fuel o e).state.decrypted := by
  cases o with
  | halted error s => exact List.Subset.refl _
  | done s =>
    have hstep := Outcome.holds_iff.mp ((ProtocolState.conveys_maintainsAll K.waiting env fuel s).handle
      (ProtocolState.Conveys.refl env s) (e := e) trivial)
    obtain ⟨ext, htrace, -⟩ := hstep
    intro m hm
    change m ∈ (s.handle env P fuel e).state.decrypted
    unfold ProtocolState.decrypted ProtocolState.handled
    rw [htrace, List.filterMap_append, List.filter_append]
    exact List.mem_append_left _ hm

theorem wellKept_of_genuine (K : KeepsSeals L net.crypto stored) (good : ℤ → OverlayMessage → Prop)
    (hgood : ∀ i m, WellSealed net.crypto m → m.isEncrypted = true → good i m →
      SealedFor net.crypto i m)
    {es : List (ℤ × Event)} (hes : net.Genuine P fuel es)
    (hend : ∀ i, ∀ m ∈ (net.run P fuel es i).state.decrypted, good i m) (i : ℤ) :
    WellKept net.crypto stored i (net.run P fuel es i).state := by
  have hall := invariant_of_authentic
    (fun i o => KeptWhile net.crypto stored i (good i) o.state ∧
      ∀ m ∈ o.state.decrypted, good i m)
    (fun i o => ∀ m ∈ o.state.decrypted, good i m)
    (fun m => Fits net.crypto m.1 m.2.body)
    (fun i o e hclean m hm => hclean m (decrypted_subset_step K _ o e hm))
    (fun i o ho m ⟨batch, hbatch, hm⟩ => (ho.1.kept ho.2).sent batch m.1 hbatch m.2 hm)
    (fun i o e ho hdelivers hclean => ⟨?_, hclean⟩) (fun i => ?_) hes hend i
  · exact hall.1.kept hall.2
  · cases o with
    | halted error s => exact ho.1
    | done s =>
      refine Outcome.holds_iff.mp ((ProtocolState.keptWhile_maintainsAll K net.seals rfl (hgood i)
        fuel).handle ho.1 fun message he => ?_)
      exact hdelivers (i, message) ⟨rfl, he⟩
  · refine ⟨⟨by simp [ProtocolState.init], fun _ => ⟨?_, ?_, ?_⟩⟩, ?_⟩
    · simp [ProtocolState.stock, ProtocolState.init, K.init]
    · simp [ProtocolState.init]
    · simp [ProtocolState.handled, ProtocolState.init]
    · simp [ProtocolState.decrypted, ProtocolState.handled, ProtocolState.init]

/-- Meters open their own messages only, exactly if no sealed message passes another meter. -/
theorem opensOwn_iff_noneOnTheWay (K : KeepsSeals L net.crypto stored) {es : List (ℤ × Event)}
    (hes : net.Genuine P fuel es) :
    net.OpensOwn (net.run P fuel es) ↔ NoneOnTheWay (net.run P fuel es) := by
  have hmem {i : ℤ} {m : OverlayMessage} (hm : m ∈ (net.run P fuel es i).state.decrypted) :
      m ∈ (net.run P fuel es i).state.handled ∧ m.isEncrypted = true := List.mem_filter.mp hm
  constructor
  · intro hown i m hm
    have hkept := wellKept_of_genuine K (SealedFor net.crypto) (fun _ _ _ _ h => h) hes
      (fun i m hm => (hown i m hm).1) i
    obtain ⟨hhandled, hencrypted⟩ := hmem hm
    have hfits := hkept.handled m hhandled
    have hstraight := hfits.wellSealed.goesStraight net.seals hencrypted
    have haddressee := (hown i m hm).2
    cases hflood : m.flood with
    | true =>
      have hdirect : m.remainingPath.getD [] = [] := by
        by_contra hpath
        exact absurd (hstraight.flood hpath) (by simp [hflood])
      exact ⟨(OverlayMessage.addressee_of_direct hdirect).symm.trans haddressee, hdirect⟩
    | false =>
      have hdestination := hfits.destination hencrypted hflood
      exact ⟨hdestination, hstraight.addressee_eq_iff.mp (haddressee.trans hdestination.symm)⟩
  · intro hdirect i m hm
    have haddressee {i : ℤ} {m : OverlayMessage}
        (h : m.destination = i ∧ m.remainingPath.getD [] = []) : m.addressee = i :=
      (OverlayMessage.addressee_of_direct h.2).trans h.1
    have hkept := wellKept_of_genuine K
      (fun i m => m.destination = i ∧ m.remainingPath.getD [] = [])
      (fun i m hsealed hencrypted h =>
        (hsealed.sealedFor_iff net.seals hencrypted).mpr (haddressee h)) hes hdirect i
    obtain ⟨hhandled, hencrypted⟩ := hmem hm
    have hown := haddressee (hdirect i m hm)
    exact ⟨((hkept.handled m hhandled).wellSealed.sealedFor_iff net.seals hencrypted).mpr hown, hown⟩

/-- In every run of a network, with any of the protocols, each meter decrypts only what is
sealed for it exactly if it gets no encrypted message that has still to reach another meter. -/
theorem opens_own_iff (net : MeterNetwork) (fuel : ℕ) :
    (∀ es, net.Genuine CtProtocolState.protocol fuel es →
      (net.OpensOwn (net.run CtProtocolState.protocol fuel es) ↔
        NoneOnTheWay (net.run CtProtocolState.protocol fuel es))) ∧
      (∀ es, net.Genuine HftProtocolState.protocol fuel es →
        (net.OpensOwn (net.run HftProtocolState.protocol fuel es) ↔
          NoneOnTheWay (net.run HftProtocolState.protocol fuel es))) ∧
      ∀ es, net.Genuine BftProtocolState.protocol fuel es →
        (net.OpensOwn (net.run BftProtocolState.protocol fuel es) ↔
          NoneOnTheWay (net.run BftProtocolState.protocol fuel es)) :=
  ⟨fun _ => opensOwn_iff_noneOnTheWay (CtProtocolState.keepsSeals net.seals),
    fun _ => opensOwn_iff_noneOnTheWay (HftProtocolState.keepsSeals net.seals),
    fun _ => opensOwn_iff_noneOnTheWay (BftProtocolState.keepsSeals net.seals)⟩

section Samples
open CtProtocolState (boxes boxes_sealing)

theorem boxes_sealsBody : SealsBody boxes where
  toSealing := boxes_sealing
  flood _ _ _ := rfl
  remainingPath _ _ _ := rfl

def boxesEnv (i : ℤ) : ProtocolEnv :=
  { (MeterClient.sampleEnv i 5 MeterClient.five_meters 1 2 fun _ => true).toProtocolEnv with
    crypto := boxes i }

theorem boxesEnv_meterId : ∀ i, (boxesEnv i).meterId = i := fun _ => rfl

/-- Five meters, with proxies from two groups. -/
def boxesNetwork : MeterNetwork where
  env := boxesEnv
  meterId := boxesEnv_meterId
  seals := boxes_sealsBody

def boxesStart : Event := .startQuery ⟨.currUsageSum, 1, 7⟩ [5]

def floodBatch : List OverlayTransportMessage :=
  (ProtocolState.run (boxesEnv 0) HftProtocolState.protocol 100 [boxesStart]).state.lastBatch

def floodMessage (k : ℕ) : OverlayTransportMessage :=
  floodBatch[k]?.getD ⟨0, 0, false, .make 7 1 .null false⟩

/-- Two meters start, and meter 1 gets the messages that meter 0 has for meters 1 and 2. -/
def floodRun : List (ℤ × Event) :=
  [(0, boxesStart), (1, boxesStart), (1, .overlay (floodMessage 0)), (1, .overlay (floodMessage 1))]

theorem floodRun_genuine : boxesNetwork.Genuine HftProtocolState.protocol 100 floodRun := by
  refine ⟨authentic_start _ _ _ _, authentic_start _ _ _ _, ?_, ?_, trivial⟩
  · exact authentic_overlay (j := 0) ⟨floodBatch, by decide +kernel, by decide +kernel⟩
  · exact authentic_overlay (j := 0) ⟨floodBatch, by decide +kernel, by decide +kernel⟩

/-- Meter 1 decrypts what is sealed for meter 2. -/
theorem floodRun_opens_others : boxesNetwork.Genuine HftProtocolState.protocol 100 floodRun ∧
    ¬ boxesNetwork.OpensOwn (boxesNetwork.run HftProtocolState.protocol 100 floodRun) := by
  refine ⟨floodRun_genuine, fun hown => ?_⟩
  have haddressee : ∀ m ∈ (boxesNetwork.run HftProtocolState.protocol 100 floodRun 1).state.decrypted,
      m.addressee = 1 := fun m hm => (hown 1 m hm).2
  revert haddressee
  decide +kernel

theorem opens_own_iff_samples :
    (boxesNetwork.OpensOwn (boxesNetwork.run CtProtocolState.protocol 100 [(0, boxesStart)]) ↔
      NoneOnTheWay (boxesNetwork.run CtProtocolState.protocol 100 [(0, boxesStart)])) ∧
      (boxesNetwork.OpensOwn (boxesNetwork.run HftProtocolState.protocol 100 floodRun) ↔
        NoneOnTheWay (boxesNetwork.run HftProtocolState.protocol 100 floodRun)) ∧
      (boxesNetwork.OpensOwn (boxesNetwork.run BftProtocolState.protocol 100 [(0, boxesStart)]) ↔
        NoneOnTheWay (boxesNetwork.run BftProtocolState.protocol 100 [(0, boxesStart)])) := by
  obtain ⟨hct, hhft, hbft⟩ := opens_own_iff boxesNetwork 100
  exact ⟨hct _ ⟨authentic_start _ _ _ _, trivial⟩, hhft _ floodRun_genuine,
    hbft _ ⟨authentic_start _ _ _ _, trivial⟩⟩

end Samples
end MeterNetwork
end Pddm
