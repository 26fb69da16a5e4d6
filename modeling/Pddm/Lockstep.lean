import Pddm.OverlayBatch
import Pddm.OverlayNumbers
import Pddm.OverlayPhases
import Pddm.PathSearch

/-!
# Lockstep

The rounds of meters that go through them together. A meter begins a round by sending a
batch to its target, handles the batch of its predecessor, and ends the round with the
final message of that batch.
-/
namespace Pddm

/-- The message that the handler of a protocol is given: opened, and readdressed to the
next hop of its path. -/
def OverlayMessage.received (crypto : CryptoLibrary) (m : OverlayMessage) : OverlayMessage :=
  match (m.opened crypto).remainingPath with
  | some (hop :: rest) => { m.opened crypto with destination := hop, remainingPath := some rest }
  | _ => m.opened crypto

/-- What is put aside before the protocol handles the message. -/
def OverlayMessage.readdressed (crypto : CryptoLibrary) (m : OverlayMessage) :
    List OverlayMessage :=
  match (m.opened crypto).remainingPath with
  | some (_ :: _) => [m.received crypto]
  | _ => []

def Action.handledMessage : Action → Option OverlayMessage
  | .handleOverlay _ message => some message.body
  | _ => none

def Action.sentBatch : Action → Option (List OverlayTransportMessage)
  | .sendOverlay messages _ => some messages
  | _ => none

namespace ProtocolState
variable {ι : Type}

def lastBatch (s : ProtocolState ι) : List OverlayTransportMessage :=
  (s.trace.filterMap Action.sentBatch).getLast?.getD []

section Batches
variable (env : ProtocolEnv) (s : ProtocolState ι)

def nextTarget : ℤ := gossipTarget env.meterId (s.overlayRound + 1) env.numMeters

def dueMessages : List OverlayMessage :=
  s.waitingMessages.filter (fun m => m.destination = nextTarget env s) ++
    s.outgoingMessages.filter fun m => m.flood || decide (m.destination = nextTarget env s)

def keptMessages : List OverlayMessage :=
  s.waitingMessages.filter (fun m => !decide (m.destination = nextTarget env s)) ++
    s.outgoingMessages.filter fun m => !(m.flood || decide (m.destination = nextTarget env s))

def nextBatch : List OverlayTransportMessage :=
  transports env { s with overlayRound := s.overlayRound + 1 } (nextTarget env s)
    (dueMessages env s)

variable {env s}

theorem senderRound_of_mem_nextBatch {m : OverlayTransportMessage} (hm : m ∈ nextBatch env s) :
    m.senderRound = s.overlayRound + 1 :=
  (sender_of_mem_transports env _ _ _ hm).2

theorem nextBatch_eq (env : ProtocolEnv) (s : ProtocolState ι) : ∃ front final,
    nextBatch env s = front ++ [final] ∧ (∀ m ∈ front, m.isFinalMessage = false) ∧
      final.isFinalMessage = true :=
  transports_final env _ _ _

theorem bodies_nextBatch (env : ProtocolEnv) (s : ProtocolState ι) :
    (nextBatch env s).map (·.body) = if dueMessages env s = [] then
      [.make s.getCurrentQueryNum (nextTarget env s) .null false] else dueMessages env s :=
  bodies_transports env _ _ _

theorem beginRound_eq (hok : ∀ k, env.sendOk k = true) (s : ProtocolState ι) :
    ∃ pings, (∀ a ∈ pings, ∃ message recipientId, a = .sendPing message recipientId) ∧
      beginRound env s = { s with
        overlayRound := s.overlayRound + 1
        pingResponseFromPredecessor := false
        waitingMessages := keptMessages env s
        outgoingMessages := []
        roundTimeoutTimer := s.timers.nextId
        timers := s.timers.register (s.overlayRound + 1)
        trace := s.trace ++ .sendOverlay (nextBatch env s) (nextTarget env s) :: pings } := by
  unfold beginRound sendOverlayMessageBatch
  simp only [sendTo_of_sendOk hok]
  split_ifs
  · exact ⟨[], by simp, rfl⟩
  · refine ⟨[.sendPing ⟨env.meterId, false⟩
      (gossipPredecessor env.meterId (s.overlayRound + 1) env.numMeters)], by simp, ?_⟩
    dsimp only [act, setRoundTimeout]
    simp only [List.append_assoc, List.cons_append, List.nil_append]
    rfl

end Batches

/-- What comes to a meter between two rounds. -/
inductive Arrival
  | overlay (message : OverlayTransportMessage)
  | ping (message : PingMessage)

def Arrival.overlayMessage : Arrival → Option OverlayTransportMessage
  | .overlay message => some message
  | .ping _ => none

section Arrivals
variable (env : ProtocolEnv) (P : Protocol ι)

def receiveOverlayWith (endRound : ProtocolState ι → Outcome Fault (ProtocolState ι))
    (message : OverlayTransportMessage) (s : ProtocolState ι) : Outcome Fault (ProtocolState ι) :=
  if message.body.queryNum > s.getCurrentQueryNum then .done (s.bufferOverlay message)
  else if message.body.queryNum < s.getCurrentQueryNum then .done s
  else if message.senderRound = s.overlayRound then handleOverlayMessage env P endRound message s
  else if message.senderRound > s.overlayRound then .done (s.bufferOverlay message)
  else .done s

def arrive (endRound : ProtocolState ι → Outcome Fault (ProtocolState ι)) (a : Arrival)
    (s : ProtocolState ι) : Outcome Fault (ProtocolState ι) :=
  match a with
  | .overlay message => receiveOverlayWith env P endRound message s
  | .ping message => .done (s.handlePingMessage env message)

end Arrivals

/-- In a round of the query, with no meter failed and no message of the query kept for
later. -/
structure InStep (query round : ℤ) (s : ProtocolState ι) : Prop where
  overlayRound : s.overlayRound = round
  current : s.getCurrentQueryNum = query
  isLastRound : s.isLastRound = false
  failed : s.failedMeterIds = []
  unbuffered : ∀ m ∈ s.futureOverlayMessages, m.body.queryNum ≠ query

/-- The meters `0` to `n - 1` go together through the rounds of a query from `start` on and
before `stop`, and every send succeeds. In the state `ready r i` meter `i` is about to begin
round `r`, in `begun r i` it has, and in `closed r i` it is about to end it. -/
structure Lockstep (P : Protocol ι) (n query start stop : ℤ) where
  env : ℤ → ProtocolEnv
  fuel : ℕ
  ready : ℤ → ℤ → ProtocolState ι
  begun : ℤ → ℤ → ProtocolState ι
  closed : ℤ → ℤ → ProtocolState ι
  arrivals : ℤ → ℤ → List Arrival
  meterId : ∀ i, (env i).meterId = i
  numMeters : ∀ i, (env i).numMeters = n
  crypto : ∀ i, (env i).crypto = dummyCrypto
  sendOk : ∀ i k, (env i).sendOk k = true
  inStep : ∀ r i, start ≤ r → r < stop → 0 ≤ i → i < n → InStep query (r - 1) (ready r i)
  begins : ∀ r i, start ≤ r → r < stop → 0 ≤ i → i < n →
    superEndOverlayRound (env i) P (endOverlayRound (env i) P fuel) (ready r i) =
      .done (begun r i)
  overlay : ∀ r i, start ≤ r → r < stop → 0 ≤ i → i < n →
    P.isInOverlayPhase (begun r i).impl = true
  finals : ∀ r i, start ≤ r → r < stop → 0 ≤ i → i < n → ∀ m ∈ (begun r i).lastBatch,
    m.isFinalMessage = true → m.body.queryNum = query
  /-- The batch of the predecessor, in order, with pings before and in between. -/
  arrives : ∀ r i, start ≤ r → r < stop → 0 ≤ i → i < n → ∃ early final,
    arrivals r i = early ++ [.overlay final] ∧
      (arrivals r i).filterMap Arrival.overlayMessage =
        (begun r (gossipPredecessor i r n)).lastBatch
  closes : ∀ r i, start ≤ r → r < stop → 0 ≤ i → i < n →
    Outcome.forEach (arrivals r i) (arrive (env i) P .done) (begun r i) = .done (closed r i)
  ends : ∀ r i, start ≤ r → r + 1 < stop → 0 ≤ i → i < n →
    P.endOverlayRoundImpl (env i) (closed r i) = .done (ready (r + 1) i)

structure SameStep (P : Protocol ι) (s t : ProtocolState ι) : Prop where
  overlayRound : t.overlayRound = s.overlayRound
  isLastRound : t.isLastRound = s.isLastRound
  failedMeterIds : t.failedMeterIds = s.failedMeterIds
  futureOverlayMessages : t.futureOverlayMessages = s.futureOverlayMessages
  outgoingMessages : t.outgoingMessages = s.outgoingMessages
  myContribution : t.myContribution = s.myContribution
  phase : P.isInOverlayPhase t.impl = P.isInOverlayPhase s.impl
  trace : ∃ ext, t.trace = s.trace ++ ext ∧
    ∀ a ∈ ext, a.handledMessage = none ∧ a.sentBatch = none

namespace SameStep
variable {P : Protocol ι} {s t u : ProtocolState ι}

theorem refl (s : ProtocolState ι) : SameStep P s s :=
  ⟨rfl, rfl, rfl, rfl, rfl, rfl, rfl, [], by simp, by simp⟩

theorem wait (s : ProtocolState ι) (message : OverlayMessage) : SameStep P s (s.wait message) :=
  ⟨rfl, rfl, rfl, rfl, rfl, rfl, rfl, [], by simp [ProtocolState.wait], by simp⟩

theorem emplaceProxyValue (s : ProtocolState ι) (contribution : ValueContribution) :
    SameStep P s (s.emplaceProxyValue contribution) := by
  unfold ProtocolState.emplaceProxyValue
  split_ifs
  · exact refl s
  · exact ⟨rfl, rfl, rfl, rfl, rfl, rfl, rfl, [], by simp, by simp⟩

theorem onImpl (s : ProtocolState ι) {f : ι → ι}
    (hf : P.isInOverlayPhase (f s.impl) = P.isInOverlayPhase s.impl) :
    SameStep P s (s.onImpl f) :=
  ⟨rfl, rfl, rfl, rfl, rfl, rfl, hf, [], by simp [ProtocolState.onImpl], by simp⟩

theorem trans (h : SameStep P s t) (h' : SameStep P t u) : SameStep P s u := by
  obtain ⟨ext, htrace, hext⟩ := h.trace
  obtain ⟨ext', htrace', hext'⟩ := h'.trace
  refine ⟨h'.overlayRound.trans h.overlayRound, h'.isLastRound.trans h.isLastRound,
    h'.failedMeterIds.trans h.failedMeterIds,
    h'.futureOverlayMessages.trans h.futureOverlayMessages,
    h'.outgoingMessages.trans h.outgoingMessages, h'.myContribution.trans h.myContribution,
    h'.phase.trans h.phase, ext ++ ext', ?_, ?_⟩
  · rw [htrace', htrace, List.append_assoc]
  · intro a ha
    rcases List.mem_append.mp ha with ha | ha
    · exact hext a ha
    · exact hext' a ha

theorem inStep (h : SameStep P s t) {query round : ℤ} (hs : InStep query round s) :
    InStep query round t := by
  refine ⟨h.overlayRound.trans hs.overlayRound, ?_, h.isLastRound.trans hs.isLastRound,
    h.failedMeterIds.trans hs.failed, h.futureOverlayMessages ▸ hs.unbuffered⟩
  rw [← hs.current, getCurrentQueryNum, h.myContribution, getCurrentQueryNum]

end SameStep

/-- A protocol whose handlers leave the rounds to the end of a batch. -/
structure Steady (P : Protocol ι) extends Layered P where
  steady : ∀ env message s, (handleBody env message s).Holds (SameStep P s)

def noteOverlay (env : ProtocolEnv) (P : Protocol ι) (message : OverlayTransportMessage)
    (s : ProtocolState ι) : ProtocolState ι :=
  let s := s.act (.handleOverlay s.overlayRound message)
  let s := if P.isInOverlayPhase s.impl then s.cancelTimer.setRoundTimeout else s
  { s with waitingMessages := s.waitingMessages ++ message.body.readdressed env.crypto }

theorem noteOverlay_fields (env : ProtocolEnv) (P : Protocol ι) (message : OverlayTransportMessage)
    (s : ProtocolState ι) : ∃ timer timers, noteOverlay env P message s = { s with
      waitingMessages := s.waitingMessages ++ message.body.readdressed env.crypto
      roundTimeoutTimer := timer
      timers := timers
      trace := s.trace ++ [.handleOverlay s.overlayRound message] } := by
  unfold noteOverlay
  dsimp only
  split_ifs
  · exact ⟨_, _, rfl⟩
  · exact ⟨_, _, rfl⟩

def Layered.absorb {P : Protocol ι} (L : Layered P) (env : ProtocolEnv)
    (message : OverlayTransportMessage) (s : ProtocolState ι) : Outcome Fault (ProtocolState ι) :=
  L.handleBody env (message.body.received env.crypto) (noteOverlay env P message s)

theorem Layered.handleOverlayMessage_eq {P : Protocol ι} (L : Layered P) (env : ProtocolEnv)
    (endRound : ProtocolState ι → Outcome Fault (ProtocolState ι))
    (message : OverlayTransportMessage) (s : ProtocolState ι) :
    handleOverlayMessage env P endRound message s = (L.absorb env message s).andThen fun s =>
      if message.isFinalMessage && P.isInOverlayPhase s.impl then
        endRound (s.leaving (.finalMessage message.senderRound))
      else .done s := by
  unfold handleOverlayMessage Layered.absorb noteOverlay OverlayMessage.readdressed
    OverlayMessage.received
  change (match (message.body.opened env.crypto).remainingPath with
    | some (hop :: rest) => _
    | _ => _) = _
  rcases (message.body.opened env.crypto).remainingPath with _ | _ | ⟨hop, rest⟩
  · simp only [L.handles, List.append_nil]
    rfl
  · simp only [L.handles, List.append_nil]
    rfl
  · simp only [L.handles]
    rfl

def handled (s : ProtocolState ι) : List OverlayMessage := s.trace.filterMap Action.handledMessage

structure Idle (s t : ProtocolState ι) : Prop where
  overlayRound : t.overlayRound = s.overlayRound
  isLastRound : t.isLastRound = s.isLastRound
  failedMeterIds : t.failedMeterIds = s.failedMeterIds
  waitingMessages : t.waitingMessages = s.waitingMessages
  outgoingMessages : t.outgoingMessages = s.outgoingMessages
  myContribution : t.myContribution = s.myContribution
  proxyValues : t.proxyValues = s.proxyValues
  impl : t.impl = s.impl
  handled : t.handled = s.handled
  future : ∀ m ∈ t.futureOverlayMessages, m ∈ s.futureOverlayMessages ∨
    s.getCurrentQueryNum < m.body.queryNum

theorem Idle.refl (s : ProtocolState ι) : Idle s s :=
  ⟨rfl, rfl, rfl, rfl, rfl, rfl, rfl, rfl, rfl, fun _ hm => .inl hm⟩

theorem Idle.ping (env : ProtocolEnv) (message : PingMessage) (s : ProtocolState ι) :
    Idle s (s.handlePingMessage env message) := by
  unfold handlePingMessage
  split_ifs
  · exact ⟨rfl, rfl, rfl, rfl, rfl, rfl, rfl, rfl, by simp [ProtocolState.handled, act,
      Action.handledMessage], fun _ hm => .inl hm⟩
  · exact ⟨rfl, rfl, rfl, rfl, rfl, rfl, rfl, rfl, rfl, fun _ hm => .inl hm⟩
  · exact .refl s

theorem Idle.buffer {s : ProtocolState ι} {message : OverlayTransportMessage}
    (h : s.getCurrentQueryNum < message.body.queryNum) : Idle s (s.bufferOverlay message) := by
  refine ⟨rfl, rfl, rfl, rfl, rfl, rfl, rfl, rfl, rfl, fun m hm => ?_⟩
  rcases List.mem_append.mp hm with hm | hm
  · exact .inl hm
  · rw [List.mem_singleton.mp hm]
    exact .inr h

theorem Idle.inStep {query round : ℤ} {s t : ProtocolState ι} (h : Idle s t)
    (hs : InStep query round s) : InStep query round t := by
  refine ⟨h.overlayRound.trans hs.overlayRound, ?_, h.isLastRound.trans hs.isLastRound,
    h.failedMeterIds.trans hs.failed, fun m hm => ?_⟩
  · rw [← hs.current, getCurrentQueryNum, h.myContribution, getCurrentQueryNum]
  · rcases h.future m hm with hm | hm
    · exact hs.unbuffered m hm
    · rw [hs.current] at hm
      exact hm.ne'

section Rounds
variable {env : ProtocolEnv} {P : Protocol ι} {query round : ℤ} {s t : ProtocolState ι}

def entered (env : ProtocolEnv) (s : ProtocolState ι) : ProtocolState ι :=
  (beginRound env s.cancelTimer).act (.replayOverlay (s.overlayRound + 1) [])

theorem superEndOverlayRound_eq (hok : ∀ k, env.sendOk k = true) (hs : InStep query round s)
    (endRound : ProtocolState ι → Outcome Fault (ProtocolState ι)) :
    superEndOverlayRound env P endRound s = .done (entered env s) := by
  obtain ⟨pings, -, hbegin⟩ := beginRound_eq hok s.cancelTimer
  have hfailed : (beginRound env s.cancelTimer).failedMeterIds = [] := by
    rw [hbegin]
    exact hs.failed
  have hround : (beginRound env s.cancelTimer).overlayRound = s.overlayRound + 1 := by
    rw [hbegin]
    rfl
  have hother : ∀ m ∈ (beginRound env s.cancelTimer).futureOverlayMessages,
      (beginRound env s.cancelTimer).isForRound m = false := by
    intro m hm
    have hcurrent : (beginRound env s.cancelTimer).getCurrentQueryNum = query := by
      rw [hbegin]
      exact hs.current
    have hquery : m.body.queryNum ≠ query := by
      rw [hbegin] at hm
      exact hs.unbuffered m hm
    unfold isForRound
    rw [hcurrent]
    simp [hquery]
  have hnone : (beginRound env s.cancelTimer).futureOverlayMessages.filter
      (beginRound env s.cancelTimer).isForRound = [] :=
    List.filter_eq_nil_iff.mpr fun m hm => by simp [hother m hm]
  have hall : (beginRound env s.cancelTimer).futureOverlayMessages.filter
      (fun m => !(beginRound env s.cancelTimer).isForRound m) =
        (beginRound env s.cancelTimer).futureOverlayMessages :=
    List.filter_eq_self.mpr fun m hm => by simp [hother m hm]
  unfold superEndOverlayRound entered
  dsimp only
  rw [if_neg (by simp [cancelTimer, hs.isLastRound]), hnone, hall, hround]
  simp [act, hfailed]

theorem entered_fields (hok : ∀ k, env.sendOk k = true) (s : ProtocolState ι) :
    (entered env s).overlayRound = s.overlayRound + 1 ∧
      (entered env s).waitingMessages = keptMessages env s ∧
      (entered env s).outgoingMessages = [] ∧
      (entered env s).myContribution = s.myContribution ∧
      (entered env s).proxyValues = s.proxyValues ∧
      (entered env s).impl = s.impl ∧
      (entered env s).lastBatch = nextBatch env s ∧
      (entered env s).handled = s.handled := by
  obtain ⟨pings, hpings, hbegin⟩ := beginRound_eq hok s.cancelTimer
  have hunsent : pings.filterMap Action.sentBatch = [] := by
    refine List.filterMap_eq_nil_iff.mpr fun a ha => ?_
    obtain ⟨_, _, rfl⟩ := hpings a ha
    rfl
  have hunhandled : pings.filterMap Action.handledMessage = [] := by
    refine List.filterMap_eq_nil_iff.mpr fun a ha => ?_
    obtain ⟨_, _, rfl⟩ := hpings a ha
    rfl
  unfold entered
  rw [hbegin]
  refine ⟨rfl, rfl, rfl, rfl, rfl, rfl, ?_, ?_⟩
  · simp [lastBatch, act, List.filterMap_append, Action.sentBatch, hunsent]
    rfl
  · simp only [handled, act, cancelTimer, List.filterMap_append, List.filterMap_cons, hunhandled,
      Action.handledMessage, List.filterMap_nil, List.append_nil]

theorem entered_inStep (hok : ∀ k, env.sendOk k = true) (hs : InStep query round s) :
    InStep query (round + 1) (entered env s) := by
  obtain ⟨pings, -, hbegin⟩ := beginRound_eq hok s.cancelTimer
  unfold entered
  rw [hbegin]
  refine ⟨?_, hs.current, hs.isLastRound, hs.failed, hs.unbuffered⟩
  rw [← hs.overlayRound]
  rfl

end Rounds

section Handling
variable {env : ProtocolEnv} {P : Protocol ι} (L : Steady P) {query round : ℤ}
  {s t : ProtocolState ι} (endRound : ProtocolState ι → Outcome Fault (ProtocolState ι))
include L

theorem absorb_spec {message : OverlayTransportMessage} (hs : InStep query round s)
    (h : L.absorb env message s = .done t) :
    InStep query round t ∧ P.isInOverlayPhase t.impl = P.isInOverlayPhase s.impl ∧
      t.outgoingMessages = s.outgoingMessages ∧ t.handled = s.handled ++ [message.body] := by
  obtain ⟨timer, timers, hnote⟩ := noteOverlay_fields env P message s
  have hsame : SameStep P (noteOverlay env P message s) t := by
    have hsteady := L.steady env (message.body.received env.crypto) (noteOverlay env P message s)
    unfold Layered.absorb at h
    rwa [h] at hsteady
  obtain ⟨ext, htrace, hext⟩ := hsame.trace
  have hnone : ext.filterMap Action.handledMessage = [] :=
    List.filterMap_eq_nil_iff.mpr fun a ha => (hext a ha).1
  have hphase := hsame.phase
  have houtgoing := hsame.outgoingMessages
  rw [hnote] at hphase houtgoing htrace
  refine ⟨hsame.inStep ?_, hphase, houtgoing, ?_⟩
  · rw [hnote]
    exact ⟨hs.overlayRound, hs.current, hs.isLastRound, hs.failed, hs.unbuffered⟩
  · rw [handled, htrace, List.filterMap_append, hnone, List.append_nil, List.filterMap_append]
    rfl

theorem arrive_early (hs : InStep query round s) {a : Arrival}
    (ha : ∀ m, a.overlayMessage = some m → m.isFinalMessage = false ∧ m.senderRound = round) :
    arrive env P endRound a s = arrive env P .done a s ∧
      ((∃ t, arrive env P .done a s = .done t ∧ Idle s t ∧
          ∀ m, a.overlayMessage = some m → m.body.queryNum ≠ query) ∨
        ∃ m, a = .overlay m ∧ m.body.queryNum = query ∧
          arrive env P .done a s = L.absorb env m s) := by
  cases a with
  | ping message => exact ⟨rfl, .inl ⟨_, rfl, .ping env message s, nofun⟩⟩
  | overlay m =>
    obtain ⟨hfinal, hround⟩ := ha m rfl
    unfold arrive receiveOverlayWith
    dsimp only
    rw [hs.current]
    rcases lt_trichotomy m.body.queryNum query with hlt | heq | hgt
    · rw [if_neg (by omega), if_pos hlt, if_neg (by omega), if_pos hlt]
      refine ⟨rfl, .inl ⟨s, rfl, .refl s, ?_⟩⟩
      rintro _ ⟨rfl⟩
      exact hlt.ne
    · have habsorb (f : ProtocolState ι → Outcome Fault (ProtocolState ι)) :
          handleOverlayMessage env P f m s = L.absorb env m s := by
        rw [L.handleOverlayMessage_eq]
        simp only [hfinal, Bool.false_and, Bool.false_eq_true, if_false]
        cases L.absorb env m s <;> rfl
      have hhandled : m.senderRound = s.overlayRound := hround.trans hs.overlayRound.symm
      rw [if_neg (by omega), if_neg (by omega), if_pos hhandled, if_neg (by omega),
        if_neg (by omega), if_pos hhandled, habsorb, habsorb]
      exact ⟨rfl, .inr ⟨m, rfl, heq, rfl⟩⟩
    · rw [if_pos hgt, if_pos hgt]
      refine ⟨rfl, .inl ⟨_, rfl, .buffer (by rw [hs.current]; exact hgt), ?_⟩⟩
      rintro _ ⟨rfl⟩
      exact hgt.ne'

theorem arrive_final (hs : InStep query round s) (hphase : P.isInOverlayPhase s.impl = true)
    {m : OverlayTransportMessage} (hfinal : m.isFinalMessage = true)
    (hquery : m.body.queryNum = query) (hround : m.senderRound = round) :
    arrive env P endRound (.overlay m) s =
      (L.absorb env m s).andThen fun s => endRound (s.leaving (.finalMessage round)) := by
  unfold arrive receiveOverlayWith
  dsimp only
  rw [hs.current, if_neg (by omega), if_neg (by omega),
    if_pos (hround.trans hs.overlayRound.symm), L.handleOverlayMessage_eq, hround]
  cases habsorb : L.absorb env m s with
  | halted e t => rfl
  | done t =>
    have ht : P.isInOverlayPhase t.impl = true := (absorb_spec L hs habsorb).2.1.trans hphase
    simp [hfinal, ht]

end Handling

def bodiesFor (query : ℤ) (batch : List OverlayTransportMessage) : List OverlayMessage :=
  (batch.map (·.body)).filter fun m => m.queryNum = query

structure KeptInRound {P : Protocol ι} (L : Steady P) (env : ProtocolEnv) (query round : ℤ)
    (Q : List OverlayMessage → ProtocolState ι → Prop) : Prop where
  idle : ∀ ms s t, Q ms s → Idle s t → Q ms t
  absorb : ∀ ms s t m, Q ms s → InStep query round s → P.isInOverlayPhase s.impl = true →
    m.body.queryNum = query → L.absorb env m s = .done t → Q (ms ++ [m.body]) t

def Handling (P : Protocol ι) (query round : ℤ) (Q : List OverlayMessage → ProtocolState ι → Prop)
    (ms : List OverlayMessage) (s : ProtocolState ι) : Prop :=
  InStep query round s ∧ P.isInOverlayPhase s.impl = true ∧ Q ms s

section Early
variable {env : ProtocolEnv} {P : Protocol ι} {L : Steady P} {query round : ℤ}
  {Q : List OverlayMessage → ProtocolState ι → Prop} (hQ : KeptInRound L env query round Q)
include hQ

theorem KeptInRound.absorbed {ms : List OverlayMessage} {s t : ProtocolState ι}
    {m : OverlayTransportMessage} (hs : Handling P query round Q ms s)
    (hquery : m.body.queryNum = query) (h : L.absorb env m s = .done t) :
    Handling P query round Q (ms ++ [m.body]) t := by
  obtain ⟨hstep, hphase, hms⟩ := hs
  obtain ⟨hstep', hphase', -, -⟩ := absorb_spec L hstep h
  exact ⟨hstep', hphase'.trans hphase, hQ.absorb ms s t m hms hstep hphase hquery h⟩

theorem KeptInRound.early (arrivals : List Arrival)
    (endRound : ProtocolState ι → Outcome Fault (ProtocolState ι))
    (harrivals : ∀ m ∈ arrivals.filterMap Arrival.overlayMessage,
      m.isFinalMessage = false ∧ m.senderRound = round)
    {ms : List OverlayMessage} {s : ProtocolState ι} (hs : Handling P query round Q ms s) :
    Outcome.forEach arrivals (arrive env P endRound) s =
        Outcome.forEach arrivals (arrive env P .done) s ∧
      ∀ t, Outcome.forEach arrivals (arrive env P .done) s = .done t →
        Handling P query round Q
          (ms ++ bodiesFor query (arrivals.filterMap Arrival.overlayMessage)) t := by
  induction arrivals generalizing ms s with
  | nil =>
    refine ⟨rfl, fun t ht => ?_⟩
    cases ht
    simpa [bodiesFor] using hs
  | cons a arrivals ih =>
    have ha (m : OverlayTransportMessage) (hm : a.overlayMessage = some m) :
        m.isFinalMessage = false ∧ m.senderRound = round :=
      harrivals m (List.mem_filterMap.mpr ⟨a, by simp, hm⟩)
    have hrest : ∀ m ∈ arrivals.filterMap Arrival.overlayMessage,
        m.isFinalMessage = false ∧ m.senderRound = round := by
      intro m hm
      obtain ⟨b, hb, hbm⟩ := List.mem_filterMap.mp hm
      exact harrivals m (List.mem_filterMap.mpr ⟨b, List.mem_cons_of_mem _ hb, hbm⟩)
    obtain ⟨heq, hcases⟩ := arrive_early L endRound hs.1 ha
    rw [Outcome.forEach_cons, Outcome.forEach_cons, heq]
    rcases hcases with ⟨u, hu, hidle, hother⟩ | ⟨m, rfl, hquery, habsorb⟩
    · rw [hu, Outcome.done_andThen, Outcome.done_andThen]
      have hus : Handling P query round Q ms u :=
        ⟨hidle.inStep hs.1, hidle.impl ▸ hs.2.1, hQ.idle _ _ _ hs.2.2 hidle⟩
      have hsame : bodiesFor query ((a :: arrivals).filterMap Arrival.overlayMessage) =
          bodiesFor query (arrivals.filterMap Arrival.overlayMessage) := by
        cases hm : a.overlayMessage with
        | none => rw [List.filterMap_cons_none hm]
        | some m =>
          rw [List.filterMap_cons_some hm]
          simp [bodiesFor, hother m hm]
      rw [hsame]
      exact ih hrest hus
    · rw [habsorb]
      cases hu : L.absorb env m s with
      | halted e u => simp only [Outcome.halted_andThen, reduceCtorEq, false_implies, implies_true, and_self]
      | done u =>
        rw [Outcome.done_andThen, Outcome.done_andThen]
        have hsame : ms ++ bodiesFor query ((Arrival.overlay m :: arrivals).filterMap
            Arrival.overlayMessage) =
            ms ++ [m.body] ++ bodiesFor query (arrivals.filterMap Arrival.overlayMessage) := by
          simp [bodiesFor, Arrival.overlayMessage, hquery]
        rw [hsame]
        exact ih hrest (hQ.absorbed hs hquery hu)

end Early

namespace Lockstep
variable {P : Protocol ι} {L : Steady P} {n query start stop : ℤ}
  (run : Lockstep P n query start stop)
include run

theorem begun_eq {r i : ℤ} (hr : start ≤ r) (hrs : r < stop) (hi : 0 ≤ i) (hin : i < n) :
    run.begun r i = entered (run.env i) (run.ready r i) := by
  have hbegins := run.begins r i hr hrs hi hin
  rw [superEndOverlayRound_eq (run.sendOk i) (run.inStep r i hr hrs hi hin)] at hbegins
  exact (Outcome.done.inj hbegins).symm

theorem begun_inStep {r i : ℤ} (hr : start ≤ r) (hrs : r < stop) (hi : 0 ≤ i) (hin : i < n) :
    InStep query r (run.begun r i) := by
  rw [run.begun_eq hr hrs hi hin]
  simpa using entered_inStep (run.sendOk i) (run.inStep r i hr hrs hi hin)

theorem lastBatch_begun {r i : ℤ} (hr : start ≤ r) (hrs : r < stop) (hi : 0 ≤ i) (hin : i < n) :
    (run.begun r i).lastBatch = nextBatch (run.env i) (run.ready r i) := by
  rw [run.begun_eq hr hrs hi hin]
  exact (entered_fields (run.sendOk i) _).2.2.2.2.2.2.1

def inbox (r i : ℤ) : List OverlayMessage :=
  bodiesFor query (run.begun r (gossipPredecessor i r n)).lastBatch

theorem closing (hn : 2 ≤ n) (hlt : n < 2 ^ 31) {r i : ℤ} (hr : start ≤ r) (hrs : r < stop)
    (hi : 0 ≤ i) (hin : i < n) {Q : List OverlayMessage → ProtocolState ι → Prop}
    (hQ : KeptInRound L (run.env i) query r Q) (hstart : Q [] (run.begun r i)) :
    ∃ s, Handling P query r Q (run.inbox r i) s ∧
      run.closed r i = s.leaving (.finalMessage r) ∧
      ∀ endRound, Outcome.forEach (run.arrivals r i) (arrive (run.env i) P endRound)
        (run.begun r i) = endRound (run.closed r i) := by
  obtain ⟨hj, hjn, -⟩ := gossip_predecessor hn hlt r hi hin
  obtain ⟨early, final, harrivals, hbatch⟩ := run.arrives r i hr hrs hi hin
  rw [run.lastBatch_begun hr hrs hj hjn] at hbatch
  obtain ⟨front, last, hlast, hfront, hfinal⟩ :=
    nextBatch_eq (run.env (gossipPredecessor i r n)) (run.ready r (gossipPredecessor i r n))
  have hsplit : early.filterMap Arrival.overlayMessage = front ∧ final = last := by
    rw [harrivals, List.filterMap_append, hlast] at hbatch
    obtain ⟨hfirst, hsecond⟩ := List.append_inj' hbatch rfl
    simp only [List.filterMap_cons, Arrival.overlayMessage, List.filterMap_nil, List.cons.injEq,
      and_true] at hsecond
    exact ⟨hfirst, hsecond⟩
  obtain ⟨rfl, rfl⟩ := hsplit
  have hround (m : OverlayTransportMessage)
      (hm : m ∈ early.filterMap Arrival.overlayMessage ++ [final]) : m.senderRound = r := by
    rw [← hlast] at hm
    rw [senderRound_of_mem_nextBatch hm, (run.inStep r _ hr hrs hj hjn).overlayRound]
    ring
  have hquery : final.body.queryNum = query := by
    refine run.finals r _ hr hrs hj hjn final ?_ hfinal
    rw [run.lastBatch_begun hr hrs hj hjn, hlast]
    simp
  have hbegun : Handling P query r Q [] (run.begun r i) :=
    ⟨run.begun_inStep hr hrs hi hin, run.overlay r i hr hrs hi hin, hstart⟩
  have hearly (endRound : ProtocolState ι → Outcome Fault (ProtocolState ι)) :=
    hQ.early early endRound (fun m hm => ⟨hfront m hm, hround m (List.mem_append_left _ hm)⟩) hbegun
  have hcloses := run.closes r i hr hrs hi hin
  rw [harrivals, Outcome.forEach_append] at hcloses
  cases hu : Outcome.forEach early (arrive (run.env i) P .done) (run.begun r i) with
  | halted e u =>
    rw [hu] at hcloses
    cases hcloses
  | done u =>
    have hhandling := (hearly .done).2 u hu
    have harrive (endRound : ProtocolState ι → Outcome Fault (ProtocolState ι)) :=
      @arrive_final _ (run.env i) _ L _ _ _ endRound hhandling.1 hhandling.2.1 _ hfinal hquery
        (hround final (by simp))
    rw [hu, Outcome.done_andThen, Outcome.forEach_cons, harrive] at hcloses
    cases hv : L.absorb (run.env i) final u with
    | halted e v =>
      rw [hv] at hcloses
      cases hcloses
    | done v =>
      rw [hv] at hcloses
      have hclosed : v.leaving (.finalMessage r) = run.closed r i := Outcome.done.inj hcloses
      refine ⟨v, ?_, hclosed.symm, fun endRound => ?_⟩
      · have habsorbed := hQ.absorbed hhandling hquery hv
        have hinbox : run.inbox r i = [] ++
            bodiesFor query (early.filterMap Arrival.overlayMessage) ++ [final.body] := by
          unfold inbox
          rw [run.lastBatch_begun hr hrs hj hjn, hlast]
          simp [bodiesFor, hquery]
        rw [hinbox]
        exact habsorbed
      · rw [harrivals, Outcome.forEach_append, (hearly endRound).1, hu, Outcome.done_andThen,
          Outcome.forEach_cons, harrive, hv, ← hclosed, Outcome.done_andThen]
        cases endRound (v.leaving (.finalMessage r)) <;> rfl

end Lockstep

section Generation
variable (env : ℤ → ProtocolEnv) (P : Protocol ι) (n query stop : ℤ) (first : ℤ → ProtocolState ι)

def batchTo (ready : ℤ → ProtocolState ι) (r i : ℤ) : List Arrival :=
  (entered (env (gossipPredecessor i r n)) (ready (gossipPredecessor i r n))).lastBatch.map .overlay

def wholeRound (ready : ℤ → ProtocolState ι) (r i : ℤ) : Outcome Fault (ProtocolState ι) :=
  Outcome.forEach (batchTo env n ready r i) (arrive (env i) P .done) (entered (env i) (ready i))

def readyAt : ℕ → ℤ → ProtocolState ι
  | 0, i => first i
  | r + 1, i => (P.endOverlayRoundImpl (env i) (wholeRound env P n (readyAt r) r i).state).state

def RoundGoes (r : ℕ) (i : ℤ) : Prop :=
  (readyAt env P n first r i).overlayRound = r - 1 ∧
    (readyAt env P n first r i).getCurrentQueryNum = query ∧
    (readyAt env P n first r i).isLastRound = false ∧
    (readyAt env P n first r i).failedMeterIds = [] ∧
    (readyAt env P n first r i).futureOverlayMessages = [] ∧
    P.isInOverlayPhase (entered (env i) (readyAt env P n first r i)).impl = true ∧
    (∀ m ∈ (entered (env i) (readyAt env P n first r i)).lastBatch, m.body.queryNum = query) ∧
    (wholeRound env P n (readyAt env P n first r) r i).isDone = true ∧
    ((r : ℤ) + 1 < stop → (P.endOverlayRoundImpl (env i)
      (wholeRound env P n (readyAt env P n first r) r i).state).isDone = true)

instance (r : ℕ) (i : ℤ) : Decidable (RoundGoes env P n query stop first r i) :=
  inferInstanceAs (Decidable (_ ∧ _))

variable {env P n query stop first}

/-- The run that the rounds make from the states before the first. -/
def Lockstep.generate (hmeterId : ∀ i, (env i).meterId = i)
    (hnumMeters : ∀ i, (env i).numMeters = n) (hcrypto : ∀ i, (env i).crypto = dummyCrypto)
    (hsendOk : ∀ i k, (env i).sendOk k = true)
    (hgoes : ∀ r i : ℕ, (r : ℤ) < stop → (i : ℤ) < n → RoundGoes env P n query stop first r i) :
    Lockstep P n query 0 stop :=
  have hround {r i : ℤ} (hr : 0 ≤ r) (hrs : r < stop) (hi : 0 ≤ i) (hin : i < n) :
      RoundGoes env P n query stop first r.toNat i := by
    have h := hgoes r.toNat i.toNat (by omega) (by omega)
    rwa [Int.toNat_of_nonneg hi] at h
  have hstep {r i : ℤ} (hr : 0 ≤ r) (hrs : r < stop) (hi : 0 ≤ i) (hin : i < n) :
      InStep query (r - 1) (readyAt env P n first r.toNat i) := by
    obtain ⟨hat, hquery, hlast, hfailed, hfuture, -⟩ := hround hr hrs hi hin
    exact ⟨by rw [hat]; omega, hquery, hlast, hfailed, by simp [hfuture]⟩
  { env := env
    fuel := 0
    ready := fun r i => readyAt env P n first r.toNat i
    begun := fun r i => entered (env i) (readyAt env P n first r.toNat i)
    closed := fun r i => (wholeRound env P n (readyAt env P n first r.toNat) r i).state
    arrivals := fun r i => batchTo env n (readyAt env P n first r.toNat) r i
    meterId := hmeterId
    numMeters := hnumMeters
    crypto := hcrypto
    sendOk := hsendOk
    inStep := fun r i hr hrs hi hin => hstep hr hrs hi hin
    begins := fun r i hr hrs hi hin => superEndOverlayRound_eq (hsendOk i) (hstep hr hrs hi hin) _
    overlay := fun r i hr hrs hi hin => (hround hr hrs hi hin).2.2.2.2.2.1
    finals := fun r i hr hrs hi hin m hm _ => (hround hr hrs hi hin).2.2.2.2.2.2.1 m hm
    arrives := by
      intro r i hr hrs hi hin
      obtain ⟨front, final, hbatch, -⟩ := nextBatch_eq (env (gossipPredecessor i r n))
        (readyAt env P n first r.toNat (gossipPredecessor i r n))
      refine ⟨front.map .overlay, final, ?_, ?_⟩
      · rw [batchTo, (entered_fields (hsendOk _) _).2.2.2.2.2.2.1, hbatch]
        simp
      · simp [batchTo, List.filterMap_map, Function.comp_def, Arrival.overlayMessage]
    closes := by
      intro r i hr hrs hi hin
      have hdone := (hround hr hrs hi hin).2.2.2.2.2.2.2.1
      rw [Int.toNat_of_nonneg hr] at hdone
      exact Outcome.eq_done hdone
    ends := by
      intro r i hr hrs hi hin
      have hdone := (hround hr (by omega) hi hin).2.2.2.2.2.2.2.2 (by omega)
      have hnext : (r + 1).toNat = r.toNat + 1 := by omega
      rw [hnext, readyAt]
      rw [Int.toNat_of_nonneg hr] at hdone ⊢
      exact Outcome.eq_done hdone }

end Generation
end ProtocolState
end Pddm
