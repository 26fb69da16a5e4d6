import Pddm.UtilityClient

/-!
# Batches of queries

A batch that is started while the client is idle, and the arrivals and expirations
that follow: its timer, the order in which its queries end, and what is stored.
-/
namespace Pddm.UtilityClient

/-- What can reach the client while a batch runs. -/
inductive BatchEvent
  | result (π : IterationOrder) (message : AggregationMessage)
  | signatureRequest (message : SignatureRequest)
  | timerExpires (π : IterationOrder) (id : ℤ)

def BatchEvent.toEvent : BatchEvent → Event
  | .result π message => .result π message
  | .signatureRequest message => .signatureRequest message
  | .timerExpires π id => .timerExpires π id

def batchStep (cfg : UtilityConfig) (o : Outcome Fault UtilityClient) (e : BatchEvent) :
    Outcome Fault UtilityClient :=
  step cfg o e.toEvent

structure Idle (s : UtilityClient) : Prop where
  pending : s.pendingBatchQueries = []
  timers : s.timers.pending = []
  finished : s.queryFinished = true ∨ s.queryNum < 0

def endEntry : UtilityAction → Option (ℤ × Option (List FixedPoint))
  | .endQuery queryNum _ result => some (queryNum, result)
  | _ => none

/-- The queries that ended after the first `base` entries of the log, with the
results that were stored and handed to the callbacks. -/
def endedQueries (base : ℕ) (s : UtilityClient) : List (ℤ × Option (List FixedPoint)) :=
  (s.log.drop base).filterMap endEntry

/-- What holds at every moment of a batch. The numbers that have ended ascend, so
each query ends once at most, and once no timeout is set they have all ended. -/
structure BatchSound (base : ℕ) (queries : List QueryRequest) (s : UtilityClient) : Prop where
  oneTimer : s.timers.pending = [] ∨ s.queryFinished = false ∧
    ∃ id delay, s.timers.pending = [(id, ⟨delay, s.queryNum⟩)]
  ascending : ((endedQueries base s).map Prod.fst).Pairwise (· < ·)
  mine : ∀ e ∈ endedQueries base s, e.1 ∈ queries.map QueryRequest.queryNumber
  complete : s.timers.pending = [] →
    ∀ query ∈ queries, query.queryNumber ∈ (endedQueries base s).map Prod.fst
  stored : ∀ e ∈ endedQueries base s, s.allQueryResults[e.1.toNat]? = some e.2

/-- A query that ends has a number from 0 on, and one that the last result it needs
ends is the last of the batch. -/
def SafeEnd (cfg : UtilityConfig) (o : Outcome Fault UtilityClient) : BatchEvent → Prop
  | .result _ message => (o.state.receive message).endsQuery cfg = true →
      0 ≤ o.state.queryNum ∧ o.state.pendingBatchQueries = []
  | .signatureRequest _ => True
  | .timerExpires _ id => o.state.timers.isPending id = true → 0 ≤ o.state.queryNum

/-- How far a batch with these numbers has come: it is over, a query of it is in
progress, or it is empty and the client has never started a query. -/
inductive Progress (numbers ended : List ℤ) (s : UtilityClient) : Prop
  | completed (finished : s.queryFinished = true) (pending : s.pendingBatchQueries = [])
      (numbers_eq : ended = numbers)
  | running (unfinished : s.queryFinished = false)
      (numbers_eq : ended ++ s.queryNum :: s.pendingBatchQueries.map QueryRequest.queryNumber =
        numbers)
  | unstarted (unfinished : s.queryFinished = false) (negative : s.queryNum < 0)
      (pending : s.pendingBatchQueries = []) (none : numbers = []) (ended_eq : ended = [])

structure Recorded (base : ℕ) (s : UtilityClient) : Prop where
  base_le : base ≤ s.log.length
  nonneg : ∀ e ∈ endedQueries base s, 0 ≤ e.1
  stored : ∀ e ∈ endedQueries base s, s.allQueryResults[e.1.toNat]? = some e.2

/-- The invariant of a batch: while a query is in progress one timeout is set. -/
structure Batch (base : ℕ) (numbers : List ℤ) (s : UtilityClient) : Prop where
  recorded : Recorded base s
  progress : Progress numbers ((endedQueries base s).map Prod.fst) s
  timers : (s.timers.pending = [] ∧ (s.queryFinished = true ∨ numbers = [])) ∨
    (s.queryFinished = false ∧
      ∃ delay, s.timers.pending = [(s.queryTimeoutTimer, ⟨delay, s.queryNum⟩)])

def batchQueue (queries : List QueryRequest) : List QueryRequest :=
  queries.foldl (fun pending query =>
    pending.orderedInsert (·.queryNumber ≤ ·.queryNumber) query) []

def batchNumbers (queries : List QueryRequest) : List ℤ :=
  (batchQueue queries).map QueryRequest.queryNumber

section Order

theorem batchQueue_concat (queries : List QueryRequest) (query : QueryRequest) :
    batchQueue (queries ++ [query]) =
      (batchQueue queries).orderedInsert (·.queryNumber ≤ ·.queryNumber) query := by
  simp [batchQueue]

theorem batchQueue_perm (queries : List QueryRequest) : (batchQueue queries).Perm queries := by
  induction queries using List.reverseRecOn with
  | nil => rfl
  | append_singleton queries query ih =>
    rw [batchQueue_concat]
    exact (List.perm_orderedInsert _ _ _).trans
      ((ih.cons query).trans (List.perm_append_singleton query queries).symm)

theorem batchNumbers_perm (queries : List QueryRequest) :
    (batchNumbers queries).Perm (queries.map QueryRequest.queryNumber) :=
  (batchQueue_perm queries).map _

instance : Std.Total fun a b : QueryRequest => a.queryNumber ≤ b.queryNumber :=
  ⟨fun a b => le_total a.queryNumber b.queryNumber⟩

instance : IsTrans QueryRequest fun a b => a.queryNumber ≤ b.queryNumber :=
  ⟨fun _ _ _ => le_trans⟩

theorem batchQueue_pairwise (queries : List QueryRequest) :
    (batchQueue queries).Pairwise fun a b => a.queryNumber ≤ b.queryNumber := by
  induction queries using List.reverseRecOn with
  | nil => exact List.Pairwise.nil
  | append_singleton queries query ih =>
    rw [batchQueue_concat]
    exact ih.orderedInsert _ _

theorem batchNumbers_ascending {queries : List QueryRequest}
    (hdistinct : (queries.map QueryRequest.queryNumber).Nodup) :
    (batchNumbers queries).Pairwise (· < ·) := by
  have hle : (batchNumbers queries).Pairwise (· ≤ ·) :=
    List.pairwise_map.mpr (batchQueue_pairwise queries)
  have hne : (batchNumbers queries).Pairwise (· ≠ ·) :=
    (batchNumbers_perm queries).nodup_iff.mpr hdistinct
  exact hle.imp₂ (fun _ _ h hn => lt_of_le_of_ne h hn) hne

end Order

variable {cfg : UtilityConfig} {base : ℕ} {numbers : List ℤ} {s t : UtilityClient}

theorem Progress.congr {ended : List ℤ} (h : Progress numbers ended s)
    (hfin : t.queryFinished = s.queryFinished) (hnum : t.queryNum = s.queryNum)
    (hpending : t.pendingBatchQueries = s.pendingBatchQueries) : Progress numbers ended t := by
  cases h with
  | completed finished pending numbers_eq =>
    exact .completed (hfin.trans finished) (hpending.trans pending) numbers_eq
  | running unfinished numbers_eq =>
    exact .running (hfin.trans unfinished) (by rw [hnum, hpending, numbers_eq])
  | unstarted unfinished negative pending none ended_eq =>
    exact .unstarted (hfin.trans unfinished) (hnum ▸ negative) (hpending.trans pending) none
      ended_eq

theorem endedQueries_append (hbase : base ≤ s.log.length) (ext : List UtilityAction)
    (hlog : t.log = s.log ++ ext) :
    endedQueries base t = endedQueries base s ++ ext.filterMap endEntry := by
  rw [endedQueries, hlog, List.drop_append_of_le_length hbase, List.filterMap_append]
  rfl

theorem Recorded.append (hs : Recorded base s) {ext : List UtilityAction}
    (hlog : t.log = s.log ++ ext) (hext : ext.filterMap endEntry = [])
    (hall : t.allQueryResults = s.allQueryResults) :
    Recorded base t ∧ endedQueries base t = endedQueries base s := by
  have hended : endedQueries base t = endedQueries base s := by
    rw [endedQueries_append hs.base_le ext hlog, hext, List.append_nil]
  refine ⟨⟨?_, hended ▸ hs.nonneg, ?_⟩, hended⟩
  · rw [hlog, List.length_append]
    exact hs.base_le.trans (Nat.le_add_right _ _)
  · rw [hended, hall]
    exact hs.stored

theorem Recorded.ended (hs : Recorded base s) (hq : 0 ≤ s.queryNum)
    (hnew : s.queryNum ∉ (endedQueries base s).map Prod.fst)
    (result : Option (List FixedPoint)) :
    Recorded base (s.ended result) ∧
      endedQueries base (s.ended result) = endedQueries base s ++ [(s.queryNum, result)] := by
  have hended : endedQueries base (s.ended result) =
      endedQueries base s ++ [(s.queryNum, result)] :=
    endedQueries_append hs.base_le [.endQuery s.queryNum s.currQueryResults result] rfl
  refine ⟨⟨?_, ?_, ?_⟩, hended⟩
  · exact hs.base_le.trans (by simp [UtilityClient.ended])
  · rw [hended]
    intro e he
    rcases List.mem_append.mp he with he | he
    · exact hs.nonneg e he
    · rw [List.mem_singleton.mp he]
      exact hq
  · rw [hended]
    intro e he
    rcases List.mem_append.mp he with he | he
    · have hne : e.1.toNat ≠ s.queryNum.toNat := by
        intro heq
        have hsame : e.1 = s.queryNum := by
          have := hs.nonneg e he
          omega
        exact hnew (hsame ▸ List.mem_map_of_mem he)
      exact storeResult_get_of_ne result hne (hs.stored e he)
    · rw [List.mem_singleton.mp he]
      exact storeResult_get_self _ _ _

theorem batch_start (hs : Recorded base s) (htimers : s.timers.pending = [])
    {query : QueryRequest}
    (hnumbers : (endedQueries base s).map Prod.fst ++ query.queryNumber ::
      s.pendingBatchQueries.map QueryRequest.queryNumber = numbers) :
    Batch base numbers (s.startQuery cfg query) := by
  have hext : (startEntries cfg query).filterMap endEntry = [] := by
    refine List.filterMap_eq_nil_iff.mpr fun a ha => ?_
    rcases mem_startEntries ha with rfl | ⟨meterId, rfl⟩ <;> rfl
  obtain ⟨hrecorded, hended⟩ := hs.append (t := s.startQuery cfg query)
    (by rw [startQuery_eq]) hext (by rw [startQuery_eq])
  refine ⟨hrecorded, ?_, ?_⟩
  · rw [hended, startQuery_eq]
    exact .running rfl hnumbers
  · rw [startQuery_eq]
    exact Or.inr ⟨rfl, roundsForQuery cfg * networkRoundtripTimeout, by simp [htimers]⟩

theorem batch_end (hs : Recorded base s) (htimers : s.timers.pending = [])
    (hprogress : Progress numbers ((endedQueries base s).map Prod.fst) s)
    (hascending : numbers.Pairwise (· < ·)) (hunfinished : s.queryFinished = false)
    (hq : 0 ≤ s.queryNum) (result : Option (List FixedPoint)) :
    Batch base numbers ((s.ended result).startNextQuery cfg) := by
  cases hprogress with
  | completed finished _ _ => simp [finished] at hunfinished
  | unstarted _ negative _ _ _ => omega
  | running _ numbers_eq =>
    have hnew : s.queryNum ∉ (endedQueries base s).map Prod.fst := by
      intro hmem
      rw [← numbers_eq, List.pairwise_append] at hascending
      exact lt_irrefl _ (hascending.2.2 _ hmem _ (by simp))
    obtain ⟨hrecorded, hended⟩ := hs.ended hq hnew result
    cases hp : s.pendingBatchQueries with
    | nil =>
      rw [startNextQuery_nil (s := s.ended result) hp]
      refine ⟨hrecorded, .completed rfl hp ?_, Or.inl ⟨htimers, Or.inl rfl⟩⟩
      rw [hended, ← numbers_eq, hp]
      simp
    | cons next rest =>
      rw [startNextQuery_cons (s := s.ended result) hp]
      refine batch_start (s := { s.ended result with pendingBatchQueries := rest })
        ⟨hrecorded.base_le, hrecorded.nonneg, hrecorded.stored⟩ htimers ?_
      rw [← numbers_eq, hp]
      change (endedQueries base (s.ended result)).map Prod.fst ++ _ = _
      rw [hended]
      simp

theorem batch_wait (hs : Recorded base s) (htimers : s.timers.pending = [])
    (hprogress : Progress numbers ((endedQueries base s).map Prod.fst) s) :
    Batch base numbers (continueWaiting cfg s) := by
  unfold continueWaiting
  split_ifs with hfin
  · exact ⟨hs, hprogress, Or.inl ⟨htimers, Or.inl hfin⟩⟩
  · have hunfinished : s.queryFinished = false := by simpa using hfin
    exact ⟨⟨hs.base_le, hs.nonneg, hs.stored⟩, hprogress.congr rfl rfl rfl,
      Or.inr ⟨hunfinished, computeTimeoutTime cfg, by simp [setQueryTimeout, htimers]⟩⟩

theorem Batch.batchSound {queries : List QueryRequest}
    (hdistinct : (queries.map QueryRequest.queryNumber).Nodup)
    (hs : Batch base (batchNumbers queries) s) : BatchSound base queries s := by
  have hascending := batchNumbers_ascending hdistinct
  have hmem : ∀ q, q ∈ batchNumbers queries ↔ q ∈ queries.map QueryRequest.queryNumber :=
    fun q => (batchNumbers_perm queries).mem_iff
  have hprefix : ∃ remaining,
      (endedQueries base s).map Prod.fst ++ remaining = batchNumbers queries ∧
        (s.queryFinished = true ∨ batchNumbers queries = [] → remaining = []) := by
    cases hs.progress with
    | completed _ _ numbers_eq => exact ⟨[], by simpa using numbers_eq, fun _ => rfl⟩
    | running unfinished numbers_eq =>
      refine ⟨_, numbers_eq, fun h => ?_⟩
      simp [unfinished, ← numbers_eq] at h
    | unstarted _ _ _ none ended_eq => exact ⟨[], by simp [none, ended_eq], fun _ => rfl⟩
  obtain ⟨remaining, hnumbers, hremaining⟩ := hprefix
  refine ⟨?_, ?_, ?_, ?_, hs.recorded.stored⟩
  · exact hs.timers.imp And.left fun ⟨hfin, delay, h⟩ => ⟨hfin, _, delay, h⟩
  · rw [← hnumbers, List.pairwise_append] at hascending
    exact hascending.1
  · intro e he
    rw [← hmem, ← hnumbers]
    exact List.mem_append_left _ (List.mem_map_of_mem he)
  · intro htimers query hquery
    have hdone : s.queryFinished = true ∨ batchNumbers queries = [] := by
      rcases hs.timers with h | ⟨-, delay, h⟩
      · exact h.2
      · simp [htimers] at h
    rw [← List.append_nil ((endedQueries base s).map Prod.fst), ← hremaining hdone, hnumbers, hmem]
    exact List.mem_map_of_mem hquery

theorem batch_startQueries (hs : s.Idle) (cfg : UtilityConfig) (queries : List QueryRequest) :
    Batch s.log.length (batchNumbers queries) (s.startQueries cfg queries) := by
  have hended : endedQueries s.log.length s = [] := by simp [endedQueries]
  have hrecorded : Recorded s.log.length s := ⟨le_rfl, by simp [hended], by simp [hended]⟩
  unfold startQueries
  split_ifs with hqueries
  · subst hqueries
    refine ⟨hrecorded, ?_, Or.inl ⟨hs.timers, Or.inr rfl⟩⟩
    rw [hended]
    cases hfin : s.queryFinished with
    | true => exact .completed hfin hs.pending rfl
    | false =>
      exact .unstarted hfin (hs.finished.resolve_left (by simp [hfin])) hs.pending rfl rfl
  · rw [hs.pending]
    change Batch _ _ (startNextQuery cfg { s with pendingBatchQueries := batchQueue queries })
    cases hqueue : batchQueue queries with
    | nil =>
      have hnil := (batchQueue_perm queries).symm
      rw [hqueue] at hnil
      exact absurd hnil.eq_nil hqueries
    | cons first rest =>
      rw [startNextQuery_cons rfl]
      refine batch_start (s := { s with pendingBatchQueries := rest })
        ⟨hrecorded.base_le, hrecorded.nonneg, hrecorded.stored⟩ hs.timers ?_
      change (endedQueries s.log.length s).map Prod.fst ++ _ = _
      rw [hended, batchNumbers, hqueue]
      rfl

theorem endsQuery_unfinished (h : s.endsQuery cfg = true) : s.queryFinished = false := by
  simp only [endsQuery, Bool.and_eq_true, Bool.not_eq_true'] at h
  exact h.1

theorem endQuery_nonneg (h : 0 ≤ s.queryNum) (π : IterationOrder) : endQuery cfg π s =
    .done ((s.ended (selectResult cfg π s.currQueryResults)).startNextQuery cfg) := by
  rw [endQuery_eq, if_neg (not_lt.mpr h)]

theorem Batch.receive (hs : Batch base numbers s) (message : AggregationMessage) :
    Recorded base (s.receive message) ∧ (s.receive message).timers.pending = [] ∧
      Progress numbers ((endedQueries base (s.receive message)).map Prod.fst)
        (s.receive message) := by
  obtain ⟨hrecorded, hended⟩ := hs.recorded.append (t := s.receive message) rfl
    (rfl : [UtilityAction.receiveResult message].filterMap endEntry = []) rfl
  refine ⟨hrecorded, ?_, ?_⟩
  · rcases hs.timers with ⟨h, -⟩ | ⟨-, delay, h⟩
    · exact Timers.cancel_pending_nil h _
    · exact Timers.cancel_pending_singleton h
  · rw [hended]
    exact hs.progress.congr rfl rfl rfl

theorem Batch.expire (hs : Batch base numbers s) {id : ℤ} (hid : s.timers.isPending id = true) :
    s.queryFinished = false ∧ Recorded base (s.cancelTimer id) ∧
      (s.cancelTimer id).timers.pending = [] ∧
      Progress numbers ((endedQueries base (s.cancelTimer id)).map Prod.fst)
        (s.cancelTimer id) := by
  obtain ⟨payload, hmem⟩ := Timers.isPending_iff.mp hid
  rcases hs.timers with ⟨h, -⟩ | ⟨hfin, delay, h⟩
  · simp [h] at hmem
  · rw [h, List.mem_singleton, Prod.mk.injEq] at hmem
    exact ⟨hfin, ⟨hs.recorded.base_le, hs.recorded.nonneg, hs.recorded.stored⟩,
      hmem.1 ▸ Timers.cancel_pending_singleton h, hs.progress.congr rfl rfl rfl⟩

/-- A safe step keeps the invariant, and no handler stops part-way. -/
theorem batch_step (hascending : numbers.Pairwise (· < ·))
    {o : Outcome Fault UtilityClient} (ho : o.Ends (Batch base numbers) fun _ => False)
    {e : BatchEvent} (hsafe : SafeEnd cfg o e) :
    (batchStep cfg o e).Ends (Batch base numbers) fun _ => False := by
  cases o with
  | halted error s => exact ho
  | done s =>
    have hs : Batch base numbers s := ho
    cases e with
    | result π message =>
      obtain ⟨hrecorded, htimers, hprogress⟩ := hs.receive message
      change (handleAggregationMessage cfg π message s).Ends _ _
      rw [handleAggregationMessage_eq]
      split_ifs with hends
      · obtain ⟨hq, hpending⟩ := hsafe hends
        rw [endQuery_nonneg (s := s.receive message) hq]
        have hbatch : Batch base numbers (((s.receive message).ended
            (selectResult cfg π (s.receive message).currQueryResults)).startNextQuery cfg) :=
          batch_end hrecorded htimers hprogress hascending (endsQuery_unfinished hends) hq _
        rw [startNextQuery_nil (s := (s.receive message).ended _) hpending] at hbatch ⊢
        exact hbatch
      · exact batch_wait hrecorded htimers hprogress
    | signatureRequest message =>
      change Batch base numbers (handleSignatureRequest cfg message s)
      unfold handleSignatureRequest
      split_ifs
      · exact hs
      · obtain ⟨hrecorded, hended⟩ := hs.recorded.append
          (t := { s.act (.sendSignature ⟨utilityNodeId, cfg.crypto.rsaSignEncrypted message.body⟩
            message.senderId) with
              currQueryMetersSigned := message.senderId :: s.currQueryMetersSigned })
          rfl (rfl : [UtilityAction.sendSignature _ _].filterMap endEntry = []) rfl
        exact ⟨hrecorded, hended ▸ hs.progress.congr rfl rfl rfl, hs.timers⟩
    | timerExpires π id =>
      change (handle cfg s (.timerExpires π id)).Ends _ _
      simp only [handle]
      split_ifs with hid
      · obtain ⟨hfin, hrecorded, htimers, hprogress⟩ := hs.expire hid
        rw [endQuery_nonneg (s := s.cancelTimer id) (hsafe hid)]
        exact batch_end hrecorded htimers hprogress hascending hfin (hsafe hid) _
      · exact hs

/-- A step that keeps the batch sound was safe: an arrival that ends a query of which
others wait sets a second timeout over that of the next one. -/
theorem safeEnd_of_batchSound {queries : List QueryRequest} {o : Outcome Fault UtilityClient}
    (ho : o.Ends (Batch base numbers) fun _ => False) {e : BatchEvent}
    (hnext : (batchStep cfg o e).Ends (BatchSound base queries) fun _ => False) :
    SafeEnd cfg o e := by
  cases o with
  | halted error s => exact absurd ho id
  | done s =>
    have hs : Batch base numbers s := ho
    cases e with
    | signatureRequest message => trivial
    | timerExpires π id =>
      simp only [SafeEnd, Outcome.state_done]
      intro hid
      by_contra hq
      have hnegative : (s.cancelTimer id).queryNum < 0 := not_le.mp hq
      simp only [batchStep, BatchEvent.toEvent, step, Outcome.done_andThen, handle] at hnext
      rw [if_pos hid, endQuery_eq, if_pos hnegative] at hnext
      exact hnext
    | result π message =>
      simp only [SafeEnd, Outcome.state_done]
      intro hends
      obtain ⟨-, htimers, -⟩ := hs.receive message
      change (handleAggregationMessage cfg π message s).Ends _ _ at hnext
      rw [handleAggregationMessage_eq, if_pos hends] at hnext
      have hq : 0 ≤ (s.receive message).queryNum := by
        by_contra hq
        rw [endQuery_eq, if_pos (not_le.mp hq)] at hnext
        exact hnext
      refine ⟨hq, ?_⟩
      rw [endQuery_nonneg hq] at hnext
      cases hp : s.pendingBatchQueries with
      | nil => rfl
      | cons next rest =>
        rw [startNextQuery_cons (s := (s.receive message).ended _) hp, startQuery_eq] at hnext
        have htwo := BatchSound.oneTimer hnext
        simp [continueWaiting, setQueryTimeout, ended, htimers] at htwo

/-- A batch of distinct queries, started while the client is idle, stays sound at
every moment of a run exactly when each of its steps is a `SafeEnd`. -/
theorem batch_sound_iff (cfg : UtilityConfig) (s : UtilityClient) (queries : List QueryRequest)
    (es : List BatchEvent) (hs : s.Idle)
    (hdistinct : (queries.map QueryRequest.queryNumber).Nodup) :
    Throughout (batchStep cfg)
        (fun o => o.Ends (BatchSound s.log.length queries) fun _ => False)
        (step cfg (.done s) (.startQueries queries)) es ↔
      Along (batchStep cfg) (SafeEnd cfg) (step cfg (.done s) (.startQueries queries)) es :=
  throughout_iff_along
    (I := fun o => o.Ends (Batch s.log.length (batchNumbers queries)) fun _ => False)
    (batch_startQueries hs cfg queries)
    (fun _ ho => ho.mono (fun _ h => h.batchSound hdistinct) fun _ h => h)
    (fun _ _ ho hsafe => batch_step (batchNumbers_ascending hdistinct) ho hsafe)
    fun _ _ ho hnext => safeEnd_of_batchSound ho hnext

section TwoQueries

def batchConfig : UtilityConfig := ⟨.ct, 4, 1, dummyCrypto⟩

def twoQueries : List QueryRequest := [⟨.currUsageSum, 1, 1⟩, ⟨.currUsageSum, 1, 0⟩]

def batchResult (senderId queryNum : ℤ) : BatchEvent :=
  .result .insertion (.make senderId queryNum [4])

/-- The first query ends at its timeout, the second with its last result. -/
theorem timed_out_batch_sound :
    Throughout (batchStep batchConfig)
      (fun o => o.Ends (BatchSound init.log.length twoQueries) fun _ => False)
      (step batchConfig (.done init) (.startQueries twoQueries))
      [batchResult 0 0, .timerExpires .insertion 1, batchResult 0 1, batchResult 2 1] := by
  refine (batch_sound_iff batchConfig init twoQueries _ ⟨rfl, rfl, Or.inr (by decide)⟩
    (by decide)).mpr ⟨?_, ?_, ?_, ?_, trivial⟩
  all_goals
    intro h
    revert h
    decide +kernel

/-- The last result of query 0 leaves two timeouts set for query 1. -/
theorem answered_batch_has_two_timers :
    ¬ Throughout (batchStep batchConfig)
      (fun o => o.Ends (BatchSound init.log.length twoQueries) fun _ => False)
      (step batchConfig (.done init) (.startQueries twoQueries))
      [batchResult 0 0, batchResult 2 0] := by
  intro h
  have htimers := (Outcome.holds_iff.mp (h.last.mono (fun _ hs => hs.oneTimer)
    fun _ hs => absurd hs id))
  have hlength : ([batchResult 0 0, batchResult 2 0].foldl (batchStep batchConfig)
      (step batchConfig (.done init) (.startQueries twoQueries))).state.timers.pending.length =
        2 := by decide +kernel
  rcases htimers with htimers | ⟨-, id, delay, htimers⟩ <;>
    · rw [htimers] at hlength
      simp at hlength

end TwoQueries

end Pddm.UtilityClient
