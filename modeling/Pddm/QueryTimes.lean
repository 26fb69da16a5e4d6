import Pddm.QuerySchedule
import Pddm.UtilityBatch

/-!
# The times of the queries of a simulation

While a simulation runs the utility starts the queries that were planned, and the simulator
records for each query that has finished how long it took.
-/
namespace Pddm.Simulation
open UtilityClient (BatchEvent batchStep endEntry)

/-- What reaches the utility: the next batch that was planned, or what can reach it meanwhile. -/
inductive UtilityEvent
  | nextStart
  | client (e : BatchEvent)

/-- The batches that are still to come, and the utility. -/
abbrev QueryRun := List QueryStart × Outcome Fault UtilityClient

def queryStep (cfg : UtilityConfig) (r : QueryRun) : UtilityEvent → QueryRun
  | .nextStart =>
      match r.1 with
      | [] => r
      | start :: remaining =>
          (remaining, UtilityClient.step cfg r.2 (.startQueries start.queries))
  | .client e => (r.1, batchStep cfg r.2 e)

def queryRun (cfg : UtilityConfig) (s : QuerySchedule) (es : List UtilityEvent) : QueryRun :=
  es.foldl (queryStep cfg) (s.starts, .done .init)

def endedNumbers (s : UtilityClient) : List ℤ := (s.log.filterMap endEntry).map Prod.fst

/-- The calls of `query_finished_callback`, each with the time at which it is made. -/
def finishedAt (clock : ℕ → ℤ) (s : UtilityClient) : List (ℤ × ℤ) :=
  (endedNumbers s).mapIdx fun i queryNum => (queryNum, clock i)

namespace QuerySchedule

def resize (n : ℕ) (times : List ℤ) : List ℤ :=
  times.take n ++ List.replicate (n - times.length) 0

/-- A number that is in none of the maps has no entry to read. -/
def queryFinishedCallback (s : QuerySchedule) (times : List ℤ) (finished : ℤ × ℤ) :
    Except Fault (List ℤ) :=
  match s.startTime finished.1 with
  | none => .error .undefinedBehaviour
  | some queryStartTime =>
      writeAt (resize (finished.1 + 1).toNat times) finished.1 (finished.2 - queryStartTime)

def queryRoundTripTimes (s : QuerySchedule) (finished : List (ℤ × ℤ)) : Except Fault (List ℤ) :=
  finished.foldlM s.queryFinishedCallback []

/-- How long the query took until it finished last; nothing if it never did. -/
def lastTime (s : QuerySchedule) (finished : List (ℤ × ℤ)) (queryNum : ℤ) : ℤ :=
  match (finished.filter fun f => f.1 = queryNum).getLast? with
  | none => 0
  | some f => f.2 - (s.startTime queryNum).getD 0

end QuerySchedule

section Orders
variable {cfg : UtilityConfig} {count : ℤ} {remaining : List QueryStart} {s t : UtilityClient}

/-- Queries wait in the order of their numbers, and finish in this order. -/
structure InOrder (count : ℤ) (remaining : List QueryStart) (s : UtilityClient) : Prop where
  waiting : (s.pendingBatchQueries ++ remaining.flatMap QueryStart.queries).Pairwise
    fun q q' => q.queryNumber < q'.queryNumber
  later : ∀ q ∈ s.pendingBatchQueries ++ remaining.flatMap QueryStart.queries,
    s.queryNum < q.queryNumber ∧ 0 ≤ q.queryNumber ∧ q.queryNumber < count
  current : s.queryNum < count
  ended : (endedNumbers s).Pairwise (· ≤ ·)
  past : ∀ queryNum ∈ endedNumbers s, 0 ≤ queryNum ∧ queryNum ≤ s.queryNum

theorem InOrder.frame (h : InOrder count remaining s) (hnum : t.queryNum = s.queryNum)
    (hpending : t.pendingBatchQueries = s.pendingBatchQueries)
    (hended : endedNumbers t = endedNumbers s) : InOrder count remaining t where
  waiting := by rw [hpending]; exact h.waiting
  later := by rw [hpending, hnum]; exact h.later
  current := by rw [hnum]; exact h.current
  ended := by rw [hended]; exact h.ended
  past := by rw [hended, hnum]; exact h.past

theorem InOrder.tail {start : QueryStart} (h : InOrder count (start :: remaining) s) :
    InOrder count remaining s := by
  have hsub : (s.pendingBatchQueries ++ remaining.flatMap QueryStart.queries).Sublist
      (s.pendingBatchQueries ++ (start :: remaining).flatMap QueryStart.queries) := by
    simp
  exact { h with
    waiting := h.waiting.sublist hsub
    later := fun q hq => h.later q (hsub.subset hq) }

theorem endedNumbers_append (s : UtilityClient) (actions : List UtilityAction)
    (h : ∀ a ∈ actions, endEntry a = none) :
    (s.log ++ actions).filterMap endEntry = s.log.filterMap endEntry := by
  rw [List.filterMap_append, List.filterMap_eq_nil_iff.mpr h, List.append_nil]

theorem endedNumbers_startQuery (cfg : UtilityConfig) (query : QueryRequest) (s : UtilityClient) :
    endedNumbers (s.startQuery cfg query) = endedNumbers s := by
  unfold endedNumbers
  rw [UtilityClient.startQuery_eq]
  dsimp only
  rw [endedNumbers_append]
  intro a ha
  rcases UtilityClient.mem_startEntries ha with rfl | ⟨meterId, rfl⟩ <;> rfl

theorem InOrder.startNextQuery (h : InOrder count remaining s) :
    InOrder count remaining (s.startNextQuery cfg) := by
  cases hpending : s.pendingBatchQueries with
  | nil => rwa [UtilityClient.startNextQuery_nil hpending]
  | cons next rest =>
    rw [UtilityClient.startNextQuery_cons hpending]
    obtain ⟨hwaiting, hlater, hcurrent, hended, hpast⟩ := h
    rw [hpending, List.cons_append] at hwaiting hlater
    obtain ⟨hnext, hwaiting⟩ := List.pairwise_cons.mp hwaiting
    obtain ⟨hless, hnonneg, hlt⟩ := hlater next (by simp)
    have hnumbers : endedNumbers ({ s with pendingBatchQueries := rest }.startQuery cfg next) =
        endedNumbers s := endedNumbers_startQuery cfg next _
    constructor
    · rwa [UtilityClient.startQuery_eq]
    · rw [UtilityClient.startQuery_eq]
      intro q hq
      exact ⟨hnext q hq, (hlater q (List.mem_cons_of_mem _ hq)).2⟩
    · rwa [UtilityClient.startQuery_eq]
    · rwa [hnumbers]
    · rw [hnumbers, UtilityClient.startQuery_eq]
      exact fun queryNum hnum => ⟨(hpast queryNum hnum).1, (hpast queryNum hnum).2.trans hless.le⟩

theorem InOrder.endQuery (h : InOrder count remaining s) (π : IterationOrder) :
    (UtilityClient.endQuery cfg π s).Holds (InOrder count remaining) := by
  rw [UtilityClient.endQuery_eq]
  split_ifs with hnegative
  · exact h.frame rfl rfl rfl
  · apply InOrder.startNextQuery
    have hnumbers (result : Option (List FixedPoint)) :
        endedNumbers (s.ended result) = endedNumbers s ++ [s.queryNum] := by
      simp [endedNumbers, UtilityClient.ended, endEntry]
    constructor
    · exact h.waiting
    · exact h.later
    · exact h.current
    · rw [hnumbers]
      refine List.pairwise_append.mpr ⟨h.ended, List.pairwise_singleton _ _, ?_⟩
      intro queryNum hnum last hlast
      obtain rfl := List.mem_singleton.mp hlast
      exact (h.past queryNum hnum).2
    · intro queryNum hnum
      rw [hnumbers] at hnum
      rcases List.mem_append.mp hnum with hnum | hnum
      · exact h.past queryNum hnum
      · obtain rfl := List.mem_singleton.mp hnum
        exact ⟨not_lt.mp hnegative, le_rfl⟩

theorem InOrder.client (h : InOrder count remaining s) (e : BatchEvent) :
    (UtilityClient.handle cfg s e.toEvent).Holds (InOrder count remaining) := by
  cases e with
  | result π message =>
    have hreceive : InOrder count remaining (s.receive message) :=
      h.frame rfl rfl (by simp [endedNumbers, UtilityClient.receive, endEntry])
    have hfirst : (if (s.receive message).endsQuery cfg then
        UtilityClient.endQuery cfg π (s.receive message) else .done (s.receive message)).Holds
          (InOrder count remaining) := by
      split_ifs
      · exact hreceive.endQuery π
      · exact hreceive
    refine hfirst.andThen fun t ht => ?_
    unfold UtilityClient.continueWaiting
    split_ifs
    · exact ht
    · exact ht.frame rfl rfl rfl
  | signatureRequest message =>
    simp only [BatchEvent.toEvent, UtilityClient.handle, UtilityClient.handleSignatureRequest]
    split_ifs
    · exact h
    · exact h.frame rfl rfl (by simp [endedNumbers, UtilityClient.act, endEntry])
  | timerExpires π id =>
    simp only [BatchEvent.toEvent, UtilityClient.handle]
    split_ifs
    · have hcancelled : InOrder count remaining (s.cancelTimer id) := h.frame rfl rfl rfl
      exact hcancelled.endQuery π
    · exact h

/-- Later numbers join the queue at its end. -/
theorem foldl_orderedInsert (pending queries : List QueryRequest)
    (h : (pending ++ queries).Pairwise fun q q' => q.queryNumber < q'.queryNumber) :
    queries.foldl (fun pending query =>
      pending.orderedInsert (·.queryNumber ≤ ·.queryNumber) query) pending =
        pending ++ queries := by
  induction queries generalizing pending with
  | nil => simp
  | cons query queries ih =>
    have hinsert : pending.orderedInsert (·.queryNumber ≤ ·.queryNumber) query =
        pending ++ [query] := by
      have hlast : ∀ q ∈ pending, q.queryNumber < query.queryNumber :=
        fun q hq => (List.pairwise_append.mp h).2.2 q hq query (by simp)
      clear h ih
      induction pending with
      | nil => rfl
      | cons q pending ih =>
        have hq := hlast q (by simp)
        rw [List.orderedInsert, if_neg (not_le.mpr hq), ih fun q' hq' => hlast q' (by simp [hq']),
          List.cons_append]
    rw [List.foldl_cons, hinsert, ih]
    · simp
    · simpa using h

theorem InOrder.startQueries {start : QueryStart} (h : InOrder count (start :: remaining) s) :
    InOrder count remaining (s.startQueries cfg start.queries) := by
  unfold UtilityClient.startQueries
  split_ifs
  · exact h.tail
  · apply InOrder.startNextQuery
    have hwaiting := h.waiting
    have hlater := h.later
    rw [List.flatMap_cons, ← List.append_assoc] at hwaiting hlater
    rw [foldl_orderedInsert _ _ (hwaiting.sublist (List.sublist_append_left _ _))]
    exact
      { waiting := hwaiting
        later := hlater
        current := h.current
        ended := h.ended
        past := h.past }

/-- What holds of the utility and of the batches to come. -/
def RunsInOrder (count : ℤ) (r : QueryRun) : Prop := r.2.Holds (InOrder count r.1)

theorem RunsInOrder.step {r : QueryRun} (h : RunsInOrder count r) (e : UtilityEvent) :
    RunsInOrder count (queryStep cfg r e) := by
  obtain ⟨remaining, o⟩ := r
  cases e with
  | nextStart =>
    cases remaining with
    | nil => exact h
    | cons start remaining =>
      cases o with
      | done s => exact InOrder.startQueries h
      | halted fault s => exact InOrder.tail h
  | client e =>
    cases o with
    | done s => exact InOrder.client h e
    | halted fault s => exact h

theorem RunsInOrder.run {r : QueryRun} (h : RunsInOrder count r) (es : List UtilityEvent) :
    RunsInOrder count (es.foldl (queryStep cfg) r) := by
  induction es generalizing r with
  | nil => exact h
  | cons e es ih => exact ih (h.step e)

end Orders

namespace QuerySchedule
variable {s : QuerySchedule} {finished : List (ℤ × ℤ)}

/-- What is recorded once these queries have finished. -/
structure Records (s : QuerySchedule) (finished : List (ℤ × ℤ)) (times : List ℤ) : Prop where
  value : ∀ i : ℕ, times.getD i 0 = s.lastTime finished i
  length : ∀ k : ℤ, -1 ≤ k → (∀ f ∈ finished, f.1 ≤ k) → (times.length : ℤ) ≤ k + 1

theorem lastTime_concat (s : QuerySchedule) (finished : List (ℤ × ℤ)) (f : ℤ × ℤ) (queryNum : ℤ) :
    s.lastTime (finished ++ [f]) queryNum =
      if f.1 = queryNum then f.2 - (s.startTime queryNum).getD 0
      else s.lastTime finished queryNum := by
  unfold lastTime
  split_ifs with heq <;> simp [heq]

theorem Records.callback {times : List ℤ} (h : s.Records finished times) {f : ℤ × ℤ}
    (hnonneg : 0 ≤ f.1) (hlast : ∀ f' ∈ finished, f'.1 ≤ f.1) {start : ℤ}
    (hstart : s.startTime f.1 = some start) :
    ∃ times', s.queryFinishedCallback times f = .ok times' ∧
      s.Records (finished ++ [f]) times' := by
  obtain ⟨k, hk⟩ := Int.eq_ofNat_of_zero_le hnonneg
  have hlength : times.length ≤ k + 1 := by
    have hle := h.length f.1 (by omega) hlast
    omega
  have hresize : resize (f.1 + 1).toNat times =
      times ++ List.replicate (k + 1 - times.length) 0 := by
    have hn : (f.1 + 1).toNat = k + 1 := by omega
    rw [resize, hn, List.take_of_length_le hlength]
  have hlen : (times ++ List.replicate (k + 1 - times.length) (0 : ℤ)).length = k + 1 := by
    simp
    omega
  refine ⟨(times ++ List.replicate (k + 1 - times.length) 0).set k (f.2 - start), ?_, ?_, ?_⟩
  · simp only [queryFinishedCallback, hstart, hresize]
    rw [writeAt, if_pos ⟨hnonneg, by omega⟩, hk]
    simp
  · intro i
    rw [lastTime_concat]
    split_ifs with heq
    · obtain rfl : k = i := by omega
      rw [← heq, hstart]
      simp [hlen]
    · have hne : k ≠ i := by omega
      rw [← h.value i]
      simp only [List.getD_eq_getElem?_getD, List.getElem?_set_ne hne, List.getElem?_append,
        List.getElem?_replicate]
      split_ifs with hlt hlt'
      · rfl
      · simp [List.getElem?_eq_none (not_lt.mp hlt)]
      · simp [List.getElem?_eq_none (not_lt.mp hlt)]
  · intro k' _ hle
    have hf := hle f (by simp)
    rw [List.length_set, hlen]
    omega

theorem exists_queryRoundTripTimes (hordered : (finished.map Prod.fst).Pairwise (· ≤ ·))
    (hknown : ∀ f ∈ finished, 0 ≤ f.1 ∧ ∃ start, s.startTime f.1 = some start) :
    ∃ times, s.queryRoundTripTimes finished = .ok times ∧ s.Records finished times := by
  induction finished using List.reverseRecOn with
  | nil =>
    refine ⟨[], rfl, ⟨fun i => rfl, fun k hk _ => ?_⟩⟩
    simp only [List.length_nil, Nat.cast_zero]
    omega
  | append_singleton finished f ih =>
    rw [List.map_append, List.pairwise_append] at hordered
    obtain ⟨times, htimes, hrecords⟩ := ih hordered.1 fun f' hf' => hknown f' (by simp [hf'])
    obtain ⟨hnonneg, start, hstart⟩ := hknown f (by simp)
    have hlast : ∀ f' ∈ finished, f'.1 ≤ f.1 :=
      fun f' hf' => hordered.2.2 _ (List.mem_map_of_mem hf') _ (by simp)
    obtain ⟨times', hcallback, hrecords'⟩ := hrecords.callback hnonneg hlast hstart
    refine ⟨times', ?_, hrecords'⟩
    rw [queryRoundTripTimes, List.foldlM_append]
    have hfirst : finished.foldlM s.queryFinishedCallback [] = .ok times := htimes
    rw [hfirst]
    simp [hcallback, ok_bind]

variable {options : Finset QueryMode} {timesteps : ℕ}

theorem flatMap_queries (s : QuerySchedule) :
    s.starts.flatMap QueryStart.queries = s.submitted.map Prod.snd := by
  simp [submitted, List.map_flatMap, Function.comp_def]

theorem Planned.numbers_range (h : Planned options timesteps s) :
    (s.starts.flatMap QueryStart.queries).map QueryRequest.queryNumber =
      (List.range s.submitted.length).map Nat.cast := by
  rw [flatMap_queries, List.map_map, ← h.numbered]
  rfl

theorem Planned.runsInOrder (h : Planned options timesteps s) (cfg : UtilityConfig)
    (es : List UtilityEvent) : RunsInOrder s.submitted.length (queryRun cfg s es) := by
  apply RunsInOrder.run
  have hnumbers := h.numbers_range
  have hascending : ((s.starts.flatMap QueryStart.queries).map QueryRequest.queryNumber).Pairwise
      (· < ·) := by
    rw [hnumbers, List.pairwise_map]
    exact List.pairwise_lt_range.imp fun hlt => by exact_mod_cast hlt
  refine InOrder.mk ?_ ?_ ?_ ?_ ?_
  · exact List.pairwise_map.mp hascending
  · intro q hq
    have hmem : q.queryNumber ∈
        (s.starts.flatMap QueryStart.queries).map QueryRequest.queryNumber :=
      List.mem_map_of_mem hq
    rw [hnumbers] at hmem
    obtain ⟨i, hi, heq⟩ := List.mem_map.mp hmem
    have hlt := List.mem_range.mp hi
    simp only [UtilityClient.init]
    omega
  · simp only [UtilityClient.init]
    omega
  · exact List.Pairwise.nil
  · intro queryNum hnum
    cases hnum

theorem Planned.exists_submitted (h : Planned options timesteps s) {queryNum : ℤ}
    (hnonneg : 0 ≤ queryNum) (hlt : queryNum < s.submitted.length) :
    ∃ start ∈ s.submitted, start.2.queryNumber = queryNum := by
  have hmem : queryNum ∈ s.submitted.map fun start => start.2.queryNumber := by
    rw [h.numbered]
    exact List.mem_map.mpr ⟨queryNum.toNat, by simp; omega, by omega⟩
  exact List.mem_map.mp hmem

/-- Whatever reaches the utility while the planned queries run, they finish in the order of their
numbers and no other query does. The simulator finds the start of each and records, without losing
another time, how long the query took. -/
theorem query_times_recorded (options : Finset QueryMode) (honly : .onlyOneQuery ∉ options)
    (timesteps : ℕ) (cfg : UtilityConfig) (es : List UtilityEvent) (clock : ℕ → ℤ) :
    (endedNumbers (queryRun cfg (setupQueries options timesteps) es).2.state).Pairwise (· ≤ ·) ∧
      (∀ queryNum ∈ endedNumbers (queryRun cfg (setupQueries options timesteps) es).2.state,
        ∃ start ∈ (setupQueries options timesteps).submitted, start.2.queryNumber = queryNum) ∧
      ∃ times, (setupQueries options timesteps).queryRoundTripTimes
          (finishedAt clock (queryRun cfg (setupQueries options timesteps) es).2.state) =
            .ok times ∧
        ∀ i : ℕ, times.getD i 0 = (setupQueries options timesteps).lastTime
          (finishedAt clock (queryRun cfg (setupQueries options timesteps) es).2.state) i := by
  have hplanned : Planned options timesteps (setupQueries options timesteps) := by
    rw [setupQueries, if_neg honly]
    exact planned_foldl options timesteps
  have horder := Outcome.holds_iff.mp (hplanned.runsInOrder cfg es)
  have hsubmitted : ∀ queryNum ∈
      endedNumbers (queryRun cfg (setupQueries options timesteps) es).2.state,
      ∃ start ∈ (setupQueries options timesteps).submitted, start.2.queryNumber = queryNum := by
    intro queryNum hmem
    obtain ⟨hnonneg, hle⟩ := horder.past queryNum hmem
    exact hplanned.exists_submitted hnonneg (hle.trans_lt horder.current)
  have hfst : (finishedAt clock (queryRun cfg (setupQueries options timesteps) es).2.state).map
      Prod.fst = endedNumbers (queryRun cfg (setupQueries options timesteps) es).2.state := by
    apply List.ext_getElem <;> simp [finishedAt]
  have hknown : ∀ f ∈ finishedAt clock (queryRun cfg (setupQueries options timesteps) es).2.state,
      0 ≤ f.1 ∧ ∃ start, (setupQueries options timesteps).startTime f.1 = some start := by
    intro f hf
    have hmem := List.mem_map_of_mem (f := Prod.fst) hf
    rw [hfst] at hmem
    obtain ⟨start, hstart, hnum⟩ := hsubmitted f.1 hmem
    exact ⟨(horder.past f.1 hmem).1, start.1, hnum ▸ hplanned.startTime hstart⟩
  obtain ⟨times, htimes, hrecords⟩ := exists_queryRoundTripTimes (hfst ▸ horder.ended) hknown
  exact ⟨horder.ended, hsubmitted, times, htimes, hrecords.value⟩

/-- The first query of the hour has not finished when the next batch starts, and never does. -/
def lateStarts : List UtilityEvent :=
  [.nextStart, .client (.timerExpires .insertion 0), .nextStart, .nextStart,
    .client (.timerExpires .insertion 1), .client (.timerExpires .insertion 2)]

def latePlan : QuerySchedule := setupQueries {.hourQueries, .halfHourQueries} 10

def lateUtility : UtilityClient :=
  (queryRun ⟨.ct, 5, 1, dummyCrypto⟩ latePlan lateStarts).2.state

theorem query_times_late : (endedNumbers lateUtility).Pairwise (· ≤ ·) ∧
    (∀ queryNum ∈ endedNumbers lateUtility,
      ∃ start ∈ latePlan.submitted, start.2.queryNumber = queryNum) ∧
    ∃ times, latePlan.queryRoundTripTimes (finishedAt (fun i => 4000000 + i) lateUtility) =
        .ok times ∧
      ∀ i : ℕ, times.getD i 0 =
        latePlan.lastTime (finishedAt (fun i => 4000000 + i) lateUtility) i :=
  query_times_recorded _ (by decide) _ _ _ _

example : finishedAt (fun i => 4000000 + i) lateUtility =
    [(0, 4000000), (2, 4000001), (3, 4000002)] := by decide

end QuerySchedule
end Pddm.Simulation
