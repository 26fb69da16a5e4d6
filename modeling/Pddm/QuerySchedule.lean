import Pddm.SimMeter

/-!
# The queries of a simulation

Before a simulation runs, the simulator plans its queries, timestep by timestep, and notes under
their numbers when they will start.
-/
namespace Pddm

namespace Timesteps

/-- The source multiplies in an `int`, which has room for the timesteps below 3580. -/
def millisecond (timestep : ℤ) : ℤ := minute timestep * 60000

theorem millisecond_natCast (timestep : ℕ) : millisecond timestep = timestep * 600000 := by
  unfold millisecond minute usageTimestepMin
  ring

theorem millisecond_fits {timestep : ℕ} (h : timestep < 3580) :
    0 ≤ millisecond timestep ∧ millisecond timestep < 2 ^ 31 := by
  rw [millisecond_natCast]
  omega

end Timesteps

namespace Simulation

inductive QueryMode
  | hourQueries
  | halfHourQueries
  | quarterHourQueries
  | onlyOneQuery
  deriving DecidableEq, Repr

/-- An event that starts queries. A batch may be empty. -/
structure QueryStart where
  time : ℤ
  queries : List QueryRequest
  deriving DecidableEq, Repr

/-- The maps from the number of a query to its start, one for each mode; the only query of a
simulation is noted with those of the hours. The next number is that of the loop. -/
structure QuerySchedule where
  hourQueryNumbers : ℤ → Option ℤ
  halfHourQueryNumbers : ℤ → Option ℤ
  quarterHourQueryNumbers : ℤ → Option ℤ
  starts : List QueryStart
  queryNumber : ℤ

def QueryMode.timeWindow : QueryMode → ℤ
  | .hourQueries | .onlyOneQuery => 60
  | .halfHourQueries => 30
  | .quarterHourQueries => 15

def QueryMode.request (mode : QueryMode) (queryNumber : ℤ) : QueryRequest :=
  ⟨.availableOffsetBreakdown, mode.timeWindow, queryNumber⟩

/-- What the queries of a mode have in common. -/
def QueryMode.kind (mode : QueryMode) : QueryType × ℤ :=
  (.availableOffsetBreakdown, mode.timeWindow)

namespace QuerySchedule

def count (options : Finset QueryMode) (mode : QueryMode) : ℤ := if mode ∈ options then 1 else 0

def initial : QuerySchedule := ⟨fun _ => none, fun _ => none, fun _ => none, [], 0⟩

def numbers (s : QuerySchedule) : QueryMode → ℤ → Option ℤ
  | .hourQueries | .onlyOneQuery => s.hourQueryNumbers
  | .halfHourQueries => s.halfHourQueryNumbers
  | .quarterHourQueries => s.quarterHourQueryNumbers

def note (mode : QueryMode) (queryNumber time : ℤ) (s : QuerySchedule) : QuerySchedule :=
  let noted := Function.update (s.numbers mode) queryNumber (some time)
  match mode with
  | .hourQueries | .onlyOneQuery => { s with hourQueryNumbers := noted }
  | .halfHourQueries => { s with halfHourQueryNumbers := noted }
  | .quarterHourQueries => { s with quarterHourQueryNumbers := noted }

def add (options : Finset QueryMode) (mode : QueryMode) (queryNumber time : ℤ)
    (batch : List QueryRequest × QuerySchedule) : List QueryRequest × QuerySchedule :=
  if mode ∈ options then
    (batch.1 ++ [mode.request queryNumber], batch.2.note mode queryNumber time)
  else batch

def submit (time : ℤ) (batch : List QueryRequest × QuerySchedule) : QuerySchedule :=
  { batch.2 with
    starts := batch.2.starts ++ [⟨time, batch.1⟩]
    queryNumber := batch.2.queryNumber + batch.1.length }

def onHour (options : Finset QueryMode) (time : ℤ) (s : QuerySchedule) : QuerySchedule :=
  let hour := add options .hourQueries s.queryNumber time ([], s)
  let halfHour :=
    add options .halfHourQueries (s.queryNumber + count options .hourQueries) time hour
  submit time (add options .quarterHourQueries
    (s.queryNumber + count options .hourQueries + count options .halfHourQueries) time halfHour)

def onHalfHour (options : Finset QueryMode) (time : ℤ) (s : QuerySchedule) : QuerySchedule :=
  let halfHour := add options .halfHourQueries s.queryNumber time ([], s)
  submit time (add options .quarterHourQueries
    (s.queryNumber + count options .halfHourQueries) time halfHour)

/-- Here the query is started by itself, and nothing is submitted without it. -/
def onQuarterHour (options : Finset QueryMode) (time : ℤ) (s : QuerySchedule) : QuerySchedule :=
  if .quarterHourQueries ∈ options then
    submit time (add options .quarterHourQueries s.queryNumber time ([], s))
  else s

def plan (options : Finset QueryMode) (s : QuerySchedule) (timestep : ℕ) : QuerySchedule :=
  let time := Timesteps.millisecond timestep + 1
  if timestep > 0 ∧ (Timesteps.minute timestep).tmod 60 = 0 then s.onHour options time
  else if timestep > 0 ∧ (Timesteps.minute timestep).tmod 30 = 0 then s.onHalfHour options time
  else if timestep > 0 ∧ (Timesteps.minute timestep).tmod 15 = 0 then s.onQuarterHour options time
  else s

/-- The only query has the number zero, whenever it is started. -/
def planOnlyOne (s : QuerySchedule) (timestep : ℕ) : QuerySchedule :=
  if Timesteps.minute timestep = 60 then
    let time := Timesteps.millisecond timestep + 1
    let noted := s.note .onlyOneQuery 0 time
    { noted with starts := noted.starts ++ [⟨time, [QueryMode.onlyOneQuery.request 0]⟩] }
  else s

/-- The part of `setup_queries` that is about queries, for a number of timesteps. -/
def setupQueries (options : Finset QueryMode) (timesteps : ℕ) : QuerySchedule :=
  if .onlyOneQuery ∈ options then (List.range timesteps).foldl planOnlyOne initial
  else (List.range timesteps).foldl (plan options) initial

/-- When the query started that a result is for, as `query_finished_callback` looks it up. -/
def startTime (queryNumber : ℤ) (s : QuerySchedule) : Option ℤ :=
  (s.hourQueryNumbers queryNumber).or
    ((s.halfHourQueryNumbers queryNumber).or (s.quarterHourQueryNumbers queryNumber))

/-- The queries with their times, in the order of their starts. -/
def submitted (s : QuerySchedule) : List (ℤ × QueryRequest) :=
  s.starts.flatMap fun start => start.queries.map fun query => (start.time, query)

def modesAt (options : Finset QueryMode) (timestep : ℕ) : List QueryMode :=
  if timestep % 6 = 0 then
    [.hourQueries, .halfHourQueries, .quarterHourQueries].filter (· ∈ options)
  else [.halfHourQueries, .quarterHourQueries].filter (· ∈ options)

/-- The queries are numbered without a gap in the order of their starts, which are the half hours.
Each is noted in the map of its mode only. -/
structure Planned (options : Finset QueryMode) (timesteps : ℕ) (s : QuerySchedule) : Prop where
  numbered : s.submitted.map (fun start => start.2.queryNumber) =
    (List.range s.submitted.length).map Nat.cast
  next : s.queryNumber = s.submitted.length
  ascending : s.starts.Pairwise fun start start' => start.time < start'.time
  starts : ∀ start ∈ s.starts, ∃ timestep < timesteps, 0 < timestep ∧ timestep % 3 = 0 ∧
    start.time = Timesteps.millisecond timestep + 1 ∧
    start.queries.map (fun query => (query.requestType, query.timeWindow)) =
      (modesAt options timestep).map QueryMode.kind
  everyHalfHour : ∀ timestep < timesteps, 0 < timestep → timestep % 3 = 0 →
    Timesteps.millisecond timestep + 1 ∈ s.starts.map QueryStart.time
  noted : ∀ mode queryNumber time, s.numbers mode queryNumber = some time ↔
    (time, mode.request queryNumber) ∈ s.submitted

section Batches
variable {options : Finset QueryMode} {s s' : QuerySchedule} {time : ℤ}

@[simp] theorem submitted_submit (time : ℤ) (batch : List QueryRequest × QuerySchedule) :
    (submit time batch).submitted =
      batch.2.submitted ++ batch.1.map fun query => (time, query) := by
  simp [submit, submitted]

@[simp] theorem note_starts (mode : QueryMode) (queryNumber time : ℤ) (s : QuerySchedule) :
    (s.note mode queryNumber time).starts = s.starts := by
  cases mode <;> rfl

@[simp] theorem note_queryNumber (mode : QueryMode) (queryNumber time : ℤ) (s : QuerySchedule) :
    (s.note mode queryNumber time).queryNumber = s.queryNumber := by
  cases mode <;> rfl

theorem note_numbers (mode mode' : QueryMode) (queryNumber queryNumber' time : ℤ)
    (s : QuerySchedule) : (s.note mode queryNumber time).numbers mode' queryNumber' =
      if mode'.timeWindow = mode.timeWindow ∧ queryNumber' = queryNumber then some time
      else s.numbers mode' queryNumber' := by
  cases mode <;> cases mode' <;>
    simp [note, numbers, QueryMode.timeWindow, Function.update_apply]

theorem request_eq_request {mode mode' : QueryMode} {queryNumber queryNumber' : ℤ} :
    mode'.request queryNumber' = mode.request queryNumber ↔
      mode'.timeWindow = mode.timeWindow ∧ queryNumber' = queryNumber := by
  simp [QueryMode.request]

/-- A batch that is being put together for a time, from the next number on. -/
structure Gathers (s : QuerySchedule) (time : ℤ) (modes : List QueryMode)
    (batch : List QueryRequest × QuerySchedule) : Prop where
  starts : batch.2.starts = s.starts
  queryNumber : batch.2.queryNumber = s.queryNumber
  numbered : batch.1.map QueryRequest.queryNumber =
    (List.range batch.1.length).map fun i : ℕ => s.queryNumber + i
  kinds : batch.1.map (fun query => (query.requestType, query.timeWindow)) =
    modes.map QueryMode.kind
  noted : ∀ mode queryNumber time', batch.2.numbers mode queryNumber = some time' ↔
    s.numbers mode queryNumber = some time' ∨ time' = time ∧ mode.request queryNumber ∈ batch.1

theorem gathers_nil (s : QuerySchedule) (time : ℤ) : Gathers s time [] ([], s) where
  starts := rfl
  queryNumber := rfl
  numbered := rfl
  kinds := rfl
  noted := by simp

def Fresh (s : QuerySchedule) : Prop :=
  ∀ mode queryNumber, s.queryNumber ≤ queryNumber → s.numbers mode queryNumber = none

variable {modes : List QueryMode} {batch : List QueryRequest × QuerySchedule}

theorem length_add (options : Finset QueryMode) (mode : QueryMode) (queryNumber time : ℤ)
    (batch : List QueryRequest × QuerySchedule) :
    ((add options mode queryNumber time batch).1.length : ℤ) =
      batch.1.length + count options mode := by
  unfold add count
  split_ifs <;> simp

theorem Gathers.add (h : Gathers s time modes batch) (hfresh : s.Fresh)
    (options : Finset QueryMode) (mode : QueryMode) (queryNumber : ℤ)
    (hnumber : queryNumber = s.queryNumber + batch.1.length) :
    Gathers s time (modes ++ [mode].filter (· ∈ options))
      (add options mode queryNumber time batch) := by
  unfold QuerySchedule.add
  split_ifs with hmode
  · constructor
    · simpa using h.starts
    · simpa using h.queryNumber
    · simp [List.range_succ, h.numbered, hnumber, QueryMode.request]
    · simp [h.kinds, hmode, QueryMode.kind, QueryMode.request]
    · intro mode' queryNumber' time'
      have hnone := hfresh mode' queryNumber (by omega)
      simp only [note_numbers, List.mem_append, List.mem_singleton, request_eq_request]
      split_ifs with hsame
      · obtain ⟨hwindow, rfl⟩ := hsame
        simp [hnone, hwindow, eq_comm]
      · simpa [hsame] using h.noted mode' queryNumber' time'
  · simpa [hmode] using h

end Batches

section Plans
variable {options : Finset QueryMode} {timesteps : ℕ} {s : QuerySchedule}

theorem planned_initial (options : Finset QueryMode) : Planned options 0 initial := by
  constructor <;> simp [initial, submitted]
  intro mode
  cases mode <;> simp [numbers]

theorem Planned.fresh (h : Planned options timesteps s) : s.Fresh := by
  intro mode queryNumber hle
  cases hnoted : s.numbers mode queryNumber with
  | none => rfl
  | some time =>
    have hmem := List.mem_map_of_mem (f := fun start => start.2.queryNumber)
      ((h.noted _ _ _).mp hnoted)
    rw [h.numbered] at hmem
    obtain ⟨i, hi, heq⟩ := List.mem_map.mp hmem
    have hlt := List.mem_range.mp hi
    rw [h.next] at hle
    simp only [QueryMode.request] at heq
    omega

theorem Planned.skip (h : Planned options timesteps s)
    (hnot : timesteps = 0 ∨ timesteps % 3 ≠ 0) : Planned options (timesteps + 1) s :=
  { h with
    starts := by
      intro start hstart
      obtain ⟨timestep, hlt, hrest⟩ := h.starts start hstart
      exact ⟨timestep, hlt.trans (Nat.lt_succ_self _), hrest⟩
    everyHalfHour := by
      intro timestep hlt hpos hthird
      exact h.everyHalfHour timestep (by grind) hpos hthird }

theorem Planned.submit (h : Planned options timesteps s)
    {batch : List QueryRequest × QuerySchedule} (hpos : 0 < timesteps)
    (hthird : timesteps % 3 = 0)
    (hbatch : Gathers s (Timesteps.millisecond timesteps + 1) (modesAt options timesteps) batch) :
    Planned options (timesteps + 1)
      (submit (Timesteps.millisecond timesteps + 1) batch) := by
  have hsubmitted : batch.2.submitted = s.submitted := by
    rw [submitted, submitted, hbatch.starts]
  constructor
  · simp only [submitted_submit, hsubmitted, List.map_append, List.map_map, List.length_append,
      List.length_map, List.range_add, h.numbered]
    congr 1
    have hnumbered := hbatch.numbered
    rw [h.next] at hnumbered
    simpa [Function.comp_def] using hnumbered
  · have hnext : (QuerySchedule.submit (Timesteps.millisecond timesteps + 1) batch).queryNumber =
        batch.2.queryNumber + batch.1.length := rfl
    rw [hnext, hbatch.queryNumber, h.next, submitted_submit, hsubmitted]
    simp
  · simp only [QuerySchedule.submit, hbatch.starts]
    refine List.pairwise_append.mpr ⟨h.ascending, List.pairwise_singleton _ _, ?_⟩
    intro start hstart start' hstart'
    obtain rfl := List.mem_singleton.mp hstart'
    obtain ⟨timestep, hlt, -, -, htime, -⟩ := h.starts start hstart
    simp only [htime, Timesteps.millisecond_natCast]
    omega
  · intro start hstart
    simp only [QuerySchedule.submit, hbatch.starts, List.mem_append, List.mem_singleton] at hstart
    rcases hstart with hstart | rfl
    · obtain ⟨timestep, hlt, hrest⟩ := h.starts start hstart
      exact ⟨timestep, hlt.trans (Nat.lt_succ_self _), hrest⟩
    · exact ⟨timesteps, Nat.lt_succ_self _, hpos, hthird, rfl, hbatch.kinds⟩
  · intro timestep hlt hpos' hthird'
    simp only [QuerySchedule.submit, hbatch.starts, List.map_append, List.mem_append]
    rcases Nat.lt_succ_iff_lt_or_eq.mp hlt with hlt | rfl
    · exact .inl (h.everyHalfHour timestep hlt hpos' hthird')
    · exact .inr (by simp)
  · intro mode queryNumber time
    have hnumbers :
        (QuerySchedule.submit (Timesteps.millisecond timesteps + 1) batch).numbers mode =
          batch.2.numbers mode := by
      cases mode <;> rfl
    rw [hnumbers, hbatch.noted, h.noted, submitted_submit, hsubmitted]
    simp [and_comm, eq_comm]

theorem Planned.onHour (h : Planned options timesteps s) (hpos : 0 < timesteps)
    (hsixth : timesteps % 6 = 0) :
    Planned options (timesteps + 1) (s.onHour options (Timesteps.millisecond timesteps + 1)) := by
  refine h.submit hpos (by omega) ?_
  have hhour := (gathers_nil s (Timesteps.millisecond timesteps + 1)).add h.fresh options
    .hourQueries s.queryNumber (by simp)
  have hhalfHour := hhour.add h.fresh options .halfHourQueries
    (s.queryNumber + count options .hourQueries) (by simp [length_add])
  have hquarterHour := hhalfHour.add h.fresh options .quarterHourQueries
    (s.queryNumber + count options .hourQueries + count options .halfHourQueries)
    (by simp [length_add, add_assoc])
  rw [modesAt, if_pos hsixth]
  simpa only [List.nil_append, ← List.filter_append, List.cons_append] using hquarterHour

theorem Planned.onHalfHour (h : Planned options timesteps s) (hpos : 0 < timesteps)
    (hthird : timesteps % 3 = 0) (hsixth : timesteps % 6 ≠ 0) :
    Planned options (timesteps + 1)
      (s.onHalfHour options (Timesteps.millisecond timesteps + 1)) := by
  refine h.submit hpos hthird ?_
  have hhalfHour := (gathers_nil s (Timesteps.millisecond timesteps + 1)).add h.fresh options
    .halfHourQueries s.queryNumber (by simp)
  have hquarterHour := hhalfHour.add h.fresh options .quarterHourQueries
    (s.queryNumber + count options .halfHourQueries) (by simp [length_add])
  rw [modesAt, if_neg hsixth]
  simpa only [List.nil_append, ← List.filter_append, List.cons_append] using hquarterHour

/-- A timestep of ten minutes never starts a quarter of an hour that is no half hour. -/
theorem Planned.plan (h : Planned options timesteps s) :
    Planned options (timesteps + 1) (s.plan options timesteps) := by
  have hminute : Timesteps.minute timesteps = timesteps * 10 := rfl
  have hnonneg : 0 ≤ (timesteps : ℤ) * 10 := by omega
  unfold QuerySchedule.plan
  simp only [hminute, Int.tmod_eq_emod_of_nonneg hnonneg]
  split_ifs with hhour hhalfHour hquarterHour
  · exact h.onHour (by omega) (by omega)
  · exact h.onHalfHour (by omega) (by omega) (by omega)
  · omega
  · exact h.skip (by omega)

theorem planned_foldl (options : Finset QueryMode) (timesteps : ℕ) : Planned options timesteps
    ((List.range timesteps).foldl (QuerySchedule.plan options) initial) := by
  induction timesteps with
  | zero => exact planned_initial options
  | succ timesteps ih =>
    rw [List.range_succ, List.foldl_append]
    exact ih.plan

theorem Planned.exists_mode (h : Planned options timesteps s) {time : ℤ} {query : QueryRequest}
    (hmem : (time, query) ∈ s.submitted) :
    ∃ mode : QueryMode, query = mode.request query.queryNumber := by
  obtain ⟨start, hstart, hquery⟩ := List.mem_flatMap.mp hmem
  obtain ⟨query', hquery', heq⟩ := List.mem_map.mp hquery
  obtain ⟨-, rfl⟩ := Prod.mk.inj heq
  obtain ⟨timestep, -, -, -, -, hkinds⟩ := h.starts start hstart
  have hkind := List.mem_map_of_mem (f := fun query => (query.requestType, query.timeWindow))
    hquery'
  rw [hkinds] at hkind
  obtain ⟨mode, -, hmode⟩ := List.mem_map.mp hkind
  obtain ⟨htype, hwindow⟩ := Prod.mk.inj hmode
  exact ⟨mode, by rw [QueryMode.request, htype, hwindow]⟩

/-- A number has been given to one query only, which starts once. -/
theorem Planned.unique (h : Planned options timesteps s) {start start' : ℤ × QueryRequest}
    (hstart : start ∈ s.submitted) (hstart' : start' ∈ s.submitted)
    (heq : start.2.queryNumber = start'.2.queryNumber) : start = start' := by
  have hnodup : (s.submitted.map fun start => start.2.queryNumber).Nodup := by
    rw [h.numbered]
    exact List.nodup_range.map Nat.cast_injective
  exact List.inj_on_of_nodup_map hnodup hstart hstart' heq

theorem or_eq_some {a b c : Option ℤ} {time : ℤ} (ha : ∀ time', a = some time' → time' = time)
    (hb : ∀ time', b = some time' → time' = time)
    (h : a = some time ∨ b = some time ∨ c = some time) : a.or (b.or c) = some time := by
  cases a with
  | some time' => simp [ha time' rfl]
  | none =>
    cases b with
    | some time' => simp [hb time' rfl]
    | none => simpa using h

theorem Planned.startTime (h : Planned options timesteps s) {start : ℤ × QueryRequest}
    (hstart : start ∈ s.submitted) : s.startTime start.2.queryNumber = some start.1 := by
  obtain ⟨time, query⟩ := start
  obtain ⟨mode, hmode⟩ := h.exists_mode hstart
  have hnoted : s.numbers mode query.queryNumber = some time :=
    (h.noted _ _ _).mpr (by rwa [← hmode])
  have hone : ∀ mode' time', s.numbers mode' query.queryNumber = some time' → time' = time := by
    intro mode' time' hnoted'
    exact congrArg Prod.fst (h.unique ((h.noted _ _ _).mp hnoted') hstart rfl)
  refine or_eq_some (hone .hourQueries) (hone .halfHourQueries) ?_
  cases mode with
  | hourQueries | onlyOneQuery => exact .inl hnoted
  | halfHourQueries => exact .inr (.inl hnoted)
  | quarterHourQueries => exact .inr (.inr hnoted)

end Plans

section OnlyOne

theorem planOnlyOne_of_ne {timestep : ℕ} (h : timestep ≠ 6) (s : QuerySchedule) :
    s.planOnlyOne timestep = s := by
  have hminute : Timesteps.minute timestep = timestep * 10 := rfl
  exact if_neg (by omega)

theorem foldl_planOnlyOne (timesteps : ℕ) : (List.range timesteps).foldl planOnlyOne initial =
    if timesteps ≤ 6 then initial else planOnlyOne initial 6 := by
  induction timesteps with
  | zero => rfl
  | succ timesteps ih =>
    rw [List.range_succ, List.foldl_append, ih, List.foldl_cons, List.foldl_nil]
    by_cases hsix : timesteps = 6
    · simp [hsix]
    · rw [planOnlyOne_of_ne hsix]
      split_ifs with hle hlt
      · rfl
      · omega
      · omega
      · rfl

end OnlyOne

/-- Whichever options are set, and as long as the times fit in an `int`, every query is numbered,
starts and is noted once, and its start is found when it has finished. -/
theorem setup_queries_planned (options : Finset QueryMode) (timesteps : ℕ)
    (hfits : timesteps ≤ 3580) :
    (∀ timestep < timesteps,
      0 ≤ Timesteps.millisecond timestep ∧ Timesteps.millisecond timestep < 2 ^ 31) ∧
      (∀ start ∈ (setupQueries options timesteps).submitted,
        (setupQueries options timesteps).startTime start.2.queryNumber = some start.1) ∧
        if .onlyOneQuery ∈ options then
          (setupQueries options timesteps).submitted =
            if timesteps ≤ 6 then [] else [(3600001, QueryMode.onlyOneQuery.request 0)]
        else Planned options timesteps (setupQueries options timesteps) := by
  refine ⟨fun timestep hlt => Timesteps.millisecond_fits (by omega), ?_⟩
  unfold setupQueries
  split_ifs with honly hle
  · rw [foldl_planOnlyOne, if_pos hle]
    simp [initial, submitted]
  · rw [foldl_planOnlyOne, if_neg hle]
    constructor
    · decide
    · decide
  · have hplanned := planned_foldl options timesteps
    exact ⟨fun start hstart => hplanned.startTime hstart, hplanned⟩

/-- The simulator runs for a day, which is 144 timesteps. -/
theorem setup_queries_day :
    (∀ timestep < Timesteps.total,
      0 ≤ Timesteps.millisecond timestep ∧ Timesteps.millisecond timestep < 2 ^ 31) ∧
      (∀ start ∈ (setupQueries {.hourQueries, .halfHourQueries} Timesteps.total).submitted,
        (setupQueries {.hourQueries, .halfHourQueries} Timesteps.total).startTime
          start.2.queryNumber = some start.1) ∧
        if .onlyOneQuery ∈ ({.hourQueries, .halfHourQueries} : Finset QueryMode) then
          (setupQueries {.hourQueries, .halfHourQueries} Timesteps.total).submitted =
            if Timesteps.total ≤ 6 then [] else [(3600001, QueryMode.onlyOneQuery.request 0)]
        else Planned {.hourQueries, .halfHourQueries} Timesteps.total
          (setupQueries {.hourQueries, .halfHourQueries} Timesteps.total) :=
  setup_queries_planned _ _ (by decide)

/-- Queries of a quarter of an hour start every half hour only. -/
example : (setupQueries {.quarterHourQueries} 8).starts =
    [⟨1800001, [⟨.availableOffsetBreakdown, 15, 0⟩]⟩,
      ⟨3600001, [⟨.availableOffsetBreakdown, 15, 1⟩]⟩] := by decide

end QuerySchedule
end Simulation
end Pddm
