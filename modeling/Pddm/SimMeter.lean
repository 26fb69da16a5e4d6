import Pddm.Device

/-!
# The simulated meter

A home with devices whose consumption is recorded in each timestep of a simulation, and
what the meter reports of it.
-/
namespace Pddm

namespace Timesteps

def minute (timestep : ℤ) : ℤ := timestep * usageTimestepMin
def hour (timestep : ℤ) : ℤ := (minute timestep).tdiv 60
def day (timestep : ℤ) : ℤ := (hour timestep).tdiv 24

def total : ℕ := 144

def perDay : ℤ := 1440 / usageTimestepMin

theorem day_natCast (n : ℕ) : day n = (n / 144 : ℕ) := by
  have hhour : hour n = (n * 10 / 60 : ℕ) := by
    unfold hour minute usageTimestepMin
    rw [Int.tdiv_eq_ediv_of_nonneg (by omega)]
    norm_cast
  rw [day, hhour, Int.tdiv_eq_ediv_of_nonneg (Int.natCast_nonneg _)]
  omega

end Timesteps

def writeAt {α : Type} (xs : List α) (i : ℤ) (x : α) : Except Fault (List α) :=
  if 0 ≤ i ∧ i < xs.length then .ok (xs.set i.toNat x) else .error .undefinedBehaviour

/-- The coin of the given weight on the given use of the random engine. -/
structure RandomEngine where
  bernoulli : ℚ → ℕ → Bool

/-- `draws` counts the uses of the random engine. The price function and the costs are not
read in the simulation of the usage. -/
structure Meter where
  shiftableDevices : List (Device × DeviceState)
  nonshiftableDevices : List (Device × DeviceState)
  currentTimestep : ℤ
  consumption : List FixedPoint
  shiftableConsumption : List FixedPoint
  draws : ℕ

namespace Device
variable (device : Device)

def isShiftable : Bool := "conditioner".toList <:+: device.name.toList

/-- The probability that the device starts. The second test of the weekend takes the day of
a comparison, as in the source. -/
def startProbability (time : ℤ) : Except Fault ℚ := do
  let stepFactor : ℚ := usageTimestepMin / 60
  let hour := (Timesteps.hour time).tmod 24
  if (Timesteps.day time).tmod 7 = 5 ∨ Timesteps.day (if time.tmod 7 = 6 then 1 else 0) ≠ 0 then
    let hourlyFactor ← readAt device.weekendHourlyProbability hour
    .ok (stepFactor * hourlyFactor * device.weekendFrequency)
  else
    let hourlyFactor ← readAt device.weekdayHourlyProbability hour
    .ok (stepFactor * hourlyFactor * device.weekdayFrequency)

/-- The second test of the weekend never holds. -/
theorem secondTest_eq_zero (time : ℤ) :
    Timesteps.day (if time.tmod 7 = 6 then 1 else 0) = 0 := by
  split_ifs
  · decide
  · decide

def standbyUsage : FixedPoint :=
  FixedPoint.times device.standbyLoad (.ofRatio usageTimestepMin 60)

def runIfOn (state : DeviceState) : Except Fault (FixedPoint × DeviceState) :=
  if state.isOn then device.runDevice state else .ok (0, state)

end Device

section Simulation
variable (engine : RandomEngine) (time : ℤ)

def flipOn (probability : ℚ) (draws : ℕ) (state : DeviceState) : DeviceState :=
  if engine.bernoulli probability draws then { state with isOn := true } else state

def noteStart (state : DeviceState) : DeviceState :=
  if state.isOn then { state with startTime := time } else state

def simulateNonshiftable (device : Device) (state : DeviceState) (draws : ℕ) :
    Except Fault (FixedPoint × DeviceState × ℕ) := do
  let probability ← device.startProbability time
  let (power, state) ← device.runIfOn (noteStart time (flipOn engine probability draws state))
  .ok (power + device.standbyUsage, state, draws + 1)

def startShiftable (device : Device) (state : DeviceState) (draws : ℕ) :
    Except Fault (DeviceState × ℕ) := do
  if state.scheduledStartTime > -1 then
    if !state.isOn && time ≥ state.scheduledStartTime then
      .ok ({ state with isOn := true, startTime := time }, draws)
    else .ok (state, draws)
  else
    let probability ← device.startProbability time
    .ok (flipOn engine probability draws state, draws + 1)

def endSchedule (state : DeviceState) : DeviceState :=
  if time ≥ state.scheduledStartTime && !state.isOn then { state with scheduledStartTime := -1 }
  else state

def simulateShiftable (device : Device) (state : DeviceState) (draws : ℕ) :
    Except Fault (FixedPoint × DeviceState × ℕ) := do
  let (state, draws) ← startShiftable engine time device state draws
  let (power, state) ← device.runIfOn state
  .ok (power + device.standbyUsage, endSchedule time state, draws)

def simulateDevices
    (simulate : Device → DeviceState → ℕ → Except Fault (FixedPoint × DeviceState × ℕ)) :
    FixedPoint → List (Device × DeviceState) → ℕ →
      Except Fault (FixedPoint × List (Device × DeviceState) × ℕ)
  | total, [], draws => .ok (total, [], draws)
  | total, (device, state) :: devices, draws => do
      let (power, state, draws) ← simulate device state draws
      let (total, devices, draws) ← simulateDevices simulate (total + power) devices draws
      .ok (total, (device, state) :: devices, draws)

def simulateNonshiftables := simulateDevices (simulateNonshiftable engine time) 0

def simulateShiftables := simulateDevices (simulateShiftable engine time) 0

def DeviceState.resetDaily (state : DeviceState) : DeviceState :=
  if state.isOn = false ∧ state.startTime ≠ -1 then
    { state with startTime := -1, currentCycleNum := 0 }
  else state

end Simulation

namespace Meter
variable (engine : RandomEngine)

def init (timesteps : ℕ) (ownedDevices : List Device) : Meter where
  shiftableDevices := (ownedDevices.filter (·.isShiftable)).map (·, {})
  nonshiftableDevices := (ownedDevices.filter fun device => !device.isShiftable).map (·, {})
  currentTimestep := -1
  consumption := List.replicate timesteps 0
  shiftableConsumption := List.replicate timesteps 0
  draws := 0

def simulateUsageTimestep (m : Meter) : Except Fault Meter := do
  let time := m.currentTimestep + 1
  let (usage, nonshiftable, draws) ←
    simulateNonshiftables engine time m.nonshiftableDevices m.draws
  let consumption ← writeAt m.consumption time usage
  let (shiftableUsage, shiftable, draws) ←
    simulateShiftables engine time m.shiftableDevices draws
  let shiftableConsumption ← writeAt m.shiftableConsumption time shiftableUsage
  let consumption ← writeAt consumption time (usage + shiftableUsage)
  let reset (devices : List (Device × DeviceState)) : List (Device × DeviceState) :=
    -- the next timestep is after midnight
    if (Timesteps.hour (time + 1)).tmod 24 = 0 then
      devices.map fun (device, state) => (device, state.resetDaily)
    else devices
  .ok { shiftableDevices := reset shiftable, nonshiftableDevices := reset nonshiftable
        currentTimestep := time, consumption, shiftableConsumption, draws }

/-- A history of the meter: it simulates this many timesteps. -/
def simulate : ℕ → Meter → Except Fault Meter
  | 0, m => .ok m
  | n + 1, m => do
      let m ← m.simulate n
      m.simulateUsageTimestep engine

/-- A loop that adds up the readings at the indices. -/
def sumReadings (data : List FixedPoint) (index : ℕ → ℤ) : ℕ → Except Fault FixedPoint
  | 0 => .ok 0
  | n + 1 => do
      let total ← sumReadings data index n
      let reading ← readAt data (index n)
      .ok (total + reading)

def measure (m : Meter) (data : List FixedPoint) (windowMinutes : ℤ) :
    Except Fault FixedPoint := do
  let windowWholeTimesteps := windowMinutes.tdiv usageTimestepMin
  if windowWholeTimesteps > m.currentTimestep then
    -- the window reaches before the first timestep
    sumReadings data (fun i => i) (m.currentTimestep + 1).toNat
  else
    let windowLastFractionTimestep :=
      FixedPoint.ofRatio (windowMinutes.tmod usageTimestepMin) usageTimestepMin
    let total ←
      sumReadings data (fun offset => m.currentTimestep - offset) windowWholeTimesteps.toNat
    let reading ← readAt data (m.currentTimestep - windowWholeTimesteps)
    .ok (total + FixedPoint.times reading windowLastFractionTimestep)

def measureConsumption (m : Meter) (windowMinutes : ℤ) : Except Fault FixedPoint :=
  m.measure m.consumption windowMinutes

def measureShiftableConsumption (m : Meter) (windowMinutes : ℤ) : Except Fault FixedPoint :=
  m.measure m.shiftableConsumption windowMinutes

def measureDailyConsumption (m : Meter) : Except Fault FixedPoint :=
  let dayStart := Timesteps.day m.currentTimestep * Timesteps.perDay
  sumReadings m.consumption (fun k => dayStart + k) (m.currentTimestep - dayStart).toNat

theorem sumReadings_eq {data : List FixedPoint} {index : ℕ → ℤ} {f : ℕ → ℕ} {n : ℕ}
    (h : ∀ k < n, index k = f k ∧ f k < data.length) :
    sumReadings data index n = .ok (∑ k ∈ Finset.range n, data.getD (f k) 0) := by
  induction n with
  | zero => rfl
  | succ n ih =>
    obtain ⟨hindex, hlt⟩ := h n n.lt_succ_self
    have hread : readAt data (index n) = .ok (data.getD (f n) 0) := by
      rw [hindex]
      apply readAt_natCast
      simp [hlt]
    rw [sumReadings, ih fun k hk => h k (by omega), hread, Finset.sum_range_succ]
    rfl

/-- The readings that are added up backwards from the last one. -/
theorem sum_backwards (f : ℕ → ℤ) {t w : ℕ} (hw : w ≤ t + 1) :
    ∑ k ∈ Finset.range w, f (t - k) = ∑ i ∈ Finset.Ico (t + 1 - w) (t + 1), f i := by
  induction w with
  | zero => simp
  | succ w ih =>
    have hbot : t + 1 - w = t - w + 1 := by omega
    rw [Finset.sum_range_succ, ih (by omega), Nat.add_sub_add_right,
      Finset.sum_eq_sum_Ico_succ_bot (show t - w < t + 1 by omega), hbot, add_comm]

/-- A window of whole timesteps that does not reach before the first one. -/
theorem measure_whole {m : Meter} {data : List FixedPoint} {t w : ℕ}
    (ht : m.currentTimestep = t) (hlength : t < data.length) (hw : w ≤ t + 1) :
    m.measure data (w * usageTimestepMin) =
      .ok (∑ i ∈ Finset.Ico (t + 1 - w) (t + 1), data.getD i 0) := by
  have hwhole : (w * usageTimestepMin).tdiv usageTimestepMin = w :=
    Int.mul_tdiv_cancel _ (by decide)
  have hfraction : (w * usageTimestepMin).tmod usageTimestepMin = 0 := Int.mul_tmod_left _ _
  unfold measure
  simp only [hwhole, hfraction, ht]
  split_ifs with hbefore
  · obtain rfl : w = t + 1 := by omega
    have hlast : ((t : ℤ) + 1).toNat = t + 1 := by omega
    rw [hlast, sumReadings_eq (f := fun i => i) fun k hk => ⟨rfl, by omega⟩, Nat.sub_self,
      Finset.range_eq_Ico]
  · have hread : readAt data ((t : ℤ) - w) = .ok (data.getD (t - w) 0) := by
      rw [← Nat.cast_sub (by omega)]
      apply readAt_natCast
      have hlt : t - w < data.length := by omega
      simp [hlt]
    rw [Int.toNat_natCast, sumReadings_eq (f := fun k => t - k) fun k hk =>
      ⟨(Nat.cast_sub (by omega)).symm, by omega⟩, hread,
      sum_backwards (fun i => data.getD i 0) hw]
    simp

/-- The day's readings but the last one. -/
theorem measureDailyConsumption_eq {m : Meter} {t : ℕ} (ht : m.currentTimestep = t)
    (hlength : t < m.consumption.length) :
    m.measureDailyConsumption =
      .ok (∑ i ∈ Finset.Ico (t / 144 * 144) t, m.consumption.getD i 0) := by
  have hstart : Timesteps.day t * Timesteps.perDay = (t / 144 * 144 : ℕ) := by
    rw [Timesteps.day_natCast]
    norm_cast
  have hcount : ((t : ℤ) - (t / 144 * 144 : ℕ)).toNat = t - t / 144 * 144 := by omega
  unfold measureDailyConsumption
  simp only [ht, hstart, hcount]
  rw [sumReadings_eq (f := fun k => t / 144 * 144 + k) fun k hk => ⟨by push_cast; rfl, by omega⟩,
    Finset.sum_Ico_eq_sum_range]

theorem length_of_writeAt {α : Type} {xs ys : List α} {i : ℤ} {x : α}
    (h : writeAt xs i x = .ok ys) : 0 ≤ i ∧ i < xs.length ∧ ys.length = xs.length := by
  unfold writeAt at h
  split_ifs at h with hi
  obtain rfl := Except.ok.inj h
  exact ⟨hi.1, hi.2, List.length_set⟩

variable {engine}

theorem simulateUsageTimestep_spec {m t : Meter} (h : m.simulateUsageTimestep engine = .ok t) :
    t.currentTimestep = m.currentTimestep + 1 ∧
      m.currentTimestep + 1 < m.consumption.length ∧
      t.consumption.length = m.consumption.length := by
  obtain ⟨⟨usage, nonshiftable, draws⟩, -, h⟩ := exists_of_bind_eq_ok h
  obtain ⟨consumption, hfirst, h⟩ := exists_of_bind_eq_ok h
  obtain ⟨⟨shiftableUsage, shiftable, draws'⟩, -, h⟩ := exists_of_bind_eq_ok h
  obtain ⟨shiftableConsumption, -, h⟩ := exists_of_bind_eq_ok h
  obtain ⟨consumption', hsecond, h⟩ := exists_of_bind_eq_ok h
  obtain rfl := Except.ok.inj h
  obtain ⟨-, hlt, hlength⟩ := length_of_writeAt hfirst
  obtain ⟨-, -, hlength'⟩ := length_of_writeAt hsecond
  exact ⟨rfl, hlt, hlength'.trans hlength⟩

theorem simulate_spec {timesteps n : ℕ} {devices : List Device} {m : Meter}
    (h : (init timesteps devices).simulate engine n = .ok m) :
    m.currentTimestep + 1 = n ∧ n ≤ m.consumption.length := by
  induction n generalizing m with
  | zero =>
    obtain rfl := Except.ok.inj h
    exact ⟨rfl, Nat.zero_le _⟩
  | succ n ih =>
    obtain ⟨m', hm', h⟩ := exists_of_bind_eq_ok h
    obtain ⟨htime, -⟩ := ih hm'
    obtain ⟨hnext, hlt, hlength⟩ := simulateUsageTimestep_spec h
    refine ⟨by push_cast; omega, by omega⟩

section Soundness

structure Simulable (device : Device) : Prop where
  hasLengths : device.HasLengths
  weekday : 24 ≤ device.weekdayHourlyProbability.length
  weekend : 24 ≤ device.weekendHourlyProbability.length

def Ready (device : Device) (state : DeviceState) : Prop :=
  (device.Valid state ∨ device.loadPerCycle = [] ∧ state.currentCycleNum = 0) ∧
    (state.isOn = false → state.currentCycleNum = 0)

def ReadyResult {α : Type} (device : Device) (r : Except Fault (α × DeviceState × ℕ)) : Prop :=
  ∃ power next draws, r = .ok (power, next, draws) ∧ Ready device next

variable {device : Device} {state : DeviceState} {time : ℤ}

theorem Ready.of_eq {next : DeviceState} (h : Ready device state) (hon : next.isOn = state.isOn)
    (hcycle : next.currentCycleNum = state.currentCycleNum)
    (htime : next.timeInCurrentCycle = state.timeInCurrentCycle) : Ready device next := by
  unfold Ready Device.Valid at h ⊢
  rwa [hon, hcycle, htime]

theorem Ready.turnOn {next : DeviceState} (h : Ready device state) (hon : next.isOn = true)
    (hcycle : next.currentCycleNum = state.currentCycleNum)
    (htime : next.timeInCurrentCycle = state.timeInCurrentCycle) : Ready device next := by
  unfold Ready Device.Valid at h ⊢
  rw [hcycle, htime]
  exact ⟨h.1, fun hoff => absurd hoff (by simp [hon])⟩

theorem Ready.resetDaily (h : Ready device state) : Ready device state.resetDaily := by
  unfold DeviceState.resetDaily
  split_ifs with hoff
  · exact h.of_eq rfl (h.2 hoff.1).symm rfl
  · exact h

theorem runDevice_nil (hnil : device.loadPerCycle = []) (hcycle : state.currentCycleNum = 0) :
    device.runDevice state = .ok (0, { state with isOn := false, currentCycleNum := 0 }) := by
  have hloop : device.runCycles ⟨usageTimestepMin, 0, state⟩ =
      .ok ⟨usageTimestepMin, 0, state⟩ := by
    rw [Device.runCycles, dif_neg]
    simp [hnil, hcycle]
  rw [Device.runDevice, hloop, ok_bind]
  simp [hnil, hcycle]

theorem runIfOn_ready (hdevice : device.HasLengths) (h : Ready device state) :
    ∃ power next, device.runIfOn state = .ok (power, next) ∧ Ready device next := by
  unfold Device.runIfOn
  split_ifs with hon
  · rcases h.1 with hvalid | ⟨hnil, hcycle⟩
    · obtain ⟨next, hnext, hvalid', -, -, hstate⟩ := Device.runDevice_spec hdevice hvalid
      refine ⟨_, next, hnext, .inl hvalid', fun hoff => ?_⟩
      split_ifs at hstate
      · rw [hstate.1, hon] at hoff
        cases hoff
      · exact hstate.2.1
    · exact ⟨_, _, runDevice_nil hnil hcycle, .inr ⟨hnil, rfl⟩, fun _ => rfl⟩
  · exact ⟨_, state, rfl, h⟩

theorem flipOn_ready (engine : RandomEngine) (probability : ℚ) (draws : ℕ)
    (h : Ready device state) : Ready device (flipOn engine probability draws state) := by
  unfold flipOn
  split_ifs
  · exact h.turnOn rfl rfl rfl
  · exact h

theorem startProbability_ok (hdevice : Simulable device) (htime : 0 ≤ time) :
    ∃ probability, device.startProbability time = .ok probability := by
  have hhour : ∃ n : ℕ, (Timesteps.hour time).tmod 24 = n ∧ n < 24 := by
    unfold Timesteps.hour Timesteps.minute usageTimestepMin
    rw [Int.tdiv_eq_ediv_of_nonneg (by omega), Int.tmod_eq_emod_of_nonneg (by omega)]
    exact ⟨(time * 10 / 60 % 24).toNat, by omega, by omega⟩
  obtain ⟨n, hn, hlt⟩ := hhour
  have hread {xs : List ℚ} (hlength : 24 ≤ xs.length) : readAt xs n = .ok (xs.getD n 0) := by
    apply readAt_natCast
    have hlt' : n < xs.length := by omega
    simp [hlt']
  unfold Device.startProbability
  simp only [hn, Device.secondTest_eq_zero]
  split_ifs
  · exact ⟨_, by rw [hread hdevice.weekend]; rfl⟩
  · exact ⟨_, by rw [hread hdevice.weekday]; rfl⟩

theorem simulateNonshiftable_ready (engine : RandomEngine) (hdevice : Simulable device)
    (htime : 0 ≤ time) (h : Ready device state) (draws : ℕ) :
    ReadyResult device (simulateNonshiftable engine time device state draws) := by
  obtain ⟨probability, hprobability⟩ := startProbability_ok hdevice htime
  have hflip := flipOn_ready engine probability draws h
  have hstart : Ready device (noteStart time (flipOn engine probability draws state)) := by
    unfold noteStart
    split_ifs
    · exact hflip.of_eq rfl rfl rfl
    · exact hflip
  obtain ⟨power, next, hnext, hready⟩ := runIfOn_ready hdevice.hasLengths hstart
  unfold simulateNonshiftable
  rw [hprobability, ok_bind, hnext]
  exact ⟨_, next, _, rfl, hready⟩

theorem startShiftable_ready (engine : RandomEngine) (hdevice : Simulable device)
    (htime : 0 ≤ time) (h : Ready device state) (draws : ℕ) :
    ∃ next draws', startShiftable engine time device state draws = .ok (next, draws') ∧
      Ready device next := by
  obtain ⟨probability, hprobability⟩ := startProbability_ok hdevice htime
  unfold startShiftable
  split_ifs
  · exact ⟨_, _, rfl, h.turnOn rfl rfl rfl⟩
  · exact ⟨_, _, rfl, h⟩
  · rw [hprobability, ok_bind]
    exact ⟨_, _, rfl, flipOn_ready engine probability draws h⟩

theorem simulateShiftable_ready (engine : RandomEngine) (hdevice : Simulable device)
    (htime : 0 ≤ time) (h : Ready device state) (draws : ℕ) :
    ReadyResult device (simulateShiftable engine time device state draws) := by
  obtain ⟨started, draws', hstarted, hstart⟩ :=
    startShiftable_ready engine hdevice htime h draws
  obtain ⟨power, next, hnext, hready⟩ := runIfOn_ready hdevice.hasLengths hstart
  unfold simulateShiftable
  rw [hstarted, ok_bind]
  simp only [hnext, ok_bind]
  refine ⟨_, _, _, rfl, ?_⟩
  unfold endSchedule
  split_ifs
  · exact hready.of_eq rfl rfl rfl
  · exact hready

theorem simulateDevices_ready
    {simulate : Device → DeviceState → ℕ → Except Fault (FixedPoint × DeviceState × ℕ)}
    (hsimulate : ∀ device state draws, Simulable device → Ready device state →
      ReadyResult device (simulate device state draws))
    {devices : List (Device × DeviceState)}
    (hdevices : ∀ d ∈ devices, Simulable d.1 ∧ Ready d.1 d.2) (total : FixedPoint) (draws : ℕ) :
    ∃ usage devices' draws', simulateDevices simulate total devices draws =
      .ok (usage, devices', draws') ∧ ∀ d ∈ devices', Simulable d.1 ∧ Ready d.1 d.2 := by
  induction devices generalizing total draws with
  | nil => exact ⟨total, [], draws, rfl, by simp⟩
  | cons d devices ih =>
    obtain ⟨device, state⟩ := d
    obtain ⟨hd, hrest⟩ := List.forall_mem_cons.mp hdevices
    obtain ⟨power, next, draws', hnext, hready⟩ := hsimulate device state draws hd.1 hd.2
    obtain ⟨usage, devices', draws'', hlater, hall⟩ := ih hrest (total + power) draws'
    refine ⟨usage, (device, next) :: devices', draws'', ?_, ?_⟩
    · rw [simulateDevices, hnext, ok_bind]
      simp only [hlater, ok_bind]
    · exact List.forall_mem_cons.mpr ⟨⟨hd.1, hready⟩, hall⟩

structure Sound (timesteps : ℕ) (m : Meter) : Prop where
  shiftable : ∀ d ∈ m.shiftableDevices, Simulable d.1 ∧ Ready d.1 d.2
  nonshiftable : ∀ d ∈ m.nonshiftableDevices, Simulable d.1 ∧ Ready d.1 d.2
  started : -1 ≤ m.currentTimestep
  consumption : m.consumption.length = timesteps
  shiftableConsumption : m.shiftableConsumption.length = timesteps

theorem ready_init (hdevice : device.HasLengths) : Ready device {} := by
  refine ⟨?_, fun _ => rfl⟩
  by_cases hnil : device.loadPerCycle = []
  · exact .inr ⟨hnil, rfl⟩
  · have hcycles := List.length_pos_of_ne_nil hnil
    exact .inl ⟨le_rfl, by simpa using hcycles, le_rfl, hdevice.cycleLength_pos hcycles⟩

theorem sound_init {timesteps : ℕ} {devices : List Device}
    (hdevices : ∀ device ∈ devices, Simulable device) :
    (init timesteps devices).Sound timesteps := by
  have hready (p : Device → Bool) : ∀ d ∈ (devices.filter p).map fun device =>
      ((device, {}) : Device × DeviceState), Simulable d.1 ∧ Ready d.1 d.2 := by
    intro d hd
    obtain ⟨device, hdevice, rfl⟩ := List.mem_map.mp hd
    have hsimulable := hdevices device (List.mem_of_mem_filter hdevice)
    exact ⟨hsimulable, ready_init hsimulable.hasLengths⟩
  exact ⟨hready _, hready _, le_rfl, List.length_replicate, List.length_replicate⟩

theorem reset_ready {devices : List (Device × DeviceState)}
    (h : ∀ d ∈ devices, Simulable d.1 ∧ Ready d.1 d.2) :
    ∀ d ∈ devices.map fun (device, state) => (device, state.resetDaily),
      Simulable d.1 ∧ Ready d.1 d.2 := by
  intro d hd
  obtain ⟨⟨device, state⟩, hmem, rfl⟩ := List.mem_map.mp hd
  obtain ⟨hdevice, hready⟩ := h _ hmem
  exact ⟨hdevice, hready.resetDaily⟩

theorem writeAt_ok {α : Type} {xs : List α} {i : ℤ} (h : 0 ≤ i) (hlt : i < xs.length) (x : α) :
    ∃ ys, writeAt xs i x = .ok ys ∧ ys.length = xs.length :=
  ⟨xs.set i.toNat x, if_pos ⟨h, hlt⟩, List.length_set⟩

theorem simulateUsageTimestep_sound {timesteps : ℕ} {m : Meter} (engine : RandomEngine)
    (h : m.Sound timesteps) (hlt : m.currentTimestep + 1 < timesteps) :
    ∃ t, m.simulateUsageTimestep engine = .ok t ∧ t.Sound timesteps := by
  have htime : 0 ≤ m.currentTimestep + 1 := by linarith [h.started]
  obtain ⟨usage, nonshiftable, draws, hnonshiftable, hready⟩ := simulateDevices_ready
    (fun device state draws hdevice hready =>
      simulateNonshiftable_ready engine hdevice htime hready draws) h.nonshiftable 0 m.draws
  obtain ⟨usage', shiftable, draws', hshiftable, hready'⟩ := simulateDevices_ready
    (fun device state draws hdevice hready =>
      simulateShiftable_ready engine hdevice htime hready draws) h.shiftable 0 draws
  obtain ⟨consumption, hfirst, hlength⟩ :=
    writeAt_ok htime (by rw [h.consumption]; exact hlt) usage
  obtain ⟨shiftableConsumption, hsecond, hlength'⟩ :=
    writeAt_ok htime (by rw [h.shiftableConsumption]; exact hlt) usage'
  obtain ⟨consumption', hthird, hlength''⟩ :=
    writeAt_ok htime (by rw [hlength, h.consumption]; exact hlt) (usage + usage')
  unfold simulateUsageTimestep simulateNonshiftables simulateShiftables
  simp only [hnonshiftable, hfirst, hshiftable, hsecond, hthird, ok_bind]
  refine ⟨_, rfl, ?_, ?_, by linarith, by rw [hlength'', hlength, h.consumption],
    by rw [hlength', h.shiftableConsumption]⟩
  · split_ifs
    · exact reset_ready hready'
    · exact hready'
  · split_ifs
    · exact reset_ready hready
    · exact hready

/-- A meter with sound devices is simulated for as long as it has room for readings. -/
theorem simulate_sound {timesteps n : ℕ} {devices : List Device} (engine : RandomEngine)
    (hdevices : ∀ device ∈ devices, Simulable device) (hn : n ≤ timesteps) :
    ∃ m, (init timesteps devices).simulate engine n = .ok m ∧ m.Sound timesteps := by
  induction n with
  | zero => exact ⟨_, rfl, sound_init hdevices⟩
  | succ n ih =>
    obtain ⟨m, hm, hsound⟩ := ih (by omega)
    have htime := (simulate_spec hm).1
    obtain ⟨t, ht, hsound'⟩ := simulateUsageTimestep_sound engine hsound (by omega)
    exact ⟨t, by rw [simulate, hm, ok_bind, ht], hsound'⟩

end Soundness

/-- The daily consumption leaves out the last timestep, and so it is what was consumed in
the day if and only if nothing was consumed in that timestep. -/
theorem measureDailyConsumption_eq_iff {timesteps n : ℕ} {devices : List Device} {m : Meter}
    (h : (init timesteps devices).simulate engine (n + 1) = .ok m) :
    let dayStart := Timesteps.day m.currentTimestep * Timesteps.perDay
    let window := (m.currentTimestep - dayStart + 1) * usageTimestepMin
    let recorded := ∑ i ∈ Finset.Icc dayStart.toNat m.currentTimestep.toNat,
      m.consumption.getD i 0
    m.measureConsumption window = .ok recorded ∧
      m.measureDailyConsumption = .ok (∑ i ∈ Finset.Ico dayStart.toNat m.currentTimestep.toNat,
        m.consumption.getD i 0) ∧
      (m.measureDailyConsumption = m.measureConsumption window ∧
        m.measureDailyConsumption = .ok recorded ↔
          m.consumption[m.currentTimestep.toNat]? = some 0) := by
  obtain ⟨htime, hlength⟩ := simulate_spec h
  have ht : m.currentTimestep = n := by
    push_cast at htime
    omega
  have hstart : Timesteps.day n * Timesteps.perDay = (n / 144 * 144 : ℕ) := by
    rw [Timesteps.day_natCast]
    norm_cast
  intro dayStart window recorded
  have hday : dayStart = (n / 144 * 144 : ℕ) := by rw [← hstart, ← ht]
  have hle : n / 144 * 144 ≤ n := Nat.div_mul_le_self n 144
  have hwindow : window = (n - n / 144 * 144 + 1 : ℕ) * usageTimestepMin := by
    simp only [window, hday, ht]
    congr 1
    omega
  have hlast : m.consumption[n]? = some (m.consumption.getD n 0) := by
    have hlt : n < m.consumption.length := by omega
    simp [hlt]
  have hsum : recorded = (∑ i ∈ Finset.Ico (n / 144 * 144) n, m.consumption.getD i 0) +
      m.consumption.getD n 0 := by
    simp only [recorded, hday, ht, Int.toNat_natCast]
    rw [← Finset.sum_Ico_succ_top hle, Finset.Ico_add_one_right_eq_Icc]
  have hmeasure : m.measureConsumption window = .ok recorded := by
    have hfirst : n + 1 - (n - n / 144 * 144 + 1) = n / 144 * 144 := by omega
    rw [measureConsumption, hwindow, measure_whole ht (by omega) (by omega), hfirst,
      Finset.Ico_add_one_right_eq_Icc]
    simp only [recorded, hday, ht, Int.toNat_natCast]
  have hdaily := measureDailyConsumption_eq ht (by omega)
  refine ⟨hmeasure, ?_, ?_⟩
  · rw [hdaily, hday, ht]
    rfl
  · rw [hmeasure, and_self, hdaily, ht, Int.toNat_natCast, hlast, hsum]
    simp

/-- A router draws 6 watts all day and is never turned on. -/
def router : Device :=
  { name := "router"
    loadPerCycle := []
    timePerCycle := []
    standbyLoad := 6 * FixedPoint.factor
    weekdayFrequency := 0
    weekendFrequency := 0
    weekdayHourlyProbability := List.replicate 24 0
    weekendHourlyProbability := List.replicate 24 0 }

def neverOn : RandomEngine := ⟨fun _ _ => false⟩

set_option maxRecDepth 4096 in
theorem measureDailyConsumption_eq_iff_router : ∃ m,
    (init Timesteps.total [router]).simulate neverOn 1 = .ok m ∧
      m.measureConsumption ((m.currentTimestep -
        Timesteps.day m.currentTimestep * Timesteps.perDay + 1) * usageTimestepMin) =
          .ok 32766 ∧
      m.measureDailyConsumption = .ok 0 ∧
      (m.measureDailyConsumption = m.measureConsumption ((m.currentTimestep -
          Timesteps.day m.currentTimestep * Timesteps.perDay + 1) * usageTimestepMin) ∧
        m.measureDailyConsumption = .ok 32766 ↔
          m.consumption[m.currentTimestep.toNat]? = some 0) := by
  obtain ⟨m, hm, hrecorded, hbefore⟩ : ∃ m,
      (init Timesteps.total [router]).simulate neverOn 1 = .ok m ∧
      ∑ i ∈ Finset.Icc (Timesteps.day m.currentTimestep * Timesteps.perDay).toNat
        m.currentTimestep.toNat, m.consumption.getD i 0 = 32766 ∧
      ∑ i ∈ Finset.Ico (Timesteps.day m.currentTimestep * Timesteps.perDay).toNat
        m.currentTimestep.toNat, m.consumption.getD i 0 = 0 := ⟨_, rfl, rfl, rfl⟩
  have hlaw := measureDailyConsumption_eq_iff hm
  simp only [hrecorded, hbefore] at hlaw
  exact ⟨m, hm, hlaw⟩

set_option maxRecDepth 4096 in
/-- The router's first 10 minutes are missing from its daily consumption. -/
theorem router_daily_missing : ∃ m, (init Timesteps.total [router]).simulate neverOn 1 = .ok m ∧
    m.currentTimestep = 0 ∧ Timesteps.day m.currentTimestep * Timesteps.perDay = 0 ∧
    m.consumption.getD 0 0 = 32766 ∧ m.measureConsumption usageTimestepMin = .ok 32766 ∧
    m.measureDailyConsumption = .ok 0 ∧
    m.measureDailyConsumption ≠ m.measureConsumption usageTimestepMin := by
  refine ⟨_, rfl, rfl, rfl, rfl, rfl, rfl, ?_⟩
  intro h
  exact absurd (Except.ok.inj h) (by decide)

end Meter

end Pddm
