import Pddm.Messages
import Pddm.Outcome
import Pddm.Overlay
import Pddm.Stretches

/-!
# Devices

The electricity-using devices of a simulated home. A device runs through a program of
cycles, each with its own load, in timesteps that need not end where a cycle does.
-/
namespace Pddm

namespace FixedPoint

def factor : ℤ := 2 ^ 15

def times (x y : FixedPoint) : FixedPoint := (x * y).tdiv factor

/-- The number for the double `a / b`; the fractions that are converted here are too
coarse for their rounding to matter. -/
def ofRatio (a b : ℤ) : FixedPoint := (a * factor).tdiv b

@[simp] theorem times_zero (x : FixedPoint) : times x 0 = 0 := by simp [times]
@[simp] theorem ofRatio_zero (b : ℤ) : ofRatio 0 b = 0 := by simp [ofRatio]

end FixedPoint

/-- The minutes of one usage timestep. -/
def usageTimestepMin : ℤ := 10

def readAt {α : Type} (xs : List α) (i : ℤ) : Except Fault α :=
  if 0 ≤ i then
    match xs[i.toNat]? with
    | some x => .ok x
    | none => .error .undefinedBehaviour
  else .error .undefinedBehaviour

theorem readAt_eq_ok {α : Type} {xs : List α} {i : ℤ} {x : α} :
    readAt xs i = .ok x ↔ 0 ≤ i ∧ xs[i.toNat]? = some x := by
  unfold readAt
  split_ifs with hi
  · cases xs[i.toNat]? with
    | none => simp
    | some y => simp [hi]
  · simp [hi]

theorem readAt_natCast {α : Type} {xs : List α} {n : ℕ} {x : α} (h : xs[n]? = some x) :
    readAt xs n = .ok x :=
  readAt_eq_ok.mpr ⟨n.cast_nonneg, h⟩

/-- Loads are in watts and times in minutes. The frequencies and probabilities only
weigh the coin that turns the device on. -/
structure Device where
  name : String
  loadPerCycle : List FixedPoint
  timePerCycle : List ℤ
  standbyLoad : FixedPoint
  weekdayFrequency : ℚ
  weekendFrequency : ℚ
  weekdayHourlyProbability : List ℚ
  weekendHourlyProbability : List ℚ

structure DeviceState where
  /-- When the device was actually started today. -/
  startTime : ℤ := 0
  /-- When it is scheduled to start, if it is shiftable and being delayed. -/
  scheduledStartTime : ℤ := 0
  isOn : Bool := false
  currentCycleNum : ℤ := 0
  /-- The minutes into the current cycle, if a timestep ended in the middle of it. -/
  timeInCurrentCycle : ℤ := 0
  deriving DecidableEq

structure CycleLoop where
  timeRemainingInTimestep : ℤ
  powerConsumed : FixedPoint
  deviceState : DeviceState

def runCycle (cycleTime : ℤ) (load : FixedPoint) (r : CycleLoop) : CycleLoop :=
  let currentCycleTime := cycleTime - r.deviceState.timeInCurrentCycle
  let minutesSimulated := min currentCycleTime r.timeRemainingInTimestep
  let timeInCurrentCycle := r.deviceState.timeInCurrentCycle + minutesSimulated
  { timeRemainingInTimestep := r.timeRemainingInTimestep - minutesSimulated
    powerConsumed := r.powerConsumed + FixedPoint.times load (.ofRatio minutesSimulated 60)
    deviceState :=
      if timeInCurrentCycle = cycleTime then
        { r.deviceState with
          currentCycleNum := r.deviceState.currentCycleNum + 1
          timeInCurrentCycle := 0 }
      else { r.deviceState with timeInCurrentCycle := timeInCurrentCycle } }

theorem runCycle_of_le {cycleTime : ℤ} {r : CycleLoop} (load : FixedPoint)
    (h : cycleTime - r.deviceState.timeInCurrentCycle ≤ r.timeRemainingInTimestep) :
    runCycle cycleTime load r =
      { timeRemainingInTimestep := r.timeRemainingInTimestep -
          (cycleTime - r.deviceState.timeInCurrentCycle)
        powerConsumed := r.powerConsumed +
          FixedPoint.times load (.ofRatio (cycleTime - r.deviceState.timeInCurrentCycle) 60)
        deviceState := { r.deviceState with
          currentCycleNum := r.deviceState.currentCycleNum + 1
          timeInCurrentCycle := 0 } } := by
  unfold runCycle
  simp only [min_eq_left h]
  rw [if_pos (by omega)]

theorem runCycle_of_lt {cycleTime : ℤ} {r : CycleLoop} (load : FixedPoint)
    (h : r.timeRemainingInTimestep < cycleTime - r.deviceState.timeInCurrentCycle) :
    runCycle cycleTime load r =
      { timeRemainingInTimestep := 0
        powerConsumed := r.powerConsumed +
          FixedPoint.times load (.ofRatio r.timeRemainingInTimestep 60)
        deviceState := { r.deviceState with
          timeInCurrentCycle :=
            r.deviceState.timeInCurrentCycle + r.timeRemainingInTimestep } } := by
  unfold runCycle
  simp only [min_eq_right h.le, sub_self]
  rw [if_neg (by omega)]

namespace Device
variable (device : Device)

/-- Each turn of the loop ends a cycle or uses up the timestep. -/
def turnsLeft (r : CycleLoop) : ℕ :=
  (device.loadPerCycle.length - r.deviceState.currentCycleNum).toNat +
    if r.timeRemainingInTimestep > 0 then 1 else 0

theorem turnsLeft_runCycle {r : CycleLoop} (hremaining : r.timeRemainingInTimestep > 0)
    (hcycle : r.deviceState.currentCycleNum < device.loadPerCycle.length) (cycleTime : ℤ)
    (load : FixedPoint) : device.turnsLeft (runCycle cycleTime load r) < device.turnsLeft r := by
  rcases le_or_gt (cycleTime - r.deviceState.timeInCurrentCycle) r.timeRemainingInTimestep
    with hends | hends
  · rw [runCycle_of_le load hends]
    simp only [turnsLeft, if_pos hremaining]
    split_ifs <;> omega
  · rw [runCycle_of_lt load hends]
    simp only [turnsLeft, if_pos hremaining]
    simp

def runCycles (r : CycleLoop) : Except Fault CycleLoop :=
  if _h : r.timeRemainingInTimestep > 0 ∧
      r.deviceState.currentCycleNum < device.loadPerCycle.length then
    match readAt device.timePerCycle r.deviceState.currentCycleNum,
      readAt device.loadPerCycle r.deviceState.currentCycleNum with
    | .ok cycleTime, .ok load => runCycles (runCycle cycleTime load r)
    | .error e, _ | _, .error e => .error e
  else .ok r
termination_by device.turnsLeft r
decreasing_by exact device.turnsLeft_runCycle _h.1 _h.2 cycleTime load

/-- Runs the device for one timestep. It is turned off if it finished its last cycle. -/
def runDevice (state : DeviceState) : Except Fault (FixedPoint × DeviceState) := do
  let r ← device.runCycles ⟨usageTimestepMin, 0, state⟩
  if r.deviceState.currentCycleNum = device.loadPerCycle.length then
    .ok (r.powerConsumed, { r.deviceState with isOn := false, currentCycleNum := 0 })
  else .ok (r.powerConsumed, r.deviceState)

def runDeviceFor : ℕ → DeviceState → Except Fault (List FixedPoint × DeviceState)
  | 0, state => .ok ([], state)
  | n + 1, state => do
      let (power, state) ← device.runDevice state
      let (powers, state) ← runDeviceFor n state
      .ok (power :: powers, state)

def cycleLength (c : ℕ) : ℤ := device.timePerCycle.getD c 0

def HasLengths : Prop :=
  ∀ c < device.loadPerCycle.length, ∃ t, device.timePerCycle[c]? = some t ∧ 0 < t

def programTime : ℤ := stretchStart device.cycleLength device.loadPerCycle.length

def position (state : DeviceState) : ℤ :=
  stretchStart device.cycleLength state.currentCycleNum.toNat + state.timeInCurrentCycle

/-- What some minutes of a cycle are charged. -/
def charge (c : ℕ) (minutes : ℤ) : FixedPoint :=
  FixedPoint.times (device.loadPerCycle.getD c 0) (.ofRatio minutes 60)

/-- What the program is charged between two positions: each cycle that is run there by its
own load. -/
def usage (p q : ℤ) : FixedPoint :=
  ∑ c ∈ Finset.range device.loadPerCycle.length,
    device.charge c (overlap device.cycleLength p q c)

def Valid (state : DeviceState) : Prop :=
  0 ≤ state.currentCycleNum ∧ state.currentCycleNum < device.loadPerCycle.length ∧
    0 ≤ state.timeInCurrentCycle ∧
    state.timeInCurrentCycle < device.cycleLength state.currentCycleNum.toNat

def Fits (state : DeviceState) : Prop :=
  device.Valid state ∨
    state.currentCycleNum = device.loadPerCycle.length ∧ state.timeInCurrentCycle = 0

variable {device}

theorem HasLengths.cycleLength_pos (h : device.HasLengths) {c : ℕ}
    (hc : c < device.loadPerCycle.length) : 0 < device.cycleLength c := by
  obtain ⟨t, ht, hpos⟩ := h c hc
  rw [cycleLength, List.getD_eq_getElem?_getD, ht]
  exact hpos

theorem HasLengths.readAt (h : device.HasLengths) {c : ℕ} (hc : c < device.loadPerCycle.length) :
    readAt device.timePerCycle c = .ok (device.cycleLength c) := by
  obtain ⟨t, ht, -⟩ := h c hc
  rw [readAt_natCast ht, cycleLength, List.getD_eq_getElem?_getD, ht]
  rfl

@[simp] theorem charge_zero (c : ℕ) : device.charge c 0 = 0 := by simp [charge]

theorem usage_self (p : ℤ) : device.usage p p = 0 := by simp [usage]

/-- A part of one cycle is charged apart from the rest if the cycle or the rest ends there. -/
theorem usage_add (h : device.HasLengths) {p r q : ℤ} {i : ℕ}
    (hi : i < device.loadPerCycle.length) (hp : stretchStart device.cycleLength i ≤ p)
    (hpr : p ≤ r) (hr : r ≤ stretchStart device.cycleLength (i + 1)) (hrq : r ≤ q)
    (hends : r = q ∨ r = stretchStart device.cycleLength (i + 1)) :
    device.usage p q = device.charge i (r - p) + device.usage r q := by
  have hcharge : ∀ c ∈ Finset.range device.loadPerCycle.length,
      device.charge c (overlap device.cycleLength p q c) =
        (if c = i then device.charge i (r - p) else 0) +
          device.charge c (overlap device.cycleLength r q c) := by
    intro c hc
    have hc := Finset.mem_range.mp hc
    rw [← overlap_add (h.cycleLength_pos hc).le hpr hrq,
      overlap_within (fun j hj => (h.cycleLength_pos hj).le) hi hc hp hpr hr]
    split_ifs with hci
    · -- nothing of the cycle is left for the rest
      have hrest : overlap device.cycleLength r q c = 0 := by
        rcases hends with rfl | hends
        · exact overlap_self r c
        · exact overlap_of_end_le (by rw [hci, hends]) q
      rw [hrest, add_zero, charge_zero, add_zero]
      subst hci
      rfl
    · simp
  unfold usage
  rw [Finset.sum_congr rfl hcharge, Finset.sum_add_distrib, Finset.sum_ite_eq' _ i,
    if_pos (Finset.mem_range.mpr hi)]

theorem Valid.position_lt (h : device.HasLengths) {state : DeviceState}
    (hvalid : device.Valid state) : device.position state < device.programTime := by
  obtain ⟨hcycle, hlt, -, htime⟩ := hvalid
  have hle : stretchStart device.cycleLength (state.currentCycleNum.toNat + 1) ≤
      device.programTime :=
    stretchStart_le (fun c hc => (h.cycleLength_pos hc).le) (by omega)
  rw [stretchStart_succ] at hle
  unfold position
  omega

theorem Fits.position_le (h : device.HasLengths) {state : DeviceState}
    (hfits : device.Fits state) : device.position state ≤ device.programTime := by
  rcases hfits with hvalid | ⟨hcycle, htime⟩
  · exact (hvalid.position_lt h).le
  · simp [position, programTime, hcycle, htime]

/-- The last cycle is finished exactly at the end of the program. -/
theorem Fits.position_eq (h : device.HasLengths) {state : DeviceState}
    (hfits : device.Fits state) : device.position state = device.programTime ↔
      state.currentCycleNum = device.loadPerCycle.length := by
  rcases hfits with hvalid | ⟨hcycle, htime⟩
  · exact ⟨fun he => absurd he (hvalid.position_lt h).ne,
      fun he => absurd he hvalid.2.1.ne⟩
  · exact ⟨fun _ => hcycle, fun _ => by simp [position, programTime, hcycle, htime]⟩

/-- What one turn of the loop does within a cycle. -/
theorem runCycle_spec (h : device.HasLengths) {r : CycleLoop} (hvalid : device.Valid r.deviceState)
    (hremaining : 0 < r.timeRemainingInTimestep) {i : ℕ}
    (hi : r.deviceState.currentCycleNum = i) :
    ∃ t, runCycle (device.cycleLength i) (device.loadPerCycle.getD i 0) r = t ∧
      device.Fits t.deviceState ∧ 0 ≤ t.timeRemainingInTimestep ∧
      device.position t.deviceState + t.timeRemainingInTimestep =
        device.position r.deviceState + r.timeRemainingInTimestep ∧
      device.position r.deviceState ≤ device.position t.deviceState ∧
      device.position t.deviceState ≤ stretchStart device.cycleLength (i + 1) ∧
      (t.timeRemainingInTimestep = 0 ∨
        device.position t.deviceState = stretchStart device.cycleLength (i + 1)) ∧
      t.powerConsumed = r.powerConsumed +
        device.charge i (device.position t.deviceState - device.position r.deviceState) ∧
      t.deviceState = { r.deviceState with
        currentCycleNum := t.deviceState.currentCycleNum
        timeInCurrentCycle := t.deviceState.timeInCurrentCycle } := by
  obtain ⟨-, hlt, htime, hless⟩ := hvalid
  rw [hi, Int.toNat_natCast] at hless
  rw [hi] at hlt
  have hposition : device.position r.deviceState =
      stretchStart device.cycleLength i + r.deviceState.timeInCurrentCycle := by
    rw [position, hi, Int.toNat_natCast]
  rcases le_or_gt (device.cycleLength i - r.deviceState.timeInCurrentCycle)
    r.timeRemainingInTimestep with hends | hends
  · -- the next cycle begins, or the program is over
    have hnext : device.position { r.deviceState with
        currentCycleNum := r.deviceState.currentCycleNum + 1
        timeInCurrentCycle := 0 } = stretchStart device.cycleLength (i + 1) := by
      simp only [position, hi]
      norm_cast
      simp
    have hsucc : stretchStart device.cycleLength (i + 1) =
        stretchStart device.cycleLength i + device.cycleLength i := stretchStart_succ i
    refine ⟨_, runCycle_of_le _ hends, ?_, by simpa using hends, ?_, ?_, hnext.le, .inr hnext,
      ?_, rfl⟩
    · by_cases hlast : i + 1 < device.loadPerCycle.length
      · left
        have hpos := h.cycleLength_pos hlast
        simp only [Valid, hi]
        norm_cast
        exact ⟨by simp, hlast, le_rfl, hpos⟩
      · exact .inr ⟨by simp only [hi]; omega, rfl⟩
    · rw [hnext]
      simp only
      omega
    · rw [hnext]
      omega
    · have hminutes : stretchStart device.cycleLength (i + 1) - device.position r.deviceState =
          device.cycleLength i - r.deviceState.timeInCurrentCycle := by omega
      rw [hnext, charge, hminutes]
  · have hnext : device.position { r.deviceState with
        timeInCurrentCycle :=
          r.deviceState.timeInCurrentCycle + r.timeRemainingInTimestep } =
        device.position r.deviceState + r.timeRemainingInTimestep := by
      simp only [position]
      omega
    have hsucc : stretchStart device.cycleLength (i + 1) =
        stretchStart device.cycleLength i + device.cycleLength i := stretchStart_succ i
    refine ⟨_, runCycle_of_lt _ hends, .inl ⟨by simp [hi], by simpa [hi] using hlt, ?_, ?_⟩,
      le_rfl, ?_, ?_, ?_, .inl rfl, ?_, rfl⟩
    · simp only
      omega
    · simp only [hi, Int.toNat_natCast]
      omega
    · rw [hnext]
      simp
    · rw [hnext]
      omega
    · rw [hnext]
      omega
    · rw [hnext, charge, add_sub_cancel_left]

/-- The loop goes on for the whole timestep unless the program ends before it. -/
theorem runCycles_spec (h : device.HasLengths) (r : CycleLoop) (hfits : device.Fits r.deviceState)
    (hremaining : 0 ≤ r.timeRemainingInTimestep) :
    ∃ t, device.runCycles r = .ok t ∧ device.Fits t.deviceState ∧
      device.position t.deviceState = min
        (device.position r.deviceState + r.timeRemainingInTimestep) device.programTime ∧
      t.powerConsumed = r.powerConsumed +
        device.usage (device.position r.deviceState) (device.position t.deviceState) ∧
      t.deviceState = { r.deviceState with
        currentCycleNum := t.deviceState.currentCycleNum
        timeInCurrentCycle := t.deviceState.timeInCurrentCycle } := by
  induction hn : device.turnsLeft r using Nat.strong_induction_on generalizing r with
  | _ n ih =>
    rw [runCycles]
    split_ifs with hturn
    · obtain ⟨hpos, hcycle⟩ := hturn
      have hvalid := hfits.resolve_right fun hend => hcycle.ne hend.1
      obtain ⟨i, hi⟩ := Int.eq_ofNat_of_zero_le hvalid.1
      have hlt : i < device.loadPerCycle.length := by omega
      have hload : readAt device.loadPerCycle i = .ok (device.loadPerCycle.getD i 0) := by
        apply readAt_natCast
        simp [hlt]
      obtain ⟨r', hr', hfits', hremaining', hsum, hle, hend, hboundary, hpower, hstate⟩ :=
        runCycle_spec h hvalid hpos hi
      have hstart : stretchStart device.cycleLength i ≤ device.position r.deviceState := by
        have hnonneg := hvalid.2.2.1
        rw [position, hi, Int.toNat_natCast]
        omega
      have hless := device.turnsLeft_runCycle hpos hcycle (device.cycleLength i)
        (device.loadPerCycle.getD i 0)
      rw [hr', hn] at hless
      obtain ⟨t, ht, hfitst, hpositiont, hpowert, hstatet⟩ :=
        ih _ hless r' hfits' hremaining' rfl
      rw [hi, h.readAt hlt, hload]
      refine ⟨t, ?_, hfitst, by rw [hpositiont, hsum], ?_, ?_⟩
      · rw [← hr'] at ht
        exact ht
      · have hle' : device.position r'.deviceState ≤ device.position t.deviceState := by
          have hprogram := hfits'.position_le h
          omega
        rw [hpowert, hpower, usage_add h hlt hstart hle hend hle', add_assoc]
        refine hboundary.imp_left fun hzero => ?_
        have hprogram := hfits'.position_le h
        omega
      · rw [hstatet, hstate]
    · refine ⟨r, rfl, hfits, ?_, by simp [usage_self], rfl⟩
      have hle := hfits.position_le h
      rcases hfits with hvalid | hend
      · have hcycle := hvalid.2.1
        omega
      · have hprogram := (Fits.position_eq h (.inr hend)).mpr hend.1
        omega

/-- One timestep of a device that runs: where it ends, and what it is charged. -/
theorem runDevice_spec (h : device.HasLengths) {state : DeviceState}
    (hvalid : device.Valid state) :
    ∃ next, device.runDevice state = .ok (device.usage (device.position state)
        (min (device.position state + usageTimestepMin) device.programTime), next) ∧
      device.Valid next ∧ next.startTime = state.startTime ∧
      next.scheduledStartTime = state.scheduledStartTime ∧
      if device.position state + usageTimestepMin < device.programTime then
        next.isOn = state.isOn ∧ device.position next = device.position state + usageTimestepMin
      else next.isOn = false ∧ next.currentCycleNum = 0 ∧ next.timeInCurrentCycle = 0 := by
  obtain ⟨r, hr, hfits, hposition, hpower, hstate⟩ :=
    runCycles_spec h ⟨usageTimestepMin, 0, state⟩ (.inl hvalid)
      (show 0 ≤ usageTimestepMin by decide)
  simp only at hposition hpower hstate
  rw [zero_add, hposition] at hpower
  have hdone := hfits.position_eq h
  unfold runDevice
  rw [hr]
  rw [ok_bind, hpower]
  split_ifs with hlast hmore hmore
  · -- the last cycle is finished, though the timestep ends earlier
    have hend := hdone.mpr hlast
    omega
  · have hzero : r.deviceState.timeInCurrentCycle = 0 :=
      (hfits.resolve_left fun hv => hv.2.1.ne hlast).2
    have hcycles : 0 < device.loadPerCycle.length := by
      have hlt := hvalid.2.1
      have hnonneg := hvalid.1
      omega
    refine ⟨_, rfl, ⟨le_rfl, by simpa using hcycles, hzero.ge, ?_⟩, ?_, ?_, rfl, rfl, hzero⟩
    · rw [hzero]
      exact h.cycleLength_pos hcycles
    · rw [hstate]
    · rw [hstate]
  · refine ⟨_, rfl, hfits.resolve_right fun hend => hlast hend.1, ?_, ?_, ?_, ?_⟩
    · rw [hstate]
    · rw [hstate]
    · rw [hstate]
    · omega
  · -- the end of the program is reached in the last cycle
    have hend := hdone.mp (by omega)
    exact absurd hend hlast

variable (device) in
def positionAfter (p : ℤ) (k : ℕ) : ℤ := min (p + usageTimestepMin * k) device.programTime

theorem positionAfter_le (p : ℤ) (k : ℕ) :
    device.positionAfter p k ≤ device.positionAfter p (k + 1) := by
  unfold positionAfter usageTimestepMin
  push_cast
  omega

theorem positionAfter_succ (p : ℤ) (k : ℕ) :
    device.positionAfter p (k + 1) = device.positionAfter (p + usageTimestepMin) k := by
  unfold positionAfter
  push_cast
  congr 1
  ring

theorem runDeviceFor_spec (h : device.HasLengths) (n : ℕ) {state : DeviceState}
    (hvalid : device.Valid state)
    (hn : device.position state + usageTimestepMin * n < device.programTime + usageTimestepMin) :
    ∃ next, device.runDeviceFor n state = .ok ((List.range n).map fun k => device.usage
        (device.positionAfter (device.position state) k)
        (device.positionAfter (device.position state) (k + 1)), next) ∧ device.Valid next ∧
      if device.position state + usageTimestepMin * n < device.programTime then
        next.isOn = state.isOn ∧
          device.position next = device.position state + usageTimestepMin * n
      else next.isOn = false ∧ next.currentCycleNum = 0 ∧ next.timeInCurrentCycle = 0 := by
  induction n generalizing state with
  | zero =>
    have hlt := hvalid.position_lt h
    refine ⟨state, rfl, hvalid, ?_⟩
    rw [if_pos (by simpa using hlt)]
    simp
  | succ n ih =>
    have hlt := hvalid.position_lt h
    obtain ⟨next, hnext, hvalid', -, -, hstate⟩ := runDevice_spec h hvalid
    have hfirst : device.positionAfter (device.position state) 0 = device.position state := by
      simpa [positionAfter] using hlt.le
    have hsecond : device.positionAfter (device.position state) 1 =
        min (device.position state + usageTimestepMin) device.programTime := by
      simp [positionAfter]
    rw [runDeviceFor, hnext]
    simp only [ok_bind]
    split_ifs at hstate with hmore
    · obtain ⟨hon, hposition⟩ := hstate
      have hn' : device.position next + usageTimestepMin * n <
          device.programTime + usageTimestepMin := by
        rw [hposition]
        push_cast at hn
        linarith
      obtain ⟨last, hlast, hvalidlast, hend⟩ := ih hvalid' hn'
      refine ⟨last, ?_, hvalidlast, ?_⟩
      · rw [hlast, ok_bind]
        simp only [List.range_succ_eq_map, List.map_cons, List.map_map, hfirst, hsecond, zero_add]
        congr 3
        apply List.map_congr_left
        intro k _
        simp [positionAfter_succ, hposition]
      · rw [hposition, hon] at hend
        push_cast
        rw [mul_add, mul_one, add_comm (usageTimestepMin * (n : ℤ)), ← add_assoc]
        exact hend
    · -- the program ends in this timestep, and so it was the last one
      obtain rfl : n = 0 := by
        unfold usageTimestepMin at hn hmore
        push_cast at hn
        omega
      refine ⟨next, ?_, hvalid', ?_⟩
      · simp [runDeviceFor, hfirst, hsecond]
      · rw [if_neg (by simpa using hmore)]
        exact hstate

/-- A device goes through its program by the minutes of each timestep, is turned off and
reset where the program ends, and every minute of every cycle is charged once. -/
theorem runDevice_accounts (h : device.HasLengths) {state : DeviceState}
    (hvalid : device.Valid state) :
    (∃ next, device.runDevice state = .ok (device.usage (device.position state)
        (min (device.position state + usageTimestepMin) device.programTime), next) ∧
      device.Valid next ∧ next.startTime = state.startTime ∧
      next.scheduledStartTime = state.scheduledStartTime ∧
      if device.position state + usageTimestepMin < device.programTime then
        next.isOn = state.isOn ∧ device.position next = device.position state + usageTimestepMin
      else next.isOn = false ∧ next.currentCycleNum = 0 ∧ next.timeInCurrentCycle = 0) ∧
    ∀ n : ℕ, device.position state + usageTimestepMin * n <
        device.programTime + usageTimestepMin →
      let minutes (k : ℕ) : ℕ → ℤ := overlap device.cycleLength
        (device.positionAfter (device.position state) k)
        (device.positionAfter (device.position state) (k + 1))
      (∃ next, device.runDeviceFor n state = .ok ((List.range n).map fun k =>
          ∑ c ∈ Finset.range device.loadPerCycle.length, device.charge c (minutes k c), next) ∧
        device.Valid next ∧
        if device.position state + usageTimestepMin * n < device.programTime then
          next.isOn = state.isOn ∧
            device.position next = device.position state + usageTimestepMin * n
        else next.isOn = false ∧ next.currentCycleNum = 0 ∧ next.timeInCurrentCycle = 0) ∧
      (device.programTime ≤ device.position state + usageTimestepMin * n →
        ∀ c < device.loadPerCycle.length,
          overlap device.cycleLength 0 (device.position state) c +
            ∑ k ∈ Finset.range n, minutes k c = device.cycleLength c) := by
  refine ⟨runDevice_spec h hvalid, fun n hn => ⟨runDeviceFor_spec h n hvalid hn, ?_⟩⟩
  intro hend c hc
  have hlen := (h.cycleLength_pos hc).le
  have hlt := hvalid.position_lt h
  have hnonneg : ∀ i < device.loadPerCycle.length, 0 ≤ device.cycleLength i :=
    fun i hi => (h.cycleLength_pos hi).le
  have hfirst : device.positionAfter (device.position state) 0 = device.position state := by
    simpa [positionAfter] using hlt.le
  have hlast : device.positionAfter (device.position state) n = device.programTime :=
    min_eq_right hend
  have hposition : 0 ≤ device.position state := by
    have hstart : 0 ≤ stretchStart device.cycleLength state.currentCycleNum.toNat := by
      have hcycle := hvalid.2.1
      exact stretchStart_le (fun i hi => hnonneg i (by omega)) (Nat.zero_le _)
    have htime := hvalid.2.2.1
    unfold position
    omega
  rw [sum_overlap hlen fun k _ => positionAfter_le _ k, hfirst, hlast,
    overlap_add hlen hposition hlt.le]
  apply overlap_whole hlen
  · exact stretchStart_le (fun i hi => hnonneg i (by omega)) (Nat.zero_le _)
  · exact stretchStart_le hnonneg hc

/-- A washer that fills for 7 minutes, washes for 25 and spins for 4. -/
def washer : Device :=
  { name := "washer"
    loadPerCycle := [1200, 300, 500].map (· * FixedPoint.factor)
    timePerCycle := [7, 25, 4]
    standbyLoad := FixedPoint.factor
    weekdayFrequency := 1 / 2
    weekendFrequency := 1
    weekdayHourlyProbability := List.replicate 24 (1 / 24)
    weekendHourlyProbability := List.replicate 24 (1 / 24) }

theorem washer_hasLengths : washer.HasLengths := by
  intro c hc
  have hc : c < 3 := hc
  interval_cases c
  · exact ⟨7, rfl, by decide⟩
  · exact ⟨25, rfl, by decide⟩
  · exact ⟨4, rfl, by decide⟩

theorem washer_valid : washer.Valid { isOn := true } := by
  refine ⟨le_rfl, ?_, le_rfl, ?_⟩
  · decide
  · decide

theorem runDevice_accounts_washer : (∃ next, washer.runDevice { isOn := true } =
      .ok (1200 * 3822 + 300 * 1638, next) ∧ washer.Valid next) ∧
    ∃ powers next, washer.runDeviceFor 4 { isOn := true } = .ok (powers, next) ∧
      next.isOn = false := by
  obtain ⟨⟨next, hnext, hvalid, -⟩, hrun⟩ := runDevice_accounts washer_hasLengths washer_valid
  refine ⟨⟨next, ?_, hvalid⟩, ?_⟩
  · rw [hnext]
    have husage : washer.usage 0 10 = 1200 * 3822 + 300 * 1638 := by decide
    exact congrArg (fun power => Except.ok (power, next)) husage
  · obtain ⟨⟨last, hlast, -, hstate⟩, -⟩ := hrun 4 (by decide)
    rw [if_neg (by decide)] at hstate
    exact ⟨_, last, hlast, hstate.1⟩

end Device

end Pddm
