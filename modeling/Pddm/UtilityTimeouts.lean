import Pddm.UtilityClient

/-!
# The timeouts of a query

How a delay becomes the setting of a Linux timer, and which delays the utility asks for.
-/
namespace Pddm

/-- How many failures each protocol tolerates among some number of meters: the rounded-up
logarithm, or a tenth rounded to the nearest integer. The source rounds the product with the
`float` 0.1, which is the same up to 16777224 meters. -/
def QueryProtocol.initFailuresTolerated (protocol : QueryProtocol) (numMeters : ℤ) : ℤ :=
  match protocol with
  | .bft | .ct => ceilLog2 numMeters
  | .hft => (numMeters + 5) / 10

def UtilityConfig.forMeters (protocol : QueryProtocol) (numMeters : ℤ) (crypto : CryptoLibrary) :
    UtilityConfig :=
  ⟨protocol, numMeters, protocol.initFailuresTolerated numMeters, crypto⟩

def checkedInt (x : ℤ) : Except Fault ℤ :=
  if -2 ^ 31 ≤ x ∧ x < 2 ^ 31 then .ok x else .error .undefinedBehaviour

structure TimeSpec where
  tvSec : ℤ
  tvNsec : ℤ
  deriving DecidableEq, Repr

structure ITimerSpec where
  itInterval : TimeSpec
  itValue : TimeSpec
  deriving DecidableEq, Repr

def timerSpec (delayMs : ℤ) : Except Fault ITimerSpec := do
  let tvNsec ← checkedInt (delayMs * 1000000)
  .ok ⟨⟨0, 0⟩, ⟨0, tvNsec⟩⟩

def queryTimeoutSpec (cfg : UtilityConfig) : Except Fault ITimerSpec := do
  let delayMs ← checkedInt (UtilityClient.roundsForQuery cfg * UtilityClient.networkRoundtripTimeout)
  timerSpec delayMs

/-- A time that `timer_settime` accepts, of so many milliseconds. -/
def TimeSpec.Denotes (time : TimeSpec) (delayMs : ℤ) : Prop :=
  0 ≤ time.tvNsec ∧ time.tvNsec < 10 ^ 9 ∧ time.tvSec * 10 ^ 9 + time.tvNsec = delayMs * 10 ^ 6

/-- Nothing overflows, and the timer is armed once, for the delay. -/
def Arms (spec : Except Fault ITimerSpec) (delayMs : ℤ) : Prop :=
  ∃ setting, spec = .ok setting ∧ setting.itInterval = ⟨0, 0⟩ ∧ setting.itValue.Denotes delayMs

theorem arms_timerSpec_iff {delayMs : ℤ} (hdelay : 0 ≤ delayMs) :
    Arms (timerSpec delayMs) delayMs ↔ delayMs < 1000 := by
  unfold timerSpec checkedInt
  constructor
  · rintro ⟨setting, hspec, -, hvalue⟩
    split_ifs at hspec with hfits
    · obtain rfl := Except.ok.inj hspec
      have hnsec : delayMs * 1000000 < 10 ^ 9 := hvalue.2.1
      omega
    · cases hspec
  · intro hlt
    rw [if_pos (by omega)]
    exact ⟨_, rfl, rfl, by simpa using hdelay, show delayMs * 1000000 < 10 ^ 9 by omega, by simp⟩

/-- The delay of a query is armed exactly if it has fewer than ten rounds. -/
theorem arms_queryTimeoutSpec_iff {cfg : UtilityConfig}
    (hrounds : 0 ≤ UtilityClient.roundsForQuery cfg) :
    Arms (queryTimeoutSpec cfg)
        (UtilityClient.roundsForQuery cfg * UtilityClient.networkRoundtripTimeout) ↔
      UtilityClient.roundsForQuery cfg < 10 := by
  have htimer := arms_timerSpec_iff (show 0 ≤ UtilityClient.roundsForQuery cfg * 100 by omega)
  unfold queryTimeoutSpec checkedInt UtilityClient.networkRoundtripTimeout
  split_ifs with hfits
  · refine htimer.trans ?_
    omega
  · constructor
    · rintro ⟨setting, hspec, -⟩
      cases hspec
    · omega

section Rounds
open UtilityClient (roundsForQuery)
variable {n d : ℤ}

theorem ceilLog2_le (hn : 1 ≤ n) : (ceilLog2 n : ℤ) ≤ n - 1 := by
  unfold ceilLog2
  split_ifs with hone
  · push_cast
    omega
  · have hlog : Nat.log2 (n.toNat - 1) < n.toNat - 1 := (Nat.log2_lt (by omega)).mpr Nat.lt_two_pow_self
    omega

theorem ceilLog2_mono {m : ℤ} (h : n ≤ m) : ceilLog2 n ≤ ceilLog2 m := by
  unfold ceilLog2
  split_ifs with hn hm
  · exact le_rfl
  · exact Nat.zero_le _
  · omega
  · have hlog : Nat.log2 (n.toNat - 1) ≤ Nat.log2 (m.toNat - 1) := by
      rw [Nat.log2_eq_log_two, Nat.log2_eq_log_two]
      exact Nat.log_mono_right (by omega)
    omega

/-- A quotient above one half has a logarithm that is rounded up to zero or more. -/
theorem ceilLog2Ratio_nonneg (hn : 0 < n) (hd : d < 2 * n) : 0 ≤ ceilLog2Ratio n d := by
  unfold ceilLog2Ratio
  split_ifs with hlt
  · positivity
  · have hquotient : d / n < 2 := Int.ediv_lt_of_lt_mul hn (by omega)
    have hsmall : (d / n).toNat = 0 ∨ (d / n).toNat = 1 := by omega
    rcases hsmall with h | h <;> rw [h] <;> decide

/-- The largest networks whose queries have fewer than ten rounds. -/
def lastTimedSize : QueryProtocol → ℤ
  | .bft => 1
  | .ct => 2
  | .hft => 4

theorem roundsForQuery_ct (hn : 3 ≤ n) (crypto : CryptoLibrary) :
    10 ≤ roundsForQuery (.forMeters .ct n crypto) := by
  have hlog : ceilLog2 3 ≤ ceilLog2 n := ceilLog2_mono hn
  have htwo : ceilLog2 3 = 2 := by decide
  have hratio : 0 ≤ ceilLog2Ratio n (ceilLog2 n + 1) :=
    ceilLog2Ratio_nonneg (by omega) (by have hle := ceilLog2_le (show 1 ≤ n by omega); omega)
  simp only [roundsForQuery, UtilityConfig.forMeters, QueryProtocol.initFailuresTolerated]
  omega

theorem roundsForQuery_bft (hn : 2 ≤ n) (crypto : CryptoLibrary) :
    10 ≤ roundsForQuery (.forMeters .bft n crypto) := by
  have hlog : ceilLog2 2 ≤ ceilLog2 n := ceilLog2_mono hn
  have hone : ceilLog2 2 = 1 := by decide
  have hratio : 0 ≤ ceilLog2Ratio n (2 * ceilLog2 n + 1) :=
    ceilLog2Ratio_nonneg (by omega) (by have hle := ceilLog2_le (show 1 ≤ n by omega); omega)
  have hsquare : (1 : ℤ) ≤ ceilLog2 n * ceilLog2 n := by nlinarith
  simp only [roundsForQuery, UtilityConfig.forMeters, QueryProtocol.initFailuresTolerated]
  nlinarith

theorem roundsForQuery_hft (hn : 5 ≤ n) (crypto : CryptoLibrary) :
    10 ≤ roundsForQuery (.forMeters .hft n crypto) := by
  simp only [roundsForQuery, UtilityConfig.forMeters, QueryProtocol.initFailuresTolerated]
  rcases le_or_gt n 8 with hle | hgt
  · interval_cases n <;> decide
  · have hlog : ceilLog2 9 ≤ ceilLog2 n := ceilLog2_mono (by omega)
    have hfour : ceilLog2 9 = 4 := by decide
    have hratio : 0 ≤ ceilLog2Ratio n ((n + 5) / 10 + 1) :=
      ceilLog2Ratio_nonneg (by omega) (by omega)
    omega

theorem roundsForQuery_nonneg (hn : 1 ≤ n) (protocol : QueryProtocol) (crypto : CryptoLibrary) :
    0 ≤ roundsForQuery (.forMeters protocol n crypto) := by
  have hany : roundsForQuery (.forMeters protocol n crypto) =
      roundsForQuery (.forMeters protocol n dummyCrypto) := rfl
  rw [hany]
  cases protocol with
  | bft =>
    rcases (show n = 1 ∨ 2 ≤ n by omega) with rfl | hn
    · decide
    · exact (by decide : (0 : ℤ) ≤ 10).trans (roundsForQuery_bft hn dummyCrypto)
  | ct =>
    rcases (show n = 1 ∨ n = 2 ∨ 3 ≤ n by omega) with rfl | rfl | hn
    · decide
    · decide
    · exact (by decide : (0 : ℤ) ≤ 10).trans (roundsForQuery_ct hn dummyCrypto)
  | hft =>
    rcases (show n < 5 ∨ 5 ≤ n by omega) with hlt | hn
    · interval_cases n <;> decide
    · exact (by decide : (0 : ℤ) ≤ 10).trans (roundsForQuery_hft hn dummyCrypto)

theorem roundsForQuery_lt_iff (hn : 1 ≤ n) (protocol : QueryProtocol) (crypto : CryptoLibrary) :
    roundsForQuery (.forMeters protocol n crypto) < 10 ↔ n ≤ lastTimedSize protocol := by
  rcases (show lastTimedSize protocol < n ∨ n ≤ lastTimedSize protocol by omega) with hlt | hle
  · have hlong : 10 ≤ roundsForQuery (.forMeters protocol n crypto) := by
      cases protocol with
      | bft => exact roundsForQuery_bft hlt crypto
      | ct => exact roundsForQuery_ct hlt crypto
      | hft => exact roundsForQuery_hft hlt crypto
    omega
  · refine iff_of_true ?_ hle
    have hany : roundsForQuery (.forMeters protocol n crypto) =
        roundsForQuery (.forMeters protocol n dummyCrypto) := rfl
    rw [hany]
    cases protocol <;> simp only [lastTimedSize] at hle <;> interval_cases n <;> decide

end Rounds

/-- A delay is armed as it is exactly if it is below one second, and the timeout of a query
exactly if the network is as small as its protocol needs for that. -/
theorem arms_exact_delay_iff {delayMs n : ℤ} (hdelay : 0 ≤ delayMs) (hn : 1 ≤ n)
    (protocol : QueryProtocol) (crypto : CryptoLibrary) :
    (Arms (timerSpec delayMs) delayMs ↔ delayMs < 1000) ∧
      (Arms (queryTimeoutSpec (.forMeters protocol n crypto))
        (UtilityClient.roundsForQuery (.forMeters protocol n crypto) *
          UtilityClient.networkRoundtripTimeout) ↔ n ≤ lastTimedSize protocol) := by
  refine ⟨arms_timerSpec_iff hdelay, ?_⟩
  rw [arms_queryTimeoutSpec_iff (roundsForQuery_nonneg hn protocol crypto)]
  exact roundsForQuery_lt_iff hn protocol crypto

theorem sample_arms_exact_delay_iff :
    (Arms (timerSpec 999) 999 ↔ (999 : ℤ) < 1000) ∧
      (Arms (queryTimeoutSpec (.forMeters .ct 2 dummyCrypto))
        (UtilityClient.roundsForQuery (.forMeters .ct 2 dummyCrypto) *
          UtilityClient.networkRoundtripTimeout) ↔ 2 ≤ lastTimedSize .ct) :=
  arms_exact_delay_iff (by decide) (by decide) .ct dummyCrypto

/-- A delay of one second asks for too many nanoseconds, and the timeout of a query of 11
meters overflows. -/
theorem long_delay_not_armed : ¬ Arms (timerSpec 1000) 1000 ∧
    queryTimeoutSpec (.forMeters .ct 11 dummyCrypto) = .error .undefinedBehaviour := by
  refine ⟨?_, by decide⟩
  rintro ⟨setting, hspec, -, hvalue⟩
  obtain rfl := Except.ok.inj hspec
  exact absurd hvalue.2.1 (by decide)

end Pddm
