import Mathlib
import Pddm.GossipRounds

/-!
# The table of moduli

The numbers of meters for which there are overlays are read from a table. Its entries are primes
with primitive root 2, and the next one is never more than twice the number that is asked for.
-/
namespace Pddm

section Generators

/-- All primes up to 160, the square of which is beyond the table. -/
def smallPrimes : List ℕ :=
  [2, 3, 5, 7, 11, 13, 17, 19, 23, 29, 31, 37, 41, 43, 47, 53, 59, 61, 67, 71, 73, 79, 83, 89, 97,
    101, 103, 107, 109, 113, 127, 131, 137, 139, 149, 151, 157]

theorem mem_smallPrimes : ∀ q < 160, q.Prime → q ∈ smallPrimes := by decide +kernel

theorem two_le_of_mem_smallPrimes : ∀ q ∈ smallPrimes, 2 ≤ q := by decide

def isOne (p k : ℕ) : Bool := (2 ^ k % p).beq 1

theorem isOne_iff {p k : ℕ} (hp : 1 < p) : isOne p k = true ↔ (2 : ZMod p) ^ k = 1 := by
  have hcast : (2 : ZMod p) ^ k = 1 ↔ ((2 ^ k : ℕ) : ZMod p) = ((1 : ℕ) : ZMod p) := by
    push_cast
    rfl
  rw [hcast, ZMod.natCast_eq_natCast_iff, Nat.ModEq, Nat.mod_eq_of_lt hp]
  simp [isOne]

/-- The numbers that have a small power of two for one divide this one. -/
def smallOrders : ℕ := ((List.range 160).map fun k => 2 ^ (k + 1) - 1).prod

theorem dvd_smallOrders {p k : ℕ} (hk : 0 < k) (hle : k ≤ 160) (h : (2 : ZMod p) ^ k = 1) :
    p ∣ smallOrders := by
  have hdvd : p ∣ 2 ^ k - 1 := by
    rw [← ZMod.natCast_eq_zero_iff, Nat.cast_sub Nat.one_le_two_pow]
    push_cast
    rw [h, sub_self]
  refine hdvd.trans (List.dvd_prod (List.mem_map.mpr ⟨k - 1, ?_, ?_⟩))
  · rw [List.mem_range]
    omega
  · rw [Nat.sub_add_cancel hk]

/-- The order of two is `p - 1`: a prime by which it could be smaller is small, or what is left
of `p - 1` is. -/
def generates (p : ℕ) : Bool :=
  isOne p (p - 1) &&
    smallPrimes.all (fun q => !((p - 1) % q).beq 0 || !isOne p ((p - 1) / q)) &&
    (p.ble 160 || !(smallOrders % p).beq 0)

theorem generates_sound {p : ℕ} (hp : 2 < p) (hbound : p ≤ 160 * 160)
    (h : generates p = true) : p.Prime ∧ orderOf (2 : ZMod p) = p - 1 := by
  simp only [generates, Bool.and_eq_true, List.all_eq_true, Bool.or_eq_true] at h
  obtain ⟨⟨hone, hsmall⟩, hlarge⟩ := h
  have hpow : (2 : ZMod p) ^ (p - 1) = 1 := (isOne_iff (by omega)).mp hone
  have hproper : ∀ q : ℕ, q.Prime → q ∣ p - 1 → (2 : ZMod p) ^ ((p - 1) / q) ≠ 1 := by
    intro q hq hdvd heq
    have hle := Nat.le_of_dvd (by omega) hdvd
    by_cases hlt : q < 160
    · have hquot : isOne p ((p - 1) / q) = true := (isOne_iff (by omega)).mpr heq
      rcases hsmall q (mem_smallPrimes q hlt hq) with hnot | hnot
      · rw [Nat.mod_eq_zero_of_dvd hdvd] at hnot
        cases hnot
      · rw [hquot] at hnot
        cases hnot
    · have hpos : 0 < (p - 1) / q := Nat.div_pos hle hq.pos
      have hquot : (p - 1) / q ≤ 160 := Nat.div_le_of_le_mul (by omega)
      have hmod := Nat.mod_eq_zero_of_dvd (dvd_smallOrders hpos hquot heq)
      rcases hlarge with hle' | hnot
      · have hle'' := Nat.le_of_ble_eq_true hle'
        omega
      · rw [hmod] at hnot
        cases hnot
  exact ⟨lucas_primality p 2 hpow hproper,
    orderOf_eq_of_pow_and_pow_div_prime (by omega) hpow hproper⟩

/-- Small primes show that `n` is no prime or that a power of two before the last is one. -/
def excluded (n : ℕ) : Bool :=
  n.beq 2 || smallPrimes.any fun q =>
    (n % q).beq 0 && q.blt n || ((n - 1) % q).beq 0 && isOne n ((n - 1) / q)

theorem excluded_sound {n : ℕ} (h : excluded n = true) : ¬ GossipPrime n := by
  intro hgossip
  have hprime : n.Prime := by simpa using hgossip.prime
  have horder : IsPrimitiveRoot (2 : ZMod n) (n - 1) := by simpa using hgossip.primitive
  have htwo := hprime.two_le
  simp only [excluded, Bool.or_eq_true, Nat.beq_eq, List.any_eq_true, Bool.and_eq_true,
    Nat.blt_eq] at h
  rcases h with rfl | ⟨q, hq, ⟨hmod, hlt⟩ | ⟨hmod, hone⟩⟩
  · exact absurd horder.pow_eq_one (by decide)
  · have hq2 := two_le_of_mem_smallPrimes q hq
    rcases (Nat.dvd_prime hprime).mp (Nat.dvd_of_mod_eq_zero hmod) with rfl | rfl
    · omega
    · omega
  · have hq2 := two_le_of_mem_smallPrimes q hq
    have hle := Nat.le_of_dvd (by omega) (Nat.dvd_of_mod_eq_zero hmod)
    have hdvd := horder.dvd_of_pow_eq_one _ ((isOne_iff (by omega)).mp hone)
    have hle' := Nat.le_of_dvd (Nat.div_pos hle (by omega)) hdvd
    have hlt := Nat.div_lt_self (show 0 < n - 1 by omega) hq2
    omega

theorem le_of_mem_steps {a q : ℕ} {xs : List ℕ}
    (hsteps : ((a :: xs).zip xs).all (fun step => step.1 < step.2 && step.2 ≤ 2 * (step.1 + 1)) =
      true) (hq : q ∈ xs) : a < q := by
  induction xs generalizing a with
  | nil => cases hq
  | cons x xs ih =>
    simp only [List.zip_cons_cons, List.all_cons, Bool.and_eq_true, decide_eq_true_eq] at hsteps
    obtain ⟨⟨hlt, -⟩, hsteps⟩ := hsteps
    rcases List.mem_cons.mp hq with rfl | hq
    · exact hlt
    · exact hlt.trans (ih hsteps hq)

theorem find_of_steps {a n p : ℕ} {xs : List ℕ}
    (hsteps : ((a :: xs).zip xs).all (fun step => step.1 < step.2 && step.2 ≤ 2 * (step.1 + 1)) =
      true) (ha : a < n) (h : xs.find? (fun x => n ≤ x) = some p) :
    p ≤ 2 * n ∧ ∀ q ∈ xs, n ≤ q → p ≤ q := by
  induction xs generalizing a with
  | nil => cases h
  | cons x xs ih =>
    simp only [List.zip_cons_cons, List.all_cons, Bool.and_eq_true, decide_eq_true_eq] at hsteps
    obtain ⟨⟨hlt, hstep⟩, hsteps⟩ := hsteps
    rw [List.find?_cons] at h
    split at h
    · obtain rfl := Option.some.inj h
      refine ⟨by omega, fun q hq _ => ?_⟩
      rcases List.mem_cons.mp hq with rfl | hq
      · exact le_rfl
      · exact (le_of_mem_steps hsteps hq).le
    · rename_i hnot
      simp only [decide_eq_false_iff_not] at hnot
      obtain ⟨hle, hleast⟩ := ih hsteps (not_le.mp hnot) h
      refine ⟨hle, fun q hq hn => ?_⟩
      rcases List.mem_cons.mp hq with rfl | hq
      · exact absurd hn hnot
      · exact hleast q hq hn

/-- A number between two of a list is between two that follow each other. -/
theorem mem_of_gaps {a n : ℕ} {xs : List ℕ} {f : ℕ → Bool}
    (hgaps : ((a :: xs).zip xs).all (fun step =>
      (List.range' (step.1 + 1) (step.2 - step.1 - 1)).all f) = true)
    (ha : a < n) (hn : ∃ x ∈ xs, n ≤ x) : n ∈ xs ∨ f n = true := by
  induction xs generalizing a with
  | nil => simp at hn
  | cons x xs ih =>
    simp only [List.zip_cons_cons, List.all_cons, Bool.and_eq_true] at hgaps
    obtain ⟨hgap, hgaps⟩ := hgaps
    rcases lt_trichotomy n x with hlt | rfl | hlt
    · refine .inr (List.all_eq_true.mp hgap n ?_)
      rw [List.mem_range'_1]
      omega
    · exact .inl (by simp)
    · obtain ⟨y, hy, hle⟩ := hn
      rcases List.mem_cons.mp hy with rfl | hy
      · omega
      · rcases ih hgaps hlt ⟨y, hy, hle⟩ with hmem | hf
        · exact .inl (List.mem_cons_of_mem _ hmem)
        · exact .inr hf

end Generators

def validPrimeModuli : List ℕ := [
    3, 5, 11, 13, 19, 29, 37, 53, 59, 61, 67, 83, 101, 107, 131, 139, 149, 163, 173, 179, 181, 197,
    211, 227, 269, 293, 317, 347, 349, 373, 379, 389, 419, 421, 443, 461, 467, 491, 509, 523, 541,
    547, 557, 563, 587, 613, 619, 653, 659, 661, 677, 701, 709, 757, 773, 787, 797, 821, 827, 829,
    853, 859, 877, 883, 907, 941, 947, 1019, 1061, 1091, 1109, 1117, 1123, 1171, 1187, 1213, 1229,
    1237, 1259, 1277, 1283, 1291, 1301, 1307, 1373, 1381, 1427, 1451, 1453, 1483, 1493, 1499, 1523,
    1531, 1549, 1571, 1619, 1621, 1637, 1667, 1669, 1693, 1733, 1741, 1747, 1787, 1861, 1867, 1877,
    1901, 1907, 1931, 1949, 1973, 1979, 1987, 1997, 2027, 2029, 2053, 2069, 2083, 2099, 2131, 2141,
    2213, 2221, 2237, 2243, 2267, 2269, 2293, 2309, 2333, 2339, 2357, 2371, 2389, 2437, 2459, 2467,
    2477, 2531, 2539, 2549, 2557, 2579, 2621, 2659, 2677, 2683, 2693, 2699, 2707, 2741, 2789, 2797,
    2803, 2819, 2837, 2843, 2851, 2861, 2909, 2939, 2957, 2963, 3011, 3019, 3037, 3067, 3083, 3187,
    3203, 3253, 3299, 3307, 3323, 3347, 3371, 3413, 3461, 3467, 3469, 3491, 3499, 3517, 3533, 3539,
    3547, 3557, 3571, 3581, 3613, 3637, 3643, 3659, 3677, 3691, 3701, 3709, 3733, 3779, 3797, 3803,
    3851, 3853, 3877, 3907, 3917, 3923, 3931, 3947, 3989, 4003, 4013, 4019, 4021, 4091, 4093, 4099,
    4133, 4139, 4157, 4219, 4229, 4243, 4253, 4259, 4261, 4283, 4349, 4357, 4363, 4373, 4397, 4451,
    4483, 4493, 4507, 4517, 4547, 4603, 4621, 4637, 4691, 4723, 4787, 4789, 4813, 4877, 4933, 4957,
    4973, 4987, 5003, 5011, 5051, 5059, 5077, 5099, 5107, 5147, 5171, 5179, 5189, 5227, 5261, 5309,
    5333, 5387, 5443, 5477, 5483, 5501, 5507, 5557, 5563, 5573, 5651, 5659, 5683, 5693, 5701, 5717,
    5741, 5749, 5779, 5813, 5827, 5843, 5851, 5869, 5923, 5939, 5987, 6011, 6029, 6053, 6067, 6101,
    6131, 6173, 6197, 6203, 6211, 6229, 6269, 6277, 6299, 6317, 6323, 6373, 6379, 6389, 6397, 6469,
    6491, 6547, 6619, 6637, 6653, 6659, 6691, 6701, 6709, 6733, 6763, 6779, 6781, 6803, 6827, 6829,
    6869, 6883, 6899, 6907, 6917, 6947, 6949, 6971, 7013, 7019, 7027, 7043, 7069, 7109, 7187, 7211,
    7219, 7229, 7237, 7243, 7253, 7283, 7307, 7331, 7349, 7411, 7451, 7459, 7477, 7499, 7507, 7517,
    7523, 7541, 7547, 7549, 7573, 7589, 7603, 7621, 7643, 7669, 7691, 7717, 7757, 7789, 7829, 7853,
    7877, 7883, 7901, 7907, 7933, 7949, 8053, 8069, 8093, 8117, 8123, 8147, 8171, 8179, 8219, 8221,
    8237, 8243, 8269, 8291, 8293, 8363, 8387, 8429, 8443, 8467, 8539, 8563, 8573, 8597, 8627, 8669,
    8677, 8693, 8699, 8731, 8741, 8747, 8803, 8819, 8821, 8837, 8861, 8867, 8923, 8933, 8963, 8971,
    9011, 9029, 9059, 9173, 9181, 9203, 9221, 9227, 9283, 9293, 9323, 9341, 9349, 9371, 9397, 9419,
    9421, 9437, 9467, 9491, 9533, 9539, 9547, 9587, 9613, 9619, 9629, 9643, 9661, 9677, 9733, 9749,
    9803, 9851, 9859, 9883, 9901, 9907, 9923, 9941, 9949, 10037, 10067, 10069, 10091, 10093, 10099,
    10133, 10139, 10141, 10163, 10181, 10253, 10259, 10267, 10301, 10331, 10357, 10427, 10459,
    10477, 10499, 10501, 10589, 10613, 10667, 10691, 10709, 10723, 10733, 10789, 10837, 10853,
    10859, 10861, 10867, 10883, 10891, 10909, 10949, 10973, 10979, 10987, 11003, 11027, 11069,
    11083, 11093, 11131, 11171, 11197, 11213, 11261, 11317, 11437, 11443, 11483, 11549, 11579,
    11587, 11621, 11677, 11699, 11717, 11779, 11789, 11813, 11821, 11827, 11867, 11909, 11933,
    11939, 11981, 11987, 12011, 12043, 12107, 12149, 12157, 12197, 12203, 12211, 12227, 12251,
    12253, 12269, 12277, 12301, 12323, 12347, 12373, 12379, 12413, 12437, 12491, 12539, 12547,
    12589, 12611, 12613, 12619, 12637, 12653, 12659, 12739, 12757, 12763, 12781, 12821, 12829,
    12899, 12907, 12917, 12923, 12941, 12979, 13037, 13043, 13109, 13147, 13163, 13187, 13229,
    13291, 13331, 13339, 13397, 13411, 13451, 13469, 13477, 13523, 13613, 13619, 13627, 13691,
    13709, 13723, 13757, 13763, 13829, 13859, 13877, 13883, 13901, 13907, 13931, 13933, 13997,
    14011, 14051, 14107, 14173, 14221, 14243, 14341, 14387, 14389, 14411, 14419, 14461, 14533,
    14549, 14557, 14621, 14627, 14629, 14653, 14669, 14699, 14717, 14723, 14741, 14747, 14771,
    14797, 14813, 14821, 14827, 14843, 14851, 14867, 14869, 14891, 14923, 14939, 14947, 14957,
    15013, 15053, 15061, 15077, 15083, 15091, 15101, 15107, 15131, 15139, 15149, 15173, 15187,
    15227, 15259, 15269, 15299, 15331, 15349, 15373, 15413, 15427, 15443, 15461, 15581, 15629,
    15661, 15667, 15683, 15731, 15739, 15749, 15773, 15787, 15797, 15803, 15859, 15907, 15923,
    15971, 16067, 16069, 16139, 16187, 16189, 16229, 16253, 16301, 16333, 16339, 16349, 16363,
    16381, 16421, 16427, 16453, 16477, 16493, 16547, 16573, 16603, 16619, 16651, 16693, 16747,
    16763, 16787, 16829, 16843, 16883, 16901, 16931, 16963, 16979, 16981, 17011, 17021, 17027,
    17053, 17077, 17093, 17099, 17123, 17189, 17203, 17299, 17317, 17333, 17387, 17389, 17443,
    17477, 17483, 17509, 17573, 17579, 17597, 17627, 17669, 17747, 17749, 17789, 17827, 17837,
    17851, 17891, 17909, 17923, 17939, 17957, 17981, 17989, 18013, 18043, 18059, 18077, 18149,
    18181, 18229, 18251, 18269, 18413, 18427, 18443, 18461, 18493, 18587, 18637, 18701, 18731,
    18749, 18757, 18773, 18787, 18859, 18869, 18899, 18917, 18947, 18973, 18979, 19013, 19037,
    19051, 19069, 19139, 19141, 19157, 19163, 19181, 19219, 19237, 19259, 19301, 19333, 19373,
    19379, 19387, 19403, 19427, 19469, 19483, 19501, 19507, 19541, 19571, 19597, 19603, 19661,
    19709, 19717, 19739, 19763, 19813, 19853, 19867, 19891, 19949, 19963, 19973, 19979, 19997,
    20029, 20051, 20107, 20117, 20123, 20149, 20173, 20219, 20261, 20269, 20323, 20341, 20357,
    20443, 20477, 20507, 20509, 20533, 20549, 20611, 20627, 20693, 20717, 20731, 20749, 20771,
    20773, 20789, 20899, 20939, 20963, 20981, 21011, 21013, 21019, 21059, 21067, 21101, 21107,
    21139, 21157, 21163, 21179, 21187, 21211, 21221, 21227, 21269, 21317, 21341, 21347, 21379,
    21397, 21419, 21467, 21491, 21493, 21523, 21557, 21563, 21587, 21589, 21611, 21613, 21661,
    21683, 21701, 21739, 21773, 21803, 21821, 21859, 21893, 22003, 22013, 22037, 22067, 22091,
    22109, 22123, 22133, 22157, 22171, 22189, 22229, 22259, 22277, 22283, 22307, 22349, 22397,
    22469, 22483, 22501, 22531, 22549, 22613, 22619, 22621, 22637, 22643, 22669, 22691, 22709,
    22717, 22739, 22787, 22853, 22859, 22861, 22877, 22901, 22973, 23003, 23021, 23027, 23029,
    23053, 23099, 23117, 23189, 23197, 23251, 23333, 23339, 23357, 23371, 23459, 23509, 23531,
    23539, 23549, 23563, 23603, 23627, 23629, 23669, 23741, 23747, 23789, 23813, 23819, 23827,
    23869, 23899, 23909, 23917, 23957, 24019, 24029, 24043, 24077, 24083, 24107, 24109, 24179,
    24197, 24203, 24229, 24317]

/-- `std::lower_bound` in the table, whose end is no number. -/
def getValidPrimeModulus (lowerBound : ℤ) : Option ℕ :=
  validPrimeModuli.find? fun modulus : ℕ => lowerBound ≤ modulus

theorem generates_moduli : validPrimeModuli.all (generates) = true := by decide +kernel

theorem bounds_moduli :
    (validPrimeModuli.all fun modulus => 2 < modulus && modulus ≤ 24317) = true := by
  decide +kernel

/-- The table ascends, in steps that less than double the numbers. -/
theorem steps_moduli : ((1 :: validPrimeModuli).zip validPrimeModuli).all
    (fun step => step.1 < step.2 && step.2 ≤ 2 * (step.1 + 1)) = true := by
  decide +kernel

theorem mem_moduli {modulus : ℕ} (h : modulus ∈ validPrimeModuli) :
    2 < modulus ∧ modulus ≤ 24317 := by
  have hbounds := List.all_eq_true.mp bounds_moduli modulus h
  simpa using hbounds

/-- What the comment on the table says of it. -/
theorem gossipPrime_of_mem {modulus : ℕ} (h : modulus ∈ validPrimeModuli) :
    GossipPrime modulus := by
  obtain ⟨hlt, hle⟩ := mem_moduli h
  obtain ⟨hprime, horder⟩ :=
    generates_sound hlt (by omega) (List.all_eq_true.mp generates_moduli modulus h)
  constructor
  · omega
  · simpa using hprime
  · simpa only [Int.toNat_natCast, ← horder] using IsPrimitiveRoot.orderOf (2 : ZMod modulus)

/-- No number between two entries is missing from the table. -/
theorem gaps_moduli : ((1 :: validPrimeModuli).zip validPrimeModuli).all
    (fun step => (List.range' (step.1 + 1) (step.2 - step.1 - 1)).all excluded) = true := by
  decide +kernel

theorem mem_of_gossipPrime {n : ℕ} (h : GossipPrime n) (hle : n ≤ 24317) :
    n ∈ validPrimeModuli := by
  have htwo := h.two_le
  have hlast : 24317 ∈ validPrimeModuli := by decide +kernel
  rcases mem_of_gaps gaps_moduli (show 1 < n by omega) ⟨_, hlast, hle⟩ with hmem | hexcluded
  · exact hmem
  · exact absurd h (excluded_sound hexcluded)

theorem getValidPrimeModulus_eq_none {n : ℕ} (h : getValidPrimeModulus n = none) : 24317 < n := by
  have hlast : 24317 ∈ validPrimeModuli := by decide +kernel
  have hnot := List.find?_eq_none.mp h 24317 hlast
  simp only [decide_eq_true_eq, not_le] at hnot
  exact_mod_cast hnot

/-- The documentation of the function, and a bound that it does not state. -/
theorem getValidPrimeModulus_eq_some {n modulus : ℕ} (h : getValidPrimeModulus n = some modulus) :
    GossipPrime modulus ∧ n ≤ modulus ∧ modulus ≤ 24317 ∧ (1 < n → modulus ≤ 2 * n) ∧
      ∀ n' : ℕ, GossipPrime n' → n ≤ n' → modulus ≤ n' := by
  have hmem := List.mem_of_find?_eq_some h
  have hle : n ≤ modulus := by simpa using List.find?_some h
  obtain ⟨hlt, hlast⟩ := mem_moduli hmem
  have hleast : (1 < n → modulus ≤ 2 * n) ∧
      ∀ n' ∈ validPrimeModuli, n ≤ n' → modulus ≤ n' := by
    have hfind : validPrimeModuli.find? (fun x => n ≤ x) = some modulus := by
      simpa [getValidPrimeModulus] using h
    by_cases hn : 1 < n
    · obtain ⟨htwice, hleast⟩ := find_of_steps steps_moduli hn hfind
      exact ⟨fun _ => htwice, hleast⟩
    · have hthree : validPrimeModuli.find? (fun x => n ≤ x) = some 3 := by
        rw [validPrimeModuli, List.find?_cons_of_pos (by simp; omega)]
      obtain rfl := Option.some.inj (hfind.symm.trans hthree)
      exact ⟨fun hn' => absurd hn' hn, fun n' hn' _ => (mem_moduli hn').1⟩
  refine ⟨gossipPrime_of_mem hmem, hle, hlast, hleast.1, fun n' hn' hle' => ?_⟩
  by_cases hlarge : n' ≤ 24317
  · exact hleast.2 n' (mem_of_gossipPrime hn' hlarge) hle'
  · omega

end Pddm
