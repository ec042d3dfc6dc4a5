import JCalc.Proofs.NearestValue
import JCalc.Verb.Apply

/-! Sums, products and quotients of infinities. Of operands that are numbers, a result is none just
where infinities cancel each other. Products and quotients of the verbs have no such place at a
zero, and the reciprocal of a divisor that many dividends share is a zero beyond `2 ^ 1022`. -/

namespace JCalc

namespace Magnitude

variable {m : Magnitude}

theorem unitsOf_binade : unitsOf binade = binade := by decide

/-- Exponents are kept variables here and below, so that no power is computed. -/
theorem two_pow_mul_congr {a b c d : Nat} (h : a + b = c + d) : 2 ^ a * 2 ^ b = 2 ^ c * 2 ^ d := by
  rw [← pow_add, h, pow_add]

theorem isSubnormal_iff (m : Magnitude) : m.isSubnormal = true ↔ m.value < 1 / 2 ^ 1022 := by
  have hscale (a b u : Nat) : (u : ℚ) / 2 ^ (a + b) < 1 / 2 ^ b ↔ u < 2 ^ a := by
    rw [pow_add, div_lt_div_iff₀ (by positivity) (by positivity), one_mul,
      mul_lt_mul_iff_left₀ (by positivity)]
    exact_mod_cast Iff.rfl
  rw [value, cast_unitsPerOne, hscale 52 1022, ← binade_eq, ← unitsOf_binade, units,
    unitsOf_strictMono.lt_iff_lt]
  exact decide_eq_true_iff

theorem nearestNormal_isSubnormal {num den : Nat} (hd : 0 < den) :
    (nearestNormal num den).isSubnormal = true ↔ 4 * num < (4 * binade - 1) * den := by
  unfold nearestNormal
  split_ifs with h
  · exact ⟨fun _ => h, fun _ => rfl⟩
  · refine ⟨fun hsub => ?_, fun hlt => absurd hlt h⟩
    -- a subnormal stays below the midpoint between the greatest of them and the least normal
    have hcode : (nearest num den).code < binade := decide_eq_true_iff.mp hsub
    have hfin : (nearest num den).isInfinite = false :=
      isInfinite_of_le (n := infinity) (Nat.lt_trans hcode (by decide))
    have hle : upperMid (nearest num den).code ≤ upperMid (binade - 1) :=
      Nat.add_le_add (unitsOf_strictMono.monotone (by omega)) (unitsOf_strictMono.monotone (by omega))
    have hmid : upperMid (binade - 1) = 2 * binade - 1 := by decide
    have hstays : 2 * num ≤ upperMid (nearest num den).code * den := by
      have hs := (nearest_rounds num hd).stays hfin
      rw [mul_div_assoc', ← Nat.cast_ofNat, ← Nat.cast_mul, stays_div hd] at hs
      omega
    have hsplit : 4 * binade - 1 = 2 * (2 * binade - 1) + 1 := by decide
    rw [hsplit, Nat.add_mul, Nat.mul_assoc] at h
    rw [hmid] at hle
    have := Nat.mul_le_mul_right den hle
    omega

/-- The pattern of `2 ^ 1022`, the reciprocal of the least normal number. -/
theorem lt_value_iff (m : Magnitude) : 2 ^ 1022 < m.value ↔ 2045 * binade < m.code := by
  have hscale (a b u : Nat) : (2 : ℚ) ^ a < u / 2 ^ b ↔ 2 ^ a * 2 ^ b < u := by
    rw [lt_div_iff₀ (by positivity)]
    exact_mod_cast Iff.rfl
  have hcode : unitsOf (2045 * binade) = 2 ^ 1022 * 2 ^ 1074 := by
    have h := unitsOf_mul_add (s := 2044) (k := binade) (by omega) (.inr le_rfl)
    rw [← Nat.succ_mul, binade_eq] at h
    exact h.trans (two_pow_mul_congr rfl)
  rw [value, cast_unitsPerOne, hscale, ← hcode, units, unitsOf_strictMono.lt_iff_lt]

theorem binade_le_units (h : m.isSubnormal = false) : binade ≤ m.units := by
  have hcode : binade ≤ m.code := Nat.le_of_not_lt (decide_eq_false_iff_not.mp h)
  have hle := unitsOf_strictMono.monotone hcode
  rwa [unitsOf_binade] at hle

/-- The reciprocal is closest to a zero if the number is greater than the reciprocal of the least
normal number, however little: there numbers lie further apart. -/
theorem isSubnormal_reciprocal (h : m.isSubnormal = false) :
    (nearestNormal (unitsPerOne * unitsPerOne) m.units).isSubnormal = true ↔
      2 ^ 1022 < m.value := by
  have hb : 0 < binade := by decide
  have hsquare : unitsPerOne * unitsPerOne = binade * binade * 2 ^ 2044 := by
    rw [unitsPerOne_eq, binade_eq, ← pow_add 2 52 52]
    exact two_pow_mul_congr rfl
  have hcode (k : Nat) (hk : k ≤ 1) : unitsOf (2045 * binade + k) = (binade + k) * 2 ^ 2044 := by
    have h := unitsOf_mul_add (s := 2044) (k := binade + k) (by omega) (.inr (by omega))
    rwa [← Nat.add_assoc, ← Nat.succ_mul] at h
  rw [nearestNormal_isSubnormal (Nat.lt_of_lt_of_le hb (binade_le_units h)), lt_value_iff, hsquare]
  have hpos : 0 < 2 ^ 2044 := pow_pos two_pos 2044
  generalize 2 ^ 2044 = p at hcode hpos ⊢
  by_cases hle : m.code ≤ 2045 * binade
  · have hunits := unitsOf_strictMono.monotone hle
    rw [← Nat.add_zero (2045 * binade), hcode 0 (by omega)] at hunits
    change m.units ≤ _ at hunits
    unfold binade at *
    omega
  · have hunits := unitsOf_strictMono.monotone (Nat.lt_of_not_le hle)
    rw [hcode 1 le_rfl] at hunits
    change _ ≤ m.units at hunits
    unfold binade at *
    omega

theorem isInfinite_reciprocal (h : m.isSubnormal = false) :
    (nearestNormal (unitsPerOne * unitsPerOne) m.units).isInfinite = false := by
  have hb : 0 < binade := by decide
  have hunits := binade_le_units h
  have hpos : (0 : ℚ) < m.units := by exact_mod_cast Nat.lt_of_lt_of_le hb hunits
  unfold nearestNormal
  split_ifs
  · rfl
  · have hrounds := nearest_rounds (unitsPerOne * unitsPerOne) (Nat.lt_of_lt_of_le hb hunits)
    rw [Nat.cast_mul, mul_div_right_comm] at hrounds
    apply Bool.eq_false_iff.mpr
    intro hinf
    have hover := hrounds.isInfinite_iff.mp hinf
    have hle : (unitsPerOne : ℚ) / m.units ≤ 2 ^ 1022 := by
      have hcast : (2 : ℚ) ^ 52 ≤ m.units := by
        rw [binade_eq] at hunits
        exact_mod_cast hunits
      rw [div_le_iff₀ hpos, cast_unitsPerOne]
      calc (2 : ℚ) ^ (1022 + 52) = 2 ^ 1022 * 2 ^ 52 := pow_add _ _ _
        _ ≤ 2 ^ 1022 * m.units := mul_le_mul_of_nonneg_left hcast (by positivity)
    have hfour : (2 : ℚ) ^ (1022 + 2) = 2 ^ 1022 * 4 := by
      rw [pow_add]
      norm_num only
    have hsmall : (2 : ℚ) ^ 970 ≤ 2 ^ 1022 := pow_le_pow_right₀ one_le_two (by norm_num only)
    have hlarge : (0 : ℚ) < 2 ^ 1022 := by positivity
    rw [overflow, hfour] at hover
    generalize (2 : ℚ) ^ 1022 = t at hover hle hsmall hlarge
    generalize (2 : ℚ) ^ 970 = s at hover hsmall
    linarith

end Magnitude

namespace Extended

variable {x y : Extended}

theorem flush_negative (x : Extended) : x.flush.negative = x.negative := by
  unfold flush
  split_ifs <;> rfl

theorem flush_isInfinite (x : Extended) : x.flush.isInfinite = x.isInfinite := by
  unfold flush
  split_ifs with h
  · have hcode : x.magnitude.code < binade := by simpa [Magnitude.isSubnormal] using h
    have hbinade : binade ≤ topCode := by decide
    have hne : x.magnitude.code ≠ topCode := by omega
    simp only [isInfinite, Magnitude.isInfinite, beq_eq_false_iff_ne.mpr hne]
    rfl
  · rfl

theorem flush_isZero (x : Extended) : x.flush.isZero = x.magnitude.isSubnormal := by
  unfold flush
  split_ifs with h
  · exact h.symm
  · have hcode : ¬ x.magnitude.code < binade := by simpa [Magnitude.isSubnormal] using h
    have hbinade : 0 < binade := by decide
    have hne : x.magnitude.code ≠ 0 := by omega
    simp only [isZero, Magnitude.isZero, beq_eq_false_iff_ne.mpr hne]
    exact (Bool.eq_false_iff.mpr h).symm

theorem isInfinite_one : one.isInfinite = false := by decide +kernel

theorem units_one : one.magnitude.units = unitsPerOne := by decide +kernel

theorem flush_one : one.flush = .one := by decide +kernel

theorem isNaN_add (x y : Extended) : (x.add y).isNaN = true ↔
    x.isInfinite = true ∧ y.isInfinite = true ∧ x.negative ≠ y.negative := by
  unfold add
  dsimp only
  split_ifs <;> simp_all [Binary64.isNaN]

theorem isNaN_mul (x y : Extended) : (x.mul y).isNaN = true ↔
    x.isInfinite = true ∧ y.isZero = true ∨ x.isZero = true ∧ y.isInfinite = true := by
  have hx := @isZero_of_isInfinite x
  unfold mul
  dsimp only
  split_ifs <;> simp_all [Binary64.isNaN]

theorem isNaN_div (x y : Extended) : (x.div y).isNaN = true ↔
    x.isInfinite = true ∧ y.isInfinite = true ∨ x.isZero = true ∧ y.isZero = true := by
  have hx := @isZero_of_isInfinite x
  have hy := @isZero_of_isInfinite y
  unfold div
  dsimp only
  split_ifs <;> simp_all [Binary64.isNaN]

/-- A reciprocal of a number that does not count as a zero is not infinite, and it counts as a
zero itself only beyond the reciprocal of the least normal number. -/
theorem div_one_cases (h : y.magnitude.isSubnormal = false) :
    ∃ z, one.div y = .number z ∧ z.isInfinite = false ∧
      (z.magnitude.isSubnormal = true ↔ 2 ^ 1022 < y.magnitude.value) := by
  unfold div
  dsimp only
  rw [if_neg (by simp [isInfinite_one])]
  by_cases hinf : y.isInfinite = true
  · have htop : 2045 * binade < Magnitude.infinity.code := by decide
    rw [if_pos hinf, eq_infinity_of_isInfinite hinf, Magnitude.lt_value_iff]
    exact ⟨_, rfl, rfl, fun _ => htop, fun _ => rfl⟩
  · have hcode : ¬ y.magnitude.code < binade := decide_eq_false_iff_not.mp h
    have hb : 0 < binade := by decide
    have hzero : ¬ y.isZero = true := by
      rw [isZero, Magnitude.isZero, beq_iff_eq]
      omega
    rw [if_neg hinf, if_neg hzero, units_one]
    exact ⟨_, rfl, y.magnitude.isInfinite_reciprocal h, y.magnitude.isSubnormal_reciprocal h⟩

end Extended

namespace Binary64

def infinite (negative : Bool) : Binary64 := .number ⟨negative, .infinity⟩

variable {x y : Binary64}

theorem number_eq_infinite_iff {x : Extended} {negative : Bool} :
    number x = infinite negative ↔ x.isInfinite = true ∧ x.negative = negative := by
  constructor
  · rintro ⟨⟩
    exact ⟨rfl, rfl⟩
  · rintro ⟨h, rfl⟩
    rw [infinite, ← Extended.eq_infinity_of_isInfinite h]

theorem exists_number (h : x.isNaN = false) : ∃ n, x = number n := by
  cases x with
  | nan => cases h
  | number n => exact ⟨n, rfl⟩

theorem isNaN_add (hx : x.isNaN = false) (hy : y.isNaN = false) : (x.add y).isNaN = true ↔
    ∃ negative, x = infinite negative ∧ y = infinite (!negative) := by
  obtain ⟨x, rfl⟩ := exists_number hx
  obtain ⟨y, rfl⟩ := exists_number hy
  simp only [add, lift, Extended.isNaN_add, Extended.flush_isInfinite, Extended.flush_negative,
    number_eq_infinite_iff]
  constructor
  · rintro ⟨hx, hy, hne⟩
    exact ⟨x.negative, ⟨hx, rfl⟩, hy, Bool.eq_not_of_ne hne.symm⟩
  · rintro ⟨negative, ⟨hx, rfl⟩, hy, hne⟩
    exact ⟨hx, hy, fun heq => by simp [heq] at hne⟩

theorem isNaN_sub (hx : x.isNaN = false) (hy : y.isNaN = false) : (x.sub y).isNaN = true ↔
    ∃ negative, x = infinite negative ∧ y = infinite negative := by
  obtain ⟨x, rfl⟩ := exists_number hx
  obtain ⟨y, rfl⟩ := exists_number hy
  have hneg : y.flush.neg.isInfinite = y.isInfinite := Extended.flush_isInfinite y
  have hsign : y.flush.neg.negative = !y.negative := congrArg (!·) (Extended.flush_negative y)
  simp only [sub, lift, Extended.isNaN_add, Extended.flush_isInfinite, Extended.flush_negative,
    number_eq_infinite_iff, hneg, hsign]
  constructor
  · rintro ⟨hx, hy, hne⟩
    exact ⟨x.negative, ⟨hx, rfl⟩, hy, by simpa using hne.symm⟩
  · rintro ⟨negative, ⟨hx, rfl⟩, hy, heq⟩
    exact ⟨hx, hy, by simp [heq]⟩

theorem isNaN_times (hx : x.isNaN = false) (hy : y.isNaN = false) : (x.times y).isNaN = false := by
  unfold times
  split_ifs with h
  · rfl
  obtain ⟨x, rfl⟩ := exists_number hx
  obtain ⟨y, rfl⟩ := exists_number hy
  apply Bool.eq_false_iff.mpr
  intro hnan
  rw [mul, lift, Extended.isNaN_mul, Extended.flush_isZero, Extended.flush_isZero] at hnan
  rcases hnan with ⟨_, hzero⟩ | ⟨hzero, _⟩
  · exact h (by simp [vanishes, hzero])
  · exact h (by simp [vanishes, hzero])

theorem divideByZero_of_vanishes (h : x.vanishes = true) : x.divideByZero = zero := if_pos h

theorem divideByZero_number {n : Extended} (h : (number n).vanishes = false) :
    (number n).divideByZero = infinite n.negative :=
  if_neg (Bool.eq_false_iff.mp h)

theorem isNaN_divideByZero (hx : x.isNaN = false) : x.divideByZero.isNaN = false := by
  obtain ⟨n, rfl⟩ := exists_number hx
  by_cases h : (number n).vanishes = true
  · rw [divideByZero_of_vanishes h]
    rfl
  · rw [divideByZero_number (Bool.eq_false_iff.mpr h)]
    rfl

theorem vanishes_infinite (negative : Bool) : (infinite negative).vanishes = false := by decide +revert

theorem isNaN_divide (hx : x.isNaN = false) (hy : y.isNaN = false) : (x.divide y).isNaN = true ↔
    ∃ m n, x = infinite m ∧ y = infinite n := by
  unfold divide
  split_ifs with hv
  · rw [isNaN_divideByZero hx]
    refine iff_of_false Bool.false_ne_true ?_
    rintro ⟨_, n, _, rfl⟩
    rw [vanishes_infinite] at hv
    cases hv
  obtain ⟨x, rfl⟩ := exists_number hx
  obtain ⟨y, rfl⟩ := exists_number hy
  have hzero : y.flush.isZero = false := by
    rw [Extended.flush_isZero]
    exact Bool.eq_false_iff.mpr hv
  simp only [div, lift, Extended.isNaN_div, Extended.flush_isInfinite, hzero, Bool.false_eq_true,
    and_false, or_false, number_eq_infinite_iff]
  constructor
  · rintro ⟨hx, hy⟩
    exact ⟨_, _, ⟨hx, rfl⟩, hy, rfl⟩
  · rintro ⟨_, _, ⟨hx, _⟩, hy, _⟩
    exact ⟨hx, hy⟩

theorem isNaN_mul_reciprocal (hx : x.isNaN = false) (hy : y.isNaN = false)
    (hv : y.vanishes = false) : (x.mul ((number .one).div y)).isNaN = true ↔
      (∃ negative, x = infinite negative) ∧ ∃ n, y = number n ∧ 2 ^ 1022 < n.magnitude.value := by
  obtain ⟨x, rfl⟩ := exists_number hx
  obtain ⟨y, rfl⟩ := exists_number hy
  have hflush : y.flush = y := if_neg (Bool.eq_false_iff.mp hv)
  obtain ⟨z, hz, hfin, hsub⟩ := Extended.div_one_cases hv
  have hdiv : (number .one).div (number y) = number z := by
    rw [div, lift, Extended.flush_one, hflush, hz]
  rw [hdiv, mul, lift, Extended.isNaN_mul, Extended.flush_isInfinite, Extended.flush_isInfinite,
    Extended.flush_isZero z, hfin, hsub]
  simp only [Bool.false_eq_true, and_false, or_false, number_eq_infinite_iff]
  constructor
  · rintro ⟨hx, hlarge⟩
    exact ⟨⟨_, hx, rfl⟩, y, rfl, hlarge⟩
  · rintro ⟨⟨_, hx, _⟩, _, ⟨⟩, hlarge⟩
    exact ⟨hx, hlarge⟩

end Binary64

end JCalc
