import JCalc.Proofs.GridSearch
import JCalc.Proofs.NormalForm

/-! Which decimal stands for a magnitude. Of those that read back as it, the shortest has the fewest
digits, is the closest with so many, and is the even one of two that are equally close. No grid
coarser than its own has a decimal that reads back, so that one of no more digits is a point of its
grid, or has a power of ten between, and then both have one digit. -/

namespace JCalc

/-- The number of digits, without those that only hold a place. -/
def Decimal.size (d : Decimal) : Nat := (digits d.normal.coefficient).length

namespace Magnitude

/-- The first decimal stands for the magnitude rather than the second, or they are the same. -/
inductive Prefers (m : Magnitude) (d e : Decimal) : Prop where
  | same (h : d.value = e.value)
  | shorter (h : d.size < e.size)
  | closer (hs : d.size = e.size) (h : m.distance d < m.distance e)
  | even (hs : d.size = e.size) (h : m.distance d = m.distance e)
      (hd : d.normal.coefficient % 2 = 0) (he : e.normal.coefficient % 2 = 1)

/-- Of all decimals that read back as the magnitude, the one that stands for it. -/
structure IsShortest (m : Magnitude) (d : Decimal) : Prop where
  readsBack : ofDecimal d = m
  best : ∀ e, ofDecimal e = m → m.Prefers d e

section

variable {m : Magnitude} {d e : Decimal} {x : Int} {u v w : ℚ}

theorem ofDecimal_eq_iff : ofDecimal d = m ↔ m.Rounds d.units := by
  constructor
  · rintro rfl
    exact ofDecimal_rounds d
  · exact fun h => (ofDecimal_rounds d).unique h

theorem Rounds.convex (hu : m.Rounds u) (hw : m.Rounds w) (huv : u ≤ v) (hvw : v ≤ w) :
    m.Rounds v := by
  constructor
  · rcases hu.reaches with h | ⟨heven, h⟩
    · exact .inl (by linarith)
    · exact (show (lowerMid m.code : ℚ) ≤ 2 * v by linarith).lt_or_eq.imp_right fun h => ⟨heven, h⟩
  · intro hfin
    rcases hw.stays hfin with h | ⟨heven, h⟩
    · exact .inl (by linarith)
    · exact (show 2 * v ≤ (upperMid m.code : ℚ) by linarith).lt_or_eq.imp_right fun h => ⟨heven, h⟩

theorem Rounds.normal_units (hr : m.Rounds d.units) : m.Rounds d.normal.units := by
  rwa [Decimal.units, Decimal.value_normal]

theorem unitsPerOne_bounds : tenPow 324 < 5 * unitsPerOne ∧ 100 * unitsPerOne < 21 * tenPow 324 := by
  decide +kernel

theorem power_bounds (hx : x = -324) :
    1 < 5 * ((10 : ℚ) ^ x * unitsPerOne) ∧ 100 * ((10 : ℚ) ^ x * unitsPerOne) < 21 := by
  obtain ⟨hlow, hup⟩ := unitsPerOne_bounds
  have hpos := tenPow_pos 324
  rw [hx, zpow_neg, inv_mul_eq_div]
  have hten : (10 : ℚ) ^ (324 : Int) = tenPow 324 := by
    rw [tenPow_eq, Nat.cast_pow]
    rfl
  rw [hten]
  generalize tenPow 324 = ten at *
  generalize unitsPerOne = one at *
  have hpos : (0 : ℚ) < ten := by exact_mod_cast hpos
  rw [mul_div_assoc', mul_div_assoc', lt_div_iff₀ hpos, div_lt_iff₀ hpos, one_mul]
  exact ⟨by exact_mod_cast hlow, by exact_mod_cast hup⟩

/-- Only one power of ten is between a tenth of a unit and two units. -/
theorem exponent_of_power (hlow : 1 < 10 * ((10 : ℚ) ^ x * unitsPerOne))
    (hup : (10 : ℚ) ^ x * unitsPerOne < 2) : x = -324 := by
  -- the exponent is kept a variable, so that its power is never computed
  obtain ⟨y, hy⟩ : ∃ y : Int, y = -324 := ⟨_, rfl⟩
  obtain ⟨hpower, hpower'⟩ := power_bounds hy
  have hstep {a b : Int} (hab : a < b) :
      10 * ((10 : ℚ) ^ a * unitsPerOne) ≤ 10 ^ b * unitsPerOne := by
    rw [← mul_assoc, ← zpow_one_add₀ (by norm_num)]
    exact mul_le_mul_of_nonneg_right (zpow_le_zpow_right₀ (by norm_num) (by omega)) (Nat.cast_nonneg _)
  rw [← hy]
  by_contra hne
  rcases Int.lt_or_gt_of_ne hne with h | h
  · have := hstep h
    linarith
  · have := hstep h
    linarith

/-- A power of ten and nine tenths of it round alike only to two units, which are closer to the
power. -/
theorem closer_to_power (h0 : m.isZero = false) (hfin : m.isInfinite = false)
    (hten : m.Rounds (10 * ((10 : ℚ) ^ x * unitsPerOne)))
    (hnine : m.Rounds (9 * ((10 : ℚ) ^ x * unitsPerOne)))
    (hlt : (m.units : ℚ) < 10 * ((10 : ℚ) ^ x * unitsPerOne)) :
    19 * ((10 : ℚ) ^ x * unitsPerOne) < 2 * m.units := by
  obtain ⟨s, k, hcode, hunits, hpos, hk, hs⟩ := exists_nonzero h0
  obtain ⟨-, hup⟩ := hten.within hfin hcode hs hk
  obtain ⟨hlow, -⟩ := hnine.within hfin hcode hs hk
  have hunits : (m.units : ℚ) = k * 2 ^ s := by exact_mod_cast hunits
  have hstep : (0 : ℚ) < 2 ^ s := by positivity
  have hsmall : k < 10 := by
    have : (k : ℚ) * 2 ^ s < 10 * 2 ^ s := by linarith
    exact_mod_cast lt_of_mul_lt_mul_right this hstep.le
  have hbinade : 10 < binade := by decide
  obtain rfl : s = 0 := by omega
  rw [pow_zero, mul_one] at *
  have hpos : (1 : ℚ) ≤ k := by exact_mod_cast hpos
  obtain ⟨hpower, hpower'⟩ := power_bounds (exponent_of_power (by linarith) (by linarith))
  have htwo : 2 ≤ k := by
    by_contra hk
    have hk : (k : ℚ) ≤ 1 := by exact_mod_cast (by omega : k ≤ 1)
    linarith
  have htwo : (2 : ℚ) ≤ k := by exact_mod_cast htwo
  rw [hunits]
  linarith

theorem shortest_mod_ten (h0 : m.isZero = false) (hfin : m.isInfinite = false) :
    m.shortest.coefficient % 10 ≠ 0 := by
  intro hmod
  have hcoarser : (Decimal.mk (m.shortest.coefficient / 10) (m.shortest.exponent + 1)).value =
      m.shortest.value := by
    have hc : (m.shortest.coefficient : ℚ) = 10 * (m.shortest.coefficient / 10 : ℕ) := by
      exact_mod_cast (by omega : m.shortest.coefficient = 10 * (m.shortest.coefficient / 10))
    rw [Decimal.value, Decimal.value, hc, zpow_add_one₀ (by norm_num)]
    ring
  have hr := m.shortest_rounds
  rw [Decimal.units, ← hcoarser] at hr
  have hle := exponent_le_shortest h0 hfin hr
  simp only at hle
  omega

theorem shortest_normal (h0 : m.isZero = false) (hfin : m.isInfinite = false) :
    m.shortest.normal = m.shortest :=
  Decimal.normal_eq_self (shortest_mod_ten h0 hfin)

theorem leading_shortest (h0 : m.isZero = false) (hfin : m.isInfinite = false) :
    m.shortest.leading = m.shortest.exponent + m.shortest.size - 1 := by
  rw [Decimal.size, shortest_normal h0 hfin, Decimal.leading]

theorem distance_normal (m : Magnitude) (d : Decimal) : m.distance d.normal = m.distance d := by
  rw [distance, Decimal.value_normal, distance]

theorem distance_lt_iff : m.distance d < m.distance e ↔ |d.units - m.units| < |e.units - m.units| := by
  have hone := cast_unitsPerOne_pos
  rw [← mul_lt_mul_iff_left₀ hone, distance, distance, abs_sub_value, abs_sub_value]
  rfl

/-- A power of ten that rounds to the magnitude is closer than a point of one digit below it. -/
theorem power_closer (h0 : m.isZero = false) (hfin : m.isInfinite = false)
    (hten : m.Rounds (Decimal.mk 1 (x + 1)).units) (hr : m.Rounds e.units)
    (hc : e.coefficient ≤ 9) (hexp : e.exponent ≤ x) :
    m.distance (Decimal.mk 1 (x + 1)) < m.distance e := by
  have hgrid := grid_pos x
  have hpower : (Decimal.mk 1 (x + 1)).units = 10 * ((10 : ℚ) ^ x * unitsPerOne) := by
    rw [units_mk, zpow_add_one₀ (by norm_num), Nat.cast_one]
    ring
  have hnine : e.units ≤ 9 * ((10 : ℚ) ^ x * unitsPerOne) := by
    rw [Decimal.units, Decimal.value, mul_assoc]
    refine mul_le_mul (by exact_mod_cast hc) ?_ ?_ (by norm_num)
    · exact mul_le_mul_of_nonneg_right (zpow_le_zpow_right₀ (by norm_num) hexp) (Nat.cast_nonneg _)
    · exact mul_nonneg (zpow_nonneg (by norm_num) _) (Nat.cast_nonneg _)
  rw [hpower] at hten
  rw [distance_lt_iff, hpower]
  rcases lt_or_ge (m.units : ℚ) (10 * ((10 : ℚ) ^ x * unitsPerOne)) with hlt | hge
  · have hr := hr.convex hten hnine (by linarith)
    have hcloser := closer_to_power h0 hfin hten hr hlt
    rw [abs_of_pos (by linarith), abs_of_neg (by linarith)]
    linarith
  · rw [abs_of_nonpos (by linarith), abs_of_neg (by linarith)]
    linarith

theorem rounds_power (h0 : m.isZero = false) (hd : m.Rounds d.units) (he : m.Rounds e.units)
    (h : e.leading < d.leading) : m.Rounds (Decimal.mk 1 d.leading).units := by
  have hbelow := (Decimal.value_bounds (he.coefficient_pos h0)).2
  have habove := (Decimal.value_bounds (hd.coefficient_pos h0)).1
  have hpower : (10 : ℚ) ^ (e.leading + 1) ≤ 10 ^ d.leading := zpow_le_zpow_right₀ (by norm_num) h
  have hunits : (Decimal.mk 1 d.leading).units = (10 : ℚ) ^ d.leading * unitsPerOne := by
    rw [units_mk, Nat.cast_one, one_mul]
  rw [hunits]
  exact he.convex hd (mul_le_mul_of_nonneg_right (hbelow.le.trans hpower) (Nat.cast_nonneg _))
    (mul_le_mul_of_nonneg_right habove (Nat.cast_nonneg _))

theorem size_pos (d : Decimal) : 0 < d.size := List.length_pos_of_ne_nil (Decimal.digits_ne_nil _)

/-- A decimal with a lower leading digit than the shortest one: there is a power of ten between, so
that the shortest has one digit. -/
theorem prefers_of_leading_lt (h0 : m.isZero = false) (hfin : m.isInfinite = false)
    (hr : m.Rounds e.units) (h : e.normal.leading < m.shortest.leading) :
    m.Prefers m.shortest e := by
  have hlead := leading_shortest h0 hfin
  have hlead' : e.normal.leading = e.normal.exponent + e.size - 1 := rfl
  have hpower := rounds_power h0 m.shortest_rounds hr.normal_units h
  have hexp := exponent_le_shortest h0 hfin hpower
  have hpos := size_pos m.shortest
  have hpos' := size_pos e
  simp only at hexp
  by_cases hlong : 1 < e.size
  · exact .shorter (by omega)
  · have hc : e.normal.coefficient ≤ 9 := by
      have hlt := Decimal.lt_tenPow_digits e.normal.coefficient
      rw [← Decimal.size, show e.size = 1 by omega] at hlt
      omega
    have hstep : m.shortest.exponent = m.shortest.exponent - 1 + 1 := by omega
    rw [show m.shortest.leading = m.shortest.exponent - 1 + 1 by omega] at hpower
    have hcloser := power_closer h0 hfin hpower hr.normal_units hc (by omega)
    rw [distance_normal] at hcloser
    refine .closer (by omega) (lt_of_le_of_lt ?_ hcloser)
    rcases nearest_on_grid h0 hfin hpower hstep.symm with hlt | ⟨heq, _⟩
    · exact hlt.le
    · exact heq.le

theorem prefers_shortest (h0 : m.isZero = false) (hfin : m.isInfinite = false)
    (hr : m.Rounds e.units) : m.Prefers m.shortest e := by
  have hlead := leading_shortest h0 hfin
  have hlead' : e.normal.leading = e.normal.exponent + e.size - 1 := rfl
  have hexp := exponent_le_shortest h0 hfin hr.normal_units
  rcases Int.lt_or_le e.normal.leading m.shortest.leading with hlt | hle
  · exact prefers_of_leading_lt h0 hfin hr hlt
  · rcases (show m.shortest.size ≤ e.size by omega).lt_or_eq with hlt | hsize
    · exact .shorter hlt
    · have hgrid : e.normal.exponent = m.shortest.exponent := by omega
      have hnearest := nearest_on_grid h0 hfin hr.normal_units hgrid
      rw [distance_normal] at hnearest
      rcases hnearest with hcloser | ⟨htie, hc | ⟨heven, hodd⟩⟩
      · exact .closer hsize hcloser
      · refine .same ?_
        rw [← e.value_normal, Decimal.eq_of_fields hc hgrid]
      · exact .even hsize htie (by rwa [shortest_normal h0 hfin]) hodd

theorem isShortest_shortest (h0 : m.isZero = false) (hfin : m.isInfinite = false) :
    m.IsShortest m.shortest :=
  ⟨ofDecimal_eq_iff.mpr m.shortest_rounds, fun _ he =>
    prefers_shortest h0 hfin (ofDecimal_eq_iff.mp he)⟩

theorem Prefers.value_eq (h : m.Prefers d e) (h' : m.Prefers e d) : d.value = e.value := by
  cases h with
  | same h => exact h
  | shorter h => cases h' with
    | same h' => exact h'.symm
    | shorter h' => omega
    | closer hs _ => omega
    | even hs _ _ _ => omega
  | closer hs h => cases h' with
    | same h' => exact h'.symm
    | shorter h' => omega
    | closer _ h' => linarith
    | even _ h' _ _ => linarith
  | even hs h hd he => cases h' with
    | same h' => exact h'.symm
    | shorter h' => omega
    | closer _ h' => linarith
    | even _ _ he' _ => omega

/-- There is one such decimal, in whatever form its coefficient and exponent are. -/
theorem isShortest_iff (h0 : m.isZero = false) (hfin : m.isInfinite = false) :
    m.IsShortest d ↔ d.value = m.shortest.value := by
  have hshortest := isShortest_shortest h0 hfin
  constructor
  · intro h
    exact (h.best _ hshortest.readsBack).value_eq (hshortest.best _ h.readsBack)
  · intro h
    have hnormal : d.normal = m.shortest.normal :=
      Decimal.normal_congr h (m.shortest_rounds.coefficient_pos h0)
    have hsize : d.size = m.shortest.size := by rw [Decimal.size, hnormal, Decimal.size]
    have hdistance : m.distance d = m.distance m.shortest := by rw [distance, h, distance]
    refine ⟨ofDecimal_eq_of_value h, fun e he => ?_⟩
    cases hshortest.best e he with
    | same hv => exact .same (h.trans hv)
    | shorter hlt => exact .shorter (by rwa [hsize])
    | closer hs hlt => exact .closer (hsize.trans hs) (by rwa [hdistance])
    | even hs htie hd he => exact .even (hsize.trans hs) (by rwa [hdistance]) (by rwa [hnormal]) he

end

end Magnitude

end JCalc
