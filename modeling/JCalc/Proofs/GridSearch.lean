import JCalc.Proofs.FewDigits
import JCalc.Proofs.NearestValue
import Mathlib.Data.Int.Log
import Mathlib.Data.Nat.Dist
import Mathlib.Data.Rat.Floor

/-! The search for the shortest decimal. It ends on a grid that is tried, since eighteen digits are
enough to read back; no coarser grid has a decimal that reads back, and on the grid where it ends
none is closer to the magnitude than the one that is taken. -/

namespace JCalc

namespace Magnitude

/-- How far the decimal is from the magnitude. -/
def distance (m : Magnitude) (d : Decimal) : ℚ := |d.value - m.value|

/-- The midpoint below is at least a quarter of a step of the significand away. -/
theorem lowerMid_le {s k : Nat} (h0 : 0 < k) (hs : s = 0 ∨ binade ≤ k) (hk : k < 2 * binade) :
    2 * lowerMid (s * binade + k) + 2 ^ s ≤ 4 * (k * 2 ^ s) := by
  by_cases hrise : s = 0 ∨ binade < k
  · have hmid := lowerMid_add hk.le h0 hrise
    have hstep := Nat.two_pow_pos s
    omega
  · obtain ⟨j, rfl⟩ : ∃ j, s = j + 1 := ⟨s - 1, by omega⟩
    obtain rfl : k = binade := by omega
    have hmid := lowerMid_rise j
    rw [Nat.pow_succ] at hmid ⊢
    omega

section

variable {m : Magnitude} {d : Decimal} {u : ℚ}

theorem value_mul (m : Magnitude) : m.value * unitsPerOne = m.units := by
  rw [value, div_mul_cancel₀ _ cast_unitsPerOne_pos.ne']

theorem value_pos (h0 : m.isZero = false) : 0 < m.value :=
  div_pos (by exact_mod_cast units_pos h0) cast_unitsPerOne_pos

theorem value_lt (hfin : m.isInfinite = false) {n : Nat} (hn : 311 ≤ n) : m.value < (10 : ℚ) ^ n := by
  have hcode : m.code < topCode := lt_of_le_of_ne m.code_le (by simpa [isInfinite] using hfin)
  have hunits := unitsOf_strictMono hcode
  rw [unitsOf_topCode] at hunits
  have hten := Nat.mul_le_mul_right unitsPerOne (two_pow_le_tenPow hn)
  rw [value, div_lt_iff₀ cast_unitsPerOne_pos]
  exact_mod_cast hunits.trans_le hten

theorem log_value_le (h0 : m.isZero = false) (hfin : m.isInfinite = false) :
    Int.log 10 m.value ≤ 310 := by
  have hlow := Int.zpow_log_le_self (b := 10) (by decide) (value_pos h0)
  by_contra hlarge
  obtain ⟨n, hn⟩ := Int.eq_ofNat_of_zero_le (show 0 ≤ Int.log 10 m.value by omega)
  rw [hn, zpow_natCast] at hlow
  exact absurd hlow (value_lt hfin (by omega)).not_ge

/-- What is below a magnitude by less than a quarter of a step of its significand rounds to it. -/
theorem rounds_of_below {s k : Nat} (hcode : m.code = s * binade + k) (h0 : 0 < k)
    (hs : s = 0 ∨ binade ≤ k) (hk : k < 2 * binade) (hle : u ≤ m.units)
    (hlt : 4 * (m.units - u) < 2 ^ s) : m.Rounds u := by
  have hlow : (2 * lowerMid m.code + 2 ^ s : ℚ) ≤ 4 * m.units := by
    rw [units, hcode, unitsOf_mul_add hk.le hs]
    exact_mod_cast lowerMid_le h0 hs hk
  have hup : (2 * m.units : ℚ) < upperMid m.code := by
    have := unitsOf_lt_succ m.code
    rw [upperMid, units]
    exact_mod_cast (by omega)
  refine ⟨.inl (by linarith), fun _ => .inl (by linarith)⟩

theorem exists_point_below (hu : 0 ≤ u) (x : Int) :
    ∃ c : Nat, c * (10 : ℚ) ^ x ≤ u ∧ u < (c + 1) * (10 : ℚ) ^ x := by
  have hten : (0 : ℚ) < (10 : ℚ) ^ x := zpow_pos (by norm_num) x
  refine ⟨⌊u / (10 : ℚ) ^ x⌋₊, ?_, ?_⟩
  · exact (le_div_iff₀ hten).mp (Nat.floor_le (div_nonneg hu hten.le))
  · exact (div_lt_iff₀ hten).mp (Nat.lt_floor_add_one _)

/-- Eighteen digits are enough to read back. -/
theorem exists_rounds (h0 : m.isZero = false) :
    ∃ c : Nat, m.Rounds (Decimal.mk c (Int.log 10 m.value - 17)).units := by
  obtain ⟨s, k, hcode, hunits, hpos, hk, hs⟩ := exists_nonzero h0
  have hlow := Int.zpow_log_le_self (b := 10) (by decide) (value_pos h0)
  generalize Int.log 10 m.value = x at hlow
  have hone := cast_unitsPerOne_pos
  obtain ⟨c, hbelow, habove⟩ := exists_point_below (value_pos h0).le (x - 17)
  refine ⟨c, rounds_of_below hcode hpos hs hk ?_ ?_⟩
  · rw [units_mk, ← value_mul, ← mul_assoc]
    exact mul_le_mul_of_nonneg_right hbelow hone.le
  · have hsplit : (10 : ℚ) ^ x = 10 ^ 17 * 10 ^ (x - 17) := by
      rw [← zpow_natCast, ← zpow_add₀ (by norm_num), show ((17 : ℕ) : Int) + (x - 17) = x by omega]
    have hunits : (m.units : ℚ) = k * 2 ^ s := by exact_mod_cast hunits
    have hdigits : (k : ℚ) * 2 ^ s < 2 * 2 ^ 52 * 2 ^ s := by
      rw [binade_eq] at hk
      exact mul_lt_mul_of_pos_right (by exact_mod_cast hk) (by positivity)
    have hfine : 10 ^ 17 * ((10 : ℚ) ^ (x - 17) * unitsPerOne) ≤ m.units := by
      rw [← mul_assoc, ← hsplit, ← value_mul]
      exact mul_le_mul_of_nonneg_right hlow hone.le
    have hnear := mul_lt_mul_of_pos_right habove hone
    rw [value_mul, mul_assoc] at hnear
    rw [units_mk]
    generalize (10 : ℚ) ^ (x - 17) * unitsPerOne = grid at hfine hnear ⊢
    linarith

end

section

variable {m : Magnitude} {d : Decimal} {grid : Int} {c : Nat}

theorem Rounds.coefficient_pos (hr : m.Rounds d.units) (h0 : m.isZero = false) :
    0 < d.coefficient := by
  rw [Nat.pos_iff_ne_zero]
  intro hc
  have hunits : d.units = 0 := by rw [Decimal.units, Decimal.value, hc, Nat.cast_zero, zero_mul, zero_mul]
  rw [hunits] at hr
  rw [hr.unique (zero_rounds le_rfl (by norm_num))] at h0
  cases h0

theorem shortest_of_tried (hfin : m.isInfinite = false) (hr : m.Rounds d.units)
    (hle : d.exponent ≤ m.coarsestGrid) (hlt : m.coarsestGrid < d.exponent + 128) :
    d.exponent ≤ m.shortest.exponent ∧ m.onGrid? m.shortest.exponent = some m.shortest := by
  obtain ⟨grid, hgrid, hon⟩ := shortest_of_onGrid? (isSome_onGrid? hfin hr) hle hlt
  obtain ⟨hexp, -⟩ := holds_of_onGrid? hon
  rw [hexp]
  exact ⟨hgrid, hon⟩

/-- The search ends before the grids that are tried do. -/
theorem search_ends (h0 : m.isZero = false) (hfin : m.isInfinite = false) :
    m.coarsestGrid < m.shortest.exponent + 128 ∧
      m.onGrid? m.shortest.exponent = some m.shortest := by
  have hself : m.Rounds (m.value * unitsPerOne) := by
    rw [value_mul]
    exact m.rounds_units
  have hpos := value_pos h0
  have hle : Int.log 10 m.value ≤ m.coarsestGrid :=
    le_coarsestGrid hself h0 hfin (Int.zpow_log_le_self (by decide) hpos)
  have hlt : m.coarsestGrid < Int.log 10 m.value + 111 :=
    coarsestGrid_lt (log_value_le h0 hfin) hself h0 hfin (Int.lt_zpow_succ_log_self (by decide) _)
  obtain ⟨c, hr⟩ := exists_rounds h0
  obtain ⟨hexp, hon⟩ := shortest_of_tried hfin hr (by simp only; omega) (by simp only; omega)
  simp only at hexp
  exact ⟨by omega, hon⟩

/-- No decimal on a coarser grid than that of the shortest one reads back. -/
theorem exponent_le_shortest (h0 : m.isZero = false) (hfin : m.isInfinite = false)
    (hr : m.Rounds d.units) : d.exponent ≤ m.shortest.exponent := by
  have hlow : (10 : ℚ) ^ d.exponent ≤ d.value := by
    have hone : (1 : ℚ) ≤ d.coefficient := by exact_mod_cast hr.coefficient_pos h0
    exact le_mul_of_one_le_left (zpow_pos (by norm_num) _).le hone
  have hle := le_coarsestGrid hr h0 hfin hlow
  by_cases hlt : m.coarsestGrid < d.exponent + 128
  · exact (shortest_of_tried hfin hr hle hlt).1
  · have := (search_ends h0 hfin).1
    omega

theorem dist_below {step value below : Nat} (hstep : 0 < step) (hlow : below * step ≤ value)
    (hc : c ≤ below) :
    c = below ∨ Nat.dist (below * step) value < Nat.dist (c * step) value := by
  refine hc.eq_or_lt.imp_right fun hlt => ?_
  have hmul := Nat.mul_lt_mul_of_pos_right hlt hstep
  rw [Nat.dist_eq_sub_of_le hlow, Nat.dist_eq_sub_of_le (hmul.le.trans hlow)]
  omega

theorem dist_above {step value above : Nat} (hstep : 0 < step) (hhigh : value ≤ above * step)
    (hc : above ≤ c) :
    c = above ∨ Nat.dist (above * step) value < Nat.dist (c * step) value := by
  refine hc.eq_or_lt.imp Eq.symm fun hlt => ?_
  have hmul := Nat.mul_lt_mul_of_pos_right hlt hstep
  rw [Nat.dist_eq_sub_of_le_right hhigh, Nat.dist_eq_sub_of_le_right (hhigh.trans hmul.le)]
  omega

/-- Of the points of its grid that round to the magnitude none is closer than the one that is taken,
and of two that are equally close it is the even one. -/
theorem onGrid?_nearest (hfin : m.isInfinite = false) (h : m.onGrid? grid = some d)
    (hc : m.holds (c * (2 * unitsPerOne * tenPow grid.toNat)) (tenPow (-grid).toNat) = true) :
    let gap (n : Nat) : Nat :=
      Nat.dist (n * (2 * unitsPerOne * tenPow grid.toNat)) (2 * m.units * tenPow (-grid).toNat)
    gap d.coefficient < gap c ∨ gap d.coefficient = gap c ∧
      (c = d.coefficient ∨ d.coefficient % 2 = 0 ∧ c % 2 = 1) := by
  have hstep := step_pos grid.toNat
  obtain ⟨hbelow, habove⟩ := holds_around (tenPow_pos _) hstep hfin hc
  simp only [onGrid?] at h
  simp only
  generalize 2 * m.units * tenPow (-grid).toNat = value at *
  generalize 2 * unitsPerOne * tenPow grid.toNat = step at *
  have hlow := Nat.div_mul_le_self value step
  have hhigh := (Nat.lt_mul_div_succ value hstep).le
  generalize value / step = below at *
  rw [Nat.mul_comm] at hhigh
  rw [← Nat.dist_eq_sub_of_le hlow, ← Nat.dist_eq_sub_of_le_right hhigh] at h
  have hsides : (c ≤ below ∧ (c = below ∨ Nat.dist (below * step) value < Nat.dist (c * step) value)) ∨
      below < c ∧ (c = below + 1 ∨ Nat.dist ((below + 1) * step) value < Nat.dist (c * step) value) := by
    rcases Nat.lt_or_ge below c with hlt | hle
    · exact .inr ⟨hlt, dist_above hstep hhigh hlt⟩
    · exact .inl ⟨hle, dist_below hstep hlow hle⟩
  split at h
  · split at h
    · cases h
      simp only
      rcases hsides with ⟨_, rfl | hlt⟩ | ⟨_, rfl | hlt⟩ <;> omega
    · cases h
      simp only
      rcases hsides with ⟨_, rfl | hlt⟩ | ⟨_, rfl | hlt⟩ <;> omega
  · rename_i ha
    cases h
    rcases hsides with ⟨_, rfl | hlt⟩ | ⟨hlt, _⟩
    · exact .inr ⟨rfl, .inl rfl⟩
    · exact .inl hlt
    · rw [habove hlt] at ha
      cases ha
  · rename_i hb _
    cases h
    rcases hsides with ⟨hle, _⟩ | ⟨_, rfl | hlt⟩
    · rw [hbelow hle] at hb
      cases hb
    · exact .inr ⟨rfl, .inl rfl⟩
    · exact .inl hlt
  · cases h

end

section

variable {m : Magnitude} {d e : Decimal}

theorem cast_dist (a b : Nat) : (Nat.dist a b : ℚ) = |(a : ℚ) - b| := by
  rcases Nat.le_total a b with h | h
  · have hle : (a : ℚ) ≤ b := by exact_mod_cast h
    rw [Nat.dist_eq_sub_of_le h, Nat.cast_sub h, abs_of_nonpos (by linarith), neg_sub]
  · have hle : (b : ℚ) ≤ a := by exact_mod_cast h
    rw [Nat.dist_eq_sub_of_le_right h, Nat.cast_sub h, abs_of_nonneg (by linarith)]

theorem cast_gap (m : Magnitude) (d : Decimal) :
    (Nat.dist (d.coefficient * (2 * unitsPerOne * tenPow d.exponent.toNat))
      (2 * m.units * tenPow (-d.exponent).toNat) : ℚ) =
      m.distance d * (unitsPerOne * 2 * tenPow (-d.exponent).toNat) := by
  have hscale := cast_tenPow_pos (-d.exponent).toNat
  have hpoint := d.two_mul_units
  rw [eq_div_iff hscale.ne'] at hpoint
  rw [cast_dist, ← hpoint, distance, ← mul_assoc, ← mul_assoc, abs_sub_value, ← Decimal.units]
  push_cast
  rw [← sub_mul, ← mul_sub, abs_mul, abs_mul, abs_of_pos hscale, abs_two]
  ring

/-- Of the decimals on its grid that read back the shortest one is the closest, and of two that are
equally close it is the even one. -/
theorem nearest_on_grid (h0 : m.isZero = false) (hfin : m.isInfinite = false)
    (hr : m.Rounds e.units) (hexp : e.exponent = m.shortest.exponent) :
    m.distance m.shortest < m.distance e ∨ m.distance m.shortest = m.distance e ∧
      (e.coefficient = m.shortest.coefficient ∨
        m.shortest.coefficient % 2 = 0 ∧ e.coefficient % 2 = 1) := by
  have hholds := holds_of_rounds (tenPow_pos _) hfin e.two_mul_units hr
  have hgap := cast_gap m m.shortest
  have hgap' := cast_gap m e
  rw [hexp] at hholds hgap'
  have hnearest := onGrid?_nearest hfin (search_ends h0 hfin).2 hholds
  have hpos : (0 : ℚ) < unitsPerOne * 2 * tenPow (-m.shortest.exponent).toNat :=
    mul_pos (mul_pos cast_unitsPerOne_pos two_pos) (cast_tenPow_pos _)
  simp only at hnearest
  rw [← mul_lt_mul_iff_left₀ hpos, ← mul_left_inj' hpos.ne', ← hgap, ← hgap']
  exact_mod_cast hnearest

end

end Magnitude

end JCalc
