import JCalc.Proofs.UnitInterval

/-! Counting up to a number and back. Which numbers are counts, and what is reported of the others;
a count is not rounded, so that as many elements are made as it says, and their number is it again. -/

namespace JCalc

namespace Scalar

/-- The imaginary part counts as a zero, and the real part is a number of things. -/
structure IsCount (s : Scalar) (n : Nat) : Prop where
  im : s.im.vanishes = true
  re : ∃ x, s.re = .number x ∧ x.isInfinite = false ∧ x.value = n

end Scalar

namespace Magnitude

variable {m : Magnitude} {n k : Nat}

theorem ofNat_rounds (n : Nat) : (ofNat n).Rounds (n * unitsPerOne) := by
  have h := nearest_rounds (n * unitsPerOne) Nat.one_pos
  rwa [Nat.cast_one, div_one, Nat.cast_mul] at h

theorem eq_ofNat (h : m.units = n * unitsPerOne) : m = ofNat n := by
  have hm := m.rounds_units
  rw [h, Nat.cast_mul] at hm
  exact hm.unique (ofNat_rounds n)

theorem exists_shift (hn : 0 < n) (h : n ≤ 2 * binade) :
    ∃ d ≤ 52, binade ≤ n * 2 ^ d ∧ n * 2 ^ d ≤ 2 * binade := by
  by_cases hfull : binade ≤ n
  · exact ⟨0, by omega, by omega, by omega⟩
  · have hlog : n.log2 < 52 := (Nat.log2_lt hn.ne').mpr (by rw [← binade_eq]; omega)
    have hlow := Nat.mul_le_mul_right (2 ^ (52 - n.log2)) (Nat.log2_self_le hn.ne')
    have hhigh := Nat.mul_le_mul_right (2 ^ (52 - n.log2)) (Nat.lt_log2_self (n := n)).le
    rw [← pow_add, Nat.add_sub_cancel' hlog.le, ← binade_eq] at hlow
    rw [pow_succ', Nat.mul_assoc, ← pow_add, Nat.add_sub_cancel' hlog.le, ← binade_eq] at hhigh
    exact ⟨52 - n.log2, Nat.sub_le _ _, hlow, hhigh⟩

/-- A number that fits into a significand is not rounded. -/
theorem exists_units (h : n ≤ 2 * binade) :
    ∃ m : Magnitude, m.isInfinite = false ∧ m.units = n * unitsPerOne := by
  by_cases hn : n = 0
  · subst hn
    rw [Nat.zero_mul]
    exact ⟨zero, rfl, rfl⟩
  obtain ⟨d, hd, hlow, hhigh⟩ := exists_shift (Nat.pos_of_ne_zero hn) h
  have hcode : (1074 - d) * binade + n * 2 ^ d < topCode := by
    have := Nat.mul_le_mul_right binade (Nat.sub_le 1074 d)
    have htop : topCode = 2047 * binade := by decide
    have hpos : 0 < binade := by decide
    omega
  have hpow (a b : Nat) (hab : a + b = 1074) : n * 2 ^ a * 2 ^ b = n * unitsPerOne := by
    rw [unitsPerOne_eq, ← hab, pow_add, Nat.mul_assoc]
  refine ⟨⟨(1074 - d) * binade + n * 2 ^ d, hcode.le⟩, ?_, ?_⟩
  · rw [isInfinite, beq_eq_false_iff_ne]
    exact hcode.ne
  · rw [units, unitsOf_mul_add hhigh (.inr hlow)]
    exact hpow d (1074 - d) (by omega)

theorem ofNat_units (h : n ≤ 2 * binade) :
    (ofNat n).isInfinite = false ∧ (ofNat n).units = n * unitsPerOne := by
  obtain ⟨m, hfin, hm⟩ := exists_units h
  rw [← eq_ofNat hm]
  exact ⟨hfin, hm⟩

end Magnitude

namespace Extended

variable {x : Extended} {k : Int} {n : Nat}

theorem value_eq_iff : x.value = k ↔ x.units = k * unitsPerOne := by
  have hone : (unitsPerOne : ℚ) ≠ 0 := cast_unitsPerOne_pos.ne'
  rw [value, div_eq_iff hone]
  exact_mod_cast Iff.rfl

theorem units_of_value (h : x.value = n) : x.units = n * unitsPerOne := by
  apply value_eq_iff.mp
  exact_mod_cast h

/-- A number with a count for its value is the number of that count, but for the sign of a zero. -/
theorem eq_ofNat_of_value (h : x.value = n) : x = ofNat n ∨ x.magnitude.units = 0 ∧ n = 0 := by
  have hunits := units_of_value h
  obtain ⟨negative, m⟩ := x
  cases negative with
  | false =>
    left
    have hm : (m.units : Int) = n * unitsPerOne := hunits
    obtain rfl : m = .ofNat n := Magnitude.eq_ofNat (by exact_mod_cast hm)
    rfl
  | true =>
    right
    have hneg : -(m.units : Int) = n * unitsPerOne := hunits
    rw [← Int.natCast_mul] at hneg
    have hzero : n * unitsPerOne = 0 := by omega
    refine ⟨?_, (Nat.mul_eq_zero.mp hzero).resolve_right unitsPerOne_pos.ne'⟩
    show m.units = 0
    omega

end Extended

section

variable {limit : Int} {s : Scalar} {n : Nat} {y z : Noun} {x : Extended}

theorem value_lt_of_units_eq_zero {m : Magnitude} (h : m.units = 0) : m.value < 1 / 2 ^ 1022 := by
  rw [Magnitude.value, h, Nat.cast_zero, zero_div]
  positivity

/-- The number of things counted is equal to the one that was counted up to. -/
theorem Scalar.IsCount.same (h : s.IsCount n) :
    (Binary64.number (.ofNat n)).Same s.re ∧ Binary64.zero.Same s.im := by
  obtain ⟨him, x, hx, _, hvalue⟩ := h
  obtain ⟨w, hw, hlt⟩ := Binary64.vanishes_iff.mp him
  refine ⟨⟨_, x, rfl, hx, ?_⟩, _, w, rfl, hw, .inr ⟨value_lt_of_units_eq_zero rfl, hlt⟩⟩
  rcases Extended.eq_ofNat_of_value hvalue with rfl | ⟨hzero, rfl⟩
  · exact .inl rfl
  · have hunits : (Magnitude.ofNat 0).units = 0 := by
      rw [(Magnitude.ofNat_units (Nat.zero_le _)).2, Nat.zero_mul]
    exact .inr ⟨value_lt_of_units_eq_zero hunits, value_lt_of_units_eq_zero hzero⟩

end

end JCalc
