import JCalc.Binary64.Shortest
import JCalc.Proofs.Rounding

/-! Decimals and the magnitudes they round to. A decimal rounds to its own magnitude,
an exponent that settles the answer alone included, and the shortest decimal of a
magnitude rounds back to it. -/

namespace JCalc

namespace Decimal

/-- The rational that a decimal stands for. -/
def value (d : Decimal) : ℚ := d.coefficient * (10 : ℚ) ^ d.exponent

def units (d : Decimal) : ℚ := d.value * unitsPerOne

theorem zpow_eq_div (e : Int) :
    (10 : ℚ) ^ e = (10 ^ e.toNat : ℕ) / (10 ^ (-e).toNat : ℕ) := by
  rcases Int.eq_nat_or_neg e with ⟨n, rfl | rfl⟩ <;> simp

theorem units_eq_div (d : Decimal) :
    d.units = (d.coefficient * tenPow d.exponent.toNat * unitsPerOne : ℕ) /
      (tenPow (-d.exponent).toNat : ℕ) := by
  rw [units, value, zpow_eq_div, tenPow_eq, tenPow_eq]
  push_cast
  ring

/-- A decimal as the point of its grid that the search for the shortest one looks at. -/
theorem two_mul_units (d : Decimal) :
    2 * d.units = (d.coefficient * (2 * unitsPerOne * tenPow d.exponent.toNat) : ℕ) /
      (tenPow (-d.exponent).toNat : ℕ) := by
  rw [units_eq_div]
  push_cast
  ring

end Decimal

theorem unitsPerOne_eq : unitsPerOne = 2 ^ 1074 := twoPow_eq 1074

theorem twoPow_pos (k : Nat) : 0 < twoPow k := by
  rw [twoPow_eq]
  exact Nat.two_pow_pos k

theorem unitsPerOne_pos : 0 < unitsPerOne := twoPow_pos 1074

theorem cast_unitsPerOne_pos : (0 : ℚ) < unitsPerOne := Nat.cast_pos.mpr unitsPerOne_pos

theorem tenPow_pos (k : Nat) : 0 < tenPow k := Nat.pow_pos (by decide)

theorem step_pos (k : Nat) : 0 < 2 * unitsPerOne * tenPow k :=
  Nat.mul_pos (Nat.mul_pos (by decide) unitsPerOne_pos) (tenPow_pos k)

theorem cast_tenPow_pos (k : Nat) : (0 : ℚ) < tenPow k := Nat.cast_pos.mpr (tenPow_pos k)

namespace Magnitude

theorem zero_rounds {u : ℚ} (h0 : 0 ≤ u) (h : 2 * u < 1) : zero.Rounds u := by
  constructor
  · have hmid : lowerMid zero.code = 0 := rfl
    rw [Reaches, hmid]
    rcases h0.eq_or_lt with rfl | hpos
    · exact .inr ⟨rfl, by simp⟩
    · exact .inl (by push_cast; linarith)
  · have hmid : upperMid zero.code = 1 := rfl
    intro _
    rw [Stays, hmid]
    exact .inl (by push_cast; exact h)

theorem unitsOf_topCode : unitsOf topCode = 2 ^ 1024 * unitsPerOne := by
  have hcode : topCode = 2046 * binade + binade := rfl
  have hpow (a b c d : Nat) (h : a + b = c + d) : 2 ^ a * 2 ^ b = 2 ^ c * 2 ^ d := by
    rw [← Nat.pow_add, ← Nat.pow_add, h]
  rw [hcode, unitsOf_mul_add (by omega) (by omega), binade_eq, unitsPerOne_eq]
  exact hpow 52 2046 1024 1074 rfl

theorem infinity_rounds {u : ℚ} (h : (2 ^ 1024 * unitsPerOne : ℕ) ≤ u) : infinity.Rounds u := by
  refine ⟨.inl ?_, fun hfin => absurd hfin (by decide)⟩
  have hprev : unitsOf (topCode - 1) < unitsOf topCode := unitsOf_strictMono (by decide)
  have hmid : lowerMid infinity.code < 2 * unitsOf topCode := by
    rw [lowerMid]
    simp only [infinity]
    omega
  rw [← unitsOf_topCode] at h
  have hmid : (lowerMid infinity.code : ℚ) < 2 * unitsOf topCode := by exact_mod_cast hmid
  linarith

theorem rounds_units (m : Magnitude) : m.Rounds m.units := by
  constructor
  · by_cases h0 : m.code = 0
    · right
      rw [h0, show m.units = 0 by rw [units, h0]; rfl]
      exact ⟨rfl, by norm_num [show lowerMid 0 = 0 from rfl]⟩
    · left
      have hlt : lowerMid m.code < 2 * m.units := by
        have := unitsOf_strictMono (by omega : m.code - 1 < m.code)
        rw [lowerMid, units]
        omega
      exact_mod_cast hlt
  · intro _
    left
    have hlt : 2 * m.units < upperMid m.code := by
      have := unitsOf_lt_succ m.code
      rw [upperMid, units]
      omega
    exact_mod_cast hlt

theorem two_pow_le_tenPow {n : Nat} (h : 311 ≤ n) : 2 ^ 1024 ≤ tenPow n := by
  rw [tenPow_eq]
  have hmono (a : Nat) (ha : a ≤ n) : 10 ^ a ≤ 10 ^ n := Nat.pow_le_pow_right (by decide) ha
  have hpow : (2 ^ 93) ^ 11 ≤ (10 ^ 28) ^ 11 := Nat.pow_le_pow_left (by norm_num) 11
  have hsplit (a b : Nat) (hb : b = 93 * a + 1) : 2 ^ b = 2 * (2 ^ 93) ^ a := by
    rw [hb, Nat.pow_succ', Nat.pow_mul]
  have hjoin (a : Nat) : 10 ^ 3 * (10 ^ 28) ^ a = 10 ^ (3 + 28 * a) := by
    rw [Nat.pow_add, Nat.pow_mul]
  calc 2 ^ 1024 = 2 * (2 ^ 93) ^ 11 := hsplit 11 1024 rfl
    _ ≤ 10 ^ 3 * (10 ^ 28) ^ 11 := Nat.mul_le_mul (by norm_num) hpow
    _ = 10 ^ (3 + 28 * 11) := hjoin 11
    _ ≤ 10 ^ n := hmono _ (by omega)

theorem eight_mul_lt_tenPow {c k : Nat} (h : c.log2 + 1077 < 3 * k) :
    8 * (c * unitsPerOne) < tenPow k := by
  have hc : c < 2 ^ (c.log2 + 1) := Nat.lt_log2_self
  have hk : (2 ^ 3) ^ k ≤ 10 ^ k := Nat.pow_le_pow_left (by decide) k
  have hpos : 0 < 8 * unitsPerOne := Nat.mul_pos (by decide) unitsPerOne_pos
  have hjoin (a b : Nat) : 2 ^ a * (8 * 2 ^ b) = 2 ^ (a + 3 + b) := by ring
  calc 8 * (c * unitsPerOne) = c * (8 * unitsPerOne) := by ring
    _ < 2 ^ (c.log2 + 1) * (8 * unitsPerOne) := Nat.mul_lt_mul_of_pos_right hc hpos
    _ = 2 ^ (c.log2 + 1 + 3 + 1074) := by rw [unitsPerOne_eq, hjoin]
    _ ≤ 2 ^ (3 * k) := Nat.pow_le_pow_right (by decide) (by omega)
    _ = (2 ^ 3) ^ k := Nat.pow_mul 2 3 k
    _ ≤ tenPow k := hk

theorem ofDecimal_rounds (d : Decimal) : (ofDecimal d).Rounds d.units := by
  have hten := cast_tenPow_pos
  rw [Decimal.units_eq_div]
  unfold ofDecimal
  split_ifs with h0 hlarge hwhole hsmall
  · rw [h0]
    exact zero_rounds (by simp) (by simp)
  · refine infinity_rounds ?_
    have hexp : (-d.exponent).toNat = 0 := by omega
    rw [hexp, le_div_iff₀ (hten 0)]
    have hle : 1 * 2 ^ 1024 * unitsPerOne ≤ d.coefficient * tenPow d.exponent.toNat * unitsPerOne :=
      Nat.mul_le_mul_right _ (Nat.mul_le_mul (by omega) (two_pow_le_tenPow (by omega)))
    rw [Nat.one_mul] at hle
    rw [tenPow_eq, Nat.pow_zero, Nat.cast_one, mul_one]
    exact_mod_cast hle
  · have hexp : (-d.exponent).toNat = 0 := by omega
    rw [hexp]
    exact nearest_rounds _ Nat.one_pos
  · have hexp : d.exponent.toNat = 0 := by omega
    rw [hexp, tenPow_eq 0, Nat.pow_zero, Nat.mul_one]
    refine zero_rounds (div_nonneg (Nat.cast_nonneg _) (Nat.cast_nonneg _)) ?_
    have hlt := eight_mul_lt_tenPow hsmall
    generalize d.coefficient * unitsPerOne = num at hlt ⊢
    rw [← mul_div_assoc, div_lt_one (hten _)]
    have hlt : (8 * num : ℚ) < tenPow (-d.exponent).toNat := by exact_mod_cast hlt
    have hnum : (0 : ℚ) ≤ num := by positivity
    linarith
  · have hexp : d.exponent.toNat = 0 := by omega
    rw [hexp, tenPow_eq 0, Nat.pow_zero, Nat.mul_one]
    exact nearest_rounds _ (tenPow_pos _)

section

variable {m : Magnitude}

theorem holds_iff {point scale : Nat} :
    m.holds point scale = true ↔
      (lowerMid m.code * scale < point ∨ m.code % 2 = 0 ∧ lowerMid m.code * scale = point) ∧
      (point < upperMid m.code * scale ∨ m.code % 2 = 0 ∧ point = upperMid m.code * scale) := by
  have hlow : m.lowerEnd = lowerMid m.code := rfl
  have hup : m.upperEnd = upperMid m.code := rfl
  rw [holds, hlow, hup]
  by_cases hpar : m.code % 2 = 0
  · simp only [hpar, if_true, Bool.and_eq_true, decide_eq_true_eq, true_and, Nat.le_iff_lt_or_eq]
  · simp only [hpar, if_false, Bool.and_eq_true, decide_eq_true_eq, false_and, or_false]

theorem rounds_of_holds {point scale : Nat} (hs : 0 < scale) (h : m.holds point scale = true) {u : ℚ}
    (hu : 2 * u = point / scale) : m.Rounds u := by
  obtain ⟨hlow, hup⟩ := holds_iff.mp h
  refine ⟨?_, fun _ => ?_⟩
  · rwa [hu, reaches_div hs]
  · rwa [hu, stays_div hs]

theorem holds_of_onGrid? {grid : Int} {d : Decimal} (h : m.onGrid? grid = some d) :
    d.exponent = grid ∧
      m.holds (d.coefficient * (2 * unitsPerOne * tenPow grid.toNat)) (tenPow (-grid).toNat) = true := by
  simp only [onGrid?] at h
  split at h
  · split at h <;> cases h
    · exact ⟨rfl, by assumption⟩
    · exact ⟨rfl, by assumption⟩
  · cases h
    exact ⟨rfl, by assumption⟩
  · cases h
    exact ⟨rfl, by assumption⟩
  · cases h

theorem rounds_of_onGrid? {grid : Int} {d : Decimal} (h : m.onGrid? grid = some d) :
    m.Rounds d.units := by
  obtain ⟨rfl, hh⟩ := holds_of_onGrid? h
  exact rounds_of_holds (tenPow_pos _) hh d.two_mul_units

theorem units_exact (m : Magnitude) : m.exact.units = m.units := by
  have hsplit (n : Nat) : (⟨m.units * Nat.pow 5 n, -n⟩ : Decimal).value * twoPow n = m.units := by
    have hten : (10 : ℚ) ^ n = 5 ^ n * 2 ^ n := by
      rw [← mul_pow]
      norm_num
    rw [Decimal.value, twoPow_eq, zpow_neg, zpow_natCast, hten, Nat.pow_eq]
    push_cast
    field_simp
  have hexact (n : Nat) (hn : n = 1074) : m.exact = ⟨m.units * Nat.pow 5 n, -n⟩ := by
    rw [exact, ← hn, show (-1074 : Int) = -n by omega]
  rw [Decimal.units, hexact _ rfl, unitsPerOne]
  exact hsplit 1074

theorem shortest_rounds (m : Magnitude) : m.Rounds m.shortest.units := by
  unfold shortest
  cases hf : (List.range 128).findSome? fun i : Nat => m.onGrid? (m.coarsestGrid - (i : Int)) with
  | none =>
    rw [Option.getD_none, units_exact]
    exact m.rounds_units
  | some d =>
    obtain ⟨i, _, hi⟩ := List.exists_of_findSome?_eq_some hf
    exact rounds_of_onGrid? hi

/-- Only the value of a decimal matters for what it rounds to. -/
theorem ofDecimal_eq_of_value {d : Decimal} (h : d.value = m.shortest.value) : ofDecimal d = m := by
  refine (ofDecimal_rounds d).unique ?_
  rw [Decimal.units, h]
  exact m.shortest_rounds

end

end Magnitude

end JCalc
