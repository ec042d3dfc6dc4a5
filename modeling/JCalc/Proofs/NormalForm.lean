import JCalc.Proofs.Numeral

/-! Digits and normal forms. A run of digits without a leading zero is the digits of the number
that it stands for, and a positive decimal has one normal form, which its value determines. -/

namespace JCalc

namespace Decimal

theorem digitChar_digitValue {c : Char} (h : isDigit c = true) : digitChar (digitValue c) = c := by
  simp only [isDigit, Bool.and_eq_true, decide_eq_true_eq, Char.le_def] at h
  have hlow : 48 ≤ c.toNat := h.1
  rw [digitChar, digitValue, Nat.add_sub_cancel' hlow]
  exact Char.ofNat_toNat c

theorem digitValue_lt {c : Char} (h : isDigit c = true) : digitValue c < 10 := by
  simp only [isDigit, Bool.and_eq_true, decide_eq_true_eq, Char.le_def] at h
  have hup : c.toNat ≤ 57 := h.2
  rw [digitValue]
  omega

theorem digits_concat {n r : Nat} (hn : 0 < n) (hr : r < 10) :
    digits (10 * n + r) = digits n ++ [digitChar r] := by
  rw [digits, if_neg (by omega), show (10 * n + r) / 10 = n by omega,
    show (10 * n + r) % 10 = r by omega]

/-- Digits without a leading zero are the digits of a positive number. -/
theorem digits_ofDigits {ds : Text} (hd : AllDigits ds) (hn : ds ≠ []) (h0 : ds.head? ≠ some '0') :
    digits (ofDigits ds) = ds ∧ 0 < ofDigits ds := by
  induction ds using List.reverseRecOn with
  | nil => exact absurd rfl hn
  | append_singleton ds c ih =>
    have hc : isDigit c = true := hd c (by simp)
    have hv := digitValue_lt hc
    rw [ofDigits_concat]
    rcases List.eq_nil_or_concat ds with rfl | ⟨es, d, hds⟩
    · refine ⟨?_, ?_⟩
      · rw [digits, if_pos (by simpa [ofDigits] using hv)]
        simp [ofDigits, digitChar_digitValue hc]
      · by_contra hz
        have hzero : digitValue c = 0 := by omega
        have := digitChar_digitValue hc
        rw [hzero] at this
        simp [← this, digitChar] at h0
    · obtain ⟨hds, hpos⟩ := ih (fun d hd' => hd d (by simp [hd'])) (by simp [hds])
        (by simpa [hds, List.head?_append] using h0)
      rw [digits_concat hpos hv, hds, digitChar_digitValue hc]
      exact ⟨rfl, by omega⟩

theorem digitChar_ne_zero {n : Nat} (h0 : 0 < n) (h : n < 10) : digitChar n ≠ '0' := by
  intro hzero
  have hvalue := digitValue_digitChar h
  rw [hzero] at hvalue
  have hnone : digitValue '0' = 0 := rfl
  omega

theorem head?_digits {n : Nat} (h : 0 < n) : (digits n).head? ≠ some '0' := by
  fun_induction digits n with
  | case1 n hn => simpa using digitChar_ne_zero h hn
  | case2 n hn ih =>
    rw [List.head?_append_of_ne_nil _ (digits_ne_nil _)]
    exact ih (by omega)

theorem getLast?_digits {n : Nat} (h : n % 10 ≠ 0) : (digits n).getLast? ≠ some '0' := by
  rw [digits]
  split
  · simpa using digitChar_ne_zero (by omega) (by assumption)
  · simpa using digitChar_ne_zero (Nat.pos_of_ne_zero h) (Nat.mod_lt _ (by decide))

theorem lt_tenPow_digits (n : Nat) : n < 10 ^ (digits n).length := by
  fun_induction digits n with
  | case1 n h => simpa using h
  | case2 n h ih =>
    rw [List.length_append, List.length_singleton, Nat.pow_succ]
    omega

theorem tenPow_digits_le {n : Nat} (hn : 0 < n) : 10 ^ ((digits n).length - 1) ≤ n := by
  fun_induction digits n with
  | case1 n h => exact hn
  | case2 n h ih =>
    have ih := ih (by omega)
    have hpos : 0 < (digits (n / 10)).length := List.length_pos_of_ne_nil (digits_ne_nil _)
    rw [List.length_append, List.length_singleton, Nat.add_sub_cancel]
    obtain ⟨k, hk⟩ : ∃ k, (digits (n / 10)).length = k + 1 := ⟨_, (Nat.sub_add_cancel hpos).symm⟩
    rw [hk, Nat.add_sub_cancel] at ih
    rw [hk, Nat.pow_succ]
    omega

section

variable {d : Decimal}

/-- The value lies between the power of ten that its leading digit is worth and the next. -/
theorem value_bounds (h : 0 < d.coefficient) :
    (10 : ℚ) ^ d.leading ≤ d.value ∧ d.value < (10 : ℚ) ^ (d.leading + 1) := by
  obtain ⟨c, e⟩ := d
  have hpos : 0 < (digits c).length := List.length_pos_of_ne_nil (digits_ne_nil _)
  obtain ⟨k, hk⟩ : ∃ k, (digits c).length = k + 1 := ⟨_, (Nat.sub_add_cancel hpos).symm⟩
  have hlow := tenPow_digits_le h
  have hup := lt_tenPow_digits c
  have hten : (0 : ℚ) < (10 : ℚ) ^ e := zpow_pos (by norm_num) e
  rw [hk] at hlow hup
  have hlow : (10 : ℚ) ^ k ≤ c := by exact_mod_cast hlow
  have hup : (c : ℚ) < 10 ^ (k + 1) := by exact_mod_cast hup
  rw [value, leading, hk, show e + ((k + 1 : ℕ) : Int) - 1 = (k : Int) + e by push_cast; ring,
    show (k : Int) + e + 1 = ((k + 1 : ℕ) : Int) + e by push_cast; ring,
    zpow_add₀ (by norm_num), zpow_add₀ (by norm_num), zpow_natCast, zpow_natCast]
  exact ⟨mul_le_mul_of_nonneg_right hlow hten.le, mul_lt_mul_of_pos_right hup hten⟩

theorem value_pos_iff : 0 < d.value ↔ 0 < d.coefficient := by
  rw [value, mul_pos_iff_of_pos_right (zpow_pos (by norm_num) _), Nat.cast_pos]

theorem normal_eq_self (h : d.coefficient % 10 ≠ 0) : d.normal = d := by
  rw [normal, if_neg fun hd => h hd.2]

theorem normal_coefficient (h : 0 < d.coefficient) : d.normal.coefficient % 10 ≠ 0 := by
  fun_induction normal d with
  | case1 d hd ih => exact ih (by simp only; omega)
  | case2 d hd => omega

theorem coefficient_of_value {a b : Decimal} (h : a.value = b.value) (he : a.exponent ≤ b.exponent) :
    a.coefficient = b.coefficient * 10 ^ (b.exponent - a.exponent).toNat := by
  obtain ⟨k, hk⟩ : ∃ k : Nat, b.exponent = k + a.exponent := ⟨(b.exponent - a.exponent).toNat, by omega⟩
  have hten : (10 : ℚ) ^ a.exponent ≠ 0 := zpow_ne_zero _ (by norm_num)
  rw [value, value, hk, zpow_add₀ (by norm_num), zpow_natCast, ← mul_assoc,
    mul_left_inj' hten] at h
  rw [hk, show ((k : Int) + a.exponent - a.exponent).toNat = k by omega]
  exact_mod_cast h

theorem eq_of_value {a b : Decimal} (h : a.value = b.value) (ha : a.coefficient % 10 ≠ 0)
    (hb : b.coefficient % 10 ≠ 0) : a = b := by
  wlog he : a.exponent ≤ b.exponent generalizing a b
  · exact (this h.symm hb ha (by omega)).symm
  have hc := coefficient_of_value h he
  cases hk : (b.exponent - a.exponent).toNat with
  | zero => exact eq_of_fields (by simpa [hk] using hc) (by omega)
  | succ k =>
    rw [hk, Nat.pow_succ, ← Nat.mul_assoc] at hc
    omega

theorem normal_congr {a b : Decimal} (h : a.value = b.value) (hb : 0 < b.coefficient) :
    a.normal = b.normal := by
  have ha : 0 < a.coefficient := by rwa [← value_pos_iff, h, value_pos_iff]
  exact eq_of_value (by rw [value_normal, value_normal, h]) (normal_coefficient ha)
    (normal_coefficient hb)

/-- The literal of a positive decimal depends on its value only. -/
theorem literal_congr {a b : Decimal} (h : a.value = b.value) (hb : 0 < b.coefficient)
    (negative : Bool) : a.literal negative = b.literal negative := by
  rw [literal, literal, normal_congr h hb]

end

end Decimal

end JCalc
