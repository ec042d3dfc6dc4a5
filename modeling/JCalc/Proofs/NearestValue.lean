import JCalc.Proofs.Numeral
import JCalc.Token

/-! The value of a decimal literal. The literal denotes a rational, as its digits stand and
however many they are, and is read as the magnitude nearest to that, a tie going to the even
pattern, with the sign of the literal. -/

namespace JCalc

namespace Magnitude

def value (m : Magnitude) : ℚ := m.units / unitsPerOne

/-- From here on the magnitudes are too small, were there more of them: halfway from the greatest
to the next power of two. -/
def overflow : ℚ := 2 ^ 1024 - 2 ^ 970

/-- Rounding to nearest, a tie to even. -/
structure Nearest (m : Magnitude) (v : ℚ) : Prop where
  overflows : m.isInfinite = true ↔ overflow ≤ v
  closest : m.isInfinite = false → ∀ n : Magnitude, n.isInfinite = false →
    |v - m.value| ≤ |v - n.value|
  even_of_tie : m.isInfinite = false → ∀ n : Magnitude, n.isInfinite = false → n ≠ m →
    |v - m.value| = |v - n.value| → m.code % 2 = 0

section

variable {m n : Magnitude} {u v : ℚ}

theorem code_ne (h : n ≠ m) : n.code ≠ m.code := by
  intro hcode
  cases m
  cases n
  exact h (by simpa using hcode)

theorem Rounds.closer (h : m.Rounds u) (hfin : m.isInfinite = false) (hne : n ≠ m) :
    |u - m.units| < |u - n.units| ∨
      m.code % 2 = 0 ∧ |u - m.units| ≤ |u - n.units| := by
  have hmono := unitsOf_strictMono.monotone
  rcases Nat.lt_or_gt_of_ne (code_ne hne) with hlt | hlt
  · have hunits : (n.units : ℚ) < m.units := by exact_mod_cast unitsOf_strictMono hlt
    have hmid : (n.units + m.units : ℚ) ≤ lowerMid m.code := by
      have hle := hmono (show n.code ≤ m.code - 1 by omega)
      exact_mod_cast Nat.add_le_add_right hle m.units
    rcases h.reaches with hr | ⟨heven, hr⟩
    · left
      apply lt_of_lt_of_le _ (le_abs_self _)
      rw [abs_lt]
      constructor <;> linarith
    · refine .inr ⟨heven, le_trans ?_ (le_abs_self _)⟩
      rw [abs_le]
      constructor <;> linarith
  · have hunits : (m.units : ℚ) < n.units := by exact_mod_cast unitsOf_strictMono hlt
    have hmid : (upperMid m.code : ℚ) ≤ m.units + n.units := by
      have hle := hmono (show m.code + 1 ≤ n.code by omega)
      exact_mod_cast Nat.add_le_add_left hle m.units
    rcases h.stays hfin with hs | ⟨heven, hs⟩
    · left
      apply lt_of_lt_of_le _ (neg_le_abs _)
      rw [abs_lt]
      constructor <;> linarith
    · refine .inr ⟨heven, le_trans ?_ (neg_le_abs _)⟩
      rw [abs_le]
      constructor <;> linarith

theorem abs_sub_value (m : Magnitude) (v : ℚ) :
    |v - m.value| * unitsPerOne = |v * unitsPerOne - m.units| := by
  have hpos := cast_unitsPerOne_pos
  rw [← abs_of_pos hpos, ← abs_mul, abs_of_pos hpos, value, sub_mul, div_mul_cancel₀ _ hpos.ne']

theorem cast_unitsPerOne : (unitsPerOne : ℚ) = 2 ^ 1074 := by
  rw [unitsPerOne_eq, Nat.cast_pow, Nat.cast_ofNat]

theorem two_mul_overflow : 2 * (overflow * unitsPerOne) = lowerMid topCode := by
  -- the exponents are kept variables, so that no power is computed
  have hmid (s : Nat) (hs : topCode = s * binade + 2 * binade) :
      (lowerMid topCode : ℚ) + 2 ^ s = 2 * (2 * binade * 2 ^ s) := by
    rw [hs]
    exact_mod_cast lowerMid_add (s := s) le_rfl (by decide) (.inr (by decide))
  have hsplit (a b : Nat) : 2 * (((2 : ℚ) ^ (54 + a) - 2 ^ a) * 2 ^ b) + 2 ^ (a + b + 1) =
      2 * (2 * binade * 2 ^ (a + b + 1)) := by
    rw [binade_eq]
    push_cast
    ring
  have hcode : topCode = (970 + 1074 + 1) * binade + 2 * binade := by norm_num [topCode, binade]
  rw [cast_unitsPerOne, overflow]
  exact add_right_cancel ((hsplit 970 1074).trans (hmid _ hcode).symm)

theorem Rounds.isInfinite_iff (h : m.Rounds (v * unitsPerOne)) :
    m.isInfinite = true ↔ overflow ≤ v := by
  have hpos := cast_unitsPerOne_pos
  have hmid := two_mul_overflow
  constructor
  · intro hinf
    have hcode : m.code = topCode := by simpa [isInfinite] using hinf
    have hle : (lowerMid topCode : ℚ) ≤ 2 * (v * unitsPerOne) := by
      rw [← hcode]
      rcases h.reaches with hr | ⟨_, hr⟩
      · exact hr.le
      · exact hr.le
    exact le_of_mul_le_mul_right (by linarith) hpos
  · intro hle
    have hle := mul_le_mul_of_nonneg_right hle hpos.le
    have hinfinity : infinity.Rounds (v * unitsPerOne) := by
      refine ⟨?_, fun hfin => absurd hfin (by decide)⟩
      rcases (show (lowerMid topCode : ℚ) ≤ 2 * (v * unitsPerOne) by linarith).lt_or_eq with hlt | heq
      · exact .inl hlt
      · exact .inr ⟨rfl, heq⟩
    rw [h.unique hinfinity]
    rfl

theorem Rounds.isZero_iff (h : m.Rounds (v * unitsPerOne)) (h0 : 0 ≤ v) :
    m.isZero = true ↔ v ≤ 1 / 2 ^ 1075 := by
  have hscale (a : Nat) : v ≤ 1 / 2 ^ (a + 1) ↔ 2 * (v * 2 ^ a) ≤ 1 := by
    rw [le_div_iff₀ (by positivity), pow_succ', mul_left_comm]
  have hiff : v ≤ 1 / 2 ^ 1075 ↔ 2 * (v * unitsPerOne) ≤ 1 := by
    rw [cast_unitsPerOne]
    exact hscale 1074
  have hlow : lowerMid zero.code = 0 := rfl
  have hup : upperMid zero.code = 1 := rfl
  rw [hiff]
  constructor
  · intro hz
    have hcode : m.code = zero.code := by simpa [isZero, zero] using hz
    have hs := h.stays (isInfinite_of_le (n := infinity) (hcode ▸ (by decide)))
    rw [hcode, Stays, hup, Nat.cast_one] at hs
    rcases hs with hs | ⟨_, hs⟩
    · exact hs.le
    · exact hs.le
  · intro hle
    have hzero : zero.Rounds (v * unitsPerOne) := by
      have hnonneg : 0 ≤ 2 * (v * unitsPerOne) :=
        mul_nonneg (by norm_num) (mul_nonneg h0 (Nat.cast_nonneg _))
      constructor
      · rw [Reaches, hlow, Nat.cast_zero]
        exact hnonneg.lt_or_eq.imp_right fun heq => ⟨rfl, heq⟩
      · intro _
        rw [Stays, hup, Nat.cast_one]
        exact hle.lt_or_eq.imp_right fun heq => ⟨rfl, heq⟩
    rw [h.unique hzero]
    rfl

theorem Rounds.nearest (h : m.Rounds (v * unitsPerOne)) : m.Nearest v := by
  have hpos := cast_unitsPerOne_pos
  refine ⟨h.isInfinite_iff, ?_, ?_⟩
  · intro hfin n _
    apply le_of_mul_le_mul_right _ hpos
    rw [abs_sub_value, abs_sub_value]
    by_cases hne : n = m
    · rw [hne]
    · rcases h.closer hfin hne with hlt | ⟨_, hle⟩
      · exact hlt.le
      · exact hle
  · intro hfin n _ hne htie
    have htie := congrArg (· * (unitsPerOne : ℚ)) htie
    simp only [abs_sub_value] at htie
    rcases h.closer hfin hne with hlt | ⟨heven, _⟩
    · exact absurd htie hlt.ne
    · exact heven

end

end Magnitude

namespace Decimal

def fractionValue : Text → ℚ
  | [] => 0
  | c :: rest => (digitValue c + fractionValue rest) / 10

theorem fractionValue_eq (ds : Text) : fractionValue ds = ofDigits ds / 10 ^ ds.length := by
  induction ds with
  | nil => simp [fractionValue, ofDigits]
  | cons c rest ih =>
    have hfirst : ofDigits (c :: rest) = digitValue c * 10 ^ rest.length + ofDigits rest := by
      rw [ofDigits, List.foldl_cons, foldl_digits, Nat.mul_zero, Nat.zero_add]
    rw [fractionValue, ih, hfirst, List.length_cons, pow_succ]
    push_cast
    field_simp

theorem value_nonneg (d : Decimal) : 0 ≤ d.value :=
  mul_nonneg (Nat.cast_nonneg _) (zpow_nonneg (by norm_num) _)

end Decimal

namespace DecimalLiteral

/-- What a literal denotes, its digits read one by one. -/
def rational (d : DecimalLiteral) : ℚ :=
  (if d.negative then -1 else 1) *
    ((Decimal.ofDigits d.whole + Decimal.fractionValue (d.fraction.getD [])) *
      10 ^ exponentValue d.exponent)

theorem value_decimal (d : DecimalLiteral) : d.decimal.value =
    (Decimal.ofDigits d.whole + Decimal.fractionValue (d.fraction.getD [])) *
      10 ^ exponentValue d.exponent := by
  rw [decimal_eq, Decimal.value, Decimal.ofDigits_append, Decimal.fractionValue_eq,
    zpow_sub₀ (by norm_num), zpow_natCast]
  push_cast
  field_simp

theorem abs_rational (d : DecimalLiteral) : |d.rational| = d.decimal.value := by
  rw [rational, ← value_decimal, abs_mul, abs_of_nonneg d.decimal.value_nonneg]
  cases d.negative <;> simp

end DecimalLiteral

theorem Magnitude.ofDecimal_congr {a b : Decimal} (h : a.value = b.value) :
    ofDecimal a = ofDecimal b := by
  have hb := ofDecimal_rounds b
  rw [Decimal.units, ← h] at hb
  exact (ofDecimal_rounds a).unique hb

/-- A decimal literal of any length is read as the magnitude nearest to the rational that it denotes,
with the sign of the literal, also where that is an infinity, a subnormal or a zero. Literals of one
sign that denote the same are read alike. -/
theorem parseNumber_nearest {d : DecimalLiteral} (h : d.WellFormed) (place : Int) :
    ∃ m : Magnitude, parseNumber d.text place = .ok ⟨⟨d.negative, m⟩, .zero⟩ ∧
      m.Nearest |d.rational| ∧ (m.isZero = true ↔ |d.rational| ≤ 1 / 2 ^ 1075) ∧
      ∀ e : DecimalLiteral, e.WellFormed → e.negative = d.negative → e.rational = d.rational →
        ∀ other, parseNumber e.text other = parseNumber d.text place := by
  have hread := @parseNumber_text (.decimal d) h
  have hrounds := Magnitude.ofDecimal_rounds d.decimal
  rw [Decimal.units] at hrounds
  refine ⟨.ofDecimal d.decimal, hread place, ?_, ?_, ?_⟩
  · rw [d.abs_rational]
    exact hrounds.nearest
  · rw [d.abs_rational]
    exact hrounds.isZero_iff d.decimal.value_nonneg
  · intro e he hsign hrational other
    have hvalue : e.decimal.value = d.decimal.value := by
      rw [← e.abs_rational, ← d.abs_rational, hrational]
    have hsame : e.value = d.value := by
      rw [DecimalLiteral.value, DecimalLiteral.value, hsign, Magnitude.ofDecimal_congr hvalue]
    calc parseNumber e.text other = .ok (.ofReal e.value) := @parseNumber_text (.decimal e) he other
      _ = .ok (.ofReal d.value) := by rw [hsame]
      _ = parseNumber d.text place := (hread place).symm

theorem parseNumber_nearest_tie :
    let d : DecimalLiteral := ⟨true, "9007199254740993".toList, none, none⟩
    let e : DecimalLiteral := ⟨true, "090071992547409930".toList, some [], some (true, ['0', '1'])⟩
    d.WellFormed ∧ e.WellFormed ∧ e.rational = d.rational ∧
      (∃ m : Magnitude, parseNumber d.text 0 = .ok ⟨⟨true, m⟩, .zero⟩ ∧ m.Nearest |d.rational|) ∧
      parseNumber d.text 0 = parseNumber "_9007199254740992".toList 0 ∧
      parseNumber e.text 3 = parseNumber d.text 0 := by
  intro d e
  have hd : d.WellFormed := ⟨by decide, by decide, nofun, nofun⟩
  have he : e.WellFormed := by
    refine ⟨by decide, by decide, ?_, ?_⟩
    · rintro _ ⟨⟩
      exact nofun
    · rintro _ _ ⟨⟩
      exact ⟨by decide, by decide⟩
  have hrational : e.rational = d.rational := by
    have hwhole : Decimal.ofDigits d.whole = 9007199254740993 := by decide
    have hshifted : Decimal.ofDigits e.whole = 10 * 9007199254740993 := by decide
    have hexponent : DecimalLiteral.exponentValue e.exponent = -1 := by decide
    rw [DecimalLiteral.rational, DecimalLiteral.rational, hwhole, hshifted, hexponent]
    norm_num [d, e, Decimal.fractionValue, DecimalLiteral.exponentValue]
  obtain ⟨m, hread, hnearest, _, hsame⟩ := parseNumber_nearest hd 0
  exact ⟨hd, he, hrational, ⟨m, hread, hnearest⟩, by decide +kernel, hsame e he rfl hrational 3⟩

end JCalc
