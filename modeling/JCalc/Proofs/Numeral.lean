import JCalc.Proofs.LiteralText
import JCalc.Proofs.ShortestDecimal

/-! The text of a number as a literal. Whichever way its shortest decimal is laid out,
the literal stands for the same rational, so that it is read as the number itself, but
for the sign of a zero, which is not written. -/

namespace JCalc

namespace DecimalLiteral

def exponentValue : Option (Bool × Text) → Int
  | none => 0
  | some (negative, digits) => if negative then -(Decimal.ofDigits digits : Int) else Decimal.ofDigits digits

theorem decimal_eq (d : DecimalLiteral) :
    d.decimal = ⟨Decimal.ofDigits (d.whole ++ d.fraction.getD []),
      exponentValue d.exponent - (d.fraction.getD []).length⟩ := by
  obtain ⟨negative, whole, fraction, exponent⟩ := d
  rcases exponent with _ | ⟨_ | _, digits⟩ <;> rfl

end DecimalLiteral

namespace Decimal

theorem foldl_digits (n : Nat) (ds : Text) :
    ds.foldl (fun n c => 10 * n + digitValue c) n = n * 10 ^ ds.length + ofDigits ds := by
  induction ds generalizing n with
  | nil => simp [ofDigits]
  | cons c ds ih =>
    rw [ofDigits, List.foldl_cons, List.foldl_cons, ih, ih (10 * 0 + digitValue c)]
    simp only [List.length_cons, Nat.pow_succ]
    ring

theorem ofDigits_append (ds es : Text) :
    ofDigits (ds ++ es) = ofDigits ds * 10 ^ es.length + ofDigits es := by
  rw [ofDigits, List.foldl_append, foldl_digits]
  rfl

theorem ofDigits_zeros (k : Nat) : ofDigits (List.replicate k '0') = 0 := by
  induction k with
  | zero => rfl
  | succ k ih =>
    rw [List.replicate_succ', ofDigits_concat, ih]
    rfl

theorem allDigits_digits (n : Nat) : AllDigits (digits n) := fun _ => isDigit_of_mem_digits

theorem allDigits_zeros (k : Nat) : AllDigits (List.replicate k '0') := by
  intro c hc
  rw [List.eq_of_mem_replicate hc]
  decide

theorem value_normal (d : Decimal) : d.normal.value = d.value := by
  fun_induction normal d with
  | case1 d h ih =>
    rw [ih, value, value, zpow_add₀ (by norm_num), zpow_one]
    have hc : (d.coefficient : ℚ) = 10 * (d.coefficient / 10 : ℕ) := by
      exact_mod_cast (by omega : d.coefficient = 10 * (d.coefficient / 10))
    rw [hc]
    push_cast
    ring
  | case2 d h => rfl

/-- The literal that is laid out as `plain` does. -/
def plainLiteral (negative : Bool) (d : Decimal) : DecimalLiteral :=
  let ds := digits d.coefficient
  if 0 ≤ d.exponent then ⟨negative, ds ++ List.replicate d.exponent.toNat '0', none, none⟩
  else if 0 ≤ d.leading then
    let whole := d.leading.toNat + 1
    ⟨negative, ds.take whole, some (ds.drop whole), none⟩
  else ⟨negative, ['0'], some (List.replicate (-d.leading - 1).toNat '0' ++ ds), none⟩

def scientificLiteral (negative : Bool) (d : Decimal) : DecimalLiteral :=
  let ds := digits d.coefficient
  let fraction := ds.drop 1
  ⟨negative, ds.take 1, if fraction.isEmpty then none else some fraction,
    some (d.leading < 0, digits d.leading.natAbs)⟩

def literal (negative : Bool) (d : Decimal) : DecimalLiteral :=
  if -4 ≤ d.normal.leading ∧ d.normal.leading ≤ 15 then d.normal.plainLiteral negative
  else d.normal.scientificLiteral negative

theorem eq_of_fields {a b : Decimal} (hc : a.coefficient = b.coefficient)
    (he : a.exponent = b.exponent) : a = b := by
  cases a
  cases b
  simp_all

section

variable (negative : Bool) (d : Decimal)

theorem text_plainLiteral : (d.plainLiteral negative).text = minusText negative ++ d.plain := by
  unfold plainLiteral plain
  split_ifs <;> simp [DecimalLiteral.text]

theorem text_scientificLiteral :
    (d.scientificLiteral negative).text = minusText negative ++ d.scientific literalStyle.mark := by
  have hmark : literalStyle.mark d.leading =
      'e' :: (minusText (d.leading < 0) ++ digits d.leading.natAbs) := by
    by_cases h : d.leading < 0 <;> simp [literalStyle, integerText, minusText, h]
  simp only [scientificLiteral, scientific, hmark]
  split_ifs <;> simp [DecimalLiteral.text]

theorem text_literal : (d.literal negative).text = minusText negative ++ d.write literalStyle.mark := by
  simp only [literal, write]
  split_ifs
  · exact text_plainLiteral negative d.normal
  · exact text_scientificLiteral negative d.normal

theorem take_ne_nil {n k : Nat} (hk : 0 < k) : (digits n).take k ≠ [] := by
  obtain ⟨c, rest, hc⟩ := List.exists_cons_of_ne_nil (digits_ne_nil n)
  obtain ⟨j, rfl⟩ : ∃ j, k = j + 1 := ⟨k - 1, by omega⟩
  simp [hc]

theorem wellFormed_plainLiteral : (d.plainLiteral negative).WellFormed := by
  have hds := allDigits_digits d.coefficient
  unfold plainLiteral
  split_ifs with hexp hlead
  · refine ⟨by simp [digits_ne_nil], ?_, nofun, nofun⟩
    intro c hc
    rcases List.mem_append.mp hc with hc | hc
    · exact hds c hc
    · exact allDigits_zeros _ c hc
  · refine ⟨take_ne_nil (by omega), fun c hc => hds c (List.mem_of_mem_take hc), ?_, nofun⟩
    rintro digits ⟨⟩ c hc
    exact hds c (List.mem_of_mem_drop hc)
  · refine ⟨by simp, by simp [AllDigits, isDigit], ?_, nofun⟩
    rintro digits ⟨⟩ c hc
    rcases List.mem_append.mp hc with hc | hc
    · exact allDigits_zeros _ c hc
    · exact hds c hc

theorem wellFormed_scientificLiteral : (d.scientificLiteral negative).WellFormed := by
  have hds := allDigits_digits d.coefficient
  refine ⟨take_ne_nil (by omega), fun c hc => hds c (List.mem_of_mem_take hc), ?_, ?_⟩
  · intro digits hdigits c hc
    simp only [scientificLiteral] at hdigits
    split_ifs at hdigits
    cases hdigits
    exact hds c (List.mem_of_mem_drop hc)
  · rintro n digits ⟨⟩
    exact ⟨digits_ne_nil _, allDigits_digits _⟩

theorem wellFormed_literal : (d.literal negative).WellFormed := by
  unfold literal
  split_ifs
  · exact wellFormed_plainLiteral negative d.normal
  · exact wellFormed_scientificLiteral negative d.normal

theorem decimal_plainLiteral (h : d.exponent < 0) : (d.plainLiteral negative).decimal = d := by
  have hlen : d.leading = d.exponent + (digits d.coefficient).length - 1 := rfl
  simp only [plainLiteral]
  rw [if_neg (by omega), DecimalLiteral.decimal_eq]
  split_ifs with hlead
  · refine eq_of_fields ?_ ?_
    · simp only [Option.getD_some, List.take_append_drop, ofDigits_digits]
    · simp only [DecimalLiteral.exponentValue, Option.getD_some, List.length_drop]
      omega
  · refine eq_of_fields ?_ ?_
    · simp only [Option.getD_some, ofDigits_append, ofDigits_zeros, ofDigits_digits]
      simp [ofDigits, digitValue]
    · simp only [DecimalLiteral.exponentValue, Option.getD_some, List.length_append,
        List.length_replicate]
      omega

theorem value_plainLiteral : (d.plainLiteral negative).decimal.value = d.value := by
  by_cases h : 0 ≤ d.exponent
  · obtain ⟨n, hn⟩ := Int.eq_ofNat_of_zero_le h
    simp [plainLiteral, DecimalLiteral.decimal, value, ofDigits_append, ofDigits_zeros,
      ofDigits_digits, hn]
  · rw [decimal_plainLiteral negative d (by omega)]

theorem exponentValue_scientificLiteral :
    DecimalLiteral.exponentValue (d.scientificLiteral negative).exponent = d.leading := by
  by_cases h : d.leading < 0
  · simp only [scientificLiteral, DecimalLiteral.exponentValue, h, decide_true, if_true,
      ofDigits_digits]
    omega
  · simp only [scientificLiteral, DecimalLiteral.exponentValue, h, decide_false,
      Bool.false_eq_true, if_false, ofDigits_digits]
    omega

theorem decimal_scientificLiteral : (d.scientificLiteral negative).decimal = d := by
  have hlen : d.leading = d.exponent + (digits d.coefficient).length - 1 := rfl
  have hpos : 0 < (digits d.coefficient).length := List.length_pos_of_ne_nil (digits_ne_nil _)
  have hfraction : (d.scientificLiteral negative).fraction.getD [] = (digits d.coefficient).drop 1 := by
    simp only [scientificLiteral]
    split_ifs with h
    · exact (List.isEmpty_iff.mp h).symm
    · rfl
  rw [DecimalLiteral.decimal_eq, hfraction, exponentValue_scientificLiteral]
  refine eq_of_fields ?_ ?_
  · simp only [scientificLiteral, List.take_append_drop, ofDigits_digits]
  · simp only [List.length_drop]
    omega

theorem negative_literal : (d.literal negative).negative = negative := by
  unfold literal plainLiteral scientificLiteral
  split_ifs <;> rfl

theorem value_literal : (d.literal negative).decimal.value = d.value := by
  unfold literal
  split_ifs
  · rw [value_plainLiteral, value_normal]
  · rw [decimal_scientificLiteral, value_normal]

end

end Decimal

namespace Extended

/-- The literal that a real number is written as. -/
def literal (x : Extended) : Literal :=
  if x.isInfinite then .infinity x.negative
  else if x.isZero then .decimal ⟨false, ['0'], none, none⟩
  else .decimal (x.magnitude.shortest.literal x.negative)

/-- The same number, the positive zero standing for both. -/
def unsignZero (x : Extended) : Extended := if x.isZero then zero else x

theorem wellFormed_literal (x : Extended) : x.literal.WellFormed := by
  unfold literal
  split_ifs
  · trivial
  · exact ⟨by simp, by simp [AllDigits, isDigit], nofun, nofun⟩
  · exact Decimal.wellFormed_literal _ _

theorem isZero_of_isInfinite {x : Extended} (h : x.isInfinite = true) : x.isZero = false := by
  simp only [isInfinite, Magnitude.isInfinite, beq_iff_eq] at h
  simp [isZero, Magnitude.isZero, h, topCode]

theorem eq_infinity_of_isInfinite {x : Extended} (h : x.isInfinite = true) :
    x.magnitude = .infinity := by
  obtain ⟨negative, ⟨code, hcode⟩⟩ := x
  simp only [isInfinite, Magnitude.isInfinite, beq_iff_eq] at h
  subst h
  rfl

theorem value_literal (x : Extended) : x.literal.value = .ofReal x.unsignZero := by
  unfold literal unsignZero
  split_ifs with hinf hzero hzero
  · simp [isZero_of_isInfinite hinf] at hzero
  · rw [Literal.value, ← eq_infinity_of_isInfinite hinf]
  · rfl
  · rw [Literal.value, DecimalLiteral.value, Decimal.negative_literal,
      Magnitude.ofDecimal_eq_of_value (Decimal.value_literal _ _)]

end Extended

theorem Number.realText_eq (x : Extended) : realText x = x.literal.text := by
  unfold realText NumeralStyle.magnitude Extended.literal
  by_cases hinf : x.magnitude.isInfinite = true
  · have hzero : x.isZero = false := Extended.isZero_of_isInfinite hinf
    cases hn : x.negative <;>
      simp [hinf, hzero, Extended.isInfinite, Literal.text, literalStyle]
  · by_cases hzero : x.magnitude.isZero = true
    · simp [hinf, hzero, Extended.isInfinite, Extended.isZero, Literal.text, DecimalLiteral.text,
        minusText]
    · cases hn : x.negative <;>
        simp [hinf, hzero, Extended.isInfinite, Extended.isZero, Literal.text, Decimal.text_literal,
          minusText, literalStyle]

end JCalc
