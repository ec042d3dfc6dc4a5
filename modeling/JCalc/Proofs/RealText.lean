import JCalc.Proofs.CanonicalForm
import JCalc.Proofs.Equality
import JCalc.Proofs.NounText
import JCalc.Proofs.UnitInterval

/-! The text of a real number. It is the canonical form of the shortest decimal that reads back as
the number, however that decimal is given, and it tells numbers apart, but for the sign of a zero. -/

namespace JCalc

namespace Extended

variable {x y : Extended}

theorem value_eq_iff_unsignZero : x.value = y.value ↔ x.unsignZero = y.unsignZero := by
  rw [← rank_eq_iff, eq_iff_le_not_lt, eq_iff_le_not_lt, ← not_lt, ← not_lt, rank_lt_iff, rank_lt_iff]

theorem literal_eq_iff : x.literal = y.literal ↔ x.unsignZero = y.unsignZero := by
  constructor
  · intro h
    have hvalue := y.value_literal
    rw [← h, x.value_literal] at hvalue
    exact congrArg Number.re hvalue
  · intro h
    rw [← apply_unsignZero literal rfl x, h, apply_unsignZero literal rfl y]

theorem literal_of_nonzero (hfin : x.isInfinite = false) (h0 : x.isZero = false) :
    x.literal = .decimal (x.magnitude.shortest.literal x.negative) := by
  rw [literal, if_neg (by simp [hfin]), if_neg (by simp [h0])]

end Extended

theorem Literal.text_injective {k l : Literal} (hk : k.WellFormed) (hl : l.WellFormed)
    (h : k.text = l.text) : k = l := by
  have hread := ofText?_text hk
  rw [h, ofText?_text hl] at hread
  exact (Option.some.inj hread).symm

theorem text_eq_text_iff {x y : Number} (hx : x.isReal = true) (hy : y.isReal = true) :
    x.text = y.text ↔ x.re.value = y.re.value := by
  rw [text_eq_of_isReal hx, text_eq_of_isReal hy, Extended.value_eq_iff_unsignZero,
    ← Extended.literal_eq_iff]
  constructor
  · exact Literal.text_injective x.re.wellFormed_literal y.re.wellFormed_literal
  · exact congrArg Literal.text

/-- A finite real number that is no zero is written as the canonical literal of the shortest decimal
that reads back as it. Whatever literal this decimal is given as, the text stands for the same
rational and is how the decimal is written; and it is the only canonical literal that does so. Two
finite real numbers are written alike just when they are the same. -/
theorem text_of_real {x : Number} (hreal : x.isReal = true) (hfin : x.re.isInfinite = false) :
    (x.re.isZero = false → ∃ d : DecimalLiteral,
      x.text = d.text ∧ x.text ∈ Grammar.literal ∧ d.Canonical ∧
      d.negative = x.re.negative ∧ x.re.magnitude.IsShortest d.decimal ∧
      (∀ r : DecimalLiteral, r.negative = x.re.negative → x.re.magnitude.IsShortest r.decimal →
        d.rational = r.rational ∧
          x.text = minusText r.negative ++ r.decimal.write literalStyle.mark) ∧
      ∀ e : DecimalLiteral, e.Canonical → e.rational = d.rational → e = d) ∧
    ∀ y : Number, y.isReal = true → y.re.isInfinite = false →
      (x.text = y.text ↔ x.re.value = y.re.value) := by
  refine ⟨fun h0 => ?_, fun y hy _ => text_eq_text_iff hreal hy⟩
  have hpos := x.re.magnitude.shortest_rounds.coefficient_pos h0
  have htext : x.text = (x.re.magnitude.shortest.literal x.re.negative).text := by
    rw [text_eq_of_isReal hreal, Extended.literal_of_nonzero hfin h0]
    rfl
  have hnegative := Decimal.negative_literal x.re.negative x.re.magnitude.shortest
  have hvalue := Decimal.value_literal x.re.negative x.re.magnitude.shortest
  have hcanonical : (x.re.magnitude.shortest.literal x.re.negative).Canonical :=
    Decimal.canonical_literal hpos
  refine ⟨_, htext, ?_, hcanonical, hnegative, (Magnitude.isShortest_iff h0 hfin).mpr hvalue, ?_,
    fun e he => he.unique hcanonical⟩
  · rw [htext]
    exact Grammar.mem_literal.mpr ⟨.decimal _, hcanonical.wellFormed, rfl⟩
  · intro r hr hshortest
    have hsame := (Magnitude.isShortest_iff h0 hfin).mp hshortest
    constructor
    · rw [DecimalLiteral.rational_eq, DecimalLiteral.rational_eq, hnegative, hr, hvalue, hsame]
    · rw [htext, hr, ← Decimal.literal_congr hsame hpos, Decimal.text_literal]

theorem text_of_real_minusHundred :
    let x : Number := ⟨⟨true, .ofNat 100⟩, ⟨true, .zero⟩⟩
    let y : Number := .ofReal ⟨true, .ofNat 100⟩
    let r : DecimalLiteral := ⟨true, "100".toList, some ['0'], none⟩
    x.isReal = true ∧ x.re.isInfinite = false ∧ x.re.isZero = false ∧
      x.re.magnitude.IsShortest r.decimal ∧ x.text = "_100".toList ∧
      (∃ d : DecimalLiteral, x.text = d.text ∧ d.Canonical ∧ d.rational = r.rational) ∧
      y.isReal = true ∧ y.re.isInfinite = false ∧ x.text = y.text := by
  intro x y r
  have hreal : x.isReal = true := rfl
  have hfin : x.re.isInfinite = false := by decide +kernel
  have h0 : x.re.isZero = false := by decide +kernel
  have hdecimal : r.decimal = ⟨1000, -1⟩ := by decide +kernel
  have hdigits : x.re.magnitude.shortest = ⟨1, 2⟩ := by decide +kernel
  have hshortest : x.re.magnitude.IsShortest r.decimal := by
    rw [Magnitude.isShortest_iff h0 hfin, hdecimal, hdigits, Decimal.value, Decimal.value]
    norm_num
  obtain ⟨htext, hsame⟩ := text_of_real hreal hfin
  obtain ⟨d, hd, -, hcanonical, -, -, hrational, -⟩ := htext h0
  have hwritten := (hrational r rfl hshortest).2
  rw [hdecimal] at hwritten
  exact ⟨hreal, hfin, h0, hshortest, hwritten.trans (by decide +kernel),
    ⟨d, hd, hcanonical, (hrational r rfl hshortest).1⟩, rfl, hfin, (hsame y rfl hfin).mpr rfl⟩

end JCalc
