import JCalc.Proofs.FewestDigits
import JCalc.Proofs.LiteralGrammar

/-! The canonical form of a rational that is no zero: plain when its leading digit is not far from
the point and with an exponent otherwise, and in either case without a digit that could be left out.
A rational has one canonical form at most, and the literal of a decimal is in it. -/

namespace JCalc

namespace DecimalLiteral

/-- The exponent of the leading digit of what the literal denotes. -/
def leading (d : DecimalLiteral) : Int := Int.log 10 |d.rational|

/-- No leading zero but a single one before the point, no zero at the end of a fraction, and no
point without a fraction; with an exponent, one digit before the point. -/
structure Canonical (d : DecimalLiteral) : Prop where
  wellFormed : d.WellFormed
  ne_zero : d.rational ≠ 0
  whole : d.whole.head? = some '0' → d.whole = ['0']
  fraction : ∀ digits, d.fraction = some digits → digits ≠ [] ∧ digits.getLast? ≠ some '0'
  plain : d.exponent = none ↔ -4 ≤ d.leading ∧ d.leading ≤ 15
  scientific : ∀ negative digits, d.exponent = some (negative, digits) →
    (∃ first, first ≠ '0' ∧ d.whole = [first]) ∧ digits.head? ≠ some '0' ∧
      exponentValue d.exponent = d.leading

end DecimalLiteral

namespace Decimal

section

variable {ds es : Text} {c : Char}

theorem digitValue_pos (hc : isDigit c = true) (h0 : c ≠ '0') : 0 < digitValue c := by
  rw [Nat.pos_iff_ne_zero]
  intro hzero
  have hchar := digitChar_digitValue hc
  rw [hzero] at hchar
  exact h0 (by rw [← hchar]; rfl)

theorem eq_of_digitValue {d : Char} (hc : isDigit c = true) (hd : isDigit d = true)
    (h : digitValue c = digitValue d) : c = d := by
  rw [← digitChar_digitValue hc, h, digitChar_digitValue hd]

theorem fractionValue_mem (hd : AllDigits ds) : 0 ≤ fractionValue ds ∧ fractionValue ds < 1 := by
  induction ds with
  | nil => exact ⟨le_rfl, one_pos⟩
  | cons c ds ih =>
    obtain ⟨hc, hd⟩ := List.forall_mem_cons.mp hd
    obtain ⟨hlow, hup⟩ := ih hd
    have hc : (digitValue c : ℚ) ≤ 9 := by exact_mod_cast Nat.le_of_lt_succ (digitValue_lt hc)
    have hc' : (0 : ℚ) ≤ digitValue c := Nat.cast_nonneg _
    rw [fractionValue]
    constructor
    · linarith
    · linarith

theorem fractionValue_pos (hd : AllDigits ds) (hn : ds ≠ []) (hl : ds.getLast? ≠ some '0') :
    0 < fractionValue ds := by
  induction ds with
  | nil => exact absurd rfl hn
  | cons c ds ih =>
    obtain ⟨hc, hd⟩ := List.forall_mem_cons.mp hd
    rw [fractionValue]
    by_cases hnil : ds = []
    · subst hnil
      have hpos := digitValue_pos hc (by simpa using hl)
      have hpos : (0 : ℚ) < digitValue c := by exact_mod_cast hpos
      rw [fractionValue]
      linarith
    · have hpos := ih hd hnil (by rwa [List.getLast?_cons_of_ne_nil hnil] at hl)
      have hc : (0 : ℚ) ≤ digitValue c := Nat.cast_nonneg _
      linarith

theorem eq_of_add_eq {a b : Nat} {f g : ℚ} (hf : 0 ≤ f ∧ f < 1) (hg : 0 ≤ g ∧ g < 1)
    (h : a + f = b + g) : a = b ∧ f = g := by
  have hle {m n : Nat} (hmn : (m : ℚ) < n + 1) : m ≤ n := by
    exact_mod_cast Nat.le_of_lt_succ (by exact_mod_cast hmn)
  obtain rfl : a = b := Nat.le_antisymm (hle (by linarith)) (hle (by linarith))
  exact ⟨rfl, by linarith⟩

theorem fractionValue_injective (hd : AllDigits ds) (he : AllDigits es)
    (hdl : ds.getLast? ≠ some '0') (hel : es.getLast? ≠ some '0')
    (h : fractionValue ds = fractionValue es) : ds = es := by
  induction ds generalizing es with
  | nil =>
    by_contra hne
    have hpos := fractionValue_pos he (Ne.symm hne) hel
    rw [← h] at hpos
    exact lt_irrefl _ hpos
  | cons c ds ih =>
    cases es with
    | nil =>
      have hpos := fractionValue_pos hd (by simp) hdl
      rw [h] at hpos
      exact absurd hpos (lt_irrefl _)
    | cons c' es =>
      have hlast {b : Char} {bs : Text} (h : (b :: bs).getLast? ≠ some '0') :
          bs.getLast? ≠ some '0' := by
        by_cases hnil : bs = []
        · simp [hnil]
        · rwa [List.getLast?_cons_of_ne_nil hnil] at h
      obtain ⟨hc, hd⟩ := List.forall_mem_cons.mp hd
      obtain ⟨hc', he⟩ := List.forall_mem_cons.mp he
      rw [fractionValue, fractionValue, div_left_inj' (by norm_num)] at h
      obtain ⟨hvalue, hrest⟩ := eq_of_add_eq (fractionValue_mem hd) (fractionValue_mem he) h
      rw [eq_of_digitValue hc hc' hvalue, ih hd he (hlast hdl) (hlast hel) hrest]

/-- Digits with no leading zero, or one zero alone, are known from their number. -/
theorem eq_of_ofDigits (hd : AllDigits ds) (he : AllDigits es) (hdn : ds ≠ []) (hen : es ≠ [])
    (hd0 : ds.head? = some '0' → ds = ['0']) (he0 : es.head? = some '0' → es = ['0'])
    (h : ofDigits ds = ofDigits es) : ds = es := by
  have hzero : ofDigits ['0'] = 0 := rfl
  by_cases hdh : ds.head? = some '0' <;> by_cases heh : es.head? = some '0'
  · rw [hd0 hdh, he0 heh]
  · have hpos := (digits_ofDigits he hen heh).2
    rw [← h, hd0 hdh] at hpos
    omega
  · have hpos := (digits_ofDigits hd hdn hdh).2
    rw [h, he0 heh] at hpos
    omega
  · rw [← (digits_ofDigits hd hdn hdh).1, h, (digits_ofDigits he hen heh).1]

end

end Decimal

namespace DecimalLiteral

section

variable {d e : DecimalLiteral}

theorem rational_eq (d : DecimalLiteral) :
    d.rational = (if d.negative then -1 else 1) * d.decimal.value := by
  rw [rational, value_decimal]

theorem rational_neg_iff (h : d.rational ≠ 0) : d.rational < 0 ↔ d.negative = true := by
  have hnonneg := d.decimal.value_nonneg
  rw [rational_eq] at h ⊢
  cases hn : d.negative with
  | true =>
    simp only [hn, if_true] at h ⊢
    refine iff_of_true (lt_of_le_of_ne ?_ h) trivial
    linarith
  | false => simpa using hnonneg

theorem exponentValue_injective {n k : Bool} {ds es : Text} (hd : AllDigits ds) (he : AllDigits es)
    (hdn : ds ≠ []) (hen : es ≠ []) (hd0 : ds.head? ≠ some '0') (he0 : es.head? ≠ some '0')
    (h : exponentValue (some (n, ds)) = exponentValue (some (k, es))) : n = k ∧ ds = es := by
  obtain ⟨hdigits, hpos⟩ := Decimal.digits_ofDigits hd hdn hd0
  obtain ⟨hdigits', hpos'⟩ := Decimal.digits_ofDigits he hen he0
  have hsame (hv : Decimal.ofDigits ds = Decimal.ofDigits es) : ds = es := by
    rw [← hdigits, hv, hdigits']
  simp only [exponentValue] at h
  cases n <;> cases k <;> simp only [Bool.false_eq_true, if_true, if_false] at h
  · exact ⟨rfl, hsame (by omega)⟩
  · omega
  · omega
  · exact ⟨rfl, hsame (by omega)⟩

theorem Canonical.exponent_eq (hd : d.Canonical) (he : e.Canonical) (h : d.leading = e.leading) :
    d.exponent = e.exponent := by
  cases hx : d.exponent with
  | none =>
    have hrange := hd.plain.mp hx
    rw [h] at hrange
    exact (he.plain.mpr hrange).symm
  | some x =>
    obtain ⟨n, ds⟩ := x
    cases hy : e.exponent with
    | none =>
      have hrange := he.plain.mp hy
      rw [← h] at hrange
      rw [hd.plain.mpr hrange] at hx
      cases hx
    | some y =>
      obtain ⟨k, es⟩ := y
      obtain ⟨_, hd0, hdv⟩ := hd.scientific n ds hx
      obtain ⟨_, he0, hev⟩ := he.scientific k es hy
      obtain ⟨hdn, hdd⟩ := hd.wellFormed.exponent n ds hx
      obtain ⟨hen, hed⟩ := he.wellFormed.exponent k es hy
      rw [hx] at hdv
      rw [hy] at hev
      obtain ⟨rfl, rfl⟩ := exponentValue_injective hdd hed hdn hen hd0 he0 (by rw [hdv, hev, h])
      rfl

theorem allDigits_fraction (h : d.WellFormed) : AllDigits (d.fraction.getD []) := by
  cases hf : d.fraction with
  | none => exact fun _ hc => absurd hc (by simp)
  | some digits => exact h.fraction digits hf

theorem Canonical.getLast?_fraction (h : d.Canonical) :
    (d.fraction.getD []).getLast? ≠ some '0' := by
  cases hf : d.fraction with
  | none => simp
  | some digits => exact (h.fraction digits hf).2

theorem Canonical.fraction_eq (hd : d.Canonical) (he : e.Canonical)
    (h : d.fraction.getD [] = e.fraction.getD []) : d.fraction = e.fraction := by
  cases hx : d.fraction with
  | none =>
    cases hy : e.fraction with
    | none => rfl
    | some digits =>
      rw [hx, hy] at h
      exact absurd h.symm (he.fraction digits hy).1
  | some digits =>
    cases hy : e.fraction with
    | none =>
      rw [hx, hy] at h
      exact absurd h (hd.fraction digits hx).1
    | some digits' =>
      rw [hx, hy] at h
      exact congrArg some h

/-- A rational has one canonical form at most. -/
theorem Canonical.unique (hd : d.Canonical) (he : e.Canonical) (h : d.rational = e.rational) :
    d = e := by
  have hnegative : d.negative = e.negative := by
    rw [Bool.eq_iff_iff, ← rational_neg_iff hd.ne_zero, ← rational_neg_iff he.ne_zero, h]
  have hexponent : d.exponent = e.exponent := hd.exponent_eq he (by rw [leading, h, leading])
  have hvalue : d.decimal.value = e.decimal.value := by rw [← abs_rational, ← abs_rational, h]
  rw [value_decimal, value_decimal, hexponent, mul_left_inj' (zpow_ne_zero _ (by norm_num))] at hvalue
  have hdf := allDigits_fraction hd.wellFormed
  have hef := allDigits_fraction he.wellFormed
  obtain ⟨hw, hf⟩ :=
    Decimal.eq_of_add_eq (Decimal.fractionValue_mem hdf) (Decimal.fractionValue_mem hef) hvalue
  have hwhole := Decimal.eq_of_ofDigits hd.wellFormed.whole he.wellFormed.whole
    hd.wellFormed.whole_ne_nil he.wellFormed.whole_ne_nil hd.whole he.whole hw
  have hfraction := hd.fraction_eq he
    (Decimal.fractionValue_injective hdf hef hd.getLast?_fraction he.getLast?_fraction hf)
  cases d
  cases e
  simp_all

end

end DecimalLiteral

namespace Decimal

section

variable {d : Decimal} {negative : Bool}

theorem leading_of_value {l : DecimalLiteral} (h : 0 < d.coefficient)
    (hv : l.decimal.value = d.value) : l.rational ≠ 0 ∧ l.leading = d.leading := by
  have hpos := value_pos_iff.mpr h
  obtain ⟨hlow, hup⟩ := value_bounds h
  rw [← hv, ← l.abs_rational] at hpos hlow hup
  refine ⟨abs_pos.mp hpos, le_antisymm ?_ ?_⟩
  · exact Int.lt_add_one_iff.mp ((Int.lt_zpow_iff_log_lt (by decide) hpos).mp hup)
  · exact (Int.zpow_le_iff_le_log (by decide) hpos).mp hlow

theorem whole_plainLiteral (hpos : 0 < d.coefficient)
    (h : (d.plainLiteral negative).whole.head? = some '0') :
    (d.plainLiteral negative).whole = ['0'] := by
  have hhead := head?_digits hpos
  unfold plainLiteral at h ⊢
  split_ifs at h ⊢ with hexp hlead
  · rw [List.head?_append_of_ne_nil _ (digits_ne_nil _)] at h
    exact absurd h hhead
  · rw [List.head?_take, if_neg (by omega)] at h
    exact absurd h hhead
  · rfl

theorem fraction_plainLiteral (hmod : d.coefficient % 10 ≠ 0) {ds : Text}
    (h : (d.plainLiteral negative).fraction = some ds) : ds ≠ [] ∧ ds.getLast? ≠ some '0' := by
  have hlast := getLast?_digits hmod
  have hlen : d.leading = d.exponent + (digits d.coefficient).length - 1 := rfl
  unfold plainLiteral at h
  split_ifs at h with hexp hlead
  · cases h
    rw [List.getLast?_drop, if_neg (by omega)]
    refine ⟨?_, hlast⟩
    rw [ne_eq, List.drop_eq_nil_iff]
    omega
  · cases h
    rw [List.getLast?_append_of_ne_nil _ (digits_ne_nil _)]
    exact ⟨by simp [digits_ne_nil], hlast⟩

theorem canonical_plainLiteral (hmod : d.coefficient % 10 ≠ 0)
    (hlead : -4 ≤ d.leading ∧ d.leading ≤ 15) : (d.plainLiteral negative).Canonical := by
  have hpos : 0 < d.coefficient := by omega
  obtain ⟨hne, hleading⟩ := leading_of_value hpos (value_plainLiteral negative d)
  have hexponent : (d.plainLiteral negative).exponent = none := by
    unfold plainLiteral
    split_ifs <;> rfl
  refine ⟨wellFormed_plainLiteral negative d, hne, whole_plainLiteral hpos,
    fun _ => fraction_plainLiteral hmod, ?_, ?_⟩
  · rw [hleading]
    exact iff_of_true hexponent hlead
  · intro _ _ h
    rw [hexponent] at h
    cases h

theorem canonical_scientificLiteral (hmod : d.coefficient % 10 ≠ 0)
    (hlead : ¬(-4 ≤ d.leading ∧ d.leading ≤ 15)) : (d.scientificLiteral negative).Canonical := by
  have hpos : 0 < d.coefficient := by omega
  have hvalue : (d.scientificLiteral negative).decimal.value = d.value := by
    rw [decimal_scientificLiteral]
  obtain ⟨hne, hleading⟩ := leading_of_value hpos hvalue
  have hhead := head?_digits hpos
  have hlast := getLast?_digits hmod
  obtain ⟨first, rest, hdigits⟩ := List.exists_cons_of_ne_nil (digits_ne_nil d.coefficient)
  have hfirst : first ≠ '0' := by simpa [hdigits] using hhead
  have hwhole : (d.scientificLiteral negative).whole = [first] := by simp [scientificLiteral, hdigits]
  refine ⟨wellFormed_scientificLiteral negative d, hne, ?_, ?_, ?_, ?_⟩
  · rw [hwhole]
    intro h
    exact absurd (by simpa using h) hfirst
  · intro ds h
    simp only [scientificLiteral, hdigits, List.drop_one, List.tail_cons] at h
    split_ifs at h with hrest
    cases h
    rw [List.isEmpty_iff] at hrest
    rw [hdigits, List.getLast?_cons_of_ne_nil hrest] at hlast
    exact ⟨hrest, hlast⟩
  · rw [hleading]
    exact iff_of_false (by simp [scientificLiteral]) hlead
  · rintro n ds h
    rw [exponentValue_scientificLiteral, hleading]
    cases h
    exact ⟨⟨first, hfirst, hwhole⟩, head?_digits (by omega), rfl⟩

/-- The literal that a positive decimal is written as is canonical. -/
theorem canonical_literal (h : 0 < d.coefficient) : (d.literal negative).Canonical := by
  have hmod := normal_coefficient h
  unfold literal
  split_ifs with hlead
  · exact canonical_plainLiteral hmod hlead
  · exact canonical_scientificLiteral hmod hlead

end

end Decimal

end JCalc
