import JCalc.Proofs.FewDigits
import JCalc.Proofs.NormalForm
import JCalc.Proofs.ReadBack

/-! Canonical numerals, the decimals of few digits in their one way of being written, and
their evaluation: they are printed as they were put in. The shortest decimal of what such a
decimal rounds to is that decimal, and its digits are laid out as they were written. -/

namespace JCalc

/-- At most fifteen digits, none of which only holds a place. -/
structure Significant (ds : Text) : Prop where
  allDigits : AllDigits ds
  ne_nil : ds ≠ []
  length_le : ds.length ≤ 15
  first : ds.head? ≠ some '0'
  last : ds.getLast? ≠ some '0'

/-- Plain notation from one ten-thousandth up to sixteen digits before the point, and
otherwise one digit before the point and an exponent. -/
inductive CanonicalDecimal : Text → Prop where
  | whole {ds : Text} {zeros : Nat} (h : Significant ds) (hz : ds.length + zeros ≤ 16) :
      CanonicalDecimal (ds ++ List.replicate zeros '0')
  | pointed {whole fraction : Text} (h : Significant (whole ++ fraction)) (hw : whole ≠ [])
      (hf : fraction ≠ []) : CanonicalDecimal (whole ++ '.' :: fraction)
  | small {ds : Text} {zeros : Nat} (h : Significant ds) (hz : zeros ≤ 3) :
      CanonicalDecimal ('0' :: '.' :: (List.replicate zeros '0' ++ ds))
  | scientific {first : Char} {ds exponent : Text} {negative : Bool}
      (h : Significant (first :: ds)) (hd : AllDigits exponent) (hn : exponent ≠ [])
      (h0 : exponent.head? ≠ some '0') (hlow : (if negative then 4 else 15) < Decimal.ofDigits exponent)
      (hup : Decimal.ofDigits exponent ≤ 307) :
      CanonicalDecimal (first :: ((if ds = [] then [] else '.' :: ds) ++
        'e' :: (minusText negative ++ exponent)))

inductive CanonicalNumeral : Text → Prop where
  | zero : CanonicalNumeral ['0']
  | infinity : CanonicalNumeral ['_']
  | minusInfinity : CanonicalNumeral ['_', '_']
  | decimal {t : Text} (negative : Bool) (h : CanonicalDecimal t) :
      CanonicalNumeral (minusText negative ++ t)

/-- A decimal of at most fifteen digits in the range where all magnitudes are normal. -/
structure Decimal.FewDigits (d : Decimal) : Prop where
  pos : 0 < d.coefficient
  lt : d.coefficient < 10 ^ 15
  le_leading : -307 ≤ d.leading
  leading_le : d.leading ≤ 307

section

variable {d : Decimal}

theorem Decimal.FewDigits.leading_bounds (h : d.FewDigits) :
    d.exponent ≤ d.leading ∧ d.leading < d.exponent + 15 := by
  have hpos : 0 < (digits d.coefficient).length := List.length_pos_of_ne_nil (digits_ne_nil _)
  have hlen : (digits d.coefficient).length - 1 < 15 :=
    (Nat.pow_lt_pow_iff_right (by decide)).mp ((tenPow_digits_le h.pos).trans_lt h.lt)
  rw [leading]
  omega

theorem Decimal.FewDigits.normal (h : d.FewDigits) : binade ≤ (Magnitude.ofDecimal d).code := by
  refine (Magnitude.ofDecimal_rounds d).normal (le_trans ?_ (value_bounds h.pos).1)
  rw [tenPow_eq, Nat.cast_pow, Nat.cast_ofNat, ← zpow_natCast, ← zpow_neg]
  exact zpow_le_zpow_right₀ (by norm_num) h.le_leading

theorem Decimal.FewDigits.isZero (h : d.FewDigits) : (Magnitude.ofDecimal d).isZero = false := by
  have hnormal := h.normal
  have hpos : 0 < binade := by decide
  simp only [Magnitude.isZero, beq_eq_false_iff_ne]
  omega

theorem Decimal.FewDigits.finite (h : d.FewDigits) : (Magnitude.ofDecimal d).isInfinite = false := by
  refine (Magnitude.ofDecimal_rounds d).finite (le_trans (value_bounds h.pos).2.le ?_)
  rw [tenPow_eq, Nat.cast_pow, Nat.cast_ofNat, ← zpow_natCast]
  refine zpow_le_zpow_right₀ (by norm_num) ?_
  have := h.leading_le
  push_cast
  omega

/-- A decimal of few digits is the shortest one of what it rounds to. -/
theorem Decimal.FewDigits.value_shortest (h : d.FewDigits) :
    (Magnitude.ofDecimal d).shortest.value = d.value := by
  have hrounds := Magnitude.ofDecimal_rounds d
  obtain ⟨hlow, hup⟩ := value_bounds h.pos
  have hleading := h.leading_le
  have hfine := Magnitude.le_coarsestGrid hrounds h.isZero h.finite hlow
  have hcoarse := Magnitude.coarsestGrid_lt (by omega) hrounds h.isZero h.finite hup
  obtain ⟨hexp, hexp'⟩ := h.leading_bounds
  obtain ⟨grid, hgrid, hshortest⟩ := Magnitude.shortest_of_onGrid?
    (Magnitude.isSome_onGrid? h.finite hrounds) (by omega) (by omega)
  obtain ⟨hon, -⟩ := Magnitude.holds_of_onGrid? hshortest
  obtain ⟨k, hk⟩ : ∃ k : Nat, grid = k + d.exponent := ⟨(grid - d.exponent).toNat, by omega⟩
  -- the shortest decimal on the grid of the other one
  have hvalue : (Magnitude.ofDecimal d).shortest.value =
      (Decimal.mk ((Magnitude.ofDecimal d).shortest.coefficient * 10 ^ k) d.exponent).value := by
    rw [value, value, hon, hk, zpow_add₀ (by norm_num), zpow_natCast]
    push_cast
    ring
  have hrounds' := (Magnitude.ofDecimal d).shortest_rounds
  rw [units, hvalue, ← units] at hrounds'
  rw [hvalue, ← Magnitude.coefficient_unique h.normal h.finite h.lt hrounds hrounds']

theorem Extended.literal_ofDecimal (h : d.FewDigits) (negative : Bool) :
    (Extended.mk negative (.ofDecimal d)).literal = .decimal (d.literal negative) := by
  rw [literal, if_neg, if_neg, Decimal.literal_congr h.value_shortest h.pos]
  · simp [isZero, h.isZero]
  · simp [isInfinite, h.finite]

end

section

variable {ds : Text} {e : Int}

theorem Significant.digits_ofDigits (h : Significant ds) : Decimal.digits (Decimal.ofDigits ds) = ds :=
  (Decimal.digits_ofDigits h.allDigits h.ne_nil h.first).1

theorem Significant.mod_ten (h : Significant ds) : Decimal.ofDigits ds % 10 ≠ 0 := by
  obtain ⟨es, c, rfl⟩ := (List.eq_nil_or_concat' ds).resolve_left h.ne_nil
  have hc : isDigit c = true := h.allDigits c (by simp)
  have hlt := Decimal.digitValue_lt hc
  rw [Decimal.ofDigits_concat]
  intro h0
  have hzero : Decimal.digitValue c = 0 := by omega
  have hlast := Decimal.digitChar_digitValue hc
  rw [hzero] at hlast
  exact h.last (by simp [← hlast, Decimal.digitChar])

theorem Significant.leading_mk (h : Significant ds) :
    (Decimal.mk (Decimal.ofDigits ds) e).leading = e + ds.length - 1 := by
  rw [Decimal.leading, h.digits_ofDigits]

theorem Significant.fewDigits (h : Significant ds) (hlow : -307 ≤ e + ds.length - 1)
    (hup : e + ds.length - 1 ≤ 307) : (Decimal.mk (Decimal.ofDigits ds) e).FewDigits := by
  have hpos := (Decimal.digits_ofDigits h.allDigits h.ne_nil h.first).2
  have hlt := Decimal.lt_tenPow_digits (Decimal.ofDigits ds)
  rw [h.digits_ofDigits] at hlt
  refine ⟨hpos, hlt.trans_le (Nat.pow_le_pow_right (by decide) h.length_le), ?_, ?_⟩
  · rwa [h.leading_mk]
  · rwa [h.leading_mk]

theorem Significant.write_mk (h : Significant ds) (mark : Int → Text) :
    (Decimal.mk (Decimal.ofDigits ds) e).write mark =
      if -4 ≤ e + ds.length - 1 ∧ e + ds.length - 1 ≤ 15 then
        (Decimal.mk (Decimal.ofDigits ds) e).plain
      else (Decimal.mk (Decimal.ofDigits ds) e).scientific mark := by
  simp only [Decimal.write, Decimal.normal_eq_self (d := ⟨Decimal.ofDigits ds, e⟩) h.mod_ten,
    h.leading_mk]

theorem Significant.plain_mk (h : Significant ds) :
    (Decimal.mk (Decimal.ofDigits ds) e).plain =
      if 0 ≤ e then ds ++ List.replicate e.toNat '0'
      else if 0 ≤ e + ds.length - 1 then
        ds.take ((e + ds.length - 1).toNat + 1) ++ '.' :: ds.drop ((e + ds.length - 1).toNat + 1)
      else '0' :: '.' :: (List.replicate (-(e + ds.length - 1) - 1).toNat '0' ++ ds) := by
  simp only [Decimal.plain, h.leading_mk, h.digits_ofDigits]

theorem Significant.scientific_mk (h : Significant ds) (mark : Int → Text) :
    (Decimal.mk (Decimal.ofDigits ds) e).scientific mark =
      ds.take 1 ++ (if (ds.drop 1).isEmpty then [] else '.' :: ds.drop 1) ++
        mark (e + ds.length - 1) := by
  simp only [Decimal.scientific, h.leading_mk, h.digits_ofDigits]

/-- Canonical text is how a decimal of few digits is written. -/
theorem CanonicalDecimal.exists_decimal {t : Text} (h : CanonicalDecimal t) :
    ∃ d : Decimal, d.FewDigits ∧ d.write literalStyle.mark = t := by
  cases h with
  | @whole ds zeros h hz =>
    have hpos : 0 < ds.length := List.length_pos_of_ne_nil h.ne_nil
    refine ⟨⟨Decimal.ofDigits ds, zeros⟩, h.fewDigits (by omega) (by omega), ?_⟩
    rw [h.write_mk, if_pos (by omega), h.plain_mk, if_pos (by omega), Int.toNat_natCast]
  | @pointed whole fraction h hw hf =>
    have hlen : whole.length + fraction.length ≤ 15 := by simpa using h.length_le
    have hpos : 0 < whole.length := List.length_pos_of_ne_nil hw
    have hpos' : 0 < fraction.length := List.length_pos_of_ne_nil hf
    have hlead : -(fraction.length : Int) + (whole ++ fraction).length - 1 = whole.length - 1 := by
      rw [List.length_append]
      omega
    refine ⟨⟨Decimal.ofDigits (whole ++ fraction), -fraction.length⟩,
      h.fewDigits (by omega) (by omega), ?_⟩
    rw [h.write_mk, if_pos (by omega), h.plain_mk, if_neg (by omega), hlead, if_pos (by omega),
      show ((whole.length : Int) - 1).toNat + 1 = whole.length by omega]
    simp
  | @small ds zeros h hz =>
    have hpos : 0 < ds.length := List.length_pos_of_ne_nil h.ne_nil
    have hlead : -((zeros + ds.length : ℕ) : Int) + ds.length - 1 = -zeros - 1 := by omega
    refine ⟨⟨Decimal.ofDigits ds, -((zeros + ds.length : ℕ) : Int)⟩,
      h.fewDigits (by omega) (by omega), ?_⟩
    rw [h.write_mk, if_pos (by omega), h.plain_mk, if_neg (by omega), hlead, if_neg (by omega),
      show (-(-(zeros : Int) - 1) - 1).toNat = zeros by omega]
  | @scientific first ds exponent negative h hd hn h0 hlow hup =>
    obtain ⟨hexponent, -⟩ := Decimal.digits_ofDigits hd hn h0
    have hlen : (first :: ds).length = ds.length + 1 := List.length_cons
    generalize Decimal.ofDigits exponent = n at *
    obtain ⟨lead, hlead, hmark⟩ : ∃ lead : Int, (lead < -4 ∧ -307 ≤ lead ∨ 15 < lead ∧ lead ≤ 307) ∧
        integerText '_' lead = minusText negative ++ exponent := by
      cases negative with
      | true =>
        refine ⟨-n, by simp at hlow; omega, ?_⟩
        simp at hlow
        rw [integerText, if_pos (by omega), Int.natAbs_neg, Int.natAbs_natCast, hexponent]
        rfl
      | false =>
        refine ⟨n, by simp at hlow; omega, ?_⟩
        rw [integerText, if_neg (by omega), Int.natAbs_natCast, hexponent]
        rfl
    refine ⟨⟨Decimal.ofDigits (first :: ds), lead - ds.length⟩,
      h.fewDigits (by omega) (by omega), ?_⟩
    rw [h.write_mk, if_neg (by omega), h.scientific_mk,
      show lead - ds.length + (first :: ds).length - 1 = lead by omega]
    simp [literalStyle, hmark]

theorem CanonicalNumeral.exists_extended {t : Text} (h : CanonicalNumeral t) :
    ∃ x : Extended, x.literal.text = t ∧ x.unsignZero = x := by
  cases h with
  | zero => exact ⟨.zero, rfl, rfl⟩
  | infinity => exact ⟨.infinity, rfl, rfl⟩
  | minusInfinity => exact ⟨⟨true, .infinity⟩, rfl, rfl⟩
  | decimal negative h =>
    obtain ⟨d, hd, rfl⟩ := h.exists_decimal
    refine ⟨⟨negative, .ofDecimal d⟩, ?_, ?_⟩
    · rw [Extended.literal_ofDecimal hd, Literal.text, Decimal.text_literal]
    · rw [Extended.unsignZero, if_neg]
      simp [Extended.isZero, hd.isZero]

end

/-- One scalar alone is an atom. -/
def Noun.ofScalars : List Scalar → Noun
  | [x] => .atom x
  | xs => .list xs

theorem Noun.elements_ofScalars (xs : List Scalar) : (Noun.ofScalars xs).elements = xs := by
  rcases xs with _ | ⟨x, _ | ⟨y, xs⟩⟩ <;> rfl

theorem Noun.map_ofScalars (f : Scalar → Scalar) (xs : List Scalar) :
    (Noun.ofScalars xs).map f = .ofScalars (xs.map f) := by
  rcases xs with _ | ⟨x, _ | ⟨y, xs⟩⟩ <;> rfl

theorem Noun.length_of_ofScalars {xs es : List Scalar} (hn : xs ≠ [])
    (h : Noun.ofScalars xs = .list es) : 2 ≤ es.length ∧ es.length = xs.length := by
  rcases xs with _ | ⟨x, _ | ⟨y, xs⟩⟩
  · exact absurd rfl hn
  · cases h
  · cases h
    exact ⟨by simp, rfl⟩

theorem exists_numbers_of_canonical {ts : List Text} (h : ∀ t ∈ ts, CanonicalNumeral t) :
    ∃ xs : List Number, (xs.map fun x => x.re.literal).map Literal.text = ts ∧
      (∀ x ∈ xs, x.isReal = true) ∧ ∀ x ∈ xs, x.toScalar.readBack = x.toScalar := by
  induction ts with
  | nil => exact ⟨[], rfl, nofun, nofun⟩
  | cons t ts ih =>
    obtain ⟨xs, rfl, hreal, hback⟩ := ih fun u hu => h u (by simp [hu])
    obtain ⟨x, ht, hx⟩ := (h t (by simp)).exists_extended
    refine ⟨.ofReal x :: xs, by simp [← ht, Number.ofReal], ?_, ?_⟩
    · exact List.forall_mem_cons.mpr ⟨rfl, hreal⟩
    · refine List.forall_mem_cons.mpr ⟨?_, hback⟩
      simp [Number.ofReal, Number.toScalar, Scalar.readBack, hx, Scalar.ofReal, Binary64.zero]

/-- Canonical numerals with single blanks between them are printed as they were put in. -/
theorem text_of_canonical (s : Session) (hd : 0 ≤ s.limits.depth) {ts : List Text} (hne : ts ≠ [])
    (hlen : (ts.length : Int) ≤ s.maxSize) (h : ∀ t ∈ ts, CanonicalNumeral t) :
    ∃ n, s.evaluateLine (spaced ts) = .ok (some n) ∧ n.text none = .ok (spaced ts) := by
  obtain ⟨xs, rfl, hreal, hback⟩ := exists_numbers_of_canonical h
  obtain ⟨tokens, htokens, hreads⟩ := tokensFrom_spaced s.maxSize (wellFormed_literals xs) 0
  have helements := Noun.elements_ofScalars (xs.map Number.toScalar)
  have hnoun : (Noun.ofScalars (xs.map Number.toScalar)).map Scalar.readBack =
      Noun.ofScalars (xs.map Number.toScalar) := by
    rw [Noun.map_ofScalars, List.map_map]
    exact congrArg Noun.ofScalars (List.map_congr_left hback)
  refine ⟨.ofScalars (xs.map Number.toScalar), ?_, text_of_realNumbers helements hreal none⟩
  refine evaluateLine_of_reads htokens hreads hd ?_
  rw [sentence?_readBack helements ?_, hnoun]
  · rfl
  · intro es hes
    obtain ⟨htwo, hcount⟩ := Noun.length_of_ofScalars (by simpa using hne) hes
    exact ⟨htwo, by simpa [hcount] using hlen⟩

theorem text_of_canonical_extremes :
    let ts := ["_9.5e300".toList, "0.00025".toList, "0".toList, "1000".toList, "__".toList]
    ∃ n, Session.evaluateLine {} (spaced ts) = .ok (some n) ∧ n.text none = .ok (spaced ts) := by
  intro ts
  refine text_of_canonical {} (by decide) (by simp [ts]) (by decide) fun t ht => ?_
  have hlarge : Significant ['9', '5'] :=
    ⟨by simp [AllDigits, isDigit], by simp, by simp, by simp, by simp⟩
  have hsmall : Significant ['2', '5'] :=
    ⟨by simp [AllDigits, isDigit], by simp, by simp, by simp, by simp⟩
  have hone : Significant ['1'] :=
    ⟨by simp [AllDigits, isDigit], by simp, by simp, by simp, by simp⟩
  have hexponent : AllDigits ['3', '0', '0'] := by simp [AllDigits, isDigit]
  have hscientific := @CanonicalDecimal.scientific '9' ['5'] ['3', '0', '0'] false hlarge hexponent
    (by simp) (by simp) (by decide) (by decide)
  simp only [ts, List.mem_cons, List.not_mem_nil, or_false] at ht
  rcases ht with rfl | rfl | rfl | rfl | rfl
  · exact .decimal true hscientific
  · exact .decimal false (@CanonicalDecimal.small ['2', '5'] 3 hsmall (by decide))
  · exact .zero
  · exact .decimal false (@CanonicalDecimal.whole ['1'] 3 hone (by decide))
  · exact .minusInfinity

end JCalc
