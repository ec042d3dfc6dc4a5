import JCalc.Token
import Mathlib.Data.List.TakeWhile

/-! Literals and their texts. A literal that is well formed is read back from its text;
the text consists of characters of numbers and begins like a number. -/

namespace JCalc

section

variable {p : Char → Bool} {t rest : Text}

theorem takeWhile_append_of_stop (ht : ∀ c ∈ t, p c = true) (hr : ∀ c ∈ rest.head?, p c = false) :
    (t ++ rest).takeWhile p = t := by
  rw [List.takeWhile_append_of_pos ht]
  cases rest with
  | nil => simp
  | cons c rest => simp [hr c rfl]

theorem dropWhile_append_of_stop (ht : ∀ c ∈ t, p c = true) (hr : ∀ c ∈ rest.head?, p c = false) :
    (t ++ rest).dropWhile p = rest := by
  rw [List.dropWhile_append_of_pos ht]
  cases rest with
  | nil => simp
  | cons c rest => simp [hr c rfl]

end

def AllDigits (t : Text) : Prop := ∀ c ∈ t, isDigit c = true

instance (t : Text) : Decidable (AllDigits t) := decidable_of_iff (t.all isDigit = true) List.all_eq_true

namespace DecimalLiteral

def fractionText : Option Text → Text
  | none => []
  | some digits => '.' :: digits

def exponentText : Option (Bool × Text) → Text
  | none => []
  | some (negative, digits) => 'e' :: (minusText negative ++ digits)

theorem text_eq (d : DecimalLiteral) :
    d.text = minusText d.negative ++ (d.whole ++ (fractionText d.fraction ++ exponentText d.exponent)) := by
  obtain ⟨negative, whole, fraction, exponent⟩ := d
  rcases fraction with _ | f <;> rcases exponent with _ | ⟨n, e⟩ <;>
    simp [text, fractionText, exponentText]

/-- Digits where digits belong, and some before the point and after the mark of the exponent. -/
structure WellFormed (d : DecimalLiteral) : Prop where
  whole_ne_nil : d.whole ≠ []
  whole : AllDigits d.whole
  fraction : ∀ digits, d.fraction = some digits → AllDigits digits
  exponent : ∀ negative digits, d.exponent = some (negative, digits) →
    digits ≠ [] ∧ AllDigits digits

end DecimalLiteral

def Literal.WellFormed : Literal → Prop
  | infinity _ => True
  | decimal d => d.WellFormed

theorem head_digit {t : Text} (hn : t ≠ []) (ht : AllDigits t) :
    ∃ c rest, t = c :: rest ∧ isDigit c = true := by
  obtain ⟨c, rest, rfl⟩ := List.exists_cons_of_ne_nil hn
  exact ⟨c, rest, rfl, ht c (by simp)⟩

theorem takeMinus_minusText {negative : Bool} {t : Text} (h : t.head? ≠ some '_') :
    takeMinus (minusText negative ++ t) = (negative, t) := by
  cases negative with
  | true => rfl
  | false =>
    rcases t with _ | ⟨c, t⟩
    · rfl
    · simp only [minusText, Bool.false_eq_true, if_false, List.nil_append, takeMinus]
      split
      · rename_i hc
        simp_all
      · rfl

theorem minusText_takeMinus (t : Text) : minusText (takeMinus t).1 ++ (takeMinus t).2 = t := by
  unfold takeMinus
  split <;> rfl

theorem allDigits_takeWhile (t : Text) : AllDigits (t.takeWhile isDigit) :=
  fun _ hc => List.mem_takeWhile_imp hc

theorem head?_ne_of_allDigits {t : Text} (hn : t ≠ []) (ht : AllDigits t) (rest : Text) :
    (t ++ rest).head? ≠ some '_' := by
  obtain ⟨c, t', rfl, hc⟩ := head_digit hn ht
  rintro hh
  obtain rfl : c = '_' := by simpa using hh
  exact absurd hc (by decide)

namespace DecimalLiteral

theorem isClosing_iff {t : Text} : isClosing t = true ↔ t = [] ∨ t = ['\n'] := by
  rw [isClosing, Bool.or_eq_true, List.isEmpty_iff, beq_iff_eq]

section

variable {closing : Text}

theorem isDigit_head?_exponentText (hc : isClosing closing = true) {e : Option (Bool × Text)} :
    ∀ c ∈ (exponentText e ++ closing).head?, isDigit c = false := by
  rcases e with _ | ⟨n, digits⟩
  · rcases isClosing_iff.mp hc with rfl | rfl
    · simp [exponentText]
    · intro c hc
      obtain rfl : '\n' = c := by simpa [exponentText] using hc
      decide
  · intro c hc
    obtain rfl : 'e' = c := by simpa [exponentText] using hc
    decide

theorem isDigit_head?_fractionText (hc : isClosing closing = true) {f : Option Text}
    {e : Option (Bool × Text)} :
    ∀ c ∈ (fractionText f ++ (exponentText e ++ closing)).head?, isDigit c = false := by
  rcases f with _ | digits
  · simpa [fractionText] using isDigit_head?_exponentText hc
  · intro c hc
    obtain rfl : '.' = c := by simpa [fractionText] using hc
    decide

theorem takeFraction_fractionText (hc : isClosing closing = true) {f : Option Text}
    (e : Option (Bool × Text)) (h : ∀ digits, f = some digits → AllDigits digits) :
    takeFraction (fractionText f ++ (exponentText e ++ closing)) = (f, exponentText e ++ closing) := by
  rcases f with _ | digits
  · rcases e with _ | ⟨n, ds⟩
    · rcases isClosing_iff.mp hc with rfl | rfl <;> rfl
    · rfl
  · simp only [fractionText, List.cons_append, takeFraction]
    rw [takeWhile_append_of_stop (h digits rfl) (isDigit_head?_exponentText hc),
      dropWhile_append_of_stop (h digits rfl) (isDigit_head?_exponentText hc)]

theorem takeExponent?_exponentText (hc : isClosing closing = true) {e : Option (Bool × Text)}
    (h : ∀ negative digits, e = some (negative, digits) → digits ≠ [] ∧ AllDigits digits) :
    takeExponent? (exponentText e ++ closing) = some (e, closing) := by
  rcases e with _ | ⟨negative, digits⟩
  · rcases isClosing_iff.mp hc with rfl | rfl <;> rfl
  · obtain ⟨hn, hd⟩ := h negative digits rfl
    have hstop : ∀ c ∈ closing.head?, isDigit c = false := isDigit_head?_exponentText hc (e := none)
    simp only [exponentText, List.cons_append, List.append_assoc, takeExponent?]
    rw [takeMinus_minusText (head?_ne_of_allDigits hn hd closing)]
    simp only
    rw [takeWhile_append_of_stop hd hstop, dropWhile_append_of_stop hd hstop,
      if_neg (by simpa using hn)]

theorem ofText?_append {d : DecimalLiteral} (h : d.WellFormed) (hc : isClosing closing = true) :
    ofText? (d.text ++ closing) = some d := by
  have hminus := head?_ne_of_allDigits h.whole_ne_nil h.whole
  have hstop := isDigit_head?_fractionText hc (f := d.fraction) (e := d.exponent)
  rw [text_eq]
  simp only [List.append_assoc]
  rw [ofText?, takeMinus_minusText (hminus _)]
  simp only
  rw [takeWhile_append_of_stop h.whole hstop, dropWhile_append_of_stop h.whole hstop,
    takeFraction_fractionText hc d.exponent h.fraction]
  simp [takeExponent?_exponentText hc h.exponent, h.whole_ne_nil, hc]

end

theorem ofText?_text {d : DecimalLiteral} (h : d.WellFormed) : ofText? d.text = some d := by
  have hempty : isClosing [] = true := rfl
  have happend := ofText?_append h hempty
  rwa [List.append_nil] at happend

theorem fractionText_takeFraction (t : Text) :
    fractionText (takeFraction t).1 ++ (takeFraction t).2 = t ∧
      ∀ digits, (takeFraction t).1 = some digits → AllDigits digits := by
  unfold takeFraction
  split
  · rename_i rest
    refine ⟨by simp [fractionText], ?_⟩
    rintro _ ⟨⟩
    exact allDigits_takeWhile rest
  · exact ⟨rfl, nofun⟩

theorem exponentText_takeExponent? {t rest : Text} {e : Option (Bool × Text)}
    (h : takeExponent? t = some (e, rest)) :
    exponentText e ++ rest = t ∧
      ∀ negative digits, e = some (negative, digits) → digits ≠ [] ∧ AllDigits digits := by
  unfold takeExponent? at h
  split at h
  · rename_i tail
    have hminus := minusText_takeMinus tail
    rcases hm : takeMinus tail with ⟨negative, more⟩
    rw [hm] at hminus h
    simp only at h hminus
    split at h
    · cases h
    · rename_i hn
      cases h
      refine ⟨by simp [exponentText, hminus], ?_⟩
      rintro _ _ ⟨⟩
      exact ⟨by simpa using hn, allDigits_takeWhile more⟩
  · cases h
    exact ⟨rfl, nofun⟩

/-- A text that is read as a decimal is the text of the decimal, or that and a line feed. -/
theorem text_of_ofText? {t : Text} {d : DecimalLiteral} (h : ofText? t = some d) :
    d.WellFormed ∧ (t = d.text ∨ t = d.text ++ ['\n']) := by
  have hminus := minusText_takeMinus t
  unfold ofText? at h
  rcases hm : takeMinus t with ⟨negative, rest⟩
  rw [hm] at hminus h
  simp only at h hminus
  split at h
  · cases h
  · rename_i hwhole
    obtain ⟨hfraction, hdigits⟩ := fractionText_takeFraction (rest.dropWhile isDigit)
    rcases hf : takeFraction (rest.dropWhile isDigit) with ⟨fraction, more⟩
    rw [hf] at hfraction hdigits h
    simp only at h hfraction hdigits
    cases he : takeExponent? more with
    | none => simp [he] at h
    | some r =>
      obtain ⟨exponent, closing⟩ := r
      obtain ⟨hexponent, hwell⟩ := exponentText_takeExponent? he
      simp only [he] at h
      split at h
      · rename_i hclosing
        cases h
        refine ⟨⟨by simpa using hwhole, allDigits_takeWhile rest, hdigits, hwell⟩, ?_⟩
        have ht : t = text ⟨negative, rest.takeWhile isDigit, fraction, exponent⟩ ++ closing := by
          calc t = minusText negative ++ rest := hminus.symm
            _ = minusText negative ++ (rest.takeWhile isDigit ++ rest.dropWhile isDigit) := by
              rw [List.takeWhile_append_dropWhile]
            _ = _ := by
              rw [← hfraction, ← hexponent, text_eq]
              simp only [List.append_assoc]
        rcases isClosing_iff.mp hclosing with rfl | rfl
        · left
          rwa [List.append_nil] at ht
        · exact .inr ht
      · cases h

end DecimalLiteral

/-- The characters that texts of numbers consist of. -/
def isNumeralChar (c : Char) : Bool := c == '_' || c == '.' || c == 'e' || isDigit c

theorem isNumeralChar_of_isDigit {c : Char} (h : isDigit c = true) : isNumeralChar c = true := by
  simp [isNumeralChar, h]

theorem isNumberPart_of_isNumeralChar {c : Char} (h : isNumeralChar c = true) :
    isNumberPart c = true := by
  simp only [isNumeralChar, Bool.or_eq_true, beq_iff_eq] at h
  rcases h with ((rfl | rfl) | rfl) | h
  · decide
  · decide
  · decide
  · simp [isNumberPart, h]

theorem isNumeralChar_minusText {negative : Bool} {c : Char} (h : c ∈ minusText negative) :
    isNumeralChar c = true := by
  cases negative with
  | true =>
    obtain rfl := List.mem_singleton.mp h
    decide
  | false => cases h

theorem DecimalLiteral.WellFormed.isNumeralChar {d : DecimalLiteral} (h : d.WellFormed) :
    ∀ c ∈ d.text, isNumeralChar c = true := by
  intro c hc
  rw [text_eq] at hc
  simp only [List.mem_append] at hc
  rcases hc with hc | hc | hc | hc
  · exact isNumeralChar_minusText hc
  · exact isNumeralChar_of_isDigit (h.whole c hc)
  · cases hf : d.fraction with
    | none => simp [hf, fractionText] at hc
    | some digits =>
      rw [hf] at hc
      rcases List.mem_cons.mp hc with rfl | hc
      · decide
      · exact isNumeralChar_of_isDigit (h.fraction digits hf c hc)
  · cases he : d.exponent with
    | none => simp [he, exponentText] at hc
    | some e =>
      obtain ⟨negative, digits⟩ := e
      rw [he] at hc
      rcases List.mem_cons.mp hc with rfl | hc
      · decide
      · rcases List.mem_append.mp hc with hc | hc
        · exact isNumeralChar_minusText hc
        · exact isNumeralChar_of_isDigit ((h.exponent negative digits he).2 c hc)

namespace Literal

theorem WellFormed.isNumeralChar {l : Literal} (h : l.WellFormed) :
    ∀ c ∈ l.text, isNumeralChar c = true := by
  cases l with
  | infinity negative => cases negative <;> simp [text, JCalc.isNumeralChar]
  | decimal d => exact DecimalLiteral.WellFormed.isNumeralChar h

theorem WellFormed.text_eq_cons {l : Literal} (h : l.WellFormed) :
    ∃ c rest, l.text = c :: rest ∧ isNumberStart c = true := by
  cases l with
  | infinity negative => cases negative <;> exact ⟨_, _, rfl, by decide⟩
  | decimal d =>
    obtain ⟨c, rest, hw, hc⟩ := head_digit h.whole_ne_nil h.whole
    rw [text, d.text_eq, hw]
    cases d.negative with
    | true => exact ⟨_, _, rfl, by decide⟩
    | false => exact ⟨_, _, rfl, by simp [isNumberStart, hc]⟩

theorem ofText?_text {l : Literal} (h : l.WellFormed) : ofText? l.text = some l := by
  cases l with
  | infinity negative => cases negative <;> rfl
  | decimal d =>
    have hdigit : ∃ c ∈ d.text, isDigit c = true := by
      obtain ⟨c, rest, hw, hc⟩ := head_digit h.whole_ne_nil h.whole
      exact ⟨c, by simp [d.text_eq, hw], hc⟩
    have hone : d.text ≠ ['_'] := by
      rintro hh
      simp [hh, show isDigit '_' = false by decide] at hdigit
    have htwo : d.text ≠ ['_', '_'] := by
      rintro hh
      simp [hh, show isDigit '_' = false by decide] at hdigit
    simp [text, ofText?, hone, htwo, DecimalLiteral.ofText?_text h]

/-- A text that is read as a literal is the text of the literal, or that of a decimal and a line
feed. -/
theorem text_of_ofText? {t : Text} {l : Literal} (h : ofText? t = some l) :
    l.WellFormed ∧ (t = l.text ∨ ∃ d, l = .decimal d ∧ t = d.text ++ ['\n']) := by
  unfold ofText? at h
  split at h
  · rename_i hone
    cases h
    exact ⟨trivial, .inl (beq_iff_eq.mp hone)⟩
  · split at h
    · rename_i htwo
      cases h
      exact ⟨trivial, .inl (beq_iff_eq.mp htwo)⟩
    · obtain ⟨d, hd, rfl⟩ := Option.map_eq_some_iff.mp h
      obtain ⟨hwell, ht⟩ := DecimalLiteral.text_of_ofText? hd
      exact ⟨hwell, ht.imp_right fun ht => ⟨d, rfl, ht⟩⟩

end Literal

theorem parseNumber_text {l : Literal} (h : l.WellFormed) (place : Int) :
    parseNumber l.text place = .ok l.value := by
  rw [parseNumber, Literal.ofText?_text h]

end JCalc
