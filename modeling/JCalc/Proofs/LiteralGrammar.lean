import JCalc.Proofs.LiteralText
import Mathlib.Computability.Language

/-! The grammar of literals, as a language of texts. A text is read as a number just when it is
in the language, or when one line feed after a decimal of the language is all that is too much. -/

namespace JCalc

open scoped Computability

namespace Grammar

def digit : Language Char := {t | ∃ c, isDigit c = true ∧ t = [c]}

def digits : Language Char := digit * digit∗

def minus : Language Char := 1 + {['_']}

def fraction : Language Char := {['.']} * digit∗

def exponent : Language Char := {['e']} * minus * digits

def decimal : Language Char := minus * digits * (1 + fraction) * (1 + exponent)

def literal : Language Char := {['_']} + {['_', '_']} + decimal

section

variable {t : Text}

theorem mem_singleton {u : Text} : t ∈ ({u} : Language Char) ↔ t = u := Iff.rfl

theorem mem_star_digit : t ∈ digit∗ ↔ AllDigits t := by
  constructor
  · rw [Language.mem_kstar]
    rintro ⟨words, rfl, hwords⟩ c hc
    obtain ⟨word, hword, hc⟩ := List.mem_flatten.mp hc
    obtain ⟨d, hd, rfl⟩ := hwords word hword
    rwa [List.mem_singleton.mp hc]
  · intro ht
    refine Language.mem_kstar.mpr ⟨t.map fun c => [c], by simp [← List.flatMap_def], ?_⟩
    intro word hword
    obtain ⟨c, hc, rfl⟩ := List.mem_map.mp hword
    exact ⟨c, ht c hc, rfl⟩

theorem mem_digits : t ∈ digits ↔ t ≠ [] ∧ AllDigits t := by
  rw [digits, Language.mem_mul]
  constructor
  · rintro ⟨first, ⟨c, hc, rfl⟩, rest, hrest, rfl⟩
    exact ⟨by simp, List.forall_mem_cons.mpr ⟨hc, mem_star_digit.mp hrest⟩⟩
  · rintro ⟨hn, ht⟩
    obtain ⟨c, rest, rfl, hc⟩ := head_digit hn ht
    exact ⟨[c], ⟨c, hc, rfl⟩, rest, mem_star_digit.mpr (List.forall_mem_cons.mp ht).2, rfl⟩

theorem mem_minus : t ∈ minus ↔ ∃ negative, t = minusText negative := by
  rw [minus, Language.mem_add, Language.mem_one, mem_singleton, Bool.exists_bool]
  rfl

theorem mem_optional_fraction : t ∈ 1 + fraction ↔
    ∃ f, (∀ digits, f = some digits → AllDigits digits) ∧ t = DecimalLiteral.fractionText f := by
  rw [Language.mem_add, Language.mem_one, fraction, Language.mem_mul]
  constructor
  · rintro (rfl | ⟨point, rfl, digits, hdigits, rfl⟩)
    · exact ⟨none, nofun, rfl⟩
    · exact ⟨some digits, by rintro _ ⟨⟩; exact mem_star_digit.mp hdigits, rfl⟩
  · rintro ⟨_ | digits, hdigits, rfl⟩
    · exact .inl rfl
    · exact .inr ⟨['.'], rfl, digits, mem_star_digit.mpr (hdigits digits rfl), rfl⟩

theorem mem_optional_exponent : t ∈ 1 + exponent ↔
    ∃ e, (∀ negative digits, e = some (negative, digits) → digits ≠ [] ∧ AllDigits digits) ∧
      t = DecimalLiteral.exponentText e := by
  rw [Language.mem_add, Language.mem_one, exponent, mul_assoc, Language.mem_mul]
  constructor
  · rintro (rfl | ⟨mark, rfl, rest, hrest, rfl⟩)
    · exact ⟨none, nofun, rfl⟩
    · obtain ⟨sign, hsign, digits, hdigits, rfl⟩ := Language.mem_mul.mp hrest
      obtain ⟨negative, rfl⟩ := mem_minus.mp hsign
      exact ⟨some (negative, digits), by rintro _ _ ⟨⟩; exact mem_digits.mp hdigits, rfl⟩
  · rintro ⟨_ | ⟨negative, digits⟩, hdigits, rfl⟩
    · exact .inl rfl
    · refine .inr ⟨['e'], rfl, minusText negative ++ digits, ?_, rfl⟩
      exact Language.mem_mul.mpr ⟨_, mem_minus.mpr ⟨negative, rfl⟩, digits,
        mem_digits.mpr (hdigits negative digits rfl), rfl⟩

theorem mem_decimal : t ∈ decimal ↔ ∃ d : DecimalLiteral, d.WellFormed ∧ t = d.text := by
  rw [decimal, mul_assoc, mul_assoc, Language.mem_mul]
  constructor
  · rintro ⟨sign, hsign, unsigned, hunsigned, rfl⟩
    obtain ⟨whole, hwhole, tail, htail, rfl⟩ := Language.mem_mul.mp hunsigned
    obtain ⟨fraction, hfraction, exponent, hexponent, rfl⟩ := Language.mem_mul.mp htail
    obtain ⟨negative, rfl⟩ := mem_minus.mp hsign
    obtain ⟨hn, hdigits⟩ := mem_digits.mp hwhole
    obtain ⟨f, hf, rfl⟩ := mem_optional_fraction.mp hfraction
    obtain ⟨e, he, rfl⟩ := mem_optional_exponent.mp hexponent
    exact ⟨⟨negative, whole, f, e⟩, ⟨hn, hdigits, hf, he⟩, (DecimalLiteral.text_eq ⟨negative, whole, f, e⟩).symm⟩
  · rintro ⟨d, hd, rfl⟩
    rw [d.text_eq]
    refine ⟨_, mem_minus.mpr ⟨d.negative, rfl⟩, _, ?_, rfl⟩
    refine Language.mem_mul.mpr ⟨_, mem_digits.mpr ⟨hd.whole_ne_nil, hd.whole⟩, _, ?_, rfl⟩
    exact Language.mem_mul.mpr ⟨_, mem_optional_fraction.mpr ⟨_, hd.fraction, rfl⟩, _,
      mem_optional_exponent.mpr ⟨_, hd.exponent, rfl⟩, rfl⟩

theorem mem_literal : t ∈ literal ↔ ∃ l : Literal, l.WellFormed ∧ t = l.text := by
  rw [literal, Language.mem_add, Language.mem_add, mem_singleton, mem_singleton, mem_decimal]
  constructor
  · rintro ((rfl | rfl) | ⟨d, hd, rfl⟩)
    · exact ⟨.infinity false, trivial, rfl⟩
    · exact ⟨.infinity true, trivial, rfl⟩
    · exact ⟨.decimal d, hd, rfl⟩
  · rintro ⟨(_ | _) | d, hl, rfl⟩
    · exact .inl (.inl rfl)
    · exact .inl (.inr rfl)
    · exact .inr ⟨d, hl, rfl⟩

end

end Grammar

theorem Literal.ofText?_decimal_append {d : DecimalLiteral} (h : d.WellFormed) :
    Literal.ofText? (d.text ++ ['\n']) = some (.decimal d) := by
  have hfeed (t : Text) (ht : '\n' ∉ t) : d.text ++ ['\n'] ≠ t := by
    rintro rfl
    simp at ht
  rw [ofText?, if_neg (by simpa using hfeed ['_'] (by decide)),
    if_neg (by simpa using hfeed ['_', '_'] (by decide)), DecimalLiteral.ofText?_append h rfl]
  rfl

theorem Literal.isSome_ofText?_iff {t : Text} : (ofText? t).isSome = true ↔
    t ∈ Grammar.literal ∨ ∃ u ∈ Grammar.decimal, t = u ++ ['\n'] := by
  constructor
  · intro h
    obtain ⟨l, hl⟩ := Option.isSome_iff_exists.mp h
    obtain ⟨hwell, ht | ⟨d, rfl, ht⟩⟩ := text_of_ofText? hl
    · exact .inl (Grammar.mem_literal.mpr ⟨l, hwell, ht⟩)
    · exact .inr ⟨d.text, Grammar.mem_decimal.mpr ⟨d, hwell, rfl⟩, ht⟩
  · rintro (h | ⟨u, hu, rfl⟩)
    · obtain ⟨l, hl, rfl⟩ := Grammar.mem_literal.mp h
      rw [ofText?_text hl]
      rfl
    · obtain ⟨d, hd, rfl⟩ := Grammar.mem_decimal.mp hu
      rw [ofText?_decimal_append hd]
      rfl

/-- A text is read as a number just when it is a literal, or a decimal literal and one line feed
after it, which changes nothing. Every other text is refused at the place that is given for it. -/
theorem parseNumber_accepts (t : Text) (place : Int) :
    ((∃ x, parseNumber t place = .ok x) ↔
      t ∈ Grammar.literal ∨ ∃ u ∈ Grammar.decimal, t = u ++ ['\n']) ∧
    (∀ u ∈ Grammar.decimal, t = u ++ ['\n'] → parseNumber t place = parseNumber u place) ∧
    ∀ fault, parseNumber t place = .error fault →
      fault.report = .lexical ("Ill-formed number ".toList ++ quoted t) place := by
  refine ⟨?_, ?_, ?_⟩
  · rw [← Literal.isSome_ofText?_iff, parseNumber]
    cases Literal.ofText? t with
    | none => simp
    | some l => simp
  · rintro u hu rfl
    obtain ⟨d, hd, rfl⟩ := Grammar.mem_decimal.mp hu
    have hread : Literal.ofText? d.text = some (.decimal d) := @Literal.ofText?_text (.decimal d) hd
    rw [parseNumber, parseNumber, Literal.ofText?_decimal_append hd, hread]
  · intro fault h
    rw [parseNumber] at h
    cases hl : Literal.ofText? t with
    | none =>
      rw [hl] at h
      cases h
      rfl
    | some l =>
      rw [hl] at h
      cases h

/-- The literal may end in a line feed that the grammar does not have. -/
theorem parseNumber_line_feed :
    ['1', '\n'] ∉ Grammar.literal ∧ parseNumber ['1', '\n'] 0 = parseNumber ['1'] 0 ∧
      parseNumber ['1'] 0 = .ok (.ofReal .one) := by
  refine ⟨?_, by decide +kernel, by decide +kernel⟩
  intro h
  obtain ⟨l, hl, ht⟩ := Grammar.mem_literal.mp h
  have hnumeral := hl.isNumeralChar '\n' (by simp [← ht])
  exact absurd hnumeral (by decide)

end JCalc
