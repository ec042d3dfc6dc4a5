import JCalc.Proofs.Evaluation
import JCalc.Proofs.LexedTokens
import JCalc.Proofs.NounText
import JCalc.Session

/-! A noun of real numbers is read back from its text. The numbers are cut apart at the
blanks between them, each is read as the number it was written for, and the sentence that
they make is the noun again. Only the sign of a zero is lost. -/

namespace JCalc

theorem tokensFrom_spaced (limit : Int) {ls : List Literal} (h : ∀ l ∈ ls, l.WellFormed)
    (place : Nat) : ∃ tokens, tokensFrom place (spaced (ls.map Literal.text)) = .ok tokens ∧
      Reads limit tokens 0 (ls.map fun l => .noun (.atom l.value.toScalar)) := by
  induction ls generalizing place with
  | nil => exact ⟨_, by rw [List.map_nil, spaced, tokensFrom], .finish rfl⟩
  | cons l ls ih =>
    have hl := h l (by simp)
    rcases ls with _ | ⟨m, ls⟩
    · have hcut := @tokensFrom_literal l hl [] (by simp) place
      rw [List.append_nil, tokensFrom] at hcut
      exact ⟨_, hcut, .append (.number rfl) (.finish rfl)⟩
    · obtain ⟨tokens, ht, hr⟩ := ih (fun k hk => h k (by simp [hk])) (place + l.text.length + 1)
      have hstop : ∀ c ∈ (' ' :: spaced ((m :: ls).map Literal.text)).head?, isNumberPart c = false := by
        intro c hc
        obtain rfl : ' ' = c := by simpa using hc
        decide
      have hcut := tokensFrom_literal hl hstop place
      rw [tokensFrom_blank _ (by decide), ht] at hcut
      exact ⟨_, hcut, .append (.number rfl) hr⟩

theorem strand?_atoms {limit : Int} {xs : List Scalar} (h : 2 ≤ xs.length)
    (hl : (xs.length : Int) ≤ limit) : strand? limit (xs.map .atom) = some (.list xs) := by
  have hflat : (xs.map Noun.atom).flatMap Noun.elements = xs := by
    simp [List.flatMap_map, Noun.elements]
  rw [strand?_of_two (by rwa [List.length_map]), hflat, if_pos hl]

/-- What is read for a real scalar: its real part, but no negative zero. -/
def Scalar.readBack (e : Scalar) : Scalar :=
  match e.re with
  | .nan => .ofReal .nan
  | .number x => .ofReal (.number x.unsignZero)

theorem toScalar_value_literal (x : Number) : x.re.literal.value.toScalar = x.toScalar.readBack := by
  rw [Extended.value_literal]
  rfl

theorem sentence?_readBack {limit : Int} {n : Noun} {xs : List Number}
    (h : n.elements = xs.map Number.toScalar)
    (hlen : ∀ es, n = .list es → 2 ≤ es.length ∧ (es.length : Int) ≤ limit) :
    sentence? limit ((xs.map fun x => x.re.literal).map fun l => .noun (.atom l.value.toScalar)) =
      some (some (.noun (n.map Scalar.readBack))) := by
  have hatoms : ((xs.map fun x => x.re.literal).map fun l => Fragment.noun (.atom l.value.toScalar)) =
      ((n.elements.map Scalar.readBack).map Noun.atom).map .noun := by
    rw [h]
    simp [toScalar_value_literal]
  rw [hatoms]
  cases n with
  | atom e => rfl
  | list es =>
    obtain ⟨htwo, hsize⟩ := hlen es rfl
    rw [sentence?_nouns, strand?_atoms]
    · rfl
    · simpa [Noun.elements] using htwo
    · simpa [Noun.elements] using hsize
    · simp only [ne_eq, List.map_eq_nil_iff, Noun.elements]
      rintro rfl
      simp at htwo

theorem evaluateLine_of_reads {s : Session} {line : Text} {tokens : List Token} {nesting : Nat}
    {es : List Fragment} {value : Option Noun} (ht : tokenize line = .ok tokens)
    (hr : Reads s.maxSize tokens nesting es) (hn : (nesting : Int) ≤ s.limits.depth)
    (hes : sentence? s.maxSize es = some (value.map .noun)) : s.evaluateLine line = .ok value := by
  rw [Session.evaluateLine, ht]
  exact evaluate_of_reads hr hn hes

/-- A noun of real numbers, an atom or a list of at least two, is read back from its text, the
negative zero as the positive one. -/
theorem evaluateLine_text (s : Session) (hd : 0 ≤ s.limits.depth) (n : Noun)
    (hre : ∀ e ∈ n.elements, e.re.isNaN = false)
    (him : ∀ e ∈ n.elements, ∃ negative, e.im = .number ⟨negative, .zero⟩)
    (hlen : ∀ es, n = .list es → 2 ≤ es.length ∧ (es.length : Int) ≤ s.maxSize) :
    ∃ t, n.text none = .ok t ∧ s.evaluateLine t = .ok (some (n.map Scalar.readBack)) := by
  obtain ⟨xs, hxs, hreal⟩ := exists_realNumbers hre him
  have hliterals : ∀ l ∈ xs.map fun x => x.re.literal, l.WellFormed := by
    intro l hl
    obtain ⟨x, _, rfl⟩ := List.mem_map.mp hl
    exact x.re.wellFormed_literal
  obtain ⟨tokens, htokens, hreads⟩ := tokensFrom_spaced s.maxSize hliterals 0
  refine ⟨spaced _, text_of_realNumbers hxs hreal none, ?_⟩
  have hvalue : evaluate s.limits tokens = .ok (some (n.map Scalar.readBack)) :=
    evaluate_of_reads hreads hd (sentence?_readBack hxs hlen)
  rw [Session.evaluateLine, tokenize, htokens]
  exact hvalue

theorem evaluateLine_text_of_extremes :
    let minusZero : Scalar := ⟨.number ⟨true, .zero⟩, .zero⟩
    let minusInfinity : Scalar := ⟨.number ⟨true, .infinity⟩, .number ⟨true, .zero⟩⟩
    let least : Scalar := ⟨.number ⟨false, ⟨1, by decide⟩⟩, .zero⟩
    ∃ t, (Noun.list [minusZero, minusInfinity, least]).text none = .ok t ∧
      Session.evaluateLine {} t =
        .ok (some (.list [.ofReal .zero, .ofReal (.number ⟨true, .infinity⟩), least])) := by
  intro minusZero minusInfinity least
  refine evaluateLine_text {} (by decide) (.list [minusZero, minusInfinity, least]) ?_ ?_ ?_
  · simp [Noun.elements, minusZero, minusInfinity, least, Binary64.isNaN]
  · intro e he
    simp only [Noun.elements, List.mem_cons, List.not_mem_nil, or_false] at he
    rcases he with rfl | rfl | rfl
    · exact ⟨false, rfl⟩
    · exact ⟨true, rfl⟩
    · exact ⟨false, rfl⟩
  · rintro es ⟨⟩
    exact ⟨by decide, by decide⟩

end JCalc
