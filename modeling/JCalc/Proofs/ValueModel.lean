import JCalc.Proofs.Evaluation
import JCalc.Proofs.LexedTokens
import JCalc.Proofs.NounText
import JCalc.Proofs.VerbResults
import JCalc.Session

/-! The values that evaluations work on. At every moment they are well formed and free of
undefined parts, and while only real numbers are put in, only real ones are ever there.
So no line is refused for a value that is not real, and none is answered by one. -/

namespace JCalc

/-- The noun is on a stack at some moment of the evaluation, or it is the result. -/
inductive Arises (limits : Limits) (tokens : List Token) (x : Noun) : Prop where
  | held {m : Moment} (hm : m.Occurs limits tokens) (hx : m.Holds x)
  | result (h : evaluate limits tokens = .ok (some x))

def Noun.WellFormed (x : Noun) : Prop := Noun.ofShape (x.shape.map Int.ofNat) x.elements = .ok x

def Scalar.ZeroImaginary (e : Scalar) : Prop := ∃ negative, e.im = .number ⟨negative, .zero⟩

theorem wellFormed (x : Noun) : x.WellFormed := by
  cases x with
  | atom e => rfl
  | list es => simp [Noun.WellFormed, Noun.ofShape, Noun.shape, Noun.elements]

section

variable {limits : Limits} {tokens : List Token} {p : Scalar → Prop}

theorem holds_of_arises {q : Noun → Prop} {r : Fault → Prop} (hc : Closed limits.size q r)
    (hn : ∀ t ∈ tokens, ∀ x, t.kind = .number x → q (.atom x.toScalar)) {x : Noun}
    (h : Arises limits tokens x) : q x := by
  cases h with
  | held hm hx => exact holds_of_occurs hc hn hm hx
  | result h =>
    have hk := keeps_evaluate hc hn
    rw [h] at hk
    exact hk x rfl

theorem sound_atom_toScalar {x : Number} (h : p x.toScalar) : (Noun.atom x.toScalar).Sound p := by
  intro e he
  obtain rfl := List.mem_singleton.mp he
  exact ⟨rfl, h⟩

theorem sound_of_arises (hp : ScalarClosed p)
    (hn : ∀ t ∈ tokens, ∀ x, t.kind = .number x → p x.toScalar) {x : Noun}
    (h : Arises limits tokens x) : x.Sound p :=
  holds_of_arises (closed_sound limits.size hp)
    (fun t ht y hy => sound_atom_toScalar (hn t ht y hy)) h

end

theorem scalarClosed_true : ScalarClosed fun _ => True := by
  constructor <;> simp

theorem scalarClosed_zeroImaginary : ScalarClosed Scalar.ZeroImaginary := by
  constructor
  · exact fun r => ⟨false, rfl⟩
  · rintro x ⟨negative, h⟩
    exact ⟨!negative, by simp [Scalar.neg, h, Binary64.neg, Extended.neg]⟩
  · rintro x y ⟨m, hx⟩ ⟨n, hy⟩
    exact ⟨m && n, by cases m <;> cases n <;> simp [Scalar.add, hx, hy] <;> rfl⟩
  · rintro x y ⟨m, hx⟩ ⟨n, hy⟩
    exact ⟨m && !n, by cases m <;> cases n <;> simp [Scalar.sub, hx, hy] <;> rfl⟩

theorem zeroImaginary_toScalar {x : Number} (h : x.im.isZero = true) :
    x.toScalar.ZeroImaginary := by
  obtain ⟨re, ⟨negative, ⟨code, hcode⟩⟩⟩ := x
  obtain rfl : code = 0 := by simpa [Extended.isZero, Magnitude.isZero] using h
  exact ⟨negative, rfl⟩

theorem isReal_of_all {x : Noun} (h : x.All Scalar.ZeroImaginary) : x.isReal = true := by
  refine List.all_eq_true.mpr fun e he => ?_
  obtain ⟨negative, hi⟩ := h e he
  rw [hi]
  rfl

theorem number_of_tokenize {line : Text} {tokens : List Token} (h : tokenize line = .ok tokens) :
    ∀ t ∈ tokens, ∀ x, t.kind = .number x → x.im.isZero = true := by
  intro t ht x hk
  rw [(lexed_of_tokensFrom 0 line tokens h t ht).im_eq_zero hk]
  rfl

theorem sound_of_evaluateLine {s : Session} {line : Text} {x : Noun}
    (h : s.evaluateLine line = .ok (some x)) : x.Sound Scalar.ZeroImaginary := by
  obtain ⟨tokens, ht, he⟩ := bind_eq_ok h
  exact sound_of_arises scalarClosed_zeroImaginary
    (fun t htok y hy => zeroImaginary_toScalar (number_of_tokenize ht t htok y hy)) (.result he)

/-- The faults of lines: a word that is no lexeme, or what is wrong with a sentence of lexemes,
or a fault of a verb whose arguments are real. -/
inductive LineFault : Fault → Prop where
  | word (cause : WordFault) (word : Text) (place : Int) : LineFault (.word cause word place)
  | sentence {tokens : List Token} {fault : Fault} (ht : ∀ t ∈ tokens, t.Lexed)
      (h : SentenceFault tokens fault) : LineFault fault
  | verb {fault : Fault} (h : VerbFault (Noun.Sound Scalar.ZeroImaginary) fault) : LineFault fault

theorem lineFault_of_evaluateLine {s : Session} {line : Text} {fault : Fault}
    (h : s.evaluateLine line = .error fault) : LineFault fault := by
  unfold Session.evaluateLine at h
  cases ht : tokenize line with
  | error cause =>
    rw [ht] at h
    cases h
    obtain ⟨cause, word, place, rfl⟩ := fault_of_tokensFrom ht
    exact .word cause word place
  | ok tokens =>
    rw [ht] at h
    have hk := keeps_evaluate (closed_sound s.limits.size scalarClosed_zeroImaginary)
      (fun t htok y hy => sound_atom_toScalar
        (zeroImaginary_toScalar (number_of_tokenize ht t htok y hy)))
    rw [show evaluate s.limits tokens = .error fault from h] at hk
    rcases hk with hk | hk
    · exact .verb hk
    · exact .sentence (lexed_of_tokensFrom 0 line tokens ht) hk

theorem LineFault.ne_notReal {fault : Fault} (h : LineFault fault) (subject : Text) :
    fault ≠ .notReal subject := by
  rintro rfl
  cases h with
  | sentence _ h => cases h
  | verb h =>
    cases h with
    | notReal v hp hreal =>
      have htrue := isReal_of_all fun e he => (hp e he).2
      rw [htrue] at hreal
      cases hreal

theorem exists_numbers_of_sound {x : Noun} (h : x.Sound Scalar.ZeroImaginary) :
    ∃ xs : List Number, x.elements = xs.map Number.toScalar ∧ ∀ y ∈ xs, y.isReal = true := by
  exact exists_realNumbers (fun e he => (e.isDefined_iff.mp (h e he).1).1) fun e he => (h e he).2

theorem text_of_sound {x : Noun} (h : x.Sound Scalar.ZeroImaginary) :
    ∃ ls : List Literal, ls.length = x.elements.length ∧ (∀ l ∈ ls, l.WellFormed) ∧
      ∀ width, x.text width = .ok (fit width (ls.map Literal.text)) := by
  obtain ⟨xs, hxs, hreal⟩ := exists_numbers_of_sound h
  exact ⟨xs.map fun x => x.re.literal, by simp [hxs], wellFormed_literals xs,
    text_of_realNumbers hxs hreal⟩

theorem ne_j_of_isNumeralChar {c : Char} (h : isNumeralChar c = true) : (c != 'j') = true := by
  have hc : c ≠ 'j' := by
    rintro rfl
    exact absurd h (by decide)
  simp [hc]

theorem not_mem_text {x : Noun} (h : x.Sound Scalar.ZeroImaginary) (width : Option Int) :
    ∃ t, x.text width = .ok t ∧ 'j' ∉ t := by
  obtain ⟨ls, _, hls, htext⟩ := text_of_sound h
  refine ⟨_, htext width, fun hj => ?_⟩
  have hfit := forall_fit (p := (· != 'j')) width rfl rfl (fun t ht c hc => by
    obtain ⟨l, hl, rfl⟩ := List.mem_map.mp ht
    exact ne_j_of_isNumeralChar ((hls l hl).isNumeralChar c hc)) 'j' hj
  simp at hfit

/-- The moments of an evaluation lead to its answer. Every noun at any of them, and the result,
is well formed and has no undefined part, and if all numbers put in are real, it is real. Those
of a line are, so that no line is refused for a value that is not real or shows one. -/
theorem values_of_evaluation (limits : Limits) (tokens : List Token) (s : Session) (line : Text) :
    (∃ r, Leads limits (begin limits tokens) (.answered r) ∧
      evaluate limits tokens = r.bind valueOf) ∧
    (∀ x, Arises limits tokens x → x.WellFormed ∧ x.All fun e => e.isDefined = true) ∧
    ((∀ t ∈ tokens, ∀ x, t.kind = .number x → x.im.isZero = true) →
      ∀ x, Arises limits tokens x → x.All Scalar.ZeroImaginary) ∧
    (∀ made, tokenize line = .ok made →
      ∀ t ∈ made, ∀ x, t.kind = .number x → x.im.isZero = true) ∧
    (∀ subject, s.evaluateLine line ≠ .error (.notReal subject)) ∧
    ∀ x, s.evaluateLine line = .ok (some x) → ∀ width, ∃ t, x.text width = .ok t ∧ 'j' ∉ t := by
  refine ⟨leads_evaluate limits tokens, ?_, ?_, fun made => number_of_tokenize, ?_, ?_⟩
  · intro x hx
    refine ⟨wellFormed x, fun e he => ?_⟩
    exact (sound_of_arises scalarClosed_true (fun _ _ _ _ => trivial) hx e he).1
  · intro hn x hx e he
    exact (sound_of_arises scalarClosed_zeroImaginary
      (fun t ht y hy => zeroImaginary_toScalar (hn t ht y hy)) hx e he).2
  · intro subject h
    exact (lineFault_of_evaluateLine h).ne_notReal subject rfl
  · intro x hx width
    exact not_mem_text (sound_of_evaluateLine hx) width

theorem values_of_evaluation_infinity :
    let x : Number := ⟨.infinity, .zero⟩
    let tokens : List Token := [⟨.number x, ['_'], 0, 1⟩]
    Arises ⟨1, 0⟩ tokens (.atom x.toScalar) ∧ (Noun.atom x.toScalar).All Scalar.ZeroImaginary := by
  intro x tokens
  have harises : Arises ⟨1, 0⟩ tokens (.atom x.toScalar) :=
    .result (evaluate_of_reads (.number rfl) (by decide) rfl)
  have hreal : ∀ t ∈ tokens, ∀ y, t.kind = .number y → y.im.isZero = true := by
    intro t ht y hy
    obtain rfl := List.mem_singleton.mp ht
    cases hy
    rfl
  exact ⟨harises, (values_of_evaluation ⟨1, 0⟩ tokens {} ['_']).2.2.1 hreal _ harises⟩

end JCalc
