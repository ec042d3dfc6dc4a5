import JCalc.Proofs.LiteralText
import JCalc.Sentence

/-! What a line is cut into. Of its words only real numbers, primitives that are verbs and
parentheses make tokens; the first word that is none of them is reported. A literal is
cut off as one token wherever what follows does not go on a number. -/

namespace JCalc

inductive Lexeme : Text → TokenKind → Prop where
  | number {word : Text} {l : Literal} (h : Literal.ofText? word = some l) :
      Lexeme word (.number l.value)
  | verb {word : Text} {v : Verb} (h : Verb.ofSpelling? word = some v) : Lexeme word .verb
  | leftParen : Lexeme ['('] .leftParen
  | rightParen : Lexeme [')'] .rightParen

/-- A token that a line is cut into, or the one at its end. -/
inductive Token.Lexed (t : Token) : Prop where
  | word (h : Lexeme t.text t.kind)
  | finish (h : t.kind = .finish)

theorem lexeme_of_ofWord {c : Char} {rest : Text} {kind : TokenKind}
    (hlone : c = '(' ∨ c = ')' → rest = []) (h : TokenKind.ofWord (c :: rest) = .ok kind) :
    Lexeme (c :: rest) kind := by
  simp only [TokenKind.ofWord] at h
  by_cases hopen : c = '('
  · rw [if_pos hopen] at h
    cases h
    rw [hlone (.inl hopen), hopen]
    exact .leftParen
  by_cases hclose : c = ')'
  · rw [if_neg hopen, if_pos hclose] at h
    cases h
    rw [hlone (.inr hclose), hclose]
    exact .rightParen
  rw [if_neg hopen, if_neg hclose] at h
  split at h
  · cases hl : Literal.ofText? (c :: rest) with
    | none => simp [hl] at h
    | some l =>
      simp only [hl, Except.ok.injEq] at h
      exact h ▸ .number hl
  · split at h
    · cases hv : Verb.ofSpelling? (c :: rest) with
      | none => simp [hv] at h
      | some v =>
        simp only [hv, Option.isSome_some, if_true, Except.ok.injEq] at h
        exact h ▸ .verb hv
    · split at h <;> cases h

theorem takeWhile_wordPart_paren {c : Char} (h : c = '(' ∨ c = ')') (rest : Text) :
    rest.takeWhile (wordPart c rest) = [] := by
  have hp : wordPart c rest = fun _ => false := by
    rcases h with rfl | rfl <;> rfl
  rw [hp]
  cases rest <;> rfl

theorem lexed_of_tokensFrom (place : Nat) (text : Text) :
    ∀ tokens, tokensFrom place text = .ok tokens → ∀ t ∈ tokens, t.Lexed := by
  fun_induction tokensFrom place text with
  | case1 place =>
    intro tokens h t ht
    cases h
    obtain rfl := List.mem_singleton.mp ht
    exact .finish rfl
  | case2 place c rest _ ih => exact ih
  | case3 place c rest _ _ comment ih => exact ih
  | case4 => exact nofun
  | case5 => exact nofun
  | case6 place c rest _ _ part word kind hkind stop more hmore ih =>
    intro tokens h t ht
    cases h
    rcases List.mem_cons.mp ht with rfl | ht
    · refine .word (lexeme_of_ofWord (fun hc => ?_) hkind)
      exact takeWhile_wordPart_paren hc rest
    · exact ih more hmore t ht

theorem fault_of_tokensFrom {place : Nat} {text : Text} {fault : Fault}
    (h : tokensFrom place text = .error fault) :
    ∃ cause word at', fault = .word cause word at' := by
  fun_induction tokensFrom place text with
  | case1 place => cases h
  | case2 place c rest _ ih => exact ih h
  | case3 place c rest _ _ comment ih => exact ih h
  | case4 place c rest _ _ part word cause hcause =>
    cases h
    exact ⟨cause, word, place, rfl⟩
  | case5 place c rest _ _ part word kind hkind stop fault' hfault ih =>
    cases h
    exact ih hfault
  | case6 => cases h

theorem im_value (l : Literal) : l.value.im = .zero := by
  cases l <;> rfl

theorem Lexeme.im_eq_zero {word : Text} {x : Number} (h : Lexeme word (.number x)) :
    x.im = .zero := by
  cases h
  exact im_value _

theorem Lexeme.isSome_ofSpelling? {word : Text} (h : Lexeme word .verb) :
    (Verb.ofSpelling? word).isSome = true := by
  cases h with
  | verb hv => simp [hv]

theorem Token.Lexed.im_eq_zero {t : Token} (h : t.Lexed) {x : Number} (hk : t.kind = .number x) :
    x.im = .zero := by
  cases h with
  | word h => exact Lexeme.im_eq_zero (hk ▸ h)
  | finish h => cases hk.symm.trans h

theorem Token.Lexed.isSome_ofSpelling? {t : Token} (h : t.Lexed) (hk : t.kind = .verb) :
    (Verb.ofSpelling? t.text).isSome = true := by
  cases h with
  | word h => exact Lexeme.isSome_ofSpelling? (hk ▸ h)
  | finish h => cases hk.symm.trans h

theorem Token.Lexed.kind_ne_other {t : Token} (h : t.Lexed) (label : Text) :
    t.kind ≠ .other label := by
  intro hk
  cases h with
  | word h =>
    rw [hk] at h
    generalize t.text = word at h
    cases h
  | finish h => cases hk.symm.trans h

theorem isBlank_eq_false {c : Char} (hl : ' ' < c) (hu : c < '\x7f') : isBlank c = false := by
  have hle (d : Char) (hd : d ≤ ' ') : ¬ c ≤ d := fun h => absurd (Char.le_trans h hd) (Char.not_le.mpr hl)
  have hge (d : Char) (hd : '\x7f' ≤ d) : ¬ d ≤ c := fun h => absurd (Char.le_trans hd h) (Char.not_le.mpr hu)
  have hne (d : Char) (hd : '\x7f' ≤ d) : ¬ c = d := fun h => hge d hd (h ▸ Char.le_refl _)
  simp [isBlank, hle, hge, hne]

theorem isBlank_of_isNumberStart {c : Char} (h : isNumberStart c = true) : isBlank c = false := by
  simp only [isNumberStart, isDigit, Bool.or_eq_true, Bool.and_eq_true, beq_iff_eq,
    decide_eq_true_eq] at h
  rcases h with rfl | h
  · decide
  · refine isBlank_eq_false ?_ ?_
    · exact Char.not_le.mp fun hc => absurd (Char.le_trans h.1 hc) (by decide)
    · exact Char.not_le.mp fun hc => absurd (Char.le_trans hc h.2) (by decide)

theorem startsComment_of_isNumberStart {c : Char} (h : isNumberStart c = true) (rest : Text) :
    startsComment (c :: rest) = false := by
  unfold startsComment
  split
  · rename_i hc
    cases hc
    exact absurd h (by decide)
  · rfl

theorem tokensFrom_word {place : Nat} {c : Char} {rest : Text} {kind : TokenKind}
    (hb : isBlank c = false) (hs : startsComment (c :: rest) = false)
    (hk : TokenKind.ofWord (c :: rest.takeWhile (wordPart c rest)) = .ok kind) :
    let word := c :: rest.takeWhile (wordPart c rest)
    tokensFrom place (c :: rest) =
      (tokensFrom (place + word.length) (rest.dropWhile (wordPart c rest))).map
        (⟨kind, word, place, (place + word.length : Nat)⟩ :: ·) := by
  rw [tokensFrom]
  simp only [hb, hs, hk, Bool.false_eq_true, if_false]
  cases tokensFrom (place + (c :: rest.takeWhile (wordPart c rest)).length)
    (rest.dropWhile (wordPart c rest)) <;> rfl

theorem tokensFrom_refused {place : Nat} {c : Char} {rest : Text} {cause : WordFault}
    (hb : isBlank c = false) (hs : startsComment (c :: rest) = false)
    (hw : TokenKind.ofWord (c :: rest.takeWhile (wordPart c rest)) = .error cause) :
    tokensFrom place (c :: rest) =
      .error (.word cause (c :: rest.takeWhile (wordPart c rest)) place) := by
  rw [tokensFrom]
  simp only [hb, hs, hw, Bool.false_eq_true, if_false]

theorem ofWord_literal {l : Literal} (h : l.WellFormed) :
    TokenKind.ofWord l.text = .ok (.number l.value) := by
  obtain ⟨c, rest, ht, hc⟩ := h.text_eq_cons
  have hopen : c ≠ '(' := by
    rintro rfl
    exact absurd hc (by decide)
  have hclose : c ≠ ')' := by
    rintro rfl
    exact absurd hc (by decide)
  have hl := Literal.ofText?_text h
  rw [ht] at hl ⊢
  simp [TokenKind.ofWord, hopen, hclose, hc, hl]

/-- A literal makes one token, if what follows it does not go on a number. -/
theorem tokensFrom_literal {l : Literal} (h : l.WellFormed) {rest : Text}
    (hr : ∀ c ∈ rest.head?, isNumberPart c = false) (place : Nat) :
    tokensFrom place (l.text ++ rest) = (tokensFrom (place + l.text.length) rest).map
      (⟨.number l.value, l.text, place, (place + l.text.length : Nat)⟩ :: ·) := by
  obtain ⟨c, tail, ht, hc⟩ := h.text_eq_cons
  have hpart : wordPart c (tail ++ rest) = isNumberPart := by
    unfold wordPart
    rw [if_pos hc]
  have htail : ∀ d ∈ tail, isNumberPart d = true := fun d hd =>
    isNumberPart_of_isNumeralChar (h.isNumeralChar d (by simp [ht, hd]))
  have htake := takeWhile_append_of_stop htail hr
  have hdrop := dropWhile_append_of_stop htail hr
  have hk := ofWord_literal h
  have hword := @tokensFrom_word place c (tail ++ rest) (.number l.value)
    (isBlank_of_isNumberStart hc) (startsComment_of_isNumberStart hc _)
  rw [hpart, htake, hdrop, ← ht] at hword
  rw [ht, List.cons_append, hword hk, ← ht]

theorem tokensFrom_blank (place : Nat) {c : Char} (h : isBlank c = true) (rest : Text) :
    tokensFrom place (c :: rest) = tokensFrom (place + 1) rest := by
  rw [tokensFrom, if_pos h]

end JCalc
