import JCalc.Proofs.Tiling

/-! The word that a line is refused for. The line before it is cut into tokens as if it stood alone,
for no word, blank or comment there reaches up to it; and whatever comes behind a word that is no
lexeme, the line is refused for the first one. -/

namespace JCalc

def TokenKind.goesOn : TokenKind → Char → Bool
  | .number _ => isNumberPart
  | .verb => isInflection
  | _ => fun _ => false

/-- The word at the front of a text, as long as its first character lets it be, and what is reported
if it is no lexeme. -/
inductive FrontWord : Text → WordFault → Text → Prop where
  | number {c : Char} {body rest : Text} (hc : isNumberStart c = true)
      (hbody : ∀ d ∈ body, isNumberPart d = true) (hrest : ∀ d ∈ rest.head?, isNumberPart d = false) :
      FrontWord (c :: (body ++ rest)) .illFormedNumber (c :: body)
  | primitive {c : Char} {body rest : Text}
      (hc : isGraphic c = true ∨ isLetter c = true ∧ body ≠ [])
      (hbody : ∀ d ∈ body, isInflection d = true) (hrest : ∀ d ∈ rest.head?, isInflection d = false) :
      FrontWord (c :: (body ++ rest)) .unsupportedPrimitive (c :: body)
  | name {c : Char} {body rest : Text} (hc : isLetter c = true)
      (hbare : ∀ d ∈ (body ++ rest).head?, isInflection d = false)
      (hbody : ∀ d ∈ body, isNamePart d = true) (hrest : ∀ d ∈ rest.head?, isNamePart d = false) :
      FrontWord (c :: (body ++ rest)) .unsupportedName (c :: body)
  | character {c : Char} {rest : Text} (hn : isNumberStart c = false) (hg : isGraphic c = false)
      (hl : isLetter c = false) : FrontWord (c :: rest) .unexpectedCharacter [c]

/-- Whether a word starts at the place `p` of a line that has the given words before it: there is no
blank, no comment reaches over it, and nothing there goes on the word before. -/
structure WordStart (text : Text) (words : List Token) (p : Nat) : Prop where
  inside : ∃ c ∈ text[p]?, isBlank c = false
  beginsWord : BeginsWord text words p
  outside : ∀ j, CommentAt text words j → j ≤ p → j + commentLength text j ≤ p
  complete : ∀ t ∈ words, t.stop = p → ∀ c ∈ text[p]?, t.kind.goesOn c = false

structure FirstBadWord (text : Text) (cause : WordFault) (word : Text) (p : Nat) : Prop where
  start : ∃ words, tokenize (text.take p) = .ok (words ++ [⟨.finish, [], p, p⟩]) ∧
    WordStart text words p
  front : FrontWord (text.drop p) cause word
  illegal : ∀ w : Word, w.WellFormed → w.text ≠ word

section

variable {c : Char} {text rest word : Text} {cause : WordFault}

theorem neither_of_isGraphic (h : isGraphic c = true) : isNumberStart c = false ∧ isLetter c = false := by
  have hall : "=<>+*-%^$~|.:,;#!/\\[]\x7b\x7d\"`&@?".toList.all
      (fun d => !isNumberStart d && !isLetter d) = true := by decide
  have hc := List.all_eq_true.mp hall c (List.contains_iff_mem.mp h)
  rw [Bool.and_eq_true, Bool.not_eq_true', Bool.not_eq_true'] at hc
  exact hc

theorem isNumberStart_of_isLetter (h : isLetter c = true) : isNumberStart c = false := by
  by_contra hn
  simp only [isLetter, isNumberStart, isDigit, Bool.or_eq_true, Bool.and_eq_true, decide_eq_true_eq,
    Bool.not_eq_false, beq_iff_eq] at h hn
  have habove {l : Char} (hl : ¬ l ≤ '9') (hc : l ≤ c) : ¬ c ≤ '9' := fun h => hl (Char.le_trans hc h)
  rcases hn with rfl | hn
  · exact absurd h (by decide)
  · rcases h with h | h
    · exact habove (by decide) h.1 hn.2
    · exact habove (by decide) h.1 hn.2

theorem ne_paren_of_start (h : isNumberStart c = true ∨ isGraphic c = true ∨ isLetter c = true) :
    c ≠ '(' ∧ c ≠ ')' := by
  constructor
  · rintro rfl
    exact absurd h (by decide)
  · rintro rfl
    exact absurd h (by decide)

theorem isGraphic_of_isLetter (h : isLetter c = true) : isGraphic c = false := by
  by_contra hg
  have hl := (neither_of_isGraphic (Bool.not_eq_false _ ▸ hg)).2
  rw [h] at hl
  cases hl

theorem wordPart_number (h : isNumberStart c = true) : wordPart c text = isNumberPart := if_pos h

theorem wordPart_graphic (h : isGraphic c = true) : wordPart c text = isInflection := by
  unfold wordPart
  rw [(neither_of_isGraphic h).1, h]
  rfl

theorem wordPart_letter (h : isLetter c = true) : wordPart c text =
    if (text.head?.map isInflection).getD false then isInflection else isNamePart := by
  unfold wordPart
  rw [isNumberStart_of_isLetter h, isGraphic_of_isLetter h, h]
  cases text <;> rfl

theorem wordPart_other (hn : isNumberStart c = false) (hg : isGraphic c = false)
    (hl : isLetter c = false) : wordPart c text = fun _ => false := by
  unfold wordPart
  rw [hn, hg, hl]
  rfl

theorem exists_run (p : Char → Bool) (text : Text) :
    ∃ body rest, text = body ++ rest ∧ text.takeWhile p = body ∧ (∀ d ∈ body, p d = true) ∧
      ∀ d ∈ rest.head?, p d = false :=
  ⟨text.takeWhile p, text.dropWhile p, List.takeWhile_append_dropWhile.symm, rfl,
    fun _ hd => List.mem_takeWhile_imp hd, head?_dropWhile⟩

theorem exists_frontWord (c : Char) (text : Text) :
    ∃ cause, FrontWord (c :: text) cause (c :: text.takeWhile (wordPart c text)) := by
  obtain ⟨body, rest, htext, htake, hbody, hrest⟩ := exists_run (wordPart c text) text
  rw [htake]
  by_cases hn : isNumberStart c = true
  · rw [wordPart_number hn] at hbody hrest
    rw [htext]
    exact ⟨_, .number hn hbody hrest⟩
  by_cases hg : isGraphic c = true
  · rw [wordPart_graphic hg] at hbody hrest
    rw [htext]
    exact ⟨_, .primitive (.inl hg) hbody hrest⟩
  by_cases hl : isLetter c = true
  · rw [wordPart_letter hl] at htake hbody hrest
    by_cases hi : (text.head?.map isInflection).getD false = true
    · rw [if_pos hi] at htake hbody hrest
      have hne : body ≠ [] := by
        rintro rfl
        cases text with
        | nil => cases hi
        | cons d text =>
          have hd : isInflection d = true := hi
          rw [List.takeWhile_cons_of_pos hd] at htake
          cases htake
      rw [htext]
      exact ⟨_, .primitive (.inr ⟨hl, hne⟩) hbody hrest⟩
    · rw [if_neg hi] at hbody hrest
      have hbare : ∀ d ∈ text.head?, isInflection d = false := by
        intro d hd
        rw [Option.mem_def.mp hd] at hi
        simpa using hi
      rw [htext] at hbare ⊢
      exact ⟨_, .name hl hbare hbody hrest⟩
  · simp only [Bool.not_eq_true] at hn hg hl
    rw [wordPart_other hn hg hl] at htake
    obtain rfl : body = [] := by
      rw [← htake]
      cases text <;> rfl
    exact ⟨_, .character hn hg hl⟩

/-- The word at the front is the one that is cut off there, and what is reported of it is as said. -/
theorem FrontWord.eq_word (h : FrontWord (c :: text) cause word) :
    word = c :: text.takeWhile (wordPart c text) ∧
      ∀ e, TokenKind.ofWord word = .error e → e = cause := by
  cases h with
  | @number _ body rest hc hbody hrest =>
    obtain ⟨hopen, hclose⟩ := ne_paren_of_start (.inl hc)
    refine ⟨by rw [wordPart_number hc, takeWhile_append_of_stop hbody hrest], fun e he => ?_⟩
    rw [TokenKind.ofWord, if_neg hopen, if_neg hclose, if_pos hc] at he
    split at he
    · cases he
    · exact (Except.error.inj he).symm
  | @primitive _ body rest hc hbody hrest =>
    obtain ⟨hopen, hclose⟩ := ne_paren_of_start (.inr (hc.imp_right And.left))
    have hn : ¬ isNumberStart c = true := by
      rcases hc with hc | ⟨hc, _⟩
      · simp [(neither_of_isGraphic hc).1]
      · simp [isNumberStart_of_isLetter hc]
    have hhead : body ≠ [] → (body.head?.map isInflection).getD false = true := by
      intro hne
      obtain ⟨d, more, rfl⟩ := List.exists_cons_of_ne_nil hne
      exact hbody d List.mem_cons_self
    have hpart : wordPart c (body ++ rest) = isInflection := by
      rcases hc with hc | ⟨hc, hne⟩
      · exact wordPart_graphic hc
      · rw [wordPart_letter hc, List.head?_append_of_ne_nil _ hne, if_pos (hhead hne)]
    have hprimitive : (isGraphic c || (isLetter c && (body.head?.map isInflection).getD false)) = true := by
      rcases hc with hc | ⟨hc, hne⟩
      · rw [hc, Bool.true_or]
      · rw [hc, hhead hne, Bool.true_and, Bool.or_true]
    refine ⟨by rw [hpart, takeWhile_append_of_stop hbody hrest], fun e he => ?_⟩
    rw [TokenKind.ofWord, if_neg hopen, if_neg hclose, if_neg hn, if_pos hprimitive] at he
    split at he
    · cases he
    · exact (Except.error.inj he).symm
  | @name _ body rest hc hbare hbody hrest =>
    obtain ⟨hopen, hclose⟩ := ne_paren_of_start (.inr (.inr hc))
    have hpart : wordPart c (body ++ rest) = isNamePart := by
      rw [wordPart_letter hc]
      apply if_neg
      cases hhead : (body ++ rest).head? with
      | none => exact Bool.false_ne_true
      | some d => simp [hbare d hhead]
    have hbare : (body.head?.map isInflection).getD false = false := by
      cases body with
      | nil => rfl
      | cons d body => exact hbare d rfl
    refine ⟨by rw [hpart, takeWhile_append_of_stop hbody hrest], fun e he => ?_⟩
    simp only [TokenKind.ofWord, hopen, hclose, isNumberStart_of_isLetter hc, isGraphic_of_isLetter hc, hc,
      hbare, if_true, if_false, Bool.false_or, Bool.true_and, Bool.false_eq_true] at he
    exact (Except.error.inj he).symm
  | character hn hg hl =>
    have htake : text.takeWhile (wordPart c text) = [] := by
      rw [wordPart_other hn hg hl]
      cases text <;> rfl
    refine ⟨by rw [htake], fun e he => ?_⟩
    simp only [TokenKind.ofWord, hn, hg, hl, if_false, Bool.false_or, Bool.false_and,
      Bool.false_eq_true] at he
    split at he
    · cases he
    · split at he
      · cases he
      · exact (Except.error.inj he).symm

theorem Word.ofWord_text {w : Word} (hw : w.WellFormed) : TokenKind.ofWord w.text = .ok w.kind := by
  cases w with
  | number l => exact ofWord_literal hw
  | verb v =>
    obtain ⟨_, _, _, _, _, hword, _⟩ := v.spelling_eq_cons
    exact hword
  | leftParen => rfl
  | rightParen => rfl

theorem exists_word_of_ofWord {kind : TokenKind}
    (h : TokenKind.ofWord (c :: text.takeWhile (wordPart c text)) = .ok kind) (hc : isBlank c = false) :
    ∃ w : Word, w.WellFormed ∧ w.text = c :: text.takeWhile (wordPart c text) ∧ w.kind = kind := by
  have hlexeme := lexeme_of_ofWord (fun hp => takeWhile_wordPart_paren hp text) h
  apply hlexeme.exists_word
  -- A numeral may have a line feed at its end, but none is taken into a word.
  intro hn
  rcases List.mem_cons.mp hn with rfl | hn
  · cases hc
  · exact lineFeed_not_mem_takeWhile c text hn

end

section

variable {last : Bool} {gap before lead after text : Text} {c : Char} {w : Spaced} {ws : List Spaced}

theorem Separator.of_closed (h : Separator false gap) : Separator last gap := by
  induction h with
  | nil => exact .nil
  | blank hc _ ih => exact .blank hc ih
  | comment hb hc _ ih => exact .comment hb hc ih
  | openComment hl _ => cases hl

theorem Separator.ends_blank (h : Separator false gap) (hne : gap ≠ []) :
    ∃ front c, gap = front ++ [c] ∧ isBlank c = true := by
  have hstep {c : Char} {front t : Text} (hc : isBlank c = true)
      (ih : t ≠ [] → ∃ u d, t = u ++ [d] ∧ isBlank d = true) :
      ∃ u d, front ++ c :: t = u ++ [d] ∧ isBlank d = true := by
    by_cases ht : t = []
    · exact ⟨front, c, by rw [ht], hc⟩
    · obtain ⟨u, d, rfl, hd⟩ := ih ht
      exact ⟨front ++ c :: u, d, by simp, hd⟩
  induction h with
  | nil => exact absurd rfl hne
  | blank hc _ ih => exact @hstep _ [] _ hc ih
  | @comment body _ _ _ hc _ ih => exact @hstep _ ('N' :: 'B' :: '.' :: body) _ (isBlank_of_isLineEnd hc) ih
  | openComment hl _ => cases hl

/-- Behind the last line end of what separates words all is blank. -/
theorem Separator.blank_of_suffix (h : Separator false gap) {t : Text} (ht : t <:+ gap)
    (hfree : ∀ d ∈ t, isLineEnd d = false) : ∀ d ∈ t, isBlank d = true := by
  induction h generalizing t with
  | nil =>
    rw [List.suffix_nil.mp ht]
    exact nofun
  | @blank c rest hc _ ih =>
    rcases List.suffix_cons_iff.mp ht with rfl | ht
    · have hrest := ih (List.suffix_refl rest) fun d hd => hfree d (List.mem_cons_of_mem c hd)
      exact List.forall_mem_cons.mpr ⟨hc, hrest⟩
    · exact ih ht hfree
  | @comment body c rest hb hc _ ih =>
    have hsuffix : c :: rest <:+ 'N' :: 'B' :: '.' :: (body ++ c :: rest) :=
      ⟨'N' :: 'B' :: '.' :: body, rfl⟩
    have hout (h : c ∈ t) : False := by
      have := hfree c h
      rw [hc] at this
      cases this
    rcases List.suffix_or_suffix_of_suffix ht hsuffix with ht | ht
    · rcases List.suffix_cons_iff.mp ht with rfl | ht
      · exact (hout List.mem_cons_self).elim
      · exact ih ht hfree
    · exact (hout (ht.subset List.mem_cons_self)).elim
  | openComment hl _ => cases hl

/-- What separates words is closed, or a comment is open at its end. -/
theorem Separator.closed_or_open (h : Separator last gap) : Separator false gap ∨
    ∃ front body, gap = front ++ 'N' :: 'B' :: '.' :: body ∧ Separator false front ∧
      ∀ d ∈ body, isLineEnd d = false := by
  induction h with
  | nil => exact .inl .nil
  | @blank c rest hc _ ih =>
    rcases ih with h | ⟨front, body, rfl, hfront, hbody⟩
    · exact .inl (.blank hc h)
    · exact .inr ⟨c :: front, body, rfl, .blank hc hfront, hbody⟩
  | @comment inner c rest hb hc _ ih =>
    rcases ih with h | ⟨front, body, rfl, hfront, hbody⟩
    · exact .inl (.comment hb hc h)
    · refine .inr ⟨'N' :: 'B' :: '.' :: (inner ++ c :: front), body, ?_, .comment hb hc hfront, hbody⟩
      simp
  | @openComment body _ hb => exact .inr ⟨[], body, rfl, .nil, hb⟩

/-- Words that stand in front of something else: every comment among them is closed, and no word
would go on with what comes next. -/
inductive CutOff (after : Text) : List Spaced → Prop where
  | nil : CutOff after []
  | cons {w : Spaced} {ws : List Spaced} (hw : w.word.WellFormed) (hg : Separator false w.gap)
      (he : ∀ c ∈ (w.gap ++ (written ws ++ after)).head?, w.word.goesOn c = false)
      (hws : CutOff after ws) : CutOff after (w :: ws)

theorem written_cons_append (w : Spaced) (ws : List Spaced) (after : Text) :
    written (w :: ws) ++ after = w.word.text ++ (w.gap ++ (written ws ++ after)) := by
  simp [written, Spaced.text]

theorem CutOff.legible (h : CutOff after ws) : Legible ws := by
  induction h with
  | nil => exact .nil
  | @cons w ws hw hg he _ ih =>
    have hnext : ∀ c ∈ (w.gap ++ written ws).head?, w.word.goesOn c = false := by
      intro c hc
      apply he
      rw [← List.append_assoc, List.head?_append, Option.mem_def.mp hc]
      rfl
    exact .cons hw hg.of_closed (endsBefore_of_goesOn hg ih hnext) ih

theorem CutOff.of_append {pre post : List Spaced} (h : CutOff after (pre ++ post)) : CutOff after post := by
  induction pre with
  | nil => exact h
  | cons w pre ih =>
    cases h with
    | cons _ _ _ hws => exact ih hws

theorem tokensFrom_closed (h : Separator false gap) (place : Nat) :
    tokensFrom place (gap ++ after) = tokensFrom (place + gap.length) after :=
  tokensFrom_separator h (fun hopen => absurd hopen Bool.false_ne_true) place

theorem tokensFrom_cutOff (h : CutOff after ws) (place : Nat) :
    tokensFrom place (written ws ++ after) =
      (tokensFrom (place + (written ws).length) after).map (wordTokens place ws ++ ·) := by
  induction h generalizing place with
  | nil =>
    show tokensFrom place after = (tokensFrom place after).map ([] ++ ·)
    cases tokensFrom place after <;> rfl
  | @cons w ws hw hg he _ ih =>
    have hplace : place + w.word.text.length + w.gap.length = place + w.text.length := by
      rw [Spaced.text, List.length_append, Nat.add_assoc]
    rw [written_cons_append, tokensFrom_wordText hw he, tokensFrom_closed hg, hplace, ih,
      length_written_cons, ← Nat.add_assoc]
    cases tokensFrom (place + w.text.length + (written ws).length) after <;> rfl

theorem CutOff.head? (h : CutOff after ws) (hafter : ∃ c ∈ after.head?, isBlank c = false) :
    ∃ c ∈ (written ws ++ after).head?, isBlank c = false := by
  cases h with
  | nil => exact hafter
  | cons hw _ _ _ =>
    obtain ⟨c, rest, ht, hb, _⟩ := Word.text_eq_cons hw
    rw [written_cons_append, ht]
    exact ⟨c, rfl, hb⟩

/-- The text goes on with a word that is no lexeme. -/
structure BadAhead (text : Text) (cause : WordFault) (word : Text) : Prop where
  inside : ∃ c ∈ text.head?, isBlank c = false
  outside : startsComment text = false
  front : FrontWord text cause word
  illegal : ∀ w : Word, w.WellFormed → w.text ≠ word

theorem BadAhead.tokensFrom_eq {cause : WordFault} {word : Text} (h : BadAhead text cause word)
    (place : Nat) : tokensFrom place text = .error (.word cause word place) := by
  obtain ⟨c, hc, hb⟩ := h.inside
  obtain ⟨rest, rfl⟩ := List.head?_eq_some_iff.mp hc
  obtain ⟨rfl, hcause⟩ := h.front.eq_word
  cases hword : TokenKind.ofWord (c :: rest.takeWhile (wordPart c rest)) with
  | ok kind =>
    obtain ⟨w, hw, ht, _⟩ := exists_word_of_ofWord hword hb
    exact absurd ht (h.illegal w hw)
  | error e =>
    rw [hcause e hword] at hword
    exact tokensFrom_refused hb h.outside hword

theorem exists_badAhead {rest : Text} {e : WordFault} (hb : isBlank c = false)
    (hs : startsComment (c :: rest) = false)
    (h : TokenKind.ofWord (c :: rest.takeWhile (wordPart c rest)) = .error e) :
    ∃ cause word, BadAhead (c :: rest) cause word := by
  obtain ⟨cause, hfront⟩ := exists_frontWord c rest
  refine ⟨cause, _, ⟨c, rfl, hb⟩, hs, hfront, fun w hw ht => ?_⟩
  rw [← ht, Word.ofWord_text hw] at h
  cases h

theorem exists_closed_lead (hlead : Separator false lead) (hafter : ∃ c ∈ after.head?, isBlank c = false)
    (h : (text.dropWhile fun d => !isLineEnd d) = lead ++ after) :
    ∃ lead', Separator false lead' ∧ 'N' :: 'B' :: '.' :: text = lead' ++ after := by
  obtain ⟨body, rest, htext, _, hbody, hrest⟩ := exists_run (fun d => !isLineEnd d) text
  have hdrop : (text.dropWhile fun d => !isLineEnd d) = rest := by
    rw [htext, dropWhile_append_of_stop hbody hrest]
  rw [← hdrop, h] at hrest htext
  rcases lead with _ | ⟨e, lead⟩
  · obtain ⟨c, hc, hb⟩ := hafter
    have hend : isLineEnd c = true := by simpa using hrest c hc
    rw [isBlank_of_isLineEnd hend] at hb
    cases hb
  · have hend : isLineEnd e = true := by simpa using hrest e rfl
    have hbody : ∀ d ∈ body, isLineEnd d = false := fun d hd => by simpa using hbody d hd
    refine ⟨_, .comment hbody hend (hlead.of_cons hend), ?_⟩
    rw [htext]
    simp

/-- A line that is refused goes on, behind words that are cut off, with one that is no lexeme. -/
theorem exists_cutOff {place : Nat} {fault : Fault} (h : tokensFrom place text = .error fault) :
    ∃ lead ws after cause word, Separator false lead ∧ CutOff after ws ∧
      text = lead ++ (written ws ++ after) ∧ BadAhead after cause word := by
  fun_induction tokensFrom place text with
  | case1 place => cases h
  | case2 place c rest hb ih =>
    obtain ⟨lead, ws, after, cause, word, hlead, hws, rfl, hbad⟩ := ih h
    exact ⟨c :: lead, ws, after, cause, word, .blank hb hlead, hws, rfl, hbad⟩
  | case3 place c rest _ hs comment ih =>
    obtain ⟨lead, ws, after, cause, word, hlead, hws, htext, hbad⟩ := ih h
    obtain ⟨body, hbody⟩ := exists_of_startsComment hs
    obtain ⟨rfl, rfl⟩ := List.cons.inj hbody
    have hcut : (body.dropWhile fun d => !isLineEnd d) = lead ++ (written ws ++ after) := htext
    obtain ⟨lead', hlead', htext'⟩ := exists_closed_lead hlead (hws.head? hbad.inside) hcut
    exact ⟨lead', ws, after, cause, word, hlead', hws, htext', hbad⟩
  | case4 place c rest hb hs part word cause hcause =>
    obtain ⟨cause, word, hbad⟩ := exists_badAhead (by simpa using hb) (by simpa using hs) hcause
    exact ⟨[], [], c :: rest, cause, word, .nil, .nil, rfl, hbad⟩
  | case5 place c rest hb hs part word kind hkind stop fault' hfault ih =>
    cases h
    obtain ⟨gap, ws, after, cause, bad, hgap, hws, htext, hbad⟩ := ih hfault
    obtain ⟨w, hw, ht, _⟩ := exists_word_of_ofWord hkind (by simpa using hb)
    have hstop : ∀ d ∈ (gap ++ (written ws ++ after)).head?, w.goesOn d = false := by
      intro d hd
      rw [← htext] at hd
      exact goesOn_of_wordPart hw ht (head?_dropWhile d hd)
    refine ⟨[], ⟨w, gap⟩ :: ws, after, cause, bad, .nil, .cons hw hgap hstop hws, ?_, hbad⟩
    rw [List.nil_append, written_cons_append, ht, ← htext, List.cons_append,
      List.takeWhile_append_dropWhile]
  | case6 => cases h

theorem Legible.cutOff (h : Legible ws) (hlast : ∀ w ∈ ws.getLast?, Separator false w.gap ∧
    ∀ c ∈ (w.gap ++ after).head?, w.word.goesOn c = false) : CutOff after ws := by
  induction h with
  | nil => exact .nil
  | @cons w ws hw hg he hws ih =>
    cases ws with
    | nil =>
      obtain ⟨hg, hstop⟩ := hlast w rfl
      exact .cons hw hg hstop .nil
    | cons v ws =>
      refine .cons hw hg (fun c hc => goesOn_head? hg he hws c ?_) (ih hlast)
      have hne : w.gap ++ written (v :: ws) ≠ [] := by
        intro hnil
        have := (written_eq_nil_iff hws).mp (List.append_eq_nil_iff.mp hnil).2
        cases this
      rwa [← List.append_assoc, List.head?_append_of_ne_nil _ hne] at hc

/-- The tokens end at the place `n`, or there are none and it is the beginning. -/
structure EndAt (tokens : List Token) (n : Nat) : Prop where
  place_le : ∀ t ∈ tokens, t.place ≤ n
  stop_le : ∀ t ∈ tokens, t.stop ≤ n
  last : n = 0 ∨ ∃ t ∈ tokens, t.stop = n

variable {tokens : List Token}

theorem EndAt.beginsWord_behind (h : EndAt tokens before.length) (hgap : Separator false gap)
    (htext : text = before ++ (gap ++ after)) : BeginsWord text tokens (before ++ gap).length := by
  by_cases hnil : gap = []
  · rw [hnil, List.append_nil]
    exact h.last.imp_right .inr
  · obtain ⟨u, c, rfl, hc⟩ := hgap.ends_blank hnil
    have hcut : text = (before ++ u) ++ c :: after := by simp [htext]
    rw [← List.append_assoc]
    exact beginsWord_of_blank hcut hc

theorem endAt_wordTokens {pre : List Spaced} (h : ∀ v ∈ pre ++ [w], v.word.WellFormed) (place : Nat) :
    EndAt (wordTokens place (pre ++ [w])) (place + (written pre).length + w.word.text.length) := by
  have hbounds : ∀ t ∈ wordTokens place (pre ++ [w]),
      t.place ≤ (place + (written pre).length + w.word.text.length : Nat) ∧
        t.stop ≤ (place + (written pre).length + w.word.text.length : Nat) := by
    intro t ht
    rw [wordTokens_around] at ht
    rcases List.mem_append.mp ht with ht | ht
    · have := bounds_of_mem_wordTokens (fun v hv => h v (by simp [hv])) ht
      omega
    · obtain rfl := List.mem_singleton.mp ht
      simp only [Word.token]
      omega
  refine ⟨fun t ht => (hbounds t ht).1, fun t ht => (hbounds t ht).2, .inr ?_⟩
  refine ⟨w.word.token (place + (written pre).length), ?_, rfl⟩
  rw [wordTokens_around]
  exact List.mem_append_right _ List.mem_cons_self

/-- A comment that is open where a closed separator ends would begin inside it, and reach over its
end through blanks only. -/
theorem outside_of_closed (hend : EndAt tokens before.length) (hgap : Separator false gap)
    (hafter : startsComment after = false) (htext : text = before ++ (gap ++ after)) {j : Nat}
    (hj : CommentAt text tokens j) (hle : j ≤ before.length + gap.length) :
    j + commentLength text j ≤ before.length + gap.length := by
  by_contra hover
  have hlow : before.length ≤ j := by
    rcases hend.last with hzero | ⟨t, ht, hstop⟩
    · omega
    · have hplace := hend.place_le t ht
      have hfree := hj.free t ht
      omega
  obtain ⟨u, t, hsplit, hu⟩ : ∃ u t, gap = u ++ t ∧ j = before.length + u.length :=
    ⟨gap.take (j - before.length), gap.drop (j - before.length), (List.take_append_drop ..).symm, by
      rw [List.length_take]
      omega⟩
  have hdrop : text.drop j = t ++ after := by
    rw [htext, hsplit, hu, ← List.length_append, List.append_assoc, ← List.append_assoc before u,
      List.drop_left]
  have hopens := hj.opens
  rw [hdrop] at hopens
  cases t with
  | nil =>
    rw [List.nil_append, hafter] at hopens
    cases hopens
  | cons d t =>
    obtain ⟨_, ht⟩ := exists_of_startsComment hopens
    obtain rfl : d = 'N' := (List.cons.inj ht).1
    have hlength : ('N' :: t).length ≤ (('N' :: t ++ after).takeWhile fun d => !isLineEnd d).length := by
      rw [commentLength, hdrop] at hover
      rw [hsplit, List.length_append] at hover
      omega
    have hfront : 'N' :: t <+: ('N' :: t ++ after).takeWhile fun d => !isLineEnd d :=
      List.prefix_of_prefix_length_le (List.prefix_append ..) (List.takeWhile_prefix _) hlength
    have hfree : ∀ e ∈ 'N' :: t, isLineEnd e = false := by
      intro e he
      simpa using List.mem_takeWhile_imp (hfront.subset he)
    have hblank := hgap.blank_of_suffix ⟨u, hsplit.symm⟩ hfree 'N' List.mem_cons_self
    cases hblank

/-- What comes behind an open comment is in it, unless that is at a line end. -/
theorem closed_of_outside (hend : EndAt tokens before.length) (hgap : Separator last gap)
    (hafter : ∃ c ∈ after.head?, isBlank c = false) (htext : text = before ++ (gap ++ after))
    (h : ∀ j, CommentAt text tokens j → j ≤ before.length + gap.length →
      j + commentLength text j ≤ before.length + gap.length) : Separator false gap := by
  rcases hgap.closed_or_open with hgap | ⟨front, body, rfl, hfront, hbody⟩
  · exact hgap
  obtain ⟨run, rest, hsplit, _, hrun, hrest⟩ := exists_run (fun d => !isLineEnd d) after
  have hrun' : run ≠ [] := by
    rintro rfl
    obtain ⟨c, hc, hb⟩ := hafter
    rw [hsplit] at hc
    have hline : isLineEnd c = true := by simpa using hrest c hc
    rw [isBlank_of_isLineEnd hline] at hb
    cases hb
  have hcut : text = (before ++ front) ++ 'N' :: 'B' :: '.' :: ((body ++ run) ++ rest) := by
    rw [htext, hsplit]
    simp
  have hbegins : BeginsWord text tokens (before ++ front).length :=
    hend.beginsWord_behind hfront (hcut.trans (List.append_assoc ..))
  have hline : ∀ d ∈ body ++ run, isLineEnd d = false := by
    intro d hd
    rcases List.mem_append.mp hd with hd | hd
    · exact hbody d hd
    · simpa using hrun d hd
  obtain ⟨hcomment, hlength⟩ := commentAt_of_body hcut hline (fun d hd => by simpa using hrest d hd)
    hbegins fun t ht => by
      have := hend.stop_le t ht
      rw [List.length_append]
      omega
  have hle := h _ hcomment
  have hpos := List.length_pos_iff.mpr hrun'
  rw [hlength] at hle
  simp only [List.length_append, List.length_cons] at hle
  omega

theorem exists_end (lead : Text) (hws : ∀ v ∈ ws, v.word.WellFormed) :
    ∃ before gap, lead ++ written ws = before ++ gap ∧
      EndAt (wordTokens lead.length ws) before.length ∧
      (ws = [] ∧ gap = lead ∨ ∃ w ∈ ws.getLast?, gap = w.gap) := by
  rcases ws.eq_nil_or_concat with rfl | ⟨pre, w, rfl⟩
  · exact ⟨[], lead, by simp [written], ⟨nofun, nofun, .inl rfl⟩, .inl ⟨rfl, rfl⟩⟩
  · rw [List.concat_eq_append] at hws ⊢
    refine ⟨lead ++ written pre ++ w.word.text, w.gap, ?_, ?_, .inr ⟨w, by simp, rfl⟩⟩
    · rw [split_written]
      simp [written]
    · have hend := endAt_wordTokens hws lead.length
      rwa [← List.length_append, ← List.length_append] at hend

theorem Word.goesOn_kind (w : Word) : w.kind.goesOn = w.goesOn := by cases w <;> rfl

theorem CutOff.closed (h : CutOff after ws) : ∀ w ∈ ws, Separator false w.gap := by
  induction h with
  | nil => exact nofun
  | cons _ hg _ _ ih => exact List.forall_mem_cons.mpr ⟨hg, ih⟩

theorem getElem?_cutOff (lead after : Text) (ws : List Spaced) :
    (lead ++ (written ws ++ after))[lead.length + (written ws).length]? = after.head? :=
  getElem?_behind lead (written ws) after

theorem wordStart_of_cutOff (hlead : Separator false lead) (hws : CutOff after ws)
    (hin : ∃ c ∈ after.head?, isBlank c = false) (hs : startsComment after = false) :
    WordStart (lead ++ (written ws ++ after)) (wordTokens lead.length ws)
      (lead.length + (written ws).length) := by
  obtain ⟨before, gap, hsplit, hend, hgap⟩ := exists_end lead hws.legible.wellFormed
  have hgap : Separator false gap := by
    rcases hgap with ⟨_, rfl⟩ | ⟨w, hw, rfl⟩
    · exact hlead
    · exact hws.closed w (List.mem_of_getLast? hw)
  have htext : lead ++ (written ws ++ after) = before ++ (gap ++ after) := by
    rw [← List.append_assoc, hsplit, List.append_assoc]
  have hlength : lead.length + (written ws).length = before.length + gap.length := by
    rw [← List.length_append, hsplit, List.length_append]
  refine ⟨by rwa [getElem?_cutOff], ?_, ?_, ?_⟩
  · rw [hlength, ← List.length_append]
    exact hend.beginsWord_behind hgap htext
  · intro j hj hle
    rw [hlength] at hle ⊢
    exact outside_of_closed hend hgap hs htext hj hle
  · intro t ht hstop c hc
    obtain ⟨pre, w, post, rfl, rfl⟩ := exists_of_mem_wordTokens ht
    rw [getElem?_cutOff] at hc
    have hlengths : lead.length + (written pre).length + w.word.text.length =
        lead.length + (written (pre ++ w :: post)).length := Int.ofNat.inj hstop
    rw [written_append, List.length_append, length_written_cons, Spaced.text, List.length_append] at hlengths
    have hg : w.gap = [] := List.length_eq_zero_iff.mp (by omega)
    have hpost : written post = [] := List.length_eq_zero_iff.mp (by omega)
    cases hws.of_append with
    | cons _ _ he _ =>
      rw [hg, hpost] at he
      exact w.word.goesOn_kind ▸ he c hc

theorem length_comment_pos {j : Nat} (h : startsComment (text.drop j) = true) :
    0 < commentLength text j := by
  obtain ⟨body, hbody⟩ := exists_of_startsComment h
  rw [commentLength, hbody, List.takeWhile_cons_of_pos (by decide), List.length_cons]
  exact Nat.succ_pos _

/-- Before a word start all that is written is cut off. -/
theorem WordStart.cutOff (h : WordStart (lead ++ (written ws ++ after)) (wordTokens lead.length ws)
      (lead.length + (written ws).length))
    (hlead : Separator ws.isEmpty lead) (hws : Legible ws) :
    Separator false lead ∧ CutOff after ws ∧ startsComment after = false := by
  obtain ⟨before, gap, hsplit, hend, hgap⟩ := exists_end lead hws.wellFormed
  have htext : lead ++ (written ws ++ after) = before ++ (gap ++ after) := by
    rw [← List.append_assoc, hsplit, List.append_assoc]
  have hlength : lead.length + (written ws).length = before.length + gap.length := by
    rw [← List.length_append, hsplit, List.length_append]
  have hin : ∃ c ∈ after.head?, isBlank c = false := by
    have := h.inside
    rwa [getElem?_cutOff] at this
  have houtside := h.outside
  rw [hlength] at houtside
  have hnocomment : startsComment after = false := by
    by_contra hs
    have hopens : startsComment ((lead ++ (written ws ++ after)).drop (before.length + gap.length)) = true := by
      rw [htext, ← List.append_assoc, ← List.length_append, List.drop_left]
      simpa using hs
    have hcomment := houtside _ ⟨hopens, hlength ▸ h.beginsWord, fun t ht => by
      have := hend.stop_le t ht
      omega⟩ (Nat.le_refl _)
    have hpos := length_comment_pos hopens
    omega
  rcases hgap with ⟨rfl, rfl⟩ | ⟨w, hw, rfl⟩
  · exact ⟨closed_of_outside hend hlead hin htext houtside, .nil, hnocomment⟩
  · obtain ⟨pre, rfl⟩ := List.getLast?_eq_some_iff.mp hw
    have hsome : (pre ++ [w]).isEmpty = false := by cases pre <;> rfl
    rw [hsome] at hlead
    cases hws.of_append with
    | cons _ hg he _ =>
      have hclosed := closed_of_outside hend hg hin htext houtside
      refine ⟨hlead, hws.cutOff fun v hv => ?_, hnocomment⟩
      obtain rfl : w = v := by simpa using hv
      refine ⟨hclosed, fun c hc => ?_⟩
      by_cases hnil : w.gap = []
      · rw [hnil, List.nil_append, ← getElem?_cutOff lead after (pre ++ [w])] at hc
        rw [← Word.goesOn_kind]
        refine h.complete (w.word.token (lead.length + (written pre).length)) ?_ ?_ c hc
        · simp [wordTokens_around]
        · simp [Word.token, written, Spaced.text, hnil, Nat.add_assoc]
      · apply goesOn_head? hg he .nil c
        rw [List.head?_append_of_ne_nil _ hnil] at hc ⊢
        exact hc

theorem tokenize_cutOff {cause : WordFault} {word : Text} (hlead : Separator false lead)
    (hws : CutOff after ws) (hbad : BadAhead after cause word) :
    tokenize (lead ++ (written ws ++ after)) =
      .error (.word cause word (lead.length + (written ws).length : Nat)) := by
  rw [tokenize, tokensFrom_closed hlead, tokensFrom_cutOff hws, hbad.tokensFrom_eq, Nat.zero_add]
  rfl

end

/-- A line that is refused is refused for a word where a word starts, the longest one there, that is
no lexeme, and the line before it is cut into tokens. Whenever there is such a word the line is
refused for it, whatever comes behind. -/
theorem refused_for_first_bad_word {text : Text} {fault : Fault} :
    tokenize text = .error fault ↔
      ∃ cause word, ∃ p : Nat, fault = .word cause word p ∧ FirstBadWord text cause word p := by
  constructor
  · intro h
    obtain ⟨lead, ws, after, cause, word, hlead, hws, rfl, hbad⟩ := exists_cutOff h
    rw [tokenize_cutOff hlead hws hbad] at h
    refine ⟨cause, word, lead.length + (written ws).length, (Except.error.inj h).symm, ?_, ?_, hbad.illegal⟩
    · have htake : (lead ++ (written ws ++ after)).take (lead.length + (written ws).length) =
          lead ++ written ws := by
        rw [← List.append_assoc, ← List.length_append, List.take_left]
      refine ⟨wordTokens lead.length ws, ?_, wordStart_of_cutOff hlead hws hbad.inside hbad.outside⟩
      rw [htake, tokenize_eq_ok hlead.of_closed hws.legible, List.length_append]
    · rw [← List.append_assoc, ← List.length_append, List.drop_left]
      exact hbad.front
  · rintro ⟨cause, word, p, rfl, ⟨words, hwords, hstart⟩, hfront, hillegal⟩
    obtain ⟨lead, ws, hlead, hws, htake⟩ := exists_written 0 (text.take p) _ hwords
    have hp : p = lead.length + (written ws).length := by
      obtain ⟨c, hc, _⟩ := hstart.inside
      have hlt := (List.getElem?_eq_some_iff.mp hc).1
      have hlength := congrArg List.length htake
      rw [List.length_take, List.length_append] at hlength
      omega
    have htext : text = lead ++ (written ws ++ text.drop p) := by
      rw [← List.append_assoc, ← htake, List.take_append_drop]
    have heq := Except.ok.inj (hwords.symm.trans (htake ▸ tokenize_eq_ok hlead hws))
    obtain rfl : words = wordTokens lead.length ws := (List.append_inj' heq rfl).1
    generalize text.drop p = after at htext hfront
    subst hp htext
    obtain ⟨hlead, hws, hs⟩ := hstart.cutOff hlead hws
    have hin := hstart.inside
    rw [getElem?_cutOff] at hin
    exact tokenize_cutOff hlead hws ⟨hin, hs, hfront, hillegal⟩

end JCalc
