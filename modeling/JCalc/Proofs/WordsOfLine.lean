import JCalc.Proofs.WrittenWords

/-! Every line that is cut into tokens writes words with blanks and comments around them. What is
taken into a word is all that would go on it, and a comment before a line that writes words is a
part of what stands before its first word. -/

namespace JCalc

theorem isLineEnd_cases {c : Char} (h : isLineEnd c = true) : c = '\n' ∨ c = '\r' := by
  simpa [isLineEnd] using h

theorem wordPart_lineEnd {d : Char} (h : isLineEnd d = true) (c : Char) (text : Text) :
    wordPart c text d = false := by
  unfold wordPart
  rcases isLineEnd_cases h with rfl | rfl
  · repeat' split
    all_goals rfl
  · repeat' split
    all_goals rfl

theorem lineFeed_not_mem_takeWhile (c : Char) (rest : Text) :
    '\n' ∉ rest.takeWhile (wordPart c rest) := by
  intro h
  have := List.mem_takeWhile_imp h
  rw [wordPart_lineEnd rfl] at this
  cases this

theorem Lexeme.exists_word {text : Text} {kind : TokenKind} (h : Lexeme text kind)
    (hn : '\n' ∉ text) : ∃ w : Word, w.WellFormed ∧ w.text = text ∧ w.kind = kind := by
  cases h with
  | @number _ l h =>
    obtain ⟨hl, ht⟩ := Literal.text_of_ofText? h
    refine ⟨.number l, hl, ?_, rfl⟩
    rcases ht with rfl | ⟨d, _, rfl⟩
    · rfl
    · simp at hn
  | @verb _ v h => exact ⟨.verb v, trivial, Verb.spelling_of_ofSpelling? h, rfl⟩
  | leftParen => exact ⟨.leftParen, trivial, rfl, rfl⟩
  | rightParen => exact ⟨.rightParen, trivial, rfl, rfl⟩

theorem wordPart_of_spelling {v : Verb} {c : Char} {rest : Text}
    (h : v.spelling = c :: rest.takeWhile (wordPart c rest)) : wordPart c rest = isInflection := by
  obtain ⟨d, tail, hv, _, htail, _, hpart⟩ := v.spelling_eq_cons
  rw [hv] at h
  obtain ⟨rfl, htail'⟩ := List.cons.inj h
  rw [← (hpart (rest.dropWhile (wordPart d rest))).2, htail', List.takeWhile_append_dropWhile]

theorem goesOn_of_wordPart {w : Word} {c d : Char} {rest : Text} (hw : w.WellFormed)
    (ht : w.text = c :: rest.takeWhile (wordPart c rest)) (hd : wordPart c rest d = false) :
    w.goesOn d = false := by
  cases w with
  | number l =>
    obtain ⟨c', rest', hl, hc⟩ := Literal.WellFormed.text_eq_cons hw
    obtain rfl : c' = c := (List.cons.inj (hl.symm.trans ht)).1
    unfold wordPart at hd
    rwa [if_pos hc] at hd
  | verb v => rwa [wordPart_of_spelling ht] at hd
  | leftParen => rfl
  | rightParen => rfl

theorem head?_dropWhile {p : Char → Bool} {t : Text} : ∀ c ∈ (t.dropWhile p).head?, p c = false := by
  intro c hc
  have hstop := List.head?_dropWhile_not p t
  rw [Option.mem_def.mp hc] at hstop
  exact hstop

section

variable {last : Bool} {gap : Text} {w : Word} {ws : List Spaced}

theorem endsBefore_of_goesOn (hg : Separator last gap) (hws : Legible ws)
    (h : ∀ c ∈ (gap ++ written ws).head?, w.goesOn c = false) : Spaced.EndsBefore ⟨w, gap⟩ ws := by
  rintro l rfl
  rcases gap with _ | ⟨c, gap⟩
  · refine .inr ⟨rfl, fun next hnext => ?_⟩
    cases hws with
    | nil => cases hnext
    | @cons v ws hv _ _ _ =>
      obtain rfl : v = next := by simpa using hnext
      obtain ⟨c, rest, ht, _, _, _, hpart⟩ := Word.text_eq_cons hv
      rw [← hpart]
      apply h
      rw [List.nil_append, head?_written_cons hv, ht]
      rfl
  · left
    have hc : isNumberPart c = false := h c (by simp)
    rcases hg.head_eq c (by simp) with hb | rfl
    · exact ⟨c, rfl, hb⟩
    · cases hc

theorem length_word_pos {w : Word} (h : w.WellFormed) : 0 < w.text.length := by
  obtain ⟨c, rest, ht, _⟩ := Word.text_eq_cons h
  simp [ht]

theorem Separator.of_cons {c : Char} {t : Text} (hc : isLineEnd c = true)
    (h : Separator last (c :: t)) : Separator last t := by
  cases h with
  | blank _ ht => exact ht
  | comment _ _ _ => cases hc
  | openComment _ _ => cases hc

end

theorem written_eq_nil_iff {ws : List Spaced} (h : Legible ws) : written ws = [] ↔ ws = [] := by
  constructor
  · intro hnil
    cases h with
    | nil => rfl
    | cons hw _ _ _ =>
      obtain ⟨c, rest, ht, _⟩ := Word.text_eq_cons hw
      simp [written, Spaced.text, ht] at hnil
  · rintro rfl
    rfl

theorem isBlank_head?_written {ws : List Spaced} (h : Legible ws) :
    ∀ c ∈ (written ws).head?, isBlank c = false := by
  intro c hc
  cases h with
  | nil => cases hc
  | cons hw _ _ _ =>
    obtain ⟨d, rest, ht, hb, _⟩ := Word.text_eq_cons hw
    rw [head?_written_cons hw, ht] at hc
    obtain rfl : d = c := by simpa using hc
    exact hb

theorem exists_lead_of_comment {t lead : Text} {ws : List Spaced} (hlead : Separator ws.isEmpty lead)
    (hws : Legible ws) (h : (t.dropWhile fun d => !isLineEnd d) = lead ++ written ws) :
    ∃ lead', Separator ws.isEmpty lead' ∧ 'N' :: 'B' :: '.' :: t = lead' ++ written ws := by
  have hbody : ∀ d ∈ t.takeWhile fun d => !isLineEnd d, isLineEnd d = false := by
    intro d hd
    simpa using List.mem_takeWhile_imp hd
  have hsplit := List.takeWhile_append_dropWhile (p := fun d => !isLineEnd d) (l := t)
  have hstop := head?_dropWhile (p := fun d => !isLineEnd d) (t := t)
  rw [h] at hsplit hstop
  rcases lead with _ | ⟨e, lead⟩
  · rw [List.nil_append] at hsplit hstop
    have hnil : written ws = [] := by
      rcases hw : written ws with _ | ⟨e, more⟩
      · rfl
      · have hend : isLineEnd e = true := by simpa using hstop e (by simp [hw])
        have hblank := isBlank_head?_written hws e (by simp [hw])
        rw [isBlank_of_isLineEnd hend] at hblank
        cases hblank
    obtain rfl := (written_eq_nil_iff hws).mp hnil
    refine ⟨_, .openComment rfl hbody, ?_⟩
    rw [List.cons_append, List.cons_append, List.cons_append, hsplit]
  · have hend : isLineEnd e = true := by simpa using hstop e rfl
    refine ⟨_, .comment hbody hend (hlead.of_cons hend), ?_⟩
    simpa using hsplit.symm

theorem exists_written (place : Nat) (text : Text) :
    ∀ tokens, tokensFrom place text = .ok tokens →
      ∃ lead ws, Separator ws.isEmpty lead ∧ Legible ws ∧ text = lead ++ written ws := by
  fun_induction tokensFrom place text with
  | case1 place => exact fun _ _ => ⟨[], [], .nil, .nil, rfl⟩
  | case2 place c rest hb ih =>
    intro tokens h
    obtain ⟨lead, ws, hlead, hws, rfl⟩ := ih tokens h
    exact ⟨c :: lead, ws, .blank hb hlead, hws, rfl⟩
  | case3 place c rest _ hs comment ih =>
    intro tokens h
    obtain ⟨lead, ws, hlead, hws, htext⟩ := ih tokens h
    obtain ⟨t, ht⟩ := exists_of_startsComment hs
    obtain ⟨rfl, rfl⟩ := List.cons.inj ht
    have hbody : (t.dropWhile fun d => !isLineEnd d) = lead ++ written ws := htext
    obtain ⟨lead', hlead', ht'⟩ := exists_lead_of_comment hlead hws hbody
    exact ⟨lead', ws, hlead', hws, ht'⟩
  | case4 =>
    intro tokens h
    cases h
  | case5 =>
    intro tokens h
    cases h
  | case6 place c rest hb hs part word kind hkind stop more hmore ih =>
    intro tokens h
    obtain ⟨gap, ws, hgap, hws, hrest⟩ := ih more hmore
    have hlexeme : Lexeme word kind := by
      refine lexeme_of_ofWord (fun hc => ?_) hkind
      exact takeWhile_wordPart_paren hc rest
    -- A numeral may have a line feed at its end, but none is taken into a word.
    have hline : '\n' ∉ word := by
      intro hn
      rcases List.mem_cons.mp hn with rfl | hn
      · exact hb rfl
      · exact lineFeed_not_mem_takeWhile c rest hn
    obtain ⟨w, hw, ht, _⟩ := hlexeme.exists_word hline
    have hstop : ∀ d ∈ (gap ++ written ws).head?, w.goesOn d = false := by
      intro d hd
      rw [← hrest] at hd
      exact goesOn_of_wordPart hw ht (head?_dropWhile d hd)
    refine ⟨[], ⟨w, gap⟩ :: ws, .nil, .cons hw hgap (endsBefore_of_goesOn hgap hws hstop) hws, ?_⟩
    have hwritten : written (⟨w, gap⟩ :: ws) = w.text ++ (gap ++ written ws) := by
      simp [written, Spaced.text]
    rw [List.nil_append, hwritten, ht, ← hrest, List.cons_append, List.takeWhile_append_dropWhile]

end JCalc
