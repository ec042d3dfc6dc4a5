import JCalc.Proofs.Tiling

/-! Texts cut at line ends. A line end stops every word and every comment, as the end of the text
does, so what stands before it and what stands behind it are cut into tokens on their own. -/

namespace JCalc

def Token.moved (n : Int) (t : Token) : Token := { t with place := t.place + n, stop := t.stop + n }

def Fault.moved (n : Int) : Fault → Fault
  | .word cause w place => .word cause w (place + n)
  | fault => fault

section

variable {b text : Text} {c d : Char} {place : Nat} {tokens : List Token}

theorem wordPart_append_lineEnd (h : isLineEnd d = true) (c : Char) (text b : Text) :
    wordPart c (text ++ d :: b) = wordPart c text := by
  cases text with
  | nil => rcases isLineEnd_cases h with rfl | rfl <;> rfl
  | cons e text => rfl

theorem stop_lineEnd (h : isLineEnd d = true) (c : Char) (text : Text) :
    ∀ e ∈ (d :: b).head?, wordPart c text e = false := by
  rintro _ ⟨⟩
  exact wordPart_lineEnd h c text

theorem startsComment_append_lineEnd (h : isLineEnd d = true) (text b : Text) :
    startsComment (text ++ d :: b) = startsComment text := by
  have hne : d ≠ 'N' ∧ d ≠ 'B' ∧ d ≠ '.' := by
    rcases isLineEnd_cases h with rfl | rfl <;> decide
  by_cases hs : startsComment text = true
  · obtain ⟨body, rfl⟩ := exists_of_startsComment hs
    rfl
  · rw [Bool.not_eq_true] at hs
    rw [hs]
    by_contra hlong
    obtain ⟨body, hbody⟩ := exists_of_startsComment (Bool.not_eq_false _ ▸ hlong)
    rcases text with _ | ⟨n, _ | ⟨b, _ | ⟨p, text⟩⟩⟩ <;>
      simp only [List.nil_append, List.cons_append, List.cons.injEq] at hbody
    · exact hne.1 hbody.1
    · exact hne.2.1 hbody.2.1
    · exact hne.2.2 hbody.2.2.1
    · obtain ⟨rfl, rfl, rfl, -⟩ := hbody
      cases hs

theorem Word.kind_ne_finish (w : Word) : w.kind ≠ .finish := by cases w <;> nofun

theorem exists_words (h : tokensFrom place text = .ok tokens) :
    ∃ words, (∀ t ∈ words, t.kind ≠ .finish) ∧ tokens =
      words ++ [⟨.finish, [], (place + text.length : Nat), (place + text.length : Nat)⟩] := by
  obtain ⟨lead, ws, hlead, hws, rfl⟩ := exists_written place text tokens h
  refine ⟨wordTokens (place + lead.length) ws, ?_, ?_⟩
  · intro t ht
    obtain ⟨_, w, _, _, rfl⟩ := exists_of_mem_wordTokens ht
    exact w.word.kind_ne_finish
  · rw [tokensFrom_separator hlead written_of_isEmpty, tokensFrom_written hws] at h
    rw [← Except.ok.inj h, List.length_append, Nat.add_assoc]

/-- Behind more text the same tokens are found, or the same fault, that much farther on. -/
theorem tokensFrom_moved (n place : Nat) (text : Text) :
    tokensFrom (place + n) text =
      ((tokensFrom place text).map (List.map (Token.moved n))).mapError (Fault.moved n) := by
  fun_induction tokensFrom place text with
  | case1 place =>
    rw [tokensFrom]
    simp [Except.map, Except.mapError, Token.moved]
  | case2 place c rest hb ih =>
    rw [tokensFrom_blank _ hb, Nat.add_right_comm, ih]
  | case3 place c rest hb hs comment ih =>
    rw [tokensFrom, if_neg hb, if_pos hs, ← ih, Nat.add_right_comm place n 1]
    show tokensFrom (place + 1 + n + comment.length) _ = _
    rw [Nat.add_right_comm]
  | case4 place c rest hb hs part word cause hcause =>
    rw [tokensFrom_refused (by simpa using hb) (by simpa using hs) hcause]
    simp [Except.map, Except.mapError, Fault.moved, word, part]
  | case5 place c rest hb hs part word kind hkind stop fault hfault ih =>
    rw [tokensFrom_word (by simpa using hb) (by simpa using hs) hkind, Nat.add_right_comm]
    change Except.map _ (tokensFrom (stop + n) _) = _
    rw [ih, hfault]
    rfl
  | case6 place c rest hb hs part word kind hkind stop tokens htokens ih =>
    rw [tokensFrom_word (by simpa using hb) (by simpa using hs) hkind, Nat.add_right_comm]
    change Except.map _ (tokensFrom (stop + n) _) = _
    rw [ih, htokens]
    simp [Except.map, Except.mapError, Token.moved, word, part, stop]

/-- What is found before a line end is found without what stands behind it. -/
theorem tokensFrom_append_lineEnd (h : isLineEnd d = true) (place : Nat) (a b : Text) :
    tokensFrom place (a ++ d :: b) = (tokensFrom place a).bind fun words =>
      (tokensFrom (place + a.length + 1) b).map (words.dropLast ++ ·) := by
  fun_induction tokensFrom place a with
  | case1 place =>
    rw [List.nil_append, tokensFrom_blank _ (isBlank_of_isLineEnd h)]
    cases hb : tokensFrom (place + 1) b <;> simp [Except.bind, Except.map]
  | case2 place c rest hb ih =>
    rw [List.cons_append, tokensFrom_blank _ hb, ih, List.length_cons, Nat.add_right_comm place,
      ← Nat.add_assoc]
  | case3 place c rest hb hs comment ih =>
    have hline : ∀ e ∈ (d :: b).head?, (!isLineEnd e) = false := by
      rintro _ ⟨⟩
      simp [h]
    have hlong : startsComment (c :: (rest ++ d :: b)) = true :=
      (startsComment_append_lineEnd h (c :: rest) b).trans hs
    have hlength := length_word c rest fun e => !isLineEnd e
    rw [List.cons_append, tokensFrom, if_neg hb, if_pos hlong, takeWhile_append_stop rest hline,
      dropWhile_append_stop rest hline, ih, ← hlength, List.length_cons]
    simp only [comment, Nat.add_assoc, Nat.add_comm 1]
  | case4 place c rest hb hs part word cause hcause =>
    have hlong := (startsComment_append_lineEnd h (c :: rest) b).trans (by simpa using hs)
    have hrefused := @tokensFrom_refused place c (rest ++ d :: b) cause (by simpa using hb) hlong
    rw [wordPart_append_lineEnd h, takeWhile_append_stop rest (stop_lineEnd h c rest)] at hrefused
    rw [List.cons_append, hrefused hcause]
    rfl
  | case5 place c rest hb hs part word kind hkind stop fault hfault ih =>
    have hlong := (startsComment_append_lineEnd h (c :: rest) b).trans (by simpa using hs)
    rw [tokensFrom_word_before (by simpa using hb) hlong (wordPart_append_lineEnd h c rest b)
      (stop_lineEnd h c rest) hkind, ih, hfault]
    rfl
  | case6 place c rest hb hs part word kind hkind stop tokens htokens ih =>
    have hlong := (startsComment_append_lineEnd h (c :: rest) b).trans (by simpa using hs)
    have hlength : place + (c :: rest).length = stop + (rest.dropWhile part).length := by
      rw [← length_word c rest part, ← Nat.add_assoc]
    rw [tokensFrom_word_before (by simpa using hb) hlong (wordPart_append_lineEnd h c rest b)
      (stop_lineEnd h c rest) hkind, ih, htokens, hlength]
    obtain ⟨words, _, rfl⟩ := exists_words htokens
    simp only [Except.bind, ← List.cons_append, List.dropLast_concat]
    cases tokensFrom (stop + (rest.dropWhile part).length + 1) b <;> rfl

end

/-- A line end cuts a text in two. Behind it the tokens are those of the second part, farther on by
all that stands before them; a fault of the first part stands for the whole, and one of the second
part is found if the first has none. -/
theorem tokenize_across_lineEnd {d : Char} (h : isLineEnd d = true) (a b : Text) :
    (∀ fault, tokenize a = .error fault → tokenize (a ++ d :: b) = .error fault) ∧
    ∀ tokens, tokenize a = .ok tokens → ∃ words, (∀ t ∈ words, t.kind ≠ .finish) ∧
      tokens = words ++ [⟨.finish, [], a.length, a.length⟩] ∧
      (∀ more, tokenize b = .ok more →
        tokenize (a ++ d :: b) = .ok (words ++ more.map (Token.moved (a.length + 1)))) ∧
      ∀ fault, tokenize b = .error fault → ∃ cause word p, fault = .word cause word p ∧
        tokenize (a ++ d :: b) = .error (.word cause word (a.length + 1 + p)) := by
  have hsplit := tokensFrom_append_lineEnd h 0 a b
  have hbehind := tokensFrom_moved (a.length + 1) 0 b
  rw [← Nat.add_assoc] at hbehind
  rw [hbehind] at hsplit
  refine ⟨fun fault ha => ?_, fun tokens ha => ?_⟩
  · rw [tokenize] at ha
    rw [tokenize, hsplit, ha]
    rfl
  · obtain ⟨words, hwords, rfl⟩ := exists_words ha
    rw [tokenize] at ha
    rw [ha] at hsplit
    simp only [Except.bind, List.dropLast_concat] at hsplit
    refine ⟨words, hwords, by rw [Nat.zero_add], fun more hb => ?_, fun fault hb => ?_⟩
    · rw [tokenize] at hb
      rw [tokenize, hsplit, hb]
      rfl
    · obtain ⟨cause, word, p, rfl⟩ := fault_of_tokensFrom hb
      rw [tokenize] at hb
      refine ⟨cause, word, p, rfl, ?_⟩
      rw [tokenize, hsplit, hb, Int.add_comm]
      rfl

theorem tokenize_across_lineEnd_comment :
    let a := "+ NB. ]".toList
    let b := "i.x )".toList
    isLineEnd '\r' = true ∧ tokenize a = .ok [⟨.verb, ['+'], 0, 1⟩, ⟨.finish, [], 7, 7⟩] ∧
      tokenize b = .error (.word .unsupportedName ['x'] 2) ∧
      tokenize (a ++ '\r' :: b) = .error (.word .unsupportedName ['x'] 10) := by
  intro a b
  have ha : tokenize a = .ok [⟨.verb, ['+'], 0, 1⟩, ⟨.finish, [], 7, 7⟩] := by decide +kernel
  have hb : tokenize b = .error (.word .unsupportedName ['x'] 2) := by decide +kernel
  obtain ⟨_, _, _, _, hfault⟩ := (@tokenize_across_lineEnd '\r' rfl a b).2 _ ha
  obtain ⟨cause, word, p, heq, hjoined⟩ := hfault _ hb
  cases heq
  exact ⟨rfl, ha, hb, hjoined⟩

end JCalc
