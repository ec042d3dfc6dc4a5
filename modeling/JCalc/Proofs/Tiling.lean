import JCalc.Proofs.WordsOfLine

/-! A line that is cut into tokens is tiled by them. The tokens are those of the words that it
writes, so they stand where the words do, and between them stands what separates the words. -/

namespace JCalc

/-- How far a comment at the place `j` of a line reaches. -/
def commentLength (text : Text) (j : Nat) : Nat :=
  ((text.drop j).takeWhile fun d => !isLineEnd d).length

/-- A word could begin at the place `j`: at the beginning, after a blank or after a token. -/
def BeginsWord (text : Text) (tokens : List Token) (j : Nat) : Prop :=
  j = 0 ∨ (∃ c ∈ text[j - 1]?, isBlank c = true) ∨ ∃ t ∈ tokens, t.stop = j

structure CommentAt (text : Text) (tokens : List Token) (j : Nat) : Prop where
  opens : startsComment (text.drop j) = true
  beginsWord : BeginsWord text tokens j
  free : ∀ t ∈ tokens, t.stop ≤ j ∨ (j + commentLength text j : Nat) ≤ t.place

/-- The tokens stand in the line one after the other, each as long as a word can be there, and what
they leave out is blanks and comments. -/
structure Tiles (text : Text) (tokens : List Token) : Prop where
  spans : ∀ t ∈ tokens, 0 ≤ t.place ∧ t.place < t.stop ∧ t.stop ≤ text.length ∧
    text.extract t.place.toNat t.stop.toNat = t.text
  ordered : tokens.Pairwise fun t u => t.stop ≤ u.place
  words : ∀ t ∈ tokens, ∃ w : Word, w.WellFormed ∧ t.kind = w.kind ∧ t.text = w.text ∧
    ∀ c ∈ text[t.stop.toNat]?, w.goesOn c = false
  skipped : ∀ (i : Nat) (c : Char), text[i]? = some c → (∃ t ∈ tokens, t.place ≤ i ∧ i < t.stop) ∨
    isBlank c = true ∨ ∃ j, CommentAt text tokens j ∧ j ≤ i ∧ i < j + commentLength text j

section

variable {last : Bool} {text before gap after : Text} {tokens : List Token} {ws : List Spaced}

theorem commentAt_of_body {body rest : Text}
    (htext : text = before ++ 'N' :: 'B' :: '.' :: (body ++ rest))
    (hb : ∀ d ∈ body, isLineEnd d = false) (hr : ∀ d ∈ rest.head?, isLineEnd d = true)
    (hstart : BeginsWord text tokens before.length)
    (hfree : ∀ t ∈ tokens, t.stop ≤ before.length ∨
      (before.length + (3 + body.length) : Nat) ≤ t.place) :
    CommentAt text tokens before.length ∧ commentLength text before.length = 3 + body.length := by
  have hdrop : text.drop before.length = ['N', 'B', '.'] ++ body ++ rest := by
    rw [htext, List.drop_left]
    simp
  have hall : ∀ d ∈ ['N', 'B', '.'] ++ body, (!isLineEnd d) = true := by
    intro d hd
    rcases List.mem_append.mp hd with hd | hd
    · have hmark : ∀ d ∈ ['N', 'B', '.'], (!isLineEnd d) = true := by simp [isLineEnd]
      exact hmark d hd
    · simp [hb d hd]
  have hlength : commentLength text before.length = 3 + body.length := by
    rw [commentLength, hdrop, takeWhile_append_of_stop hall fun d hd => by simp [hr d hd]]
    rw [List.length_append]
    rfl
  refine ⟨⟨?_, hstart, ?_⟩, hlength⟩
  · rw [hdrop]
    rfl
  · rwa [hlength]

theorem beginsWord_of_blank {c : Char} {rest : Text} (htext : text = before ++ c :: rest)
    (hc : isBlank c = true) : BeginsWord text tokens (before ++ [c]).length := by
  right
  left
  refine ⟨c, ?_, hc⟩
  rw [htext]
  simp

theorem skipped_of_separator {start stop : Nat}
    (hfree : ∀ t ∈ tokens, t.stop ≤ start ∨ (stop : Int) ≤ t.place) (h : Separator last gap)
    (htext : text = before ++ (gap ++ after)) (hlast : last = true → after = [])
    (hbegins : BeginsWord text tokens before.length) (hstart : start ≤ before.length)
    (hstop : before.length + gap.length = stop) {i : Nat} {d : Char} (hd : text[i]? = some d)
    (hi : before.length ≤ i) (hi' : i < stop) :
    isBlank d = true ∨ ∃ j, CommentAt text tokens j ∧ j ≤ i ∧ i < j + commentLength text j := by
  -- `before` takes in what is passed, so that a comment keeps its place in the whole line.
  induction h generalizing before with
  | nil =>
    rw [List.length_nil] at hstop
    omega
  | @blank c t hc ht ih =>
    by_cases heq : i = before.length
    · left
      obtain rfl : c = d := by simpa [htext, heq] using hd
      exact hc
    · have hlength : (before ++ [c]).length = before.length + 1 := by simp
      rw [List.length_cons] at hstop
      refine ih (by simp [htext]) (beginsWord_of_blank htext hc) ?_ ?_ ?_ <;> omega
  | @comment body c t hb hc ht ih =>
    simp only [List.length_cons, List.length_append] at hstop
    have hcut : text = before ++ 'N' :: 'B' :: '.' :: (body ++ c :: (t ++ after)) := by simp [htext]
    have hend : ∀ e ∈ (c :: (t ++ after)).head?, isLineEnd e = true := by
      rintro e ⟨⟩
      exact hc
    obtain ⟨hcomment, hlength⟩ := commentAt_of_body hcut hb hend hbegins fun u hu => by
      have := hfree u hu
      omega
    by_cases hin : i < before.length + (3 + body.length)
    · right
      exact ⟨before.length, hcomment, hi, hlength ▸ hin⟩
    · let before' := before ++ 'N' :: 'B' :: '.' :: body
      have hlength' : before'.length = before.length + (3 + body.length) := by
        rw [List.length_append]
        simp only [List.length_cons]
        omega
      have hcut' : text = before' ++ c :: (t ++ after) := by simp [hcut, before']
      by_cases heq : i = before'.length
      · left
        obtain rfl : c = d := by simpa [hcut', heq] using hd
        exact isBlank_of_isLineEnd hc
      · have hone : (before' ++ [c]).length = before'.length + 1 := by simp
        refine ih (by simp [hcut']) (beginsWord_of_blank hcut' (isBlank_of_isLineEnd hc)) ?_ ?_ ?_ <;>
          omega
  | @openComment body hl hb =>
    simp only [List.length_cons] at hstop
    have hcut : text = before ++ 'N' :: 'B' :: '.' :: (body ++ []) := by simp [htext, hlast hl]
    obtain ⟨hcomment, hlength⟩ := commentAt_of_body hcut hb nofun hbegins fun u hu => by
      have := hfree u hu
      omega
    right
    exact ⟨before.length, hcomment, hi, by omega⟩

theorem written_append (pre post : List Spaced) :
    written (pre ++ post) = written pre ++ written post :=
  List.flatMap_append

theorem wordTokens_append (place : Nat) (pre post : List Spaced) :
    wordTokens place (pre ++ post) =
      wordTokens place pre ++ wordTokens (place + (written pre).length) post := by
  induction pre generalizing place with
  | nil => rfl
  | cons w pre ih =>
    rw [List.cons_append, wordTokens, ih, length_written_cons, wordTokens, List.cons_append,
      Nat.add_assoc]

theorem exists_of_mem_wordTokens {place : Nat} {t : Token} (h : t ∈ wordTokens place ws) :
    ∃ pre w post, ws = pre ++ w :: post ∧ t = w.word.token (place + (written pre).length) := by
  induction ws generalizing place with
  | nil => cases h
  | cons w ws ih =>
    rcases List.mem_cons.mp h with rfl | h
    · exact ⟨[], w, ws, rfl, rfl⟩
    · obtain ⟨pre, v, post, rfl, rfl⟩ := ih h
      refine ⟨w :: pre, v, post, rfl, ?_⟩
      rw [length_written_cons, Nat.add_assoc]

theorem Legible.of_append {pre post : List Spaced} (h : Legible (pre ++ post)) : Legible post := by
  induction pre with
  | nil => exact h
  | cons w pre ih =>
    cases h with
    | cons _ _ _ hws => exact ih hws

theorem exists_of_lt_written {k : Nat} (hk : k < (written ws).length) :
    ∃ pre w post, ws = pre ++ w :: post ∧ (written pre).length ≤ k ∧
      k < (written pre).length + w.text.length := by
  induction ws generalizing k with
  | nil => cases hk
  | cons w ws ih =>
    rw [length_written_cons] at hk
    by_cases hw : k < w.text.length
    · exact ⟨[], w, ws, rfl, Nat.zero_le _, by simpa [written] using hw⟩
    · obtain ⟨pre, v, post, rfl, hle, hlt⟩ := @ih (k - w.text.length) (by omega)
      refine ⟨w :: pre, v, post, rfl, ?_, ?_⟩ <;> rw [length_written_cons] <;> omega

theorem bounds_of_mem_wordTokens (hws : ∀ w ∈ ws, w.word.WellFormed) {place : Nat} {t : Token}
    (h : t ∈ wordTokens place ws) :
    place ≤ t.place ∧ t.place < t.stop ∧ t.stop ≤ (place + (written ws).length : Nat) := by
  obtain ⟨pre, w, post, rfl, rfl⟩ := exists_of_mem_wordTokens h
  have hpos : 0 < w.word.text.length := length_word_pos (hws w (by simp))
  have hlength : (written (pre ++ w :: post)).length =
      (written pre).length + (w.word.text.length + w.gap.length + (written post).length) := by
    rw [written_append, List.length_append, length_written_cons, Spaced.text, List.length_append]
  simp only [Word.token, hlength]
  omega

theorem ordered_wordTokens (hws : Legible ws) (place : Nat) :
    (wordTokens place ws).Pairwise fun t u => t.stop ≤ u.place := by
  induction hws generalizing place with
  | nil => exact .nil
  | @cons w ws _ _ _ hws ih =>
    refine List.pairwise_cons.mpr ⟨fun u hu => ?_, ih _⟩
    have hbounds := bounds_of_mem_wordTokens hws.wellFormed hu
    have hlength : w.text.length = w.word.text.length + w.gap.length := List.length_append
    simp only [Word.token]
    omega

theorem extract_middle (before t after : Text) :
    (before ++ (t ++ after)).extract before.length (before.length + t.length) = t := by
  rw [List.extract_eq_take_drop, List.drop_left, Nat.add_sub_cancel_left, List.take_left]

theorem getElem?_behind (before t after : Text) :
    (before ++ (t ++ after))[before.length + t.length]? = after.head? := by
  rw [← List.append_assoc, ← List.length_append, List.getElem?_append_right (Nat.le_refl _),
    Nat.sub_self, List.head?_eq_getElem?]

theorem split_written (lead : Text) (pre post : List Spaced) (w : Spaced) :
    lead ++ written (pre ++ w :: post) =
      (lead ++ written pre) ++ (w.word.text ++ (w.gap ++ written post)) := by
  rw [written_append]
  simp [written, Spaced.text]

theorem extract_of_mem_wordTokens {lead : Text} {t : Token} (h : t ∈ wordTokens lead.length ws) :
    (lead ++ written ws).extract t.place.toNat t.stop.toNat = t.text := by
  obtain ⟨pre, w, post, rfl, rfl⟩ := exists_of_mem_wordTokens h
  have hplace : lead.length + (written pre).length = (lead ++ written pre).length :=
    List.length_append.symm
  rw [split_written, hplace]
  exact extract_middle _ _ _

section

variable {pre post : List Spaced} {w : Spaced}

theorem goesOn_stop (lead : Text) (hws : Legible (pre ++ w :: post)) :
    ∀ c ∈ (lead ++ written (pre ++ w :: post))[
        (w.word.token (lead.length + (written pre).length)).stop.toNat]?, w.word.goesOn c = false := by
  intro c hc
  have hstop : (w.word.token (lead.length + (written pre).length)).stop.toNat =
      (lead ++ written pre).length + w.word.text.length := by
    rw [List.length_append]
    rfl
  rw [hstop, split_written, getElem?_behind] at hc
  cases hws.of_append with
  | cons _ hg hends hpost => exact goesOn_head? hg hends hpost c hc

theorem wordTokens_around (place : Nat) (pre post : List Spaced) (w : Spaced) :
    wordTokens place (pre ++ w :: post) = wordTokens place pre ++
      w.word.token (place + (written pre).length) ::
        wordTokens (place + (written pre).length + w.text.length) post := by
  rw [wordTokens_append, wordTokens]

theorem outside_gap (hws : ∀ v ∈ pre ++ w :: post, v.word.WellFormed) {place : Nat} {t : Token}
    (h : t ∈ wordTokens place (pre ++ w :: post)) :
    t.stop ≤ (place + (written pre).length + w.word.text.length : Nat) ∨
      (place + (written pre).length + w.text.length : Nat) ≤ t.place := by
  rw [wordTokens_around] at h
  rcases List.mem_append.mp h with h | h
  · left
    have hbounds := bounds_of_mem_wordTokens (fun v hv => hws v (by simp [hv])) h
    omega
  · rcases List.mem_cons.mp h with rfl | h
    · left
      exact Int.le_refl _
    · right
      exact (bounds_of_mem_wordTokens (fun v hv => hws v (by simp [hv])) h).1

theorem skipped_gap (lead : Text) (hws : Legible (pre ++ w :: post)) {i : Nat} {c : Char}
    (hc : (lead ++ written (pre ++ w :: post))[i]? = some c)
    (hi : lead.length + (written pre).length + w.word.text.length ≤ i)
    (hi' : i < lead.length + (written pre).length + w.text.length) :
    isBlank c = true ∨
      ∃ j, CommentAt (lead ++ written (pre ++ w :: post))
          (wordTokens lead.length (pre ++ w :: post)) j ∧ j ≤ i ∧ i < j + commentLength (lead ++ written (pre ++ w :: post)) j := by
  let before := lead ++ written pre ++ w.word.text
  have hbefore : before.length = lead.length + (written pre).length + w.word.text.length := by
    simp [before, Nat.add_assoc]
  have htext : lead ++ written (pre ++ w :: post) = before ++ (w.gap ++ written post) := by
    rw [split_written, ← List.append_assoc]
  have hlength : w.text.length = w.word.text.length + w.gap.length := List.length_append
  have hbegins : BeginsWord (lead ++ written (pre ++ w :: post))
      (wordTokens lead.length (pre ++ w :: post)) before.length := by
    right
    right
    refine ⟨w.word.token (lead.length + (written pre).length), by simp [wordTokens_around], ?_⟩
    rw [hbefore]
    rfl
  have hfree : ∀ t ∈ wordTokens lead.length (pre ++ w :: post), t.stop ≤ before.length ∨
      ((before.length + w.gap.length : Nat) : Int) ≤ t.place := by
    intro t ht
    have houtside := outside_gap hws.wellFormed ht
    omega
  cases hws.of_append with
  | cons _ hg _ _ =>
    refine skipped_of_separator hfree hg htext written_of_isEmpty hbegins (Nat.le_refl _) rfl hc
      ?_ ?_ <;> omega

end

theorem skipped_written {lead : Text} (hlead : Separator ws.isEmpty lead) (hws : Legible ws) {i : Nat}
    {c : Char} (hc : (lead ++ written ws)[i]? = some c) :
    (∃ t ∈ wordTokens lead.length ws, t.place ≤ i ∧ i < t.stop) ∨ isBlank c = true ∨
      ∃ j, CommentAt (lead ++ written ws) (wordTokens lead.length ws) j ∧ j ≤ i ∧
        i < j + commentLength (lead ++ written ws) j := by
  have hi : i < lead.length + (written ws).length := by
    rw [← List.length_append]
    exact (List.getElem?_eq_some_iff.mp hc).1
  by_cases hfirst : i < lead.length
  · right
    have hfree : ∀ t ∈ wordTokens lead.length ws, t.stop ≤ (0 : Nat) ∨ (lead.length : Int) ≤ t.place :=
      fun t ht => .inr (bounds_of_mem_wordTokens hws.wellFormed ht).1
    have htext : lead ++ written ws = [] ++ (lead ++ written ws) := rfl
    exact skipped_of_separator hfree hlead htext written_of_isEmpty (.inl rfl) (Nat.le_refl 0)
      (Nat.zero_add _) hc (Nat.zero_le i) hfirst
  · have hk : i - lead.length < (written ws).length := by omega
    obtain ⟨pre, w, post, rfl, hle, hlt⟩ := exists_of_lt_written hk
    by_cases hin : i < lead.length + (written pre).length + w.word.text.length
    · left
      refine ⟨w.word.token (lead.length + (written pre).length), by simp [wordTokens_around], ?_, ?_⟩
      · simp only [Word.token]
        omega
      · simp only [Word.token]
        omega
    · right
      apply skipped_gap lead hws hc
      · omega
      · omega

theorem tiles_written {lead : Text} (hlead : Separator ws.isEmpty lead) (hws : Legible ws) :
    Tiles (lead ++ written ws) (wordTokens lead.length ws) where
  spans := by
    intro t ht
    obtain ⟨hlow, hlt, hhigh⟩ := bounds_of_mem_wordTokens hws.wellFormed ht
    rw [← List.length_append] at hhigh
    exact ⟨by omega, hlt, hhigh, extract_of_mem_wordTokens ht⟩
  ordered := ordered_wordTokens hws _
  words := by
    intro t ht
    obtain ⟨pre, w, post, rfl, rfl⟩ := exists_of_mem_wordTokens ht
    exact ⟨w.word, hws.wellFormed w (by simp), rfl, rfl, goesOn_stop lead hws⟩
  skipped := fun _ _ hc => skipped_written hlead hws hc

end

/-- The tokens of a line before the last one stand in it one after the other. Each is a word and
ends where nothing follows that would go on it. All else in the line is blank or in a comment, which
begins where a word could and reaches up to the next line end. The last token marks the end. -/
theorem tokens_tile_line {text : Text} {tokens : List Token} (h : tokenize text = .ok tokens) :
    ∃ words, tokens = words ++ [⟨.finish, [], text.length, text.length⟩] ∧ Tiles text words := by
  obtain ⟨lead, ws, hlead, hws, rfl⟩ := exists_written 0 text tokens h
  refine ⟨wordTokens lead.length ws, ?_, tiles_written hlead hws⟩
  exact Except.ok.inj (h.symm.trans (tokenize_eq_ok hlead hws))

theorem tokens_tile_line_of_comments :
    let text := "NB.(\n_1 -.NB.)".toList
    let tokens : List Token := [⟨.number (.ofReal (Extended.ofNat 1).neg), ['_', '1'], 5, 7⟩,
      ⟨.verb, ['-', '.'], 8, 10⟩, ⟨.finish, [], 14, 14⟩]
    tokenize text = .ok tokens ∧
      ∃ words, tokens = words ++ [⟨.finish, [], text.length, text.length⟩] ∧ Tiles text words := by
  intro text tokens
  have h : tokenize text = .ok tokens := by decide +kernel
  exact ⟨h, tokens_tile_line h⟩

end JCalc
