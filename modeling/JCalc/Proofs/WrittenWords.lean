import JCalc.Proofs.CutAtParens

/-! Lines as they are written: words, and blanks and comments between them. Words may touch each
other unless the first is a number and the second would go on it. Whatever stands between the
words, the line is cut into just these words. -/

namespace JCalc

inductive Word where
  | number (l : Literal)
  | verb (v : Verb)
  | leftParen
  | rightParen

namespace Word

def text : Word → Text
  | number l => l.text
  | verb v => v.spelling
  | leftParen => ['(']
  | rightParen => [')']

def kind : Word → TokenKind
  | number l => .number l.value
  | verb _ => .verb
  | leftParen => .leftParen
  | rightParen => .rightParen

def WellFormed : Word → Prop
  | number l => l.WellFormed
  | _ => True

/-- The characters that would go on the word. -/
def goesOn : Word → Char → Bool
  | number _ => isNumberPart
  | verb _ => isInflection
  | _ => fun _ => false

/-- Whether the word would go on a number right before it. -/
def continuesNumber : Word → Bool
  | number _ => true
  | verb .integers => true
  | _ => false

def token (w : Word) (place : Nat) : Token := ⟨w.kind, w.text, place, (place + w.text.length : Nat)⟩

end Word

/-- Blanks and comments. A comment runs up to a line end; after the last word it may also run up to
the end of the text. -/
inductive Separator (last : Bool) : Text → Prop where
  | nil : Separator last []
  | blank {c : Char} {t : Text} (hc : isBlank c = true) (ht : Separator last t) :
      Separator last (c :: t)
  | comment {body : Text} {c : Char} {t : Text} (hb : ∀ d ∈ body, isLineEnd d = false)
      (hc : isLineEnd c = true) (ht : Separator last t) :
      Separator last ('N' :: 'B' :: '.' :: (body ++ c :: t))
  | openComment {body : Text} (hl : last = true) (hb : ∀ d ∈ body, isLineEnd d = false) :
      Separator last ('N' :: 'B' :: '.' :: body)

/-- A word and what stands between it and the next one. -/
structure Spaced where
  word : Word
  gap : Text

def Spaced.text (w : Spaced) : Text := w.word.text ++ w.gap

/-- A number ends before a blank, or right before a word that would not go on it. -/
def Spaced.EndsBefore (w : Spaced) (ws : List Spaced) : Prop :=
  ∀ l, w.word = .number l → (∃ c ∈ w.gap.head?, isBlank c = true) ∨
    (w.gap = [] ∧ ∀ next ∈ ws.head?, next.word.continuesNumber = false)

inductive Legible : List Spaced → Prop where
  | nil : Legible []
  | cons {w : Spaced} {ws : List Spaced} (hw : w.word.WellFormed) (hg : Separator ws.isEmpty w.gap)
      (he : w.EndsBefore ws) (hws : Legible ws) : Legible (w :: ws)

def written (ws : List Spaced) : Text := ws.flatMap Spaced.text

def wordTokens : Nat → List Spaced → List Token
  | _, [] => []
  | place, w :: ws => w.word.token place :: wordTokens (place + w.text.length) ws

theorem isBlank_of_isNumberPart {c : Char} (h : isNumberPart c = true) : isBlank c = false := by
  have hrange {l u : Char} (hl : ' ' < l) (hu : u < '\x7f') (hc : l ≤ c ∧ c ≤ u) :
      isBlank c = false := by
    have hlow : ' ' < c := Char.not_le.mp fun h => Char.not_le.mpr hl (Char.le_trans hc.1 h)
    have hhigh : c < '\x7f' := Char.not_le.mp fun h => Char.not_le.mpr hu (Char.le_trans h hc.2)
    exact isBlank_eq_false hlow hhigh
  simp only [isNumberPart, isDigit, isLetter, Bool.or_eq_true, Bool.and_eq_true, beq_iff_eq,
    decide_eq_true_eq] at h
  rcases h with ((rfl | rfl) | h) | h | h
  · decide
  · decide
  · exact hrange (by decide) (by decide) h
  · exact hrange (by decide) (by decide) h
  · exact hrange (by decide) (by decide) h

theorem isBlank_of_isInflection {c : Char} (h : isInflection c = true) : isBlank c = false := by
  simp only [isInflection, Bool.or_eq_true, beq_iff_eq] at h
  rcases h with rfl | rfl <;> decide

namespace Word

theorem isBlank_of_goesOn {w : Word} {c : Char} (h : w.goesOn c = true) : isBlank c = false := by
  cases w with
  | number l => exact isBlank_of_isNumberPart h
  | verb v => exact isBlank_of_isInflection h
  | leftParen => cases h
  | rightParen => cases h

theorem text_eq_cons {w : Word} (h : w.WellFormed) :
    ∃ c rest, w.text = c :: rest ∧ isBlank c = false ∧ c ≠ 'N' ∧ isInflection c = false ∧
      isNumberPart c = w.continuesNumber := by
  cases w with
  | number l =>
    obtain ⟨c, rest, ht, hc⟩ := Literal.WellFormed.text_eq_cons h
    refine ⟨c, rest, ht, isBlank_of_isNumberStart hc, ?_, ?_, ?_⟩
    · rintro rfl
      exact absurd hc (by decide)
    · by_contra hi
      simp only [Bool.not_eq_false, isInflection, Bool.or_eq_true, beq_iff_eq] at hi
      rcases hi with rfl | rfl <;> exact absurd hc (by decide)
    · simp only [isNumberStart, Bool.or_eq_true] at hc
      rcases hc with hc | hc <;> simp [isNumberPart, continuesNumber, hc]
  | verb v => cases v <;> exact ⟨_, _, rfl, by decide, by decide, by decide, by decide⟩
  | leftParen => exact ⟨_, _, rfl, by decide, by decide, by decide, by decide⟩
  | rightParen => exact ⟨_, _, rfl, by decide, by decide, by decide, by decide⟩

end Word

theorem isBlank_of_isLineEnd {c : Char} (h : isLineEnd c = true) : isBlank c = true := by
  simp only [isLineEnd, Bool.or_eq_true, beq_iff_eq] at h
  rcases h with rfl | rfl <;> decide

section

variable {last : Bool} {lead gap rest : Text} {w : Spaced} {ws : List Spaced}

theorem Separator.head_eq (h : Separator last gap) :
    ∀ c ∈ gap.head?, isBlank c = true ∨ c = 'N' := by
  cases h with
  | nil => exact nofun
  | blank hc _ =>
    rintro _ ⟨⟩
    exact .inl hc
  | comment _ _ _ =>
    rintro _ ⟨⟩
    exact .inr rfl
  | openComment _ _ =>
    rintro _ ⟨⟩
    exact .inr rfl

theorem head?_written_cons (hw : w.word.WellFormed) :
    (written (w :: ws)).head? = w.word.text.head? := by
  obtain ⟨c, rest, ht, _⟩ := Word.text_eq_cons hw
  simp [written, Spaced.text, ht]

theorem goesOn_head? (hg : Separator ws.isEmpty w.gap) (he : w.EndsBefore ws) (hws : Legible ws) :
    ∀ c ∈ (w.gap ++ written ws).head?, w.word.goesOn c = false := by
  intro c hc
  rcases hgap : w.gap with _ | ⟨d, gap⟩
  · rw [hgap, List.nil_append] at hc
    cases hws with
    | nil => cases hc
    | @cons next more hw _ _ _ =>
      rw [head?_written_cons hw] at hc
      obtain ⟨d, rest, ht, _, _, hinflection, hpart⟩ := Word.text_eq_cons hw
      obtain rfl : d = c := by simpa [ht] using hc
      cases hword : w.word with
      | number l =>
        rcases he l hword with ⟨_, hd, _⟩ | ⟨_, hnext⟩
        · simp [hgap] at hd
        · exact hpart.trans (hnext next rfl)
      | verb v => exact hinflection
      | leftParen => rfl
      | rightParen => rfl
  · obtain rfl : d = c := by simpa [hgap] using hc
    have hblank (h : isBlank d = true) : w.word.goesOn d = false := by
      by_contra hon
      rw [Word.isBlank_of_goesOn (by simpa using hon)] at h
      cases h
    rcases hg.head_eq d (by simp [hgap]) with hd | rfl
    · exact hblank hd
    · cases hword : w.word with
      | number l =>
        rcases he l hword with ⟨b, hb, hbb⟩ | ⟨hnil, _⟩
        · obtain rfl : 'N' = b := by simpa [hgap] using hb
          exact absurd hbb (by decide)
        · simp [hgap] at hnil
      | verb v => rfl
      | leftParen => rfl
      | rightParen => rfl

theorem tokensFrom_comment (place : Nat) (text : Text) :
    tokensFrom place ('N' :: 'B' :: '.' :: text) =
      tokensFrom (place + (3 + (text.takeWhile fun d => !isLineEnd d).length))
        (text.dropWhile fun d => !isLineEnd d) := by
  have hb : isBlank 'N' = false := by decide
  have hs : startsComment ('N' :: 'B' :: '.' :: text) = true := rfl
  have hB : isLineEnd 'B' = false := by decide
  have hdot : isLineEnd '.' = false := by decide
  rw [tokensFrom, hb, hs]
  simp only [Bool.false_eq_true, if_false, if_true, List.takeWhile_cons, List.dropWhile_cons, hB, hdot,
    Bool.not_false, List.length_cons]
  congr 1
  omega

theorem Verb.spelling_eq_cons (v : Verb) :
    ∃ c tail, v.spelling = c :: tail ∧ isBlank c = false ∧ (∀ d ∈ tail, isInflection d = true) ∧
      TokenKind.ofWord v.spelling = .ok .verb ∧ ∀ rest, startsComment (c :: rest) = false ∧
        wordPart c (tail ++ rest) = isInflection := by
  cases v <;>
    refine ⟨_, _, rfl, by decide, by simp [isInflection], by decide, fun rest => ⟨rfl, rfl⟩⟩

theorem tokensFrom_verb (v : Verb) (hr : ∀ c ∈ rest.head?, isInflection c = false) (place : Nat) :
    tokensFrom place (v.spelling ++ rest) = (tokensFrom (place + v.spelling.length) rest).map
      (⟨.verb, v.spelling, place, (place + v.spelling.length : Nat)⟩ :: ·) := by
  obtain ⟨c, tail, hv, hb, htail, hk, hstart⟩ := v.spelling_eq_cons
  have hword := @tokensFrom_word place c (tail ++ rest) .verb hb (hstart _).1
  rw [(hstart rest).2, takeWhile_append_of_stop htail hr, dropWhile_append_of_stop htail hr, ← hv]
    at hword
  have hcons : v.spelling ++ rest = c :: (tail ++ rest) := by rw [hv, List.cons_append]
  rw [hcons]
  exact hword hk

theorem tokensFrom_wordText {w : Word} (hw : w.WellFormed) (hr : ∀ c ∈ rest.head?, w.goesOn c = false)
    (place : Nat) : tokensFrom place (w.text ++ rest) =
      (tokensFrom (place + w.text.length) rest).map (w.token place :: ·) := by
  cases w with
  | number l => exact tokensFrom_literal hw hr place
  | verb v => exact tokensFrom_verb v hr place
  | leftParen => exact tokensFrom_paren (.inl rfl) rfl place rest
  | rightParen => exact tokensFrom_paren (.inr rfl) rfl place rest

theorem tokensFrom_separator (h : Separator last gap) (hr : last = true → rest = []) (place : Nat) :
    tokensFrom place (gap ++ rest) = tokensFrom (place + gap.length) rest := by
  induction h generalizing place with
  | nil => rfl
  | blank hc _ ih =>
    rw [List.cons_append, tokensFrom_blank place hc, ih, List.length_cons, Nat.add_right_comm,
      Nat.add_assoc]
  | @comment body c t hb hc _ ih =>
    have hbody : ∀ d ∈ body, (!isLineEnd d) = true := fun d hd => by simp [hb d hd]
    have hstop : ∀ d ∈ (c :: (t ++ rest)).head?, (!isLineEnd d) = false := by
      rintro _ ⟨⟩
      simp [hc]
    simp only [List.cons_append, List.append_assoc]
    rw [tokensFrom_comment, takeWhile_append_of_stop hbody hstop, dropWhile_append_of_stop hbody hstop,
      tokensFrom_blank _ (isBlank_of_isLineEnd hc), ih]
    simp only [List.length_cons, List.length_append]
    congr 1
    omega
  | @openComment body hl hb =>
    have hbody : ∀ d ∈ body, (!isLineEnd d) = true := fun d hd => by simp [hb d hd]
    rw [hr hl, List.append_nil, tokensFrom_comment, List.takeWhile_eq_self_iff.mpr hbody,
      List.dropWhile_eq_nil_iff.mpr hbody]
    simp only [List.length_cons]
    congr 1
    omega

theorem length_written_cons (w : Spaced) (ws : List Spaced) :
    (written (w :: ws)).length = w.text.length + (written ws).length := by
  rw [written, List.flatMap_cons, List.length_append]
  rfl

theorem written_of_isEmpty (h : ws.isEmpty = true) : written ws = [] := by
  rw [List.isEmpty_iff.mp h]
  rfl

theorem tokensFrom_written (hws : Legible ws) (place : Nat) :
    tokensFrom place (written ws) = .ok (wordTokens place ws ++
      [⟨.finish, [], (place + (written ws).length : Nat), (place + (written ws).length : Nat)⟩]) := by
  induction hws generalizing place with
  | nil =>
    rw [written, List.flatMap_nil, tokensFrom]
    rfl
  | @cons w ws hw hg he hws ih =>
    have hsplit : written (w :: ws) = w.word.text ++ (w.gap ++ written ws) := by
      simp [written, Spaced.text]
    have hnext : place + w.word.text.length + w.gap.length = place + w.text.length := by
      rw [Spaced.text, List.length_append, Nat.add_assoc]
    rw [hsplit, tokensFrom_wordText hw (goesOn_head? hg he hws),
      tokensFrom_separator hg written_of_isEmpty, hnext, ih, ← hsplit, length_written_cons,
      ← Nat.add_assoc]
    rfl

theorem tokenize_eq_ok (hlead : Separator ws.isEmpty lead) (hws : Legible ws) :
    tokenize (lead ++ written ws) = .ok (wordTokens lead.length ws ++
      [⟨.finish, [], (lead ++ written ws).length, (lead ++ written ws).length⟩]) := by
  rw [tokenize, tokensFrom_separator hlead written_of_isEmpty, Nat.zero_add, tokensFrom_written hws,
    List.length_append]

end

theorem Legible.wellFormed {ws : List Spaced} (h : Legible ws) : ∀ w ∈ ws, w.word.WellFormed := by
  induction h with
  | nil => exact nofun
  | cons hw _ _ _ ih => exact List.forall_mem_cons.mpr ⟨hw, ih⟩

/-- A line that writes words with blanks and comments around them is cut into these words, each with
its kind and the place where it was written, and a last token at the end of the line. The number of
a literal is the one that its text alone is read as. -/
theorem tokenize_written {lead : Text} {ws : List Spaced} (hlead : Separator ws.isEmpty lead)
    (hws : Legible ws) :
    let line := lead ++ written ws
    tokenize line = .ok (wordTokens lead.length ws ++ [⟨.finish, [], line.length, line.length⟩]) ∧
      ∀ w ∈ ws, ∀ l, w.word = .number l → ∀ place, parseNumber w.word.text place = .ok l.value := by
  refine ⟨tokenize_eq_ok hlead hws, ?_⟩
  intro w hw l hl place
  have hwell := hws.wellFormed w hw
  rw [hl] at hwell ⊢
  exact parseNumber_text hwell place

theorem tokenize_written_touching :
    let lead : Text := ['N', 'B', '.', 'i', '\r']
    let ws : List Spaced :=
      [⟨.number (.decimal ⟨false, ['1'], some [], some (true, ['3'])⟩), []⟩, ⟨.verb .not, []⟩,
        ⟨.verb .integers, ['N', 'B', '.', '1', '\n']⟩,
        ⟨.number (.infinity true), [' ', 'N', 'B', '.']⟩]
    Separator false lead ∧ Legible ws ∧ lead ++ written ws = "NB.i\r1.e_3-.i.NB.1\n__ NB.".toList ∧
      tokenize (lead ++ written ws) = .ok (wordTokens 5 ws ++ [⟨.finish, [], 25, 25⟩]) := by
  intro lead ws
  have hlead : Separator false lead :=
    @Separator.comment _ ['i'] '\r' [] (List.forall_mem_singleton.mpr rfl) rfl .nil
  have hws : Legible ws := by
    refine .cons ⟨nofun, List.forall_mem_singleton.mpr rfl, ?_, ?_⟩ .nil ?_
      (.cons trivial .nil nofun (.cons trivial ?_ nofun (.cons trivial ?_ ?_ .nil)))
    · rintro _ ⟨⟩
      exact nofun
    · rintro _ _ ⟨⟩
      exact ⟨nofun, List.forall_mem_singleton.mpr rfl⟩
    · exact fun _ _ => .inr ⟨rfl, by decide⟩
    · exact @Separator.comment _ ['1'] '\n' [] (List.forall_mem_singleton.mpr rfl) rfl .nil
    · exact .blank (by decide) (@Separator.openComment _ [] rfl nofun)
    · exact fun _ _ => .inl ⟨' ', rfl, by decide⟩
  exact ⟨hlead, hws, by decide, (@tokenize_written lead ws hlead hws).1⟩

end JCalc
