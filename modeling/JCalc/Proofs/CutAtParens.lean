import JCalc.Proofs.LexedTokens
import JCalc.Proofs.Substitution

/-! Texts cut at parentheses. A parenthesis ends the word before it, so a text without
comments makes the same tokens wherever it stands in front of one, their places apart. -/

namespace JCalc

/-- No comment can begin in the text. -/
def NoComment (text : Text) : Prop := ¬ ['N', 'B', '.'] <:+: text

instance : DecidablePred NoComment := fun text =>
  inferInstanceAs (Decidable (¬ ['N', 'B', '.'] <:+: text))

/-- The text is at its end or goes on with a parenthesis. -/
def Stops (rest : Text) : Prop := ∀ c ∈ rest.head?, c = '(' ∨ c = ')'

/-- The tokens that the text makes before an end or a parenthesis, wherever it stands. -/
def CutInto (text : Text) (words : List Token) : Prop :=
  ∀ place rest, Stops rest → ∃ ts : List Token, ts.map Token.unplaced = words ∧
    tokensFrom place (text ++ rest) = (tokensFrom (place + text.length) rest).map (ts ++ ·)

section

variable {text rest : Text} {c : Char}

theorem NoComment.of_suffix {t : Text} (h : NoComment text) (hs : t <:+ text) : NoComment t :=
  fun hi => h (hi.trans hs.isInfix)

theorem Stops.nil : Stops [] := nofun

theorem Stops.paren (h : c = '(' ∨ c = ')') : Stops (c :: rest) := by
  intro d hd
  obtain rfl : c = d := by simpa using hd
  exact h

theorem Stops.head?_eq {d : Char} (h : Stops (d :: rest)) : d = '(' ∨ d = ')' := h d rfl

theorem exists_of_startsComment (h : startsComment text = true) :
    ∃ t, text = 'N' :: 'B' :: '.' :: t := by
  unfold startsComment at h
  split at h
  · exact ⟨_, rfl⟩
  · cases h

theorem startsComment_append (h : NoComment text) (hr : Stops rest) :
    startsComment (text ++ rest) = false := by
  by_contra hs
  obtain ⟨t, ht⟩ := exists_of_startsComment (by simpa using hs)
  have hne {d : Char} {t : Text} (hd : d ≠ '(' ∧ d ≠ ')') (ht : rest = d :: t) : False := by
    subst ht
    exact hr.head?_eq.elim hd.1 hd.2
  rcases text with _ | ⟨n, _ | ⟨b, _ | ⟨p, text⟩⟩⟩ <;>
    simp only [List.nil_append, List.cons_append, List.cons.injEq] at ht
  · exact hne (by decide) ht
  · exact hne (by decide) ht.2
  · exact hne (by decide) ht.2.2
  · obtain ⟨rfl, rfl, rfl, -⟩ := ht
    exact h (List.prefix_append ['N', 'B', '.'] text).isInfix

theorem wordPart_append (hr : Stops rest) : wordPart c (text ++ rest) = wordPart c text := by
  cases text with
  | cons d text => rfl
  | nil =>
    cases rest with
    | nil => rfl
    | cons d rest => rcases hr.head?_eq with rfl | rfl <;> rfl

theorem wordPart_stop (c : Char) (text : Text) (hr : Stops rest) : ∀ d ∈ rest.head?, wordPart c text d = false := by
  intro d hd
  unfold wordPart
  rcases hr d hd with rfl | rfl <;> (repeat' split) <;> rfl

theorem takeWhile_append_stop (text : Text) {p : Char → Bool} (hr : ∀ d ∈ rest.head?, p d = false) :
    (text ++ rest).takeWhile p = text.takeWhile p := by
  induction text with
  | nil =>
    cases rest with
    | nil => rfl
    | cons d rest => simp [hr d rfl]
  | cons d text ih => simp only [List.cons_append, List.takeWhile_cons, ih]

theorem dropWhile_append_stop (text : Text) {p : Char → Bool} (hr : ∀ d ∈ rest.head?, p d = false) :
    (text ++ rest).dropWhile p = text.dropWhile p ++ rest := by
  induction text with
  | nil =>
    cases rest with
    | nil => rfl
    | cons d rest => simp [hr d rfl]
  | cons d text ih =>
    simp only [List.cons_append, List.dropWhile_cons, ih]
    split <;> rfl

theorem ofWord_ne_finish {word : Text} : TokenKind.ofWord word ≠ .ok .finish := by
  intro h
  cases word with
  | nil => cases h
  | cons c rest =>
    simp only [TokenKind.ofWord] at h
    repeat' split at h
    all_goals cases h

variable {kind : TokenKind} {words : List Token}

/-- A word that what follows does not go on is cut off in front of it as at the end of the text. -/
theorem tokensFrom_word_before (hb : isBlank c = false) (hs : startsComment (c :: text ++ rest) = false)
    (hp : wordPart c (text ++ rest) = wordPart c text) (hr : ∀ d ∈ rest.head?, wordPart c text d = false)
    (hk : TokenKind.ofWord (c :: text.takeWhile (wordPart c text)) = .ok kind) (place : Nat) :
    let word := c :: text.takeWhile (wordPart c text)
    tokensFrom place (c :: text ++ rest) =
      (tokensFrom (place + word.length) (text.dropWhile (wordPart c text) ++ rest)).map
        (⟨kind, word, place, (place + word.length : Nat)⟩ :: ·) := by
  have hword := @tokensFrom_word place c (text ++ rest) kind hb hs
  rw [hp, takeWhile_append_stop text hr, dropWhile_append_stop text hr] at hword
  exact hword hk

theorem tokensFrom_word_append (hb : isBlank c = false) (hn : NoComment (c :: text)) (hr : Stops rest)
    (hk : TokenKind.ofWord (c :: text.takeWhile (wordPart c text)) = .ok kind) (place : Nat) :
    let word := c :: text.takeWhile (wordPart c text)
    tokensFrom place (c :: text ++ rest) =
      (tokensFrom (place + word.length) (text.dropWhile (wordPart c text) ++ rest)).map
        (⟨kind, word, place, (place + word.length : Nat)⟩ :: ·) :=
  tokensFrom_word_before hb (startsComment_append hn hr) (wordPart_append hr) (wordPart_stop c text hr) hk
    place

theorem ofWord_of_tokensFrom {place : Nat} {tokens : List Token} (hb : isBlank c = false)
    (hn : NoComment (c :: text)) (hr : Stops rest)
    (h : tokensFrom place (c :: text ++ rest) = .ok tokens) :
    ∃ kind, TokenKind.ofWord (c :: text.takeWhile (wordPart c text)) = .ok kind := by
  have hs := startsComment_append hn hr
  have htake := takeWhile_append_stop text (wordPart_stop c text hr)
  cases hk : TokenKind.ofWord (c :: text.takeWhile (wordPart c text)) with
  | ok kind => exact ⟨kind, rfl⟩
  | error cause =>
    have hrefused := @tokensFrom_refused place c (text ++ rest) cause hb hs
    rw [wordPart_append hr, htake, ← List.cons_append, h] at hrefused
    cases hrefused hk

theorem length_word (c : Char) (text : Text) (p : Char → Bool) :
    (c :: text.takeWhile p).length + (text.dropWhile p).length = (c :: text).length := by
  have hsplit := congrArg List.length (List.takeWhile_append_dropWhile (p := p) (l := text))
  rw [List.length_append] at hsplit
  rw [List.length_cons, List.length_cons]
  omega

theorem CutInto.nil : CutInto [] [] := by
  intro place rest _
  refine ⟨[], rfl, ?_⟩
  cases h : tokensFrom place rest <;> simp [h, Except.map]

theorem CutInto.blank (hb : isBlank c = true) (h : CutInto text words) : CutInto (c :: text) words := by
  intro place rest hr
  obtain ⟨ts, hts, htokens⟩ := h (place + 1) rest hr
  refine ⟨ts, hts, ?_⟩
  rw [List.cons_append, tokensFrom_blank place hb, htokens, List.length_cons,
    show place + 1 + text.length = place + (text.length + 1) by omega]

theorem CutInto.word (hb : isBlank c = false) (hn : NoComment (c :: text))
    (hk : TokenKind.ofWord (c :: text.takeWhile (wordPart c text)) = .ok kind)
    (h : CutInto (text.dropWhile (wordPart c text)) words) :
    CutInto (c :: text) (⟨kind, c :: text.takeWhile (wordPart c text), 0, 0⟩ :: words) := by
  intro place rest hr
  obtain ⟨ts, hts, htokens⟩ := h (place + (c :: text.takeWhile (wordPart c text)).length) rest hr
  refine ⟨⟨kind, c :: text.takeWhile (wordPart c text), place,
    (place + (c :: text.takeWhile (wordPart c text)).length : Nat)⟩ :: ts, by simp [hts, Token.unplaced], ?_⟩
  rw [tokensFrom_word_append hb hn hr hk place, htokens, Nat.add_assoc, length_word]
  cases tokensFrom (place + (c :: text).length) rest <;> rfl

theorem exists_of_map_eq_ok {α β : Type} {f : α → β} {r : Except Fault α} {b : β}
    (h : r.map f = .ok b) : ∃ a, r = .ok a := by
  cases r with
  | error fault => cases h
  | ok a => exact ⟨a, rfl⟩

/-- What is cut into tokens as a whole is cut into tokens before each parenthesis. -/
theorem exists_cutInto {place : Nat} {tokens : List Token} (hn : NoComment text) (hr : Stops rest)
    (h : tokensFrom place (text ++ rest) = .ok tokens) :
    (∃ words, (∀ w ∈ words, w.kind ≠ .finish) ∧ CutInto text words) ∧
      ∃ more, tokensFrom (place + text.length) rest = .ok more := by
  induction hlen : text.length using Nat.strongRecOn generalizing text place tokens with
  | ind n ih =>
    cases text with
    | nil => exact ⟨⟨[], nofun, .nil⟩, tokens, by simpa [← hlen] using h⟩
    | cons c text =>
      rw [List.length_cons] at hlen
      by_cases hb : isBlank c = true
      · rw [List.cons_append, tokensFrom_blank place hb] at h
        obtain ⟨⟨words, hwords, hcut⟩, more, hmore⟩ :=
          ih text.length (by omega) (hn.of_suffix (List.suffix_cons c text)) h rfl
        refine ⟨⟨words, hwords, hcut.blank hb⟩, more, ?_⟩
        rwa [show place + n = place + 1 + text.length by omega]
      · have hb : isBlank c = false := by simpa using hb
        obtain ⟨kind, hk⟩ := ofWord_of_tokensFrom hb hn hr h
        have hlt := length_dropWhile_le (wordPart c text) text
        have hsuffix : NoComment (text.dropWhile (wordPart c text)) :=
          hn.of_suffix ((List.dropWhile_suffix _).trans (List.suffix_cons c text))
        rw [tokensFrom_word_append hb hn hr hk] at h
        obtain ⟨after, hafter⟩ := exists_of_map_eq_ok h
        obtain ⟨⟨words, hwords, hcut⟩, more, hmore⟩ := ih _ (by omega) hsuffix hafter rfl
        refine ⟨⟨_, List.forall_mem_cons.mpr ⟨?_, hwords⟩, hcut.word hb hn hk⟩, more, ?_⟩
        · rintro rfl
          exact ofWord_ne_finish hk
        · rwa [Nat.add_assoc, length_word, List.length_cons, hlen] at hmore

end

theorem dropWhile_wordPart_paren {c : Char} (h : c = '(' ∨ c = ')') (rest : Text) :
    rest.dropWhile (wordPart c rest) = rest := by
  have hp : wordPart c rest = fun _ => false := by
    rcases h with rfl | rfl <;> rfl
  rw [hp]
  cases rest <;> rfl

theorem tokensFrom_paren {c : Char} {kind : TokenKind} (h : c = '(' ∨ c = ')')
    (hk : TokenKind.ofWord [c] = .ok kind) (place : Nat) (rest : Text) :
    tokensFrom place (c :: rest) =
      (tokensFrom (place + 1) rest).map (⟨kind, [c], place, (place + 1 : Nat)⟩ :: ·) := by
  have hb : isBlank c = false := by rcases h with rfl | rfl <;> decide
  have hs : startsComment (c :: rest) = false := by rcases h with rfl | rfl <;> rfl
  have hword := @tokensFrom_word place c rest kind hb hs
  rw [takeWhile_wordPart_paren h, dropWhile_wordPart_paren h] at hword
  exact hword hk

theorem CutInto.paren {a b : Text} {as bs : List Token} {c : Char} {kind : TokenKind}
    (ha : CutInto a as) (h : c = '(' ∨ c = ')') (hk : TokenKind.ofWord [c] = .ok kind)
    (hb : CutInto b bs) : CutInto (a ++ c :: b) (as ++ ⟨kind, [c], 0, 0⟩ :: bs) := by
  intro place rest hr
  obtain ⟨ts, rfl, hts⟩ := ha place (c :: (b ++ rest)) (.paren h)
  obtain ⟨us, rfl, hus⟩ := hb (place + a.length + 1) rest hr
  let paren : Token := ⟨kind, [c], (place + a.length : Nat), (place + a.length + 1 : Nat)⟩
  refine ⟨ts ++ paren :: us, by simp [Token.unplaced, paren], ?_⟩
  have hlength : place + a.length + 1 + b.length = place + (a ++ c :: b).length := by
    rw [List.length_append, List.length_cons]
    omega
  rw [List.append_assoc, List.cons_append, hts, tokensFrom_paren h hk, hus, hlength]
  cases tokensFrom (place + (a ++ c :: b).length) rest <;> simp [Except.map, paren]

def openParen : Token := ⟨.leftParen, ['('], 0, 0⟩

def closeParen : Token := ⟨.rightParen, [')'], 0, 0⟩

theorem CutInto.group {a m b : Text} {as ms bs : List Token} (ha : CutInto a as) (hm : CutInto m ms)
    (hb : CutInto b bs) : CutInto (a ++ '(' :: (m ++ ')' :: b))
      (as ++ (openParen :: (ms ++ [closeParen]) ++ bs)) := by
  have hclose := hm.paren (.inr rfl) rfl hb
  have hopen := ha.paren (.inl rfl) rfl hclose
  simpa [openParen, closeParen] using hopen

end JCalc
