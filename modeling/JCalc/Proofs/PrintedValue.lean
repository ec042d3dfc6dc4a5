import JCalc.Proofs.CutAtParens
import JCalc.Proofs.ReadBack
import JCalc.Proofs.SizeBound
import JCalc.Proofs.ValueModel

/-! A group in a line may be replaced by what its inside prints. The printed numbers make
tokens of their own between the parentheses and are read as the value again, but for signs
of zeros; and those show in nothing that the line prints. -/

namespace JCalc

def endOfLine : Token := ⟨.finish, [], 0, 0⟩

section

variable {s : Session} {text : Text} {words : List Token}

theorem filter_endOfLine (hw : ∀ w ∈ words, w.kind ≠ .finish) :
    (words ++ [endOfLine]).filter (·.kind != .finish) = words := by
  rw [List.filter_append, List.filter_eq_self.mpr (by simpa using hw)]
  simp [endOfLine]

theorem CutInto.tokenize_eq (h : CutInto text words) :
    ∃ tokens, tokenize text = .ok tokens ∧
      tokens.map Token.unplaced = (words ++ [endOfLine]).map Token.unplaced := by
  obtain ⟨ts, hts, htokens⟩ := h 0 [] .nil
  rw [List.append_nil] at htokens
  refine ⟨_, by rw [tokenize, htokens, tokensFrom]; rfl, ?_⟩
  have hwords : words.map Token.unplaced = words := by
    rw [← hts, List.map_map]
    rfl
  simp only [List.map_append, hts, hwords]
  rfl

theorem evaluateLine_eq_ok_iff (h : CutInto text words) (hw : ∀ w ∈ words, w.kind ≠ .finish)
    {value : Option Noun} :
    s.evaluateLine text = .ok value ↔ ∃ nesting es, Reads s.maxSize words nesting es ∧
      (nesting : Int) ≤ s.limits.depth ∧ sentence? s.maxSize es = some (value.map .noun) := by
  obtain ⟨tokens, ht, hsame⟩ := h.tokenize_eq
  constructor
  · intro he
    rw [Session.evaluateLine, ht] at he
    obtain ⟨nesting, es, hr, hn, hes⟩ := reads_of_evaluate he
    have hwords := (hr.of_unplaced hsame.symm).drop_finish
    rw [filter_endOfLine hw] at hwords
    exact ⟨nesting, es, hwords, hn, hes⟩
  · rintro ⟨nesting, es, hr, hn, hes⟩
    have hline : Reads s.maxSize (words ++ [endOfLine]) (max nesting 0) (es ++ []) :=
      hr.append (.finish rfl)
    refine evaluateLine_of_reads ht (hline.of_unplaced hsame) (by simpa using hn) ?_
    rwa [List.append_nil]

end

theorem readBack_eq_unsign {e : Scalar} (h : e.ZeroImaginary) : e.readBack = e.unsign := by
  obtain ⟨negative, him⟩ := h
  obtain ⟨re, im⟩ := e
  obtain rfl : im = .number ⟨negative, .zero⟩ := him
  cases re <;> rfl

theorem noComment_of_numerals {ls : List Literal} (h : ∀ l ∈ ls, l.WellFormed) :
    NoComment (spaced (ls.map Literal.text)) := by
  intro hi
  have hn : 'N' ∈ spaced (ls.map Literal.text) := hi.subset (by simp)
  have hchars := @forall_spaced (fun c => isNumeralChar c || c == ' ') (ls.map Literal.text) rfl
    (fun t ht c hc => by
      obtain ⟨l, hl, rfl⟩ := List.mem_map.mp ht
      simp [(h l hl).isNumeralChar c hc]) 'N' hn
  exact absurd hchars (by decide)

theorem map_readBack_eq_unsign {n : Noun} (h : n.Sound Scalar.ZeroImaginary) :
    n.map Scalar.readBack = n.unsign := by
  cases n with
  | atom e => exact congrArg Noun.atom (readBack_eq_unsign (h e (by simp [Noun.elements])).2)
  | list es => exact congrArg Noun.list (List.map_congr_left fun e he => readBack_eq_unsign (h e he).2)

/-- The text of a value is cut into the numbers in it, which make up the value but for signs of
zeros. -/
theorem exists_words_of_text {limit : Int} {n : Noun} (hs : n.Sound Scalar.ZeroImaginary)
    (hlen : ∀ es, n = .list es → 2 ≤ es.length) (hfits : n.Fits limit) :
    ∃ t words fs, n.text none = .ok t ∧ CutInto t words ∧ (∀ w ∈ words, w.kind ≠ .finish) ∧
      Reads limit words 0 fs ∧ sentence? limit fs = some (some (.noun n.unsign)) := by
  obtain ⟨xs, hxs, hreal⟩ := exists_numbers_of_sound hs
  have hliterals := wellFormed_literals xs
  obtain ⟨tokens, htokens, hreads⟩ := tokensFrom_spaced limit hliterals 0
  obtain ⟨⟨words, hwords, hcut⟩, -⟩ :=
    exists_cutInto (noComment_of_numerals hliterals) .nil (by rw [List.append_nil]; exact htokens)
  obtain ⟨tokens', htokens', hsame⟩ := hcut.tokenize_eq
  obtain rfl : tokens = tokens' := Except.ok.inj (htokens.symm.trans htokens')
  have hreads := (hreads.of_unplaced hsame.symm).drop_finish
  rw [filter_endOfLine hwords] at hreads
  refine ⟨_, words, _, text_of_realNumbers hxs hreal none, hcut, hwords, hreads, ?_⟩
  rw [sentence?_readBack hxs, map_readBack_eq_unsign hs]
  rintro es rfl
  exact ⟨hlen es rfl, hfits⟩

section

variable {s : Session} {a m b : Text}

theorem exists_cutInto_of_evaluateLine {value : Option Noun} (hn : NoComment m)
    (h : s.evaluateLine m = .ok value) :
    ∃ words, (∀ w ∈ words, w.kind ≠ .finish) ∧ CutInto m words := by
  obtain ⟨tokens, ht, _⟩ := bind_eq_ok h
  exact (exists_cutInto hn .nil (by rw [List.append_nil]; exact ht)).1

theorem exists_cutInto_around {value : Option Noun} (ha : NoComment a) (hm : NoComment m)
    (hb : NoComment b) (h : s.evaluateLine (a ++ '(' :: (m ++ ')' :: b)) = .ok value) :
    ∃ as bs, (∀ w ∈ as, w.kind ≠ .finish) ∧ CutInto a as ∧
      (∀ w ∈ bs, w.kind ≠ .finish) ∧ CutInto b bs := by
  obtain ⟨tokens, ht, _⟩ := bind_eq_ok h
  obtain ⟨⟨as, has, hcut⟩, more, hmore⟩ := exists_cutInto ha (.paren (.inl rfl)) ht
  rw [tokensFrom_paren (.inl rfl) rfl] at hmore
  obtain ⟨_, hinside⟩ := exists_of_map_eq_ok hmore
  obtain ⟨_, more, hmore⟩ := exists_cutInto hm (.paren (.inr rfl)) hinside
  rw [tokensFrom_paren (.inr rfl) rfl] at hmore
  obtain ⟨_, hafter⟩ := exists_of_map_eq_ok hmore
  rw [← List.append_nil b] at hafter
  obtain ⟨⟨bs, hbs, hcut'⟩, -⟩ := exists_cutInto hb .nil hafter
  exact ⟨as, bs, has, hcut, hbs, hcut'⟩

theorem kind_ne_finish_group {as ms bs : List Token} (ha : ∀ w ∈ as, w.kind ≠ .finish)
    (hm : ∀ w ∈ ms, w.kind ≠ .finish) (hb : ∀ w ∈ bs, w.kind ≠ .finish) :
    ∀ w ∈ as ++ (openParen :: (ms ++ [closeParen]) ++ bs), w.kind ≠ .finish := by
  have hopen : ∀ w ∈ [openParen], w.kind ≠ .finish := by simp [openParen]
  have hclose : ∀ w ∈ [closeParen], w.kind ≠ .finish := by simp [closeParen]
  have hgroup : ∀ w ∈ [openParen] ++ (ms ++ [closeParen]), w.kind ≠ .finish :=
    List.forall_mem_append.mpr ⟨hopen, List.forall_mem_append.mpr ⟨hm, hclose⟩⟩
  exact List.forall_mem_append.mpr ⟨ha, List.forall_mem_append.mpr ⟨hgroup, hb⟩⟩

/-- A group may be replaced by the printed value of its inside, an atom or a list of at least two:
the text is read as that value with no negative zeros, and wherever the group stands, the line
still gives a noun of the same shape and of the same text. -/
theorem printed_value_of_group (h1 : 1 ≤ s.maxSize) (ha : NoComment a) (hm : NoComment m)
    (hb : NoComment b) {n : Noun} (hn : s.evaluateLine m = .ok (some n))
    (hlen : ∀ es, n = .list es → 2 ≤ es.length) :
    ∃ t, n.text none = .ok t ∧ s.evaluateLine t = .ok (some (n.map Scalar.readBack)) ∧
      ∀ r, s.evaluateLine (a ++ '(' :: (m ++ ')' :: b)) = .ok (some r) →
        ∃ r', s.evaluateLine (a ++ '(' :: (t ++ ')' :: b)) = .ok (some r') ∧
          r'.shape = r.shape ∧ ∀ width, ∃ u, r.text width = .ok u ∧ r'.text width = .ok u := by
  have hs := sound_of_evaluateLine hn
  obtain ⟨ms, hms, hcut⟩ := exists_cutInto_of_evaluateLine hm hn
  obtain ⟨nesting, es, hreads, hdepth, hes⟩ := (evaluateLine_eq_ok_iff hcut hms).mp hn
  obtain ⟨t, ts, fs, ht, hcut', hts, hfs, hvalue⟩ :=
    exists_words_of_text hs hlen (fits_of_evaluateLine h1 hn)
  refine ⟨t, ht, (evaluateLine_eq_ok_iff hcut' hts).mpr ⟨0, fs, hfs, by omega, ?_⟩, fun r hr => ?_⟩
  · rw [hvalue, map_readBack_eq_unsign hs]
    rfl
  · obtain ⟨as, bs, has, hcuta, hbs, hcutb⟩ := exists_cutInto_around ha hm hb hr
    obtain ⟨k, gs, hgs, hk, hsentence⟩ := (evaluateLine_eq_ok_iff (hcuta.group hcut hcutb)
      (kind_ne_finish_group has hms hbs)).mp hr
    have hsame (i : Nat) (is : List Fragment) (hi : Reads s.maxSize ms i is) :
        (sentence? s.maxSize fs).map (Option.map Fragment.unsign) =
          (sentence? s.maxSize is).map (Option.map Fragment.unsign) := by
      rw [hi.sentence?_unique hreads, hes, hvalue]
      exact congrArg (fun x => some (some (Fragment.noun x))) n.unsign_unsign
    obtain ⟨j, hj, gs', hgs', hunsign⟩ := Reads.replace rfl rfl hreads.balanced hfs hsame hgs rfl
    have hgroup := @sentence?_congr s.maxSize _ _ hunsign
    rw [hsentence] at hgroup
    obtain ⟨e, he, hunsign⟩ := eq_some_of_unsign hgroup
    obtain ⟨r', rfl, hr'⟩ := exists_noun_of_unsign hunsign
    refine ⟨r', (evaluateLine_eq_ok_iff (hcuta.group hcut' hcutb)
      (kind_ne_finish_group has hts hbs)).mpr ⟨j, gs', hgs', by omega, he⟩, ?_, fun width => ?_⟩
    · rw [← Noun.shape_unsign r', hr', Noun.shape_unsign]
    · obtain ⟨ls, _, _, htext⟩ := text_of_sound (sound_of_evaluateLine hr)
      refine ⟨_, htext width, ?_⟩
      rw [← Noun.text_unsign width r', hr', Noun.text_unsign, htext width]

theorem printed_value_of_group_minusZero :
    let minusZero : Binary64 := .number ⟨true, .zero⟩
    let n : Noun := .list [⟨minusZero, minusZero⟩, ⟨.number ⟨true, .ofNat 2⟩, minusZero⟩]
    let s : Session := { maxDepth := some 1, maxSize := 2 }
    s.evaluateLine "-0 2".toList = .ok (some n) ∧ ∃ t, n.text none = .ok t ∧
      ∀ r, s.evaluateLine ("1%".toList ++ '(' :: ("-0 2".toList ++ ')' :: [])) = .ok (some r) →
        ∃ r', s.evaluateLine ("1%".toList ++ '(' :: (t ++ ')' :: [])) = .ok (some r') ∧
          ∀ width, ∃ u, r.text width = .ok u ∧ r'.text width = .ok u := by
  intro minusZero n s
  have hn : s.evaluateLine "-0 2".toList = .ok (some n) :=
    toOption_eq_some_iff.mp (by decide +kernel)
  have hlen : ∀ es, n = .list es → 2 ≤ es.length := by
    intro es hes
    rw [← Noun.list.inj hes]
    decide
  obtain ⟨t, ht, _, hr⟩ := @printed_value_of_group s "1%".toList "-0 2".toList [] (by decide) (by decide)
    (by decide) (by decide) n hn hlen
  refine ⟨hn, t, ht, fun r hline => ?_⟩
  obtain ⟨r', hline', _, htext⟩ := hr r hline
  exact ⟨r', hline', htext⟩

end

end JCalc
