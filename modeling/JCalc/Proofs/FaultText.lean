import JCalc.Proofs.ValueModel

/-! Reports on one line. Whatever characters a report quotes, those that could end a line
are written as escapes, and nothing else in a report depends on the line but numbers and
the spellings of verbs. -/

namespace JCalc

def OneLine (t : Text) : Prop := ∀ c ∈ t, isLineBoundary c = false

instance (t : Text) : Decidable (OneLine t) :=
  decidable_of_iff (t.all fun c => !isLineBoundary c) (by simp [OneLine])

section

variable {t u : Text} {c : Char}

theorem OneLine.append (ht : OneLine t) (hu : OneLine u) : OneLine (t ++ u) :=
  List.forall_mem_append.mpr ⟨ht, hu⟩

theorem OneLine.cons (hc : isLineBoundary c = false) (ht : OneLine t) : OneLine (c :: t) :=
  List.forall_mem_cons.mpr ⟨hc, ht⟩

theorem isLineBoundary_eq_false_of_isBlank (h : isBlank c = false) : isLineBoundary c = false := by
  cases hb : isLineBoundary c with
  | false => rfl
  | true => rw [isBlank_of_isLineBoundary hb] at h; cases h

theorem isLineBoundary_of_isDigit (h : isDigit c = true) : isLineBoundary c = false :=
  isLineBoundary_eq_false_of_isBlank (isBlank_of_isNumberStart (by simp [isNumberStart, h]))

theorem oneLine_digits (n : Nat) : OneLine (Decimal.digits n) :=
  fun _ hc => isLineBoundary_of_isDigit (Decimal.isDigit_of_mem_digits hc)

theorem oneLine_intText (n : Int) : OneLine (intText n) := by
  unfold intText integerText
  split
  · exact .cons (by decide) (oneLine_digits _)
  · exact oneLine_digits _

theorem oneLine_spaced {ts : List Text} (h : ∀ t ∈ ts, OneLine t) : OneLine (spaced ts) := by
  intro c hc
  have hall := forall_spaced (p := fun c => !isLineBoundary c) rfl
    (fun t ht c hc => by simp [h t ht c hc]) c hc
  simpa using hall

/-- The characters that can end a line, except two, are among those that cannot be shown. -/
theorem isPrintable_of_isLineBoundary (h : isLineBoundary c = true) : isPrintable c = false := by
  have hrange (r : Nat × Nat) (hr : r ∈ unprintableRanges) (hc : r.1 ≤ c.toNat ∧ c.toNat ≤ r.2) :
      isPrintable c = false := by
    rw [isPrintable, Bool.not_eq_false']
    exact List.any_eq_true.mpr ⟨r, hr, by simpa using hc⟩
  have hcontrol (d : Char) (hc : c ≤ d) (hd : d.toNat ≤ 0x1F) : isPrintable c = false :=
    hrange (0x0, 0x1F) (by decide) ⟨Nat.zero_le _, Nat.le_trans hc hd⟩
  simp only [isLineBoundary, Bool.or_eq_true, Bool.and_eq_true, decide_eq_true_eq, beq_iff_eq] at h
  rcases h with (((h | h) | rfl) | rfl) | rfl
  · exact hcontrol '\r' h.2 (by decide)
  · exact hcontrol '\x1e' h.2 (by decide)
  · exact hrange (0x7F, 0xA0) (by decide) (by decide)
  · exact hrange (0x2028, 0x202F) (by decide) (by decide)
  · exact hrange (0x2028, 0x202F) (by decide) (by decide)

theorem oneLine_hexText (width n : Nat) : OneLine (hexText width n) := by
  induction width generalizing n with
  | zero => exact nofun
  | succ width ih =>
    have hdigit : ∀ d : Fin 16, isLineBoundary (hexDigit d) = false := by decide
    exact (ih _).append (.cons (hdigit ⟨n % 16, Nat.mod_lt _ (by decide)⟩) nofun)

theorem oneLine_escapeCode (code : Nat) : OneLine (escapeCode code) := by
  unfold escapeCode
  split
  · exact .cons (by decide) (.cons (by decide) (oneLine_hexText _ _))
  · split <;> exact .cons (by decide) (.cons (by decide) (oneLine_hexText _ _))

theorem oneLine_escapeChar {mark : Char} (hm : isLineBoundary mark = false) (c : Char) :
    OneLine (escapeChar mark c) := by
  unfold escapeChar
  split_ifs with h _ _ _ hp
  · have hc : isLineBoundary c = false := by
      simp only [Bool.or_eq_true, decide_eq_true_eq] at h
      rcases h with rfl | rfl
      · exact hm
      · decide
    exact .cons (by decide) (.cons hc nofun)
  · exact .cons (by decide) (.cons (by decide) nofun)
  · exact .cons (by decide) (.cons (by decide) nofun)
  · exact .cons (by decide) (.cons (by decide) nofun)
  · refine .cons ?_ nofun
    cases hb : isLineBoundary c with
    | false => rfl
    | true =>
      rw [isPrintable_of_isLineBoundary hb] at hp
      cases hp
  · exact oneLine_escapeCode _

theorem oneLine_quoted (t : Text) : OneLine (quoted t) := by
  have hm : isLineBoundary (quoteMark t) = false := by
    unfold quoteMark
    split <;> decide
  refine .cons hm (.append ?_ (.cons hm nofun))
  intro c hc
  obtain ⟨d, _, hd⟩ := List.mem_flatMap.mp hc
  exact oneLine_escapeChar hm d c hd

theorem oneLine_atPlace (ht : OneLine t) (place : Int) : OneLine (atPlace t place) :=
  (ht.append (by decide : OneLine " at index ".toList)).append (oneLine_intText place)

theorem oneLine_spelling (v : Verb) : OneLine v.spelling := by
  cases v <;> decide

theorem oneLine_shapeText (shape : List Int) : OneLine (Report.shapeText shape) := by
  unfold Report.shapeText
  split
  · decide
  · refine oneLine_spaced fun t ht => ?_
    obtain ⟨n, _, rfl⟩ := List.mem_map.mp ht
    exact oneLine_intText n

theorem oneLine_kind (r : Report) : OneLine r.kind := by
  unfold Report.kind
  split <;> decide

theorem oneLine_line {r : Report} (h : OneLine r.message) : OneLine r.line := by
  have hrest : OneLine (':' :: ' ' :: r.message) := .cons (by decide) (.cons (by decide) h)
  exact .cons (by decide) ((oneLine_kind r).append hrest)

theorem oneLine_tooLarge {subject : Text} (h : OneLine subject) (count : Nat) (limit : Int) :
    OneLine (Fault.tooLarge subject count limit).report.message :=
  (((h.append (by decide)).append (oneLine_digits count)).append (by decide)).append
    (oneLine_intText limit)

/-- A fault that a reader of lines can meet has a kind of its own and a message of one line. -/
structure Fault.Plain (fault : Fault) : Prop where
  kind : ∀ message, fault.report ≠ .general message
  message : OneLine fault.report.message

end

theorem plain_word (cause : WordFault) (word : Text) (place : Int) :
    (Fault.word cause word place).Plain := by
  refine ⟨nofun, oneLine_atPlace ?_ place⟩
  cases cause <;> exact .append (by decide) (oneLine_quoted word)

theorem plain_of_sentenceFault {tokens : List Token} {fault : Fault} (ht : ∀ t ∈ tokens, t.Lexed)
    (h : SentenceFault tokens fault) : fault.Plain := by
  cases h with
  | unmatchedOpen place => exact ⟨nofun, oneLine_atPlace (by decide) place⟩
  | unmatchedClose place => exact ⟨nofun, oneLine_atPlace (by decide) place⟩
  | emptyGroup place => exact ⟨nofun, oneLine_atPlace (by decide) place⟩
  | strayToken hmem hk => exact absurd hk ((ht _ hmem).kind_ne_other _)
  | unknownVerb hmem hk hv =>
    have hsome := (ht _ hmem).isSome_ofSpelling? hk
    rw [hv] at hsome
    cases hsome
  | irreducible => exact ⟨nofun, by decide⟩
  | noRightArgument v => exact ⟨nofun, (oneLine_spelling v).append (by decide)⟩
  | noArgument v => exact ⟨nofun, (oneLine_spelling v).append (by decide)⟩
  | tooDeep depth limit =>
    exact ⟨nofun, ((OneLine.append (by decide) (oneLine_intText depth)).append (by decide)).append
      (oneLine_intText limit)⟩

theorem plain_of_verbFault {p : Noun → Prop} {fault : Fault} (h : VerbFault p fault) :
    fault.Plain := by
  cases h with
  | notReal v _ _ => exact ⟨nofun, (oneLine_spelling v).append (by decide)⟩
  | undefinedResult v => exact ⟨nofun, (oneLine_spelling v).append (by decide)⟩
  | lengths left right =>
    exact ⟨nofun, (((OneLine.append (by decide) (oneLine_shapeText _)).append (by decide)).append
      (oneLine_shapeText _)).append (by decide)⟩
  | missingForm v valence =>
    have hname : OneLine valence.name := by cases valence <;> decide
    exact ⟨nofun, (((oneLine_spelling v).append (by decide)).append hname).append (by decide)⟩
  | reservedDyad v =>
    exact ⟨nofun, (OneLine.append (by decide) (oneLine_spelling v)).append (by decide)⟩
  | outsideUnitInterval => exact ⟨nofun, by decide⟩
  | notInteger => exact ⟨nofun, by decide⟩
  | negativeCount => exact ⟨nofun, by decide⟩
  | listOfIntegers => exact ⟨nofun, by decide⟩
  | strandTooLarge count limit => exact ⟨nofun, oneLine_tooLarge (by decide) count limit⟩
  | listTooLarge count limit => exact ⟨nofun, oneLine_tooLarge (by decide) count limit⟩
  | countTooLarge count limit => exact ⟨nofun, oneLine_tooLarge (oneLine_spelling _) count limit⟩

theorem plain_of_lineFault {fault : Fault} (h : LineFault fault) : fault.Plain := by
  cases h with
  | word cause word place => exact plain_word cause word place
  | sentence ht h => exact plain_of_sentenceFault ht h
  | verb h => exact plain_of_verbFault h

end JCalc
