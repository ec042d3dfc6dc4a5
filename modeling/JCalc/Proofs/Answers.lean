import JCalc.Proofs.FaultText
import JCalc.Transcript

/-! What a session answers. Whatever the line, it is one line of text: nothing, the
numbers of a value, or a report that starts with a bar. -/

namespace JCalc

/-- Nothing, or numbers and the blanks and dots between them. -/
structure ShowsValue (t : Text) : Prop where
  oneLine : OneLine t
  start : t = [] ∨ ∃ c rest, t = c :: rest ∧ isNumberStart c = true

theorem isLineBoundary_of_isNumeralChar {c : Char} (h : isNumeralChar c = true) :
    isLineBoundary c = false := by
  simp only [isNumeralChar, Bool.or_eq_true, beq_iff_eq] at h
  rcases h with ((rfl | rfl) | rfl) | h
  · decide
  · decide
  · decide
  · exact isLineBoundary_of_isDigit h

theorem showsValue_fit (width : Option Int) {ls : List Literal} (h : ∀ l ∈ ls, l.WellFormed) :
    ShowsValue (fit width (ls.map Literal.text)) := by
  constructor
  · intro c hc
    have hall := forall_fit (p := fun c => !isLineBoundary c) width rfl rfl (fun t ht c hc => by
      obtain ⟨l, hl, rfl⟩ := List.mem_map.mp ht
      simp [isLineBoundary_of_isNumeralChar ((h l hl).isNumeralChar c hc)]) c hc
    simpa using hall
  · rcases ls with _ | ⟨l, ls⟩
    · left
      cases width <;> rfl
    · right
      obtain ⟨c, rest, ht, hc⟩ := (h l (by simp)).text_eq_cons
      obtain ⟨more, hmore⟩ := prefix_fit width l.text (ls.map Literal.text)
      exact ⟨c, rest ++ more, by rw [List.map_cons, ← hmore, ht]; rfl, hc⟩

theorem showsValue_display {s : Session} {line : Text} {value : Option Noun}
    (h : s.evaluateLine line = .ok value) : ∃ t, s.display value = .ok t ∧ ShowsValue t := by
  cases value with
  | none => exact ⟨[], rfl, nofun, .inl rfl⟩
  | some x =>
    obtain ⟨ls, _, hls, htext⟩ := text_of_sound (sound_of_evaluateLine h)
    exact ⟨_, htext s.maxWidth, showsValue_fit s.maxWidth hls⟩

theorem answer_cases (s : Session) (line : Text) :
    (∃ fault, s.evaluateLine line = .error fault ∧ fault.Plain ∧
      s.answer line = fault.report.line) ∨
    ∃ value, s.evaluateLine line = .ok value ∧ s.display value = .ok (s.answer line) ∧
      ShowsValue (s.answer line) := by
  unfold Session.answer
  cases he : s.evaluateLine line with
  | error fault => exact .inl ⟨fault, rfl, plain_of_lineFault (lineFault_of_evaluateLine he), rfl⟩
  | ok value =>
    obtain ⟨t, ht, hshows⟩ := showsValue_display he
    have hbind : (Except.ok value >>= s.display) = .ok t := ht
    rw [hbind]
    exact .inr ⟨value, rfl, ht, hshows⟩

theorem prompt_not_prefix_of_ne {c : Char} (h : c ≠ ' ') (rest : Text) : ¬ prompt <+: c :: rest := by
  rintro ⟨more, hmore⟩
  cases hmore
  exact h rfl

end JCalc
