import JCalc.Proofs.FaultText
import JCalc.Transcript

/-! The lines of a text hold no boundary, and a text put together of such lines, each ended by
a line feed, falls apart into them again, for a reader of texts and for one of input alike. -/

namespace JCalc

/-- A line as a re-run writes it. -/
def Line.fed (body : Text) : Line := ⟨body, ['\n']⟩

theorem lines_feed (rest : Text) : lines ('\n' :: rest) = .fed [] :: lines rest := by
  simp [lines, isLineBoundary, Line.fed]

theorem lines_cons {c : Char} (h : isLineBoundary c = false) (rest : Text) :
    lines (c :: rest) = Line.consTo c (lines rest) := by
  have hr : c ≠ '\r' := by
    rintro rfl
    exact absurd h (by decide)
  rw [lines]
  · simp [h]
  · exact fun _ hc _ => hr hc

theorem lines_append_feed {body : Text} (h : OneLine body) (rest : Text) :
    lines (body ++ '\n' :: rest) = .fed body :: lines rest := by
  induction body with
  | nil => exact lines_feed rest
  | cons c body ih =>
    have hc : isLineBoundary c = false := h c (by simp)
    rw [List.cons_append, lines_cons hc, ih fun d hd => h d (by simp [hd])]
    rfl

theorem flatMap_asLine_cons_append (b : Text) (bodies : List Text) (rest : Text) :
    (b :: bodies).flatMap asLine ++ rest = b ++ '\n' :: (bodies.flatMap asLine ++ rest) := by
  simp [asLine]

theorem lines_flatMap_asLine_append {bodies : List Text} (h : ∀ b ∈ bodies, OneLine b)
    (rest : Text) : lines (bodies.flatMap asLine ++ rest) = bodies.map Line.fed ++ lines rest := by
  induction bodies with
  | nil => rfl
  | cons b bodies ih =>
    rw [flatMap_asLine_cons_append, lines_append_feed (h b (by simp)),
      ih fun d hd => h d (by simp [hd])]
    rfl

theorem lines_flatMap_asLine {bodies : List Text} (h : ∀ b ∈ bodies, OneLine b) :
    lines (bodies.flatMap asLine) = bodies.map Line.fed := by
  simpa [lines] using lines_flatMap_asLine_append h []

theorem lineFeed_not_mem {body : Text} (h : OneLine body) : '\n' ∉ body := by
  intro hmem
  have hboundary : isLineBoundary '\n' = false := h '\n' hmem
  exact absurd hboundary (by decide)

theorem inputLines_append_feed {body : Text} (h : '\n' ∉ body) (rest : Text) :
    inputLines (body ++ '\n' :: rest) = body :: inputLines rest := by
  induction body with
  | nil => simp [inputLines]
  | cons c body ih =>
    have hc : c ≠ '\n' := (List.ne_of_not_mem_cons h).symm
    rw [List.cons_append, inputLines, if_neg hc, ih (List.not_mem_of_not_mem_cons h)]

theorem inputLines_flatMap_asLine_append {bodies : List Text} (h : ∀ b ∈ bodies, OneLine b)
    (rest : Text) : inputLines (bodies.flatMap asLine ++ rest) = bodies ++ inputLines rest := by
  induction bodies with
  | nil => rfl
  | cons b bodies ih =>
    rw [flatMap_asLine_cons_append, inputLines_append_feed (lineFeed_not_mem (h b (by simp))),
      ih fun d hd => h d (by simp [hd])]
    rfl

/-- A last line that does not end is read like one that does, if it has a character. -/
theorem inputLines_unended {body : Text} (h : '\n' ∉ body) (hne : body ≠ []) :
    inputLines body = [body] := by
  induction body with
  | nil => exact absurd rfl hne
  | cons c body ih =>
    have hc : c ≠ '\n' := (List.ne_of_not_mem_cons h).symm
    rw [inputLines, if_neg hc]
    rcases body with _ | ⟨d, body⟩
    · rfl
    · rw [ih (List.not_mem_of_not_mem_cons h) (List.cons_ne_nil d body)]

theorem oneLine_consTo {c : Char} (hc : isLineBoundary c = false) {ls : List Line}
    (h : ∀ l ∈ ls, OneLine l.body) : ∀ l ∈ Line.consTo c ls, OneLine l.body := by
  intro l hl
  cases ls with
  | nil =>
    obtain rfl := List.mem_singleton.mp hl
    exact .cons hc (List.forall_mem_nil _)
  | cons k ks =>
    rcases List.mem_cons.mp hl with rfl | hl
    · exact .cons hc (h k (by simp))
    · exact h l (by simp [hl])

theorem oneLine_body (t : Text) : ∀ l ∈ lines t, OneLine l.body := by
  fun_induction lines t with
  | case1 => exact List.forall_mem_nil _
  | case2 rest ih =>
    intro l hl
    rcases List.mem_cons.mp hl with rfl | hl
    · exact List.forall_mem_nil _
    · exact ih l hl
  | case3 c rest _ _ ih =>
    intro l hl
    rcases List.mem_cons.mp hl with rfl | hl
    · exact List.forall_mem_nil _
    · exact ih l hl
  | case4 c rest _ hc ih => exact oneLine_consTo (by simpa using hc) ih

/-- The texts meet between two lines: the first one ends its last line, and a carriage return at its
end is not followed by the line feed that would belong to it. -/
structure LinesMeet (a b : Text) : Prop where
  ended : ∀ c ∈ a.getLast?, isLineBoundary c = true
  apart : a.getLast? = some '\r' → b.head? ≠ some '\n'

instance (a b : Text) : Decidable (LinesMeet a b) :=
  decidable_of_iff (a.getLast?.all isLineBoundary = true ∧
      ¬ (a.getLast? = some '\r' ∧ b.head? = some '\n')) (by
    rw [Option.all_eq_true, not_and]
    exact ⟨fun h => ⟨h.1, h.2⟩, fun h => ⟨h.1, h.2⟩⟩)

section

variable {a b : Text} {c : Char}

theorem LinesMeet.tail (h : LinesMeet (c :: a) b) : LinesMeet a b := by
  rcases a with _ | ⟨d, a⟩
  · exact ⟨nofun, nofun⟩
  · exact ⟨h.ended, h.apart⟩

theorem lines_ne_nil (h : a ≠ []) : lines a ≠ [] := by
  intro hnil
  apply h
  rw [← flatMap_text_lines a, hnil, List.flatMap_nil]

theorem lines_boundary (hc : isLineBoundary c = true) (h : c = '\r' → a.head? ≠ some '\n') :
    lines (c :: a) = ⟨[], [c]⟩ :: lines a := by
  rw [lines]
  · exact if_pos hc
  · rintro rest rfl rfl
    exact h rfl rfl

theorem consTo_append (c : Char) {ls : List Line} (h : ls ≠ []) (ks : List Line) :
    Line.consTo c (ls ++ ks) = Line.consTo c ls ++ ks := by
  cases ls with
  | nil => exact absurd rfl h
  | cons l ls => rfl

/-- Where texts meet between lines, their lines are put one after the other. -/
theorem lines_append (h : LinesMeet a b) : lines (a ++ b) = lines a ++ lines b := by
  fun_induction lines a with
  | case1 => rfl
  | case2 rest ih =>
    rw [List.cons_append, List.cons_append, lines, ih h.tail.tail, List.cons_append]
  | case3 c rest hne hc ih =>
    have happart : c = '\r' → (rest ++ b).head? ≠ some '\n' := by
      rintro rfl
      rcases rest with _ | ⟨d, rest⟩
      · exact h.apart rfl
      · rintro ⟨⟩
        exact hne rest rfl rfl
    rw [List.cons_append, lines_boundary hc happart, ih h.tail, List.cons_append]
  | case4 c rest _ hc ih =>
    have hrest : rest ≠ [] := by
      rintro rfl
      exact hc (h.ended c rfl)
    rw [List.cons_append, lines_cons (by simpa using hc), ih h.tail, consTo_append c (lines_ne_nil hrest)]

end

/-- The text of a line has that line alone. -/
theorem lines_text (t : Text) : ∀ l ∈ lines t, lines l.text = [l] := by
  fun_induction lines t with
  | case1 => exact List.forall_mem_nil _
  | case2 rest ih => exact List.forall_mem_cons.mpr ⟨by simp [Line.text, lines], ih⟩
  | case3 c rest _ hc ih =>
    exact List.forall_mem_cons.mpr ⟨lines_boundary hc fun _ => (Option.some_ne_none _).symm, ih⟩
  | case4 c rest _ hc ih =>
    have hc : isLineBoundary c = false := by simpa using hc
    cases hls : lines rest with
    | nil =>
      exact List.forall_mem_singleton.mpr (lines_cons hc [])
    | cons k ks =>
      rw [hls] at ih
      obtain ⟨hk, hks⟩ := List.forall_mem_cons.mp ih
      refine List.forall_mem_cons.mpr ⟨?_, hks⟩
      have htext : Line.text ⟨c :: k.body, k.ending⟩ = c :: k.text := rfl
      rw [htext, lines_cons hc, hk]
      rfl

theorem linesMeet_flatMap_asLine (bodies : List Text) (b : Text) :
    LinesMeet (bodies.flatMap asLine) b := by
  rcases bodies.eq_nil_or_concat with rfl | ⟨front, last, rfl⟩
  · exact ⟨nofun, nofun⟩
  · have hlast : ((front.concat last).flatMap asLine).getLast? = some '\n' := by simp [asLine]
    refine ⟨?_, ?_⟩
    · rw [hlast]
      rintro _ ⟨⟩
      rfl
    · rw [hlast]
      exact nofun

end JCalc
