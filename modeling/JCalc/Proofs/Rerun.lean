import JCalc.Proofs.Answers
import JCalc.Proofs.TextLines
import Mathlib.Logic.Function.Iterate

/-! Re-running a transcript. The lines of a re-run are the input lines with their answers and
the blank ones. No answer looks like either, so a second run finds what the first one did. -/

namespace JCalc

/-- A line that a re-run takes for old output, and drops. -/
structure Stale (line : Text) : Prop where
  not_prompted : ¬ prompt <+: line
  not_blank : line.all isBlank = false

instance (line : Text) : Decidable (Stale line) :=
  decidable_of_iff (¬ prompt <+: line ∧ line.all isBlank = false)
    ⟨fun h => ⟨h.1, h.2⟩, fun h => ⟨h.1, h.2⟩⟩

theorem stale_answer (s : Session) (input : Text) (h : s.answer input ≠ []) :
    OneLine (s.answer input) ∧ Stale (s.answer input) := by
  have stale {c : Char} {rest : Text} (ha : s.answer input = c :: rest) (hs : c ≠ ' ')
      (hb : isBlank c = false) : Stale (s.answer input) := by
    rw [ha]
    exact ⟨prompt_not_prefix_of_ne hs rest, by simp [hb]⟩
  rcases answer_cases s input with ⟨fault, _, hplain, ha⟩ | ⟨value, _, _, hshows⟩
  · refine ⟨ha ▸ oneLine_line hplain.message, ?_⟩
    have ha : s.answer input = '|' :: (fault.report.kind ++ ':' :: ' ' :: fault.report.message) := ha
    exact stale ha (by decide) (by decide)
  · rcases hshows.start with ha | ⟨c, rest, ha, hc⟩
    · exact absurd ha h
    · have hb := isBlank_of_isNumberStart hc
      refine ⟨hshows.oneLine, stale ha ?_ hb⟩
      rintro rfl
      exact absurd hb (by decide)

theorem promptedInput?_eq (line : Text) :
    promptedInput? line = if prompt <+: line then some (line.drop prompt.length) else none := by
  simp only [promptedInput?, List.isPrefixOf_iff_prefix]

theorem reply_eq (s : Session) (input : Text) :
    s.reply input = if s.answer input = [] then [] else [s.answer input] := by
  simp only [Session.reply, List.isEmpty_iff]

theorem refresh_eq (s : Session) (line : Text) :
    s.refresh line =
      if prompt <+: line then line :: s.reply (line.drop prompt.length)
      else if line.all isBlank then [[]] else [] := by
  simp only [Session.refresh, promptedInput?_eq]
  by_cases hp : prompt <+: line
  · simp only [hp, if_true]
  · simp only [hp, if_false]

theorem mem_reply {s : Session} {input u : Text} (h : u ∈ s.reply input) : OneLine u ∧ Stale u := by
  rw [reply_eq] at h
  split_ifs at h with ha
  · cases h
  · obtain rfl := List.mem_singleton.mp h
    exact stale_answer s input ha

theorem oneLine_refresh (s : Session) {line : Text} (h : OneLine line) :
    ∀ u ∈ s.refresh line, OneLine u := by
  intro u hu
  rw [refresh_eq] at hu
  split_ifs at hu
  · rcases List.mem_cons.mp hu with rfl | hu
    · exact h
    · exact (mem_reply hu).1
  · obtain rfl := List.mem_singleton.mp hu
    exact List.forall_mem_nil _
  · cases hu

/-- What a re-run keeps of a line: an input line as it is, a blank one as an empty one. -/
def keptLine? (line : Text) : Option Text :=
  if prompt <+: line then some line else if line.all isBlank then some [] else none

def keptLines (t : Text) : List Text := (lines t).filterMap fun l => keptLine? l.body

theorem keptLine?_of_stale {line : Text} (h : Stale line) : keptLine? line = none := by
  simp [keptLine?, h.not_prompted, h.not_blank]

/-- What stands for a line depends only on what is kept of it. -/
theorem refresh_eq_keptLine? (s : Session) (line : Text) :
    s.refresh line = (keptLine? line).toList.flatMap s.refresh := by
  by_cases hp : prompt <+: line
  · simp [keptLine?, hp]
  · by_cases hb : line.all isBlank
    · have hempty : s.refresh [] = [[]] := rfl
      have hline : s.refresh line = [[]] := by rw [refresh_eq, if_neg hp, if_pos hb]
      simp only [keptLine?, hp, if_false, if_pos hb, hline, Option.toList_some,
        List.flatMap_singleton, hempty]
    · simp only [keptLine?, refresh_eq, hp, if_false, if_neg hb, Option.toList_none,
        List.flatMap_nil]

theorem keptLine?_refresh (s : Session) (line : Text) :
    (s.refresh line).filterMap keptLine? = (keptLine? line).toList := by
  have hreply (input : Text) : (s.reply input).filterMap keptLine? = [] := by
    rw [List.filterMap_eq_nil_iff]
    exact fun u hu => keptLine?_of_stale (mem_reply hu).2
  have hempty : keptLine? [] = some [] := by simp [keptLine?, prompt]
  rw [refresh_eq]
  split_ifs with hp hb
  · have hkept : keptLine? line = some line := by rw [keptLine?, if_pos hp]
    rw [List.filterMap_cons_some hkept, hreply, hkept]
    rfl
  · rw [List.filterMap_cons_some hempty]
    simp only [keptLine?, hp, if_false, if_pos hb, List.filterMap_nil, Option.toList_some]
  · simp only [keptLine?, hp, if_false, if_neg hb, List.filterMap_nil, Option.toList_none]

/-- The lines of a re-run, without their ends. -/
def Session.rerunLines (s : Session) (t : Text) : List Text :=
  (lines t).flatMap fun l => s.refresh l.body

theorem rerun_eq (s : Session) (t : Text) : s.rerun t = (s.rerunLines t).flatMap asLine :=
  List.flatMap_assoc.symm

theorem oneLine_rerunLines (s : Session) (t : Text) : ∀ u ∈ s.rerunLines t, OneLine u := by
  intro u hu
  obtain ⟨l, hl, hu⟩ := List.mem_flatMap.mp hu
  exact oneLine_refresh s (oneLine_body t l hl) u hu

theorem lines_rerun (s : Session) (t : Text) : lines (s.rerun t) = (s.rerunLines t).map Line.fed := by
  rw [rerun_eq]
  exact lines_flatMap_asLine (oneLine_rerunLines s t)

theorem keptLines_rerun (s : Session) (t : Text) : keptLines (s.rerun t) = keptLines t := by
  have hbody : (fun l => keptLine? l.body) ∘ Line.fed = keptLine? := rfl
  rw [keptLines, lines_rerun, List.filterMap_map, hbody, Session.rerunLines, keptLines]
  induction lines t with
  | nil => rfl
  | cons l ls ih =>
    rw [List.flatMap_cons, List.filterMap_append, keptLine?_refresh, ih]
    cases hk : keptLine? l.body <;> simp [hk]

theorem rerunLines_eq (s : Session) (t : Text) :
    s.rerunLines t = (keptLines t).flatMap s.refresh := by
  rw [Session.rerunLines, keptLines]
  induction lines t with
  | nil => rfl
  | cons l ls ih =>
    rw [List.flatMap_cons, ih, refresh_eq_keptLine?]
    cases hk : keptLine? l.body <;> simp [hk]

theorem rerun_eq_of_keptLines (s : Session) {t u : Text} (h : keptLines t = keptLines u) :
    s.rerun t = s.rerun u := by
  rw [rerun_eq, rerun_eq, rerunLines_eq, rerunLines_eq, h]

theorem rerun_rerun (s : Session) (t : Text) : s.rerun (s.rerun t) = s.rerun t :=
  rerun_eq_of_keptLines s (keptLines_rerun s t)

theorem rerun_flatMap_asLine_append {bodies : List Text} (h : ∀ b ∈ bodies, OneLine b)
    (s : Session) (t : Text) : s.rerun (bodies.flatMap asLine ++ t) =
      (bodies.flatMap s.refresh).flatMap asLine ++ s.rerun t := by
  rw [Session.rerun, lines_flatMap_asLine_append h, List.flatMap_append, List.flatMap_map,
    List.flatMap_assoc]
  rfl

/-- A re-run does not look across the line end where two texts meet. -/
theorem rerun_append (s : Session) {a b : Text} (h : LinesMeet a b) :
    s.rerun (a ++ b) = s.rerun a ++ s.rerun b := by
  rw [Session.rerun, lines_append h, List.flatMap_append]
  rfl

theorem rerun_rerun_append (s : Session) (t u : Text) :
    s.rerun (s.rerun t ++ u) = s.rerun t ++ s.rerun u := by
  have hmeet : LinesMeet (s.rerun t) u := by
    rw [rerun_eq]
    exact linesMeet_flatMap_asLine _ u
  rw [rerun_append s hmeet, rerun_rerun]

end JCalc
