import JCalc.Proofs.Rerun

/-! Transcripts run again piece by piece. A re-run is made of what its lines come to one by one, so
that no line matters for another, and lines of old output do not matter at all. -/

namespace JCalc

variable {a b old : Text}

theorem rerun_text_of_mem (s : Session) {t : Text} {l : Line} (h : l ∈ lines t) :
    s.rerun l.text = (s.refresh l.body).flatMap asLine := by
  rw [Session.rerun, lines_text t l h, List.flatMap_singleton]

theorem refresh_of_stale (s : Session) {line : Text} (h : Stale line) : s.refresh line = [] := by
  rw [refresh_eq, if_neg h.not_prompted, h.not_blank]
  rfl

theorem rerun_of_stale (s : Session) (h : ∀ l ∈ lines old, Stale l.body) : s.rerun old = [] := by
  rw [Session.rerun, List.flatMap_eq_nil_iff]
  intro l hl
  rw [refresh_of_stale s (h l hl)]
  rfl

theorem rerun_removed (s : Session) (hfront : LinesMeet a (old ++ b)) (hback : LinesMeet old b)
    (h : ∀ l ∈ lines old, Stale l.body) : s.rerun (a ++ (old ++ b)) = s.rerun a ++ s.rerun b := by
  rw [rerun_append s hfront, rerun_append s hback, rerun_of_stale s h, List.nil_append]

/-- Where two texts meet between lines, each is run again on its own. So every line of a transcript
comes to what it comes to alone, and old output comes to nothing: the re-run is the same without it,
in the text as long as what stands around it still meets between lines. -/
theorem rerun_piecewise (s : Session) :
    (∀ a b, LinesMeet a b → s.rerun (a ++ b) = s.rerun a ++ s.rerun b) ∧
    (∀ t, s.rerun t = (lines t).flatMap fun l => s.rerun l.text) ∧
    (∀ t u before l after, lines t = before ++ l :: after → lines u = before ++ after →
      Stale l.body → s.rerun t = s.rerun u) ∧
    ∀ a old b, LinesMeet a (old ++ b) → LinesMeet old b → (∀ l ∈ lines old, Stale l.body) →
      s.rerun (a ++ (old ++ b)) = s.rerun a ++ s.rerun b ∧
        (LinesMeet a b → s.rerun (a ++ (old ++ b)) = s.rerun (a ++ b)) := by
  refine ⟨fun a b => rerun_append s, fun t => ?_, ?_, ?_⟩
  · exact List.flatMap_congr fun l hl => (rerun_text_of_mem s hl).symm
  · intro t u before l after ht hu hl
    rw [Session.rerun, Session.rerun, ht, hu, List.flatMap_append, List.flatMap_append,
      List.flatMap_cons, refresh_of_stale s hl]
    rfl
  · intro a old b hfront hback hold
    have hremoved := rerun_removed s hfront hback hold
    exact ⟨hremoved, fun h => by rw [hremoved, rerun_append s h]⟩

theorem rerun_piecewise_old_output :
    let s : Session := {}
    let a := "   _ 0\u2028".toList
    let old := "5\r".toList
    let b := "   - (".toList
    let fresh := "   _ 0\n_ 0\n   - (\n|parse error: Unmatched ( at index 2\n".toList
    LinesMeet a (old ++ b) ∧ LinesMeet old b ∧ LinesMeet a b ∧ (∀ l ∈ lines old, Stale l.body) ∧
      lines (a ++ (old ++ b)) = lines a ++ ⟨['5'], ['\r']⟩ :: lines b ∧
      s.rerun (a ++ (old ++ b)) = s.rerun (a ++ b) ∧ s.rerun (a ++ (old ++ b)) = fresh := by
  intro s a old b fresh
  have hmeet : LinesMeet a b ∧ LinesMeet a (old ++ b) ∧ LinesMeet old b := by decide
  have hold : ∀ l ∈ lines old, Stale l.body := by decide
  have hlines : lines (a ++ (old ++ b)) = lines a ++ ⟨['5'], ['\r']⟩ :: lines b := by decide
  have hfresh : s.rerun a ++ s.rerun b = fresh := by decide +kernel
  obtain ⟨happend, _, hline, hremoved⟩ := rerun_piecewise s
  have hboth : s.rerun (a ++ b) = fresh := (happend a b hmeet.1).trans hfresh
  have hsame := hline _ (a ++ b) _ _ _ hlines (by decide) (hold _ (by decide))
  have hagain := (hremoved a old b hmeet.2.1 hmeet.2.2 hold).2 hmeet.1
  exact ⟨hmeet.2.1, hmeet.2.2, hmeet.1, hold, hlines, hsame, hagain.trans hboth⟩

end JCalc
