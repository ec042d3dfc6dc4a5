import JCalc.Proofs.Levels

/-! The run of a sentence. A moment has one successor, so the run ends in one answer, and every
failure of an evaluation is that of some moment. Evaluations under different limits whose moments
lead to the same, unless one of them is cut off there, give the same or are cut off. -/

namespace JCalc

variable {limits limits' : Limits} {tokens : List Token} {m : Moment} {fault : Fault}

theorem steps_rightUnique (limits : Limits) : Relator.RightUnique (Steps limits) := by
  rintro _ _ _ ⟨m, rfl, rfl⟩ ⟨_, hm, rfl⟩
  cases hm
  rfl

theorem eq_of_leads_answered {r : Except Fault (Option Fragment)} {p : Progress}
    (h : Leads limits (.answered r) p) : p = .answered r := by
  rcases Relation.ReflTransGen.cases_head h with rfl | ⟨_, ⟨_, hm, _⟩, _⟩
  · rfl
  · cases hm

theorem answered_unique {p : Progress} {r r' : Except Fault (Option Fragment)}
    (h : Leads limits p (.answered r)) (h' : Leads limits p (.answered r')) : r = r' := by
  rcases Relation.ReflTransGen.total_of_right_unique (steps_rightUnique limits) h h' with hr | hr
  · exact (Progress.answered.inj (eq_of_leads_answered hr)).symm
  · exact Progress.answered.inj (eq_of_leads_answered hr)

theorem evaluate_of_leads {r : Except Fault (Option Fragment)}
    (h : Leads limits (begin limits tokens) (.answered r)) :
    evaluate limits tokens = r.bind valueOf := by
  obtain ⟨r', hr', he⟩ := leads_evaluate limits tokens
  rw [he, answered_unique h hr']

theorem evaluate_of_next {r : Except Fault (Option Fragment)} (hm : m.Occurs limits tokens)
    (h : m.next limits = .answered r) : evaluate limits tokens = r.bind valueOf :=
  evaluate_of_leads (hm.tail ⟨m, rfl, h⟩)

/-- An evaluation that fails does so before it begins, at one of its moments, or because all that
is left is a verb. -/
theorem exists_failing_moment (h : evaluate limits tokens = .error fault) :
    (limits.depth < 0 ∧ fault = .tooDeep 0 limits.depth) ∨ (∃ v, fault = .noArgument v) ∨
      ∃ m : Moment, m.Occurs limits tokens ∧ m.next limits = .answered (.error fault) := by
  obtain ⟨r, hl, he⟩ := leads_evaluate limits tokens
  rw [he] at h
  rcases r with cause | _ | x | v
  · cases h
    rcases Relation.ReflTransGen.cases_tail hl with hb | ⟨_, hm, ⟨m, rfl, hnext⟩⟩
    · unfold begin at hb
      split_ifs at hb with hd
      cases hb
      exact .inl ⟨hd, rfl⟩
    · exact .inr (.inr ⟨m, hm, hnext⟩)
  · cases h
  · cases h
  · cases h
    exact .inr (.inl ⟨v, rfl⟩)

/-- Evaluations that begin alike and go on alike from every moment that they share, except where
the first of them is cut off, have one outcome unless the first is cut off. -/
theorem evaluate_eq_or_cut {cut : Fault → Prop} (hb : begin limits tokens = begin limits' tokens)
    (hs : ∀ m : Moment, m.Occurs limits tokens → m.Occurs limits' tokens →
      m.next limits = m.next limits' ∨
        ∃ fault, cut fault ∧ m.next limits = .answered (.error fault)) :
    evaluate limits tokens = evaluate limits' tokens ∨
      ∃ fault, cut fault ∧ evaluate limits tokens = .error fault := by
  have hrun {p : Progress} (hl : Leads limits' (begin limits' tokens) p) :
      Leads limits (begin limits tokens) p ∨
        ∃ fault, cut fault ∧ Leads limits (begin limits tokens) (.answered (.error fault)) := by
    induction hl with
    | refl => exact .inl (hb ▸ .refl)
    | tail hl hstep ih =>
      obtain ⟨m, rfl, hnext⟩ := hstep
      rcases ih with hm | hcut
      · rcases hs m hm hl with heq | ⟨fault, hcut, hend⟩
        · exact .inl (hm.tail ⟨m, rfl, heq.trans hnext⟩)
        · exact .inr ⟨fault, hcut, hm.tail ⟨m, rfl, hend⟩⟩
      · exact .inr hcut
  obtain ⟨r, hl, he⟩ := leads_evaluate limits' tokens
  rcases hrun hl with hr | ⟨fault, hcut, hr⟩
  · exact .inl ((evaluate_of_leads hr).trans he.symm)
  · exact .inr ⟨fault, hcut, evaluate_of_leads hr⟩

end JCalc
