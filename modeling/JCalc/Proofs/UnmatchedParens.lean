import JCalc.Proofs.Runs
import JCalc.Proofs.ValueModel

/-! Parentheses that do not balance. No sentence with such parentheses has a value. If one of them
is reported, it is the last one without a partner, and it is found on the level of the whole
sentence: inside a matched group every parenthesis has a partner there. -/

namespace JCalc

def TokenKind.paren? : TokenKind → Option Char
  | .leftParen => some '('
  | .rightParen => some ')'
  | _ => none

/-- The report says that a parenthesis has no partner, and which and where it is. -/
def Fault.ReportsUnmatched (fault : Fault) (paren : Char) (place : Int) : Prop :=
  fault.report = .grammatical ("Unmatched ".toList ++ [paren]) (some place)

/-- The last parenthesis of the tokens that has no partner. -/
structure LastUnmatched (tokens before : List Token) (t : Token) (after : List Token) : Prop where
  tokens_eq : tokens = before ++ t :: after
  isParen : t.kind.isParen = true
  alone : ¬ HasPartner before t after
  partners : ∀ a u b, after = a ++ u :: b → u.kind.isParen = true →
    HasPartner (before ++ t :: a) u b

section

variable {limits : Limits} {tokens : List Token} {m : Moment} {fault : Fault} {paren : Char}
  {place : Int}

theorem Fault.ReportsUnmatched.cases (h : fault.ReportsUnmatched paren place) :
    (fault = .unmatchedOpen place ∧ paren = '(') ∨ (fault = .unmatchedClose place ∧ paren = ')') := by
  cases fault with
  | unmatchedOpen at_ =>
    cases h
    exact .inl ⟨rfl, rfl⟩
  | unmatchedClose at_ =>
    cases h
    exact .inr ⟨rfl, rfl⟩
  | _ => cases h

theorem verbFault_of_redex (hm : m.Occurs limits tokens) {r : Redex}
    (hr : redex? limits.size m.stack = some r) (hv : r.value = .error fault) :
    VerbFault (Noun.Sound fun _ => True) fault := by
  have hclosed := closed_sound limits.size scalarClosed_true
  have hkeeps := keeps_of_leads hclosed (fun _ _ x _ => sound_atom_toScalar (x := x) trivial) hm
    keeps_begin
  have hyields := yields_redex hclosed hr hkeeps.1.noun
  rwa [hv] at hyields

/-- A parenthesis is reported if it is the next to be shifted and has no partner, whatever balanced
tokens were passed. -/
theorem FailsAt.unmatched (hm : m.Occurs limits tokens) (h : FailsAt limits m fault)
    (hr : fault.ReportsUnmatched paren place) :
    ∃ t before, m.before = t :: before ∧ t.place = place ∧ t.kind.paren? = some paren ∧
      ∀ passed, Balanced passed → ¬ HasPartner before.reverse t passed := by
  rcases hr.cases with ⟨rfl, rfl⟩ | ⟨rfl, rfl⟩
  · cases h with
    | redex hr hv => cases verbFault_of_redex hm hr hv
    | @unmatchedOpen t before ht hb =>
      exact ⟨t, before, hb, rfl, by rw [ht]; rfl, fun _ => not_hasPartner_of_balanced ht⟩
  · cases h with
    | redex hr hv => cases verbFault_of_redex hm hr hv
    | @unmatchedClose t before ht hb hg =>
      refine ⟨t, before, hb, rfl, by rw [ht]; rfl, fun passed _ hp => ?_⟩
      obtain ⟨g, hsome⟩ := (hasPartner_iff_closeGroup? ht before passed).mp hp
      rw [hg] at hsome
      cases hsome

theorem isParen_of_paren? {k : TokenKind} (h : k.paren? = some paren) : k.isParen = true := by
  cases k <;> first | rfl | cases h

theorem not_balanced_of_lastUnmatched {before after : List Token} {t : Token}
    (h : LastUnmatched tokens before t after) : ¬ Balanced tokens :=
  fun hb => h.alone (hb.hasPartner h.tokens_eq h.isParen)

/-- Inside a group every parenthesis has a partner there. -/
theorem outer_eq_nil_of_unmatched (hm : m.Occurs limits tokens) (h : FailsAt limits m fault)
    (hr : fault.ReportsUnmatched paren place) : m.outer = [] := by
  by_contra ho
  obtain ⟨t, before, hb, _, hk, halone⟩ := h.unmatched hm hr
  obtain ⟨passed, right, hp, he⟩ := located_of_occurs hm
  refine halone passed hp ((he.balanced ho).hasPartner ?_ (isParen_of_paren? hk))
  rw [hb]
  simp

theorem exists_lastUnmatched (hm : m.Occurs limits tokens) (h : FailsAt limits m fault)
    (hr : fault.ReportsUnmatched paren place) :
    ∃ before t after, LastUnmatched tokens before t after ∧ t.place = place ∧
      t.kind.paren? = some paren := by
  obtain ⟨t, before, hb, hplace, hk, halone⟩ := h.unmatched hm hr
  obtain ⟨passed, right, hp, he⟩ := located_of_occurs hm
  rw [outer_eq_nil_of_unmatched hm h hr, hb] at he
  cases he
  refine ⟨before.reverse, t, passed, ⟨by simp, isParen_of_paren? hk, halone passed hp, ?_⟩, hplace, hk⟩
  intro a u b hcut hu
  simpa using (hp.hasPartner hcut hu).extend (before.reverse ++ [t]) []

end

/-- Tokens whose parentheses do not balance have no value. A report of an unmatched parenthesis is
made on the level of the whole sentence, of tokens that do not balance, and names the kind and the
place of the last parenthesis without a partner; inside a group no such report is made. -/
theorem unbalanced_never_evaluated (limits : Limits) (tokens : List Token) :
    (¬ Balanced tokens → ∃ fault, evaluate limits tokens = .error fault) ∧
    (∀ fault paren place, evaluate limits tokens = .error fault →
      fault.ReportsUnmatched paren place →
      ¬ Balanced tokens ∧
      (∃ m : Moment, m.Occurs limits tokens ∧ m.outer = [] ∧
        m.next limits = .answered (.error fault)) ∧
      ∃ before t after, LastUnmatched tokens before t after ∧ t.place = place ∧
        t.kind.paren? = some paren) ∧
    ∀ m : Moment, m.Occurs limits tokens → m.outer ≠ [] →
      ∀ fault paren place, fault.ReportsUnmatched paren place →
        m.next limits ≠ .answered (.error fault) := by
  refine ⟨fun hb => ?_, fun fault paren place he hr => ?_, fun m hm ho fault paren place hr h => ?_⟩
  · cases he : evaluate limits tokens with
    | error fault => exact ⟨fault, rfl⟩
    | ok value =>
      obtain ⟨_, _, hreads, _⟩ := reads_of_evaluate he
      exact absurd hreads.balanced hb
  · rcases exists_failing_moment he with ⟨_, rfl⟩ | ⟨v, rfl⟩ | ⟨m, hm, hnext⟩
    · cases hr
    · cases hr
    · have hfails := failsAt_of_next hnext
      obtain ⟨before, t, after, hlast, hplace, hk⟩ := exists_lastUnmatched hm hfails hr
      exact ⟨not_balanced_of_lastUnmatched hlast, ⟨m, hm, outer_eq_nil_of_unmatched hm hfails hr, hnext⟩,
        before, t, after, hlast, hplace, hk⟩
  · exact ho (outer_eq_nil_of_unmatched hm (failsAt_of_next h) hr)

theorem unbalanced_never_evaluated_before_group :
    let opening : Token := ⟨.leftParen, ['('], 2, 3⟩
    let inside : Token := ⟨.number ⟨.infinity, .zero⟩, ['_'], 3, 4⟩
    let before : List Token := [⟨.leftParen, ['('], 1, 2⟩, ⟨.rightParen, [')'], 0, 1⟩]
    let tokens := before.reverse ++ [opening, inside, ⟨.rightParen, [')'], 4, 5⟩]
    let m : Moment := ⟨[], [inside], [⟨opening, [], before⟩]⟩
    ¬ Balanced tokens ∧ evaluate ⟨1, 1⟩ tokens = .error (.unmatchedOpen 1) ∧
      (∃ before t after, LastUnmatched tokens before t after ∧ t.place = 1) ∧
      m.Occurs ⟨1, 1⟩ tokens ∧ m.next ⟨1, 1⟩ ≠ .answered (.error (.unmatchedOpen 1)) := by
  intro opening inside before tokens m
  obtain ⟨_, hreport, hinside⟩ := unbalanced_never_evaluated ⟨1, 1⟩ tokens
  have hfails : evaluate ⟨1, 1⟩ tokens = .error (.unmatchedOpen 1) := by decide +kernel
  have hm : m.Occurs ⟨1, 1⟩ tokens := .single ⟨⟨[], tokens.reverse, []⟩, rfl, rfl⟩
  obtain ⟨hb, _, before', t, after, hlast, hplace, _⟩ := hreport _ '(' 1 hfails rfl
  exact ⟨hb, hfails, ⟨before', t, after, hlast, hplace⟩, hm,
    hinside m hm (List.cons_ne_nil _ _) _ '(' 1 rfl⟩

end JCalc
