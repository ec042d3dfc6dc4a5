import JCalc.Proofs.StackReading
import Mathlib.Data.List.DropRight

/-! The forms of a stack that is fully reduced. Left of the verbs that end the sentence it holds at
most one value and what waits for it: a verb, two verbs, or a noun and a verb. No reduction matches
anywhere in such a stack, and the mark leaves at most the value. -/

namespace JCalc

def Fragment.isVerb : Fragment → Bool
  | .noun _ => false
  | .verb _ => true

/-- The verbs at the right end of a sentence that have no noun on their right. -/
def finalVerbs (es : List Fragment) : List Entry := (es.rtakeWhile Fragment.isVerb).map Fragment.entry

/-- No reduction matches anywhere in the stack, at its left end or deeper. -/
def FullyReduced (limit : Int) (stack : List Entry) : Prop :=
  ∀ n, redex? limit (stack.drop n) = none

section

variable {limit : Int} {es : List Fragment} {front stack : List Entry}

theorem finalVerbs_verbs (vs : List Verb) : finalVerbs (vs.map .verb) = vs.map .verb := by
  have hall : ∀ e ∈ vs.map Fragment.verb, e.isVerb = true := by
    intro e he
    obtain ⟨v, _, rfl⟩ := List.mem_map.mp he
    rfl
  rw [finalVerbs, List.rtakeWhile_eq_self_iff.mpr hall, List.map_map]
  rfl

theorem finalVerbs_behind_noun (fs : List Fragment) (x : Noun) (vs : List Verb) :
    finalVerbs (fs ++ .noun x :: vs.map .verb) = vs.map .verb := by
  induction vs using List.reverseRecOn with
  | nil =>
    rw [finalVerbs, List.map_nil, List.rtakeWhile_concat_neg _ _ _ Bool.false_ne_true]
    rfl
  | append_singleton vs v ih =>
    have hcut : fs ++ .noun x :: (vs ++ [v]).map Fragment.verb =
        fs ++ .noun x :: vs.map .verb ++ [.verb v] := by simp
    rw [finalVerbs] at ih ⊢
    rw [hcut, List.rtakeWhile_concat_pos _ _ _ rfl, List.map_append, ih, List.map_append]
    rfl

/-- What is read later does not change the verbs that end a sentence, once a noun is read. -/
theorem finalVerbs_append_behind_noun (gs fs : List Fragment) (x : Noun) (vs : List Verb) :
    finalVerbs (gs ++ (fs ++ .noun x :: vs.map .verb)) = finalVerbs (fs ++ .noun x :: vs.map .verb) := by
  rw [← List.append_assoc, finalVerbs_behind_noun, finalVerbs_behind_noun]

theorem exists_finalVerbs (es : List Fragment) : ∃ vs : List Verb, finalVerbs es = vs.map .verb := by
  obtain ⟨vs, rfl | ⟨fs, x, rfl⟩⟩ := exists_last_noun es
  · exact ⟨vs, finalVerbs_verbs vs⟩
  · exact ⟨vs, finalVerbs_behind_noun fs x vs⟩

/-- What is shifted next leaves the verbs that end the sentence where they are. -/
theorem length_finalVerbs_cons (e : Fragment) (es : List Fragment) :
    (finalVerbs es).length ≤ (finalVerbs (e :: es)).length := by
  obtain ⟨vs, rfl | ⟨fs, x, rfl⟩⟩ := exists_last_noun es
  · cases e with
    | noun x =>
      have hx := finalVerbs_behind_noun [] x vs
      rw [List.nil_append] at hx
      rw [finalVerbs_verbs, hx]
    | verb v =>
      have hv := finalVerbs_verbs (v :: vs)
      rw [List.map_cons] at hv
      rw [finalVerbs_verbs, hv, List.map_cons]
      exact Nat.le_succ _
  · exact Nat.le_of_eq (congrArg List.length (finalVerbs_append_behind_noun [e] fs x vs).symm)

theorem finalVerbs_of_getLast? (h : ∀ v, es.getLast? ≠ some (.verb v)) : finalVerbs es = [] := by
  rcases List.eq_nil_or_concat es with rfl | ⟨fs, e, rfl⟩
  · rfl
  · rw [List.concat_eq_append] at h ⊢
    cases e with
    | noun x => exact finalVerbs_behind_noun fs x []
    | verb v => exact absurd List.getLast?_concat (h v)

theorem Front.length_le (h : Front front) : front.length ≤ 3 := by
  cases h <;> simp

/-- The verbs that end a sentence are shifted onto nothing, and all that follows stays above them. -/
theorem shifted_over_finalVerbs (h : shifted limit [] es = .ok stack) :
    ∃ front, stack = front ++ finalVerbs es ∧ (front = [] ∨
      (∃ fs, waiting? limit [] fs = some front) ∧ ∀ fs, finalVerbs (fs ++ es) = finalVerbs es) := by
  obtain ⟨vs, rfl | ⟨fs, x, rfl⟩⟩ := exists_last_noun es
  · have hverbs := @shifted_append_verbs limit [] vs
    rw [List.nil_append, h] at hverbs
    refine ⟨[], ?_, .inl rfl⟩
    rw [finalVerbs_verbs]
    exact Except.ok.inj hverbs
  · have hcut : fs ++ .noun x :: vs.map .verb = fs ++ [.noun x] ++ vs.map .verb := by simp
    rw [hcut, shifted_append_verbs] at h
    cases hs : shifted limit [] (fs ++ [.noun x]) with
    | error fault =>
      rw [hs] at h
      cases h
    | ok front =>
      rw [hs] at h
      have hwaiting : waiting? limit [] (fs ++ [.noun x]) = some front := by
        rw [← toOption_shifted, hs]
        rfl
      refine ⟨front, ?_, .inr ⟨⟨_, hwaiting⟩, fun gs => finalVerbs_append_behind_noun gs fs x vs⟩⟩
      rw [finalVerbs_behind_noun]
      exact (Except.ok.inj h).symm

/-- The stack that is left when the fragments of a sentence have been shifted. Unless it holds only
verbs, those at its right end stay the last ones whatever is read later. -/
theorem exists_front (h : shifted limit [] es = .ok stack) :
    ∃ front, Front front ∧ stack = front ++ finalVerbs es ∧
      (front ≠ [] → ∀ fs, finalVerbs (fs ++ es) = finalVerbs es) := by
  obtain ⟨front, hstack, rfl | ⟨⟨fs, hfs⟩, hlater⟩⟩ := shifted_over_finalVerbs h
  · exact ⟨[], .empty, hstack, fun hne => absurd rfl hne⟩
  · exact ⟨front, (front_of_waiting? hfs).1, hstack, fun _ => hlater⟩

theorem length_shifted_le (h : shifted limit [] es = .ok stack) :
    stack.length ≤ 3 + (finalVerbs es).length := by
  obtain ⟨front, hfront, rfl, _⟩ := exists_front h
  rw [List.length_append]
  exact Nat.add_le_add_right hfront.length_le _

/-- The stack that is left when the mark has been shifted after them. -/
theorem exists_marked (h : shifted limit [] es = .ok stack) {marked : List Entry}
    (hm : reduce limit (.mark :: stack) = .ok marked) :
    ∃ x : Option Noun, marked = .mark :: ((x.map Entry.noun).toList ++ finalVerbs es) := by
  obtain ⟨front, rfl, hfront⟩ := shifted_over_finalVerbs h
  obtain ⟨vs, hvs⟩ := exists_finalVerbs es
  rw [hvs, ← List.cons_append, reduce_append_verbs] at hm
  rw [hvs]
  rcases hfront with rfl | ⟨⟨fs, hfs⟩, _⟩
  · rw [reduce_of_redex?_none rfl] at hm
    exact ⟨none, (Except.ok.inj hm).symm⟩
  · have hvalue := @shift_mark limit fs
    cases hred : reduce limit (.mark :: front) with
    | error fault =>
      rw [hred] at hm
      cases hm
    | ok s =>
      rw [hfs, Option.bind_some, hred] at hvalue
      obtain ⟨x, _, rfl⟩ := Option.map_eq_some_iff.mp hvalue.symm
      rw [hred] at hm
      exact ⟨some x, (Except.ok.inj hm).symm⟩

theorem FullyReduced.append_verbs (h : FullyReduced limit stack) (vs : List Verb) :
    FullyReduced limit (stack ++ vs.map .verb) := by
  intro n
  rw [List.drop_append, ← List.map_drop, redex?_append_verbs, h n]
  rfl

theorem Front.fullyReduced (h : Front front) : FullyReduced limit front := by
  intro n
  cases h <;> rcases n with _ | _ | _ | n <;> simp [redex?]

theorem fullyReduced_mark (x : Option Noun) : FullyReduced limit (.mark :: (x.map Entry.noun).toList) := by
  intro n
  cases x <;> rcases n with _ | _ | n <;> simp [redex?]

theorem FullyReduced.no_adjacent_nouns (h : FullyReduced limit stack) (a : List Entry) (x y : Noun)
    (b : List Entry) : stack ≠ a ++ .noun x :: .noun y :: b := by
  rintro rfl
  have hcut := h a.length
  rw [List.drop_left] at hcut
  cases hcut

/-- A value with verbs behind it is never left over without any verb. -/
theorem finish_ne_irreducible (x : Option Noun) (es : List Fragment) :
    finish ((x.map Entry.noun).toList ++ finalVerbs es) ≠ .error .irreducible := by
  obtain ⟨vs, hvs⟩ := exists_finalVerbs es
  rw [hvs]
  rcases x with _ | x <;> rcases vs with _ | ⟨v, _ | ⟨u, vs⟩⟩ <;> exact nofun

end

end JCalc
