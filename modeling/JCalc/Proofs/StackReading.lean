import JCalc.Proofs.Shifting
import JCalc.Proofs.Waiting

/-! The stack gives a sentence the value that it has without one. -/

namespace JCalc

variable {limit : Int}

theorem mark_ne_noun (w : Noun) : Entry.mark ≠ .noun w := nofun

theorem shift_mark (es : List Fragment) :
    ((waiting? limit [] es).bind fun stack => (reduce limit (.mark :: stack)).toOption) =
      (valueAfter? limit [] es).map fun z => [.mark, .noun z] := by
  have hm (y : Noun) : reduce limit [.mark, .noun y] = .ok _ := reduce_entry_noun mark_ne_noun y
  have hv (v : Verb) (y : Noun) : reduce limit [.mark, .verb v, .noun y] =
      (v.applyMonad limit y).bind fun z => reduce limit [.mark, .noun z] := reduce_eq limit _
  rcases es with _ | ⟨y | v, es⟩
  · rfl
  · exact shift_stop_run mark_ne_noun y [] es
  · rw [valueAfter?_nil_verb]
    rcases es with _ | ⟨y | u, es⟩
    · rfl
    · simp only [waiting?]
      cases valueAfter? limit [] (.noun y :: es) with
      | none => rfl
      | some z =>
        simp only [Option.map_some, Option.bind_some, hv, toOption_bind, hm]
        cases (v.applyMonad limit z).toOption <;> rfl
    · rw [valueAfter?_nil_verb, waiting?]
      cases valueAfter? limit [] es with
      | none => rfl
      | some z =>
        simp only [Option.map_some, Option.bind_some, reduce_entry_verb_verb_noun, toOption_bind, hv, hm]
        cases (u.applyMonad limit z).toOption with
        | none => rfl
        | some w =>
          simp only [Option.bind_some]
          cases (v.applyMonad limit w).toOption <;> rfl

theorem finish_two (e f : Entry) (rest : List Entry) :
    (finish (e :: f :: rest)).toOption = none := by
  rw [finish_cons_cons]
  cases firstVerb? (e :: f :: rest) <;> rfl

theorem valueAfter?_verbs (limit : Int) (vs : List Verb) : valueAfter? limit [] (vs.map .verb) = none := by
  induction vs with
  | nil => rfl
  | cons v vs ih => rw [List.map_cons, valueAfter?_nil_verb, ih, Option.bind_none]

theorem valueAfter?_append_verbs (limit : Int) (run : List Noun) (es : List Fragment) (v : Verb) (vs : List Verb) :
    valueAfter? limit run (es ++ (v :: vs).map .verb) = none := by
  induction es generalizing run with
  | nil => simp only [List.nil_append, List.map_cons, valueAfter?, valueAfter?_verbs, Option.bind_none]
  | cons e es ih => cases e <;> simp only [List.cons_append, valueAfter?, ih, Option.bind_none]

theorem exists_last_noun (es : List Fragment) :
    ∃ vs : List Verb, es = vs.map .verb ∨ ∃ fs x, es = fs ++ .noun x :: vs.map .verb := by
  induction es with
  | nil => exact ⟨[], .inl rfl⟩
  | cons e es ih =>
    obtain ⟨vs, rfl | ⟨fs, x, rfl⟩⟩ := ih
    · cases e with
      | noun x => exact ⟨vs, .inr ⟨[], x, rfl⟩⟩
      | verb v => exact ⟨v :: vs, .inl rfl⟩
    · exact ⟨vs, .inr ⟨e :: fs, x, rfl⟩⟩

theorem sentence?_of_noun (es : List Fragment) (x : Noun) (fs : List Fragment) :
    sentence? limit (es ++ .noun x :: fs) =
      (valueAfter? limit [] (es ++ .noun x :: fs)).map fun z => some (.noun z) := by
  rcases es with _ | ⟨e, _ | ⟨e', es⟩⟩
  · cases fs <;> rfl
  · rfl
  · rfl

theorem valueAfter?_nouns (run xs : List Noun) (es : List Fragment) :
    valueAfter? limit run (xs.map .noun ++ es) = valueAfter? limit (run ++ xs) es := by
  induction xs generalizing run with
  | nil => rw [List.append_nil, List.map_nil, List.nil_append]
  | cons x xs ih =>
    rw [List.map_cons, List.cons_append, valueAfter?, ih, List.append_assoc, List.singleton_append]

theorem sentence?_nouns {xs : List Noun} (h : xs ≠ []) :
    sentence? limit (xs.map .noun) = (strand? limit xs).map fun x => some (.noun x) := by
  obtain ⟨x, ys, rfl⟩ := List.exists_cons_of_ne_nil h
  have hsentence := @sentence?_of_noun limit [] x (ys.map .noun)
  have hvalue := @valueAfter?_nouns limit [] (x :: ys) []
  rw [List.append_nil] at hvalue
  rw [List.map_cons] at hvalue ⊢
  rw [List.nil_append] at hsentence
  rw [hsentence, hvalue]
  rfl

theorem conclude_append_noun (fs : List Fragment) (x : Noun) :
    ((shifted limit [] (fs ++ [.noun x])).bind (conclude limit)).toOption =
      sentence? limit (fs ++ [.noun x]) := by
  rw [toOption_bind, toOption_shifted, sentence?_of_noun fs x []]
  simp only [conclude_eq, toOption_bind]
  rw [← Option.bind_assoc, shift_mark]
  cases valueAfter? limit [] (fs ++ [.noun x]) <;> rfl

theorem conclude_verbs (vs : List Verb) :
    ((shifted limit [] (vs.map .verb)).bind (conclude limit)).toOption =
      sentence? limit (vs.map .verb) := by
  have hs : shifted limit [] (vs.map .verb) = .ok (vs.map .verb) := shifted_append_verbs [] vs
  have hm : reduce limit [.mark] = .ok [.mark] := reduce_of_redex?_none rfl
  have hr : reduce limit ([.mark] ++ vs.map .verb) = .ok ([.mark] ++ vs.map .verb) := by
    rw [reduce_append_verbs, hm]
    rfl
  simp only [List.singleton_append] at hr
  simp only [hs, Except.bind, conclude_eq, hr, List.tail_cons]
  rcases vs with _ | ⟨v, _ | ⟨u, vs⟩⟩
  · rfl
  · rfl
  · have hn : sentence? limit ((v :: u :: vs).map .verb) = none := by
      have h := valueAfter?_verbs limit (v :: u :: vs)
      exact congrArg (Option.map _) h
    rw [hn]
    exact finish_two _ _ _

theorem conclude_append_verbs (fs : List Fragment) (x : Noun) (v : Verb) (vs : List Verb) :
    ((shifted limit [] (fs ++ [.noun x] ++ (v :: vs).map .verb)).bind (conclude limit)).toOption =
      none := by
  rw [shifted_append_verbs]
  cases hs : shifted limit [] (fs ++ [.noun x]) with
  | error fault => rfl
  | ok stack =>
    have hw : waiting? limit [] (fs ++ [.noun x]) = some stack := by
      rw [← toOption_shifted, hs]
      rfl
    obtain ⟨e, rest, rfl⟩ := List.exists_cons_of_ne_nil (front_of_waiting? hw).2
    simp only [Except.map, Except.bind, conclude_eq]
    rw [← List.cons_append, reduce_append_verbs]
    cases hm : reduce limit (.mark :: e :: rest) with
    | error fault => rfl
    | ok s =>
      obtain ⟨f, rest', rfl⟩ := reduce_mark hm
      rcases rest' with _ | ⟨g, rest'⟩ <;> exact finish_two _ _ _

/-- The stack leaves what a sentence amounts to, and fails where it amounts to nothing. -/
theorem toOption_conclude_shifted (es : List Fragment) :
    ((shifted limit [] es).bind (conclude limit)).toOption = sentence? limit es := by
  obtain ⟨vs, rfl | ⟨fs, x, rfl⟩⟩ := exists_last_noun es
  · exact conclude_verbs vs
  · rcases vs with _ | ⟨v, vs⟩
    · exact conclude_append_noun fs x
    · have hl : fs ++ .noun x :: (v :: vs).map .verb = fs ++ [.noun x] ++ (v :: vs).map .verb := by simp
      have hv := valueAfter?_append_verbs limit [] (fs ++ [.noun x]) v vs
      rw [hl, conclude_append_verbs]
      rcases fs with _ | ⟨e, _ | ⟨f, fs⟩⟩ <;> exact (congrArg (Option.map _) hv).symm

end JCalc
