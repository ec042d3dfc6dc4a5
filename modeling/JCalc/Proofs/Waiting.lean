import JCalc.Proofs.Reading
import JCalc.Proofs.Reduction

/-! What the stack holds while a sentence is shifted from its right end: the value of
what has been read so far, and left of it at most one verb and one more entry that
wait for their arguments. Verbs that end the sentence stay below all that. -/

namespace JCalc

variable {limit : Int}

/-- The fragments of a sentence shifted from the right onto a stack, with reductions after each. -/
def shifted (limit : Int) (stack : List Entry) : List Fragment → Except Fault (List Entry)
  | [] => .ok stack
  | e :: es => (shifted limit stack es).bind fun s => reduce limit (e.entry :: s)

/-- The stack of a sentence that ends in a noun, after a run of nouns that it goes on from. -/
def waiting? (limit : Int) : List Noun → List Fragment → Option (List Entry)
  | run, [] => (strand? limit run).map fun x => [.noun x]
  | run, .noun x :: es => waiting? limit (run ++ [x]) es
  | [], .verb v :: .verb u :: es =>
    (valueAfter? limit [] es).map fun y => [.verb v, .verb u, .noun y]
  | [], .verb v :: es => (valueAfter? limit [] es).map fun y => [.verb v, .noun y]
  | run, .verb v :: es =>
    (strand? limit run).bind fun x =>
      (valueAfter? limit [] es).map fun y => [.noun x, .verb v, .noun y]

/-- What a reduced stack holds left of the verbs that end the sentence: nothing, or a value and what
waits for it. -/
inductive Front : List Entry → Prop where
  | empty : Front []
  | value (x : Noun) : Front [.noun x]
  | afterVerb (v : Verb) (x : Noun) : Front [.verb v, .noun x]
  | afterVerbs (u v : Verb) (x : Noun) : Front [.verb u, .verb v, .noun x]
  | afterNoun (x : Noun) (v : Verb) (y : Noun) : Front [.noun x, .verb v, .noun y]

theorem front_of_waiting? {run : List Noun} {es : List Fragment} {stack : List Entry}
    (h : waiting? limit run es = some stack) : Front stack ∧ stack ≠ [] := by
  fun_induction waiting? limit run es with
  | case1 run =>
    obtain ⟨x, _, rfl⟩ := Option.map_eq_some_iff.mp h
    exact ⟨.value x, List.cons_ne_nil _ _⟩
  | case2 run x es ih => exact ih h
  | case3 v u es =>
    obtain ⟨y, _, rfl⟩ := Option.map_eq_some_iff.mp h
    exact ⟨.afterVerbs v u y, List.cons_ne_nil _ _⟩
  | case4 v es =>
    obtain ⟨y, _, rfl⟩ := Option.map_eq_some_iff.mp h
    exact ⟨.afterVerb v y, List.cons_ne_nil _ _⟩
  | case5 run v es =>
    obtain ⟨x, _, hx⟩ := Option.bind_eq_some_iff.mp h
    obtain ⟨y, _, rfl⟩ := Option.map_eq_some_iff.mp hx
    exact ⟨.afterNoun x v y, List.cons_ne_nil _ _⟩

theorem toOption_bind {α β : Type} (r : Except Fault α) (f : α → Except Fault β) :
    (r.bind f).toOption = r.toOption.bind fun a => (f a).toOption := by
  cases r <;> rfl

theorem toOption_eq_some_iff {α : Type} {r : Except Fault α} {a : α} :
    r.toOption = some a ↔ r = .ok a := by
  cases r <;> simp [Except.toOption]

theorem toOption_concatenate (limit : Int) (x y : Noun) :
    (x.concatenate limit y).toOption =
      if (x.elements.length + y.elements.length : Int) ≤ limit
      then some (.list (x.elements ++ y.elements)) else none := by
  by_cases h : (x.elements.length + y.elements.length : Int) ≤ limit
  · have hn : ¬ limit < (x.elements.length + y.elements.length : Int) := by omega
    simp [Noun.concatenate, checkSize, h, hn, bind, Except.bind, Except.toOption, pure, Except.pure]
  · have hn : limit < (x.elements.length + y.elements.length : Int) := by omega
    simp [Noun.concatenate, checkSize, h, hn, bind, Except.bind, Except.toOption]

theorem strand?_of_two {limit : Int} {xs : List Noun} (h : 2 ≤ xs.length) : strand? limit xs =
    if ((xs.flatMap Noun.elements).length : Int) ≤ limit then some (.list (xs.flatMap Noun.elements))
    else none := by
  rcases xs with _ | ⟨x, _ | ⟨y, xs⟩⟩
  · cases h
  · simp at h
  · rfl

theorem strand?_cons (limit : Int) (x : Noun) {ys : List Noun} (h : ys ≠ []) :
    strand? limit (x :: ys) =
      (strand? limit ys).bind fun y => (x.concatenate limit y).toOption := by
  rcases ys with _ | ⟨y, _ | ⟨z, zs⟩⟩
  · exact absurd rfl h
  · simp [strand?, toOption_concatenate]
  · by_cases hl : ((y :: z :: zs).flatMap Noun.elements).length ≤ limit
    · simp only [strand?, hl, if_true, Option.bind_some, toOption_concatenate]
      simp [Noun.elements]
    · have hn : ¬ ((x :: y :: z :: zs).flatMap Noun.elements).length ≤ limit := by
        simp only [List.flatMap_cons, List.length_append] at hl ⊢
        omega
      simp only [strand?, hl, hn, if_false, Option.bind_none]

theorem valueAfter?_nil_verb (v : Verb) (es : List Fragment) :
    valueAfter? limit [] (.verb v :: es) =
      (valueAfter? limit [] es).bind fun y => (v.applyMonad limit y).toOption := rfl

theorem valueAfter?_verb (x : Noun) (run : List Noun) (v : Verb) (es : List Fragment) :
    valueAfter? limit (x :: run) (.verb v :: es) =
      (strand? limit (x :: run)).bind fun x =>
        (valueAfter? limit [] es).bind fun y => (v.applyDyad x y).toOption := by
  have h : applyTo? limit v (x :: run) = fun y =>
      (strand? limit (x :: run)).bind fun x => (v.applyDyad x y).toOption := rfl
  rw [valueAfter?, h]
  cases strand? limit (x :: run) <;> cases valueAfter? limit [] es <;> rfl

theorem reduce_noun_noun (x y : Noun) (rest : List Entry) :
    reduce limit (.noun x :: .noun y :: rest) =
      (x.concatenate limit y).bind fun z => reduce limit (.noun z :: rest) :=
  reduce_eq limit _

theorem reduce_entry_noun_verb_noun {e : Entry} (he : ∀ w, e ≠ .noun w) (x : Noun) (v : Verb)
    (y : Noun) :
    reduce limit [e, .noun x, .verb v, .noun y] =
      (v.applyDyad x y).bind fun z => reduce limit [e, .noun z] := by
  cases e with
  | noun w => exact absurd rfl (he w)
  | mark | verb => exact reduce_eq limit _

theorem reduce_entry_verb_verb_noun (e : Entry) (u v : Verb) (y : Noun) :
    reduce limit [e, .verb u, .verb v, .noun y] =
      (v.applyMonad limit y).bind fun z => reduce limit [e, .verb u, .noun z] := by
  cases e <;> exact reduce_eq limit _

theorem reduce_noun (x : Noun) : reduce limit [.noun x] = .ok [.noun x] :=
  reduce_of_redex?_none rfl

theorem reduce_entry_noun {e : Entry} (he : ∀ w, e ≠ .noun w) (y : Noun) :
    reduce limit [e, .noun y] = .ok [e, .noun y] := by
  cases e with
  | noun w => exact absurd rfl (he w)
  | mark | verb => exact reduce_of_redex?_none rfl

theorem reduce_entry_verb_noun (e : Fragment) (v : Verb) (y : Noun) :
    reduce limit [e.entry, .verb v, .noun y] = .ok [e.entry, .verb v, .noun y] := by
  cases e <;> exact reduce_of_redex?_none rfl

/-- A noun in front of a run joins it, whatever the run belongs to. -/
theorem shift_noun_run (x y : Noun) (run : List Noun) (es : List Fragment) :
    ((waiting? limit (y :: run) es).bind fun stack => (reduce limit (.noun x :: stack)).toOption) =
      waiting? limit (x :: y :: run) es := by
  have hs := strand?_cons limit x (List.cons_ne_nil y run)
  induction es generalizing run with
  | nil =>
    simp only [waiting?, hs]
    cases strand? limit (y :: run) with
    | none => rfl
    | some z =>
      simp only [Option.map_some, Option.bind_some, reduce_noun_noun, toOption_bind, reduce_noun]
      cases (x.concatenate limit z).toOption <;> rfl
  | cons e es ih =>
    cases e with
    | noun z => exact ih (run ++ [z]) (strand?_cons limit x (List.cons_ne_nil y _))
    | verb v =>
      simp only [waiting?, hs]
      cases strand? limit (y :: run) with
      | none => rfl
      | some z =>
        cases valueAfter? limit [] es with
        | none =>
          simp only [Option.map_none, Option.bind_some, Option.bind_none]
          cases (x.concatenate limit z).toOption <;> rfl
        | some w =>
          have hr (a : Noun) : reduce limit [.noun a, .verb v, .noun w] = .ok _ :=
            reduce_entry_verb_noun (.noun a) v w
          simp only [Option.map_some, Option.bind_some, reduce_noun_noun, toOption_bind, hr]
          cases (x.concatenate limit z).toOption <;> rfl

theorem shift_stop_run {e : Entry} (he : ∀ w, e ≠ .noun w) (y : Noun) (run : List Noun)
    (es : List Fragment) :
    ((waiting? limit (y :: run) es).bind fun stack => (reduce limit (e :: stack)).toOption) =
      (valueAfter? limit (y :: run) es).map fun z => [e, .noun z] := by
  induction es generalizing run with
  | nil =>
    simp only [waiting?, valueAfter?]
    cases strand? limit (y :: run) with
    | none => rfl
    | some z => simp only [Option.map_some, Option.bind_some, reduce_entry_noun he, Except.toOption]
  | cons f es ih =>
    cases f with
    | noun z => exact ih (run ++ [z])
    | verb v =>
      rw [valueAfter?_verb]
      simp only [waiting?]
      cases strand? limit (y :: run) with
      | none => rfl
      | some x =>
        cases valueAfter? limit [] es with
        | none => rfl
        | some w =>
          simp only [Option.map_some, Option.bind_some, reduce_entry_noun_verb_noun he,
            toOption_bind, reduce_entry_noun he]
          cases (v.applyDyad x w).toOption <;> rfl

theorem waiting?_cons_verb (e : Fragment) (v : Verb) (es : List Fragment) :
    waiting? limit [] (e :: .verb v :: es) =
      (valueAfter? limit [] es).map fun y => [e.entry, .verb v, .noun y] := by
  cases e <;> simp [waiting?, strand?, Fragment.entry]

theorem shift_cons_verb (e : Fragment) (v : Verb) (es : List Fragment) :
    ((waiting? limit [] (.verb v :: es)).bind fun stack =>
        (reduce limit (e.entry :: stack)).toOption) =
      waiting? limit [] (e :: .verb v :: es) := by
  rw [waiting?_cons_verb]
  rcases es with _ | ⟨y | u, es⟩
  · rfl
  · simp only [waiting?]
    cases valueAfter? limit [] (.noun y :: es) with
    | none => rfl
    | some z => simp only [Option.map_some, Option.bind_some, reduce_entry_verb_noun, Except.toOption]
  · rw [valueAfter?_nil_verb, waiting?]
    cases valueAfter? limit [] es with
    | none => rfl
    | some z =>
      simp only [Option.map_some, Option.bind_some, reduce_entry_verb_verb_noun, toOption_bind,
        reduce_entry_verb_noun]
      cases (u.applyMonad limit z).toOption <;> rfl

theorem shift_waiting (e : Fragment) {es : List Fragment} (h : es ≠ []) :
    ((waiting? limit [] es).bind fun stack => (reduce limit (e.entry :: stack)).toOption) =
      waiting? limit [] (e :: es) := by
  rcases es with _ | ⟨y | v, es⟩
  · exact absurd rfl h
  · cases e with
    | noun x => exact shift_noun_run x y [] es
    | verb u => exact shift_stop_run (e := .verb u) (fun _ => nofun) y [] es
  · exact shift_cons_verb e v es

theorem shifted_append (stack : List Entry) (es fs : List Fragment) :
    shifted limit stack (es ++ fs) =
      (shifted limit stack fs).bind fun s => shifted limit s es := by
  induction es with
  | nil => cases h : shifted limit stack fs <;> simp [shifted, h, Except.bind]
  | cons e es ih =>
    simp only [List.cons_append, shifted, ih]
    cases shifted limit stack fs <;> rfl

theorem toOption_shifted (es : List Fragment) (x : Noun) :
    (shifted limit [] (es ++ [.noun x])).toOption = waiting? limit [] (es ++ [.noun x]) := by
  induction es with
  | nil => simp [shifted, Except.bind, Fragment.entry, reduce_noun, Except.toOption, waiting?, strand?]
  | cons e es ih =>
    rw [List.cons_append, shifted, toOption_bind, ih]
    exact shift_waiting e (by simp)

theorem shifted_append_verbs (es : List Fragment) (vs : List Verb) :
    shifted limit [] (es ++ vs.map .verb) = (shifted limit [] es).map (· ++ vs.map .verb) := by
  induction es with
  | nil =>
    induction vs with
    | nil => rfl
    | cons v vs ih =>
      have hn : reduce limit [] = .ok [] := reduce_of_redex?_none rfl
      have hr := reduce_append_verbs limit [] (v :: vs)
      rw [hn] at hr
      simp only [List.nil_append] at ih
      simp only [List.nil_append, List.map_cons, shifted, ih]
      exact hr
  | cons e es ih =>
    simp only [List.cons_append, shifted, ih]
    cases shifted limit [] es with
    | error fault => rfl
    | ok stack => exact reduce_append_verbs limit (e.entry :: stack) vs

end JCalc
