import JCalc.Sentence

/-! Evaluation as a chain of steps any of which may fail: what shifting one token does,
what comes of a group, and what is left when the mark is shifted. -/

namespace JCalc

variable {limits : Limits} {depth : Int}

theorem bind_eq_ok {α β : Type} {r : Except Fault α} {f : α → Except Fault β} {b : β}
    (h : r.bind f = .ok b) : ∃ a, r = .ok a ∧ f a = .ok b := by
  cases r with
  | error fault => simp [Except.bind] at h
  | ok a => exact ⟨a, rfl, h⟩

theorem bind_shiftAll_nil (limits : Limits) (depth : Int) (r : Except Fault (List Entry)) :
    r.bind (shiftAll limits depth []) = r := by
  cases r <;> simp [Except.bind, shiftAll]

theorem shiftAll_number {t : Token} {x : Number} (h : t.kind = .number x) (before : List Token)
    (stack : List Entry) :
    shiftAll limits depth (t :: before) stack =
      (reduce limits.size (.noun (.atom x.toScalar) :: stack)).bind
        (shiftAll limits depth before) := by
  rw [shiftAll]
  simp only [h]
  cases reduce limits.size (.noun (.atom x.toScalar) :: stack) <;> rfl

theorem shiftAll_verb {t : Token} {v : Verb} (h : t.kind = .verb)
    (hv : Verb.ofSpelling? t.text = some v) (before : List Token) (stack : List Entry) :
    shiftAll limits depth (t :: before) stack =
      (reduce limits.size (.verb v :: stack)).bind (shiftAll limits depth before) := by
  rw [shiftAll]
  simp only [h, hv]
  cases reduce limits.size (.verb v :: stack) <;> rfl

theorem shiftAll_finish {t : Token} (h : t.kind = .finish) (before : List Token)
    (stack : List Entry) :
    shiftAll limits depth (t :: before) stack = shiftAll limits depth before stack := by
  rw [shiftAll]
  simp only [h]

theorem shiftAll_unknown {t : Token} (h : t.kind = .verb)
    (hv : Verb.ofSpelling? t.text = none) (before : List Token) (stack : List Entry) :
    shiftAll limits depth (t :: before) stack = .error (.unknownVerb t.text) := by
  rw [shiftAll]
  simp only [h, hv]

theorem shiftAll_leftParen {t : Token} (h : t.kind = .leftParen) (before : List Token)
    (stack : List Entry) :
    shiftAll limits depth (t :: before) stack = .error (.unmatchedOpen t.place) := by
  rw [shiftAll]
  simp only [h]

theorem shiftAll_other {t : Token} {label : Text} (h : t.kind = .other label)
    (before : List Token) (stack : List Entry) :
    shiftAll limits depth (t :: before) stack = .error (.strayToken label t.place) := by
  rw [shiftAll]
  simp only [h]

/-- What comes of a group once it is found: its fragment is shifted in its place. -/
def shiftGroup (limits : Limits) (depth : Int) (g : Group) (stack : List Entry) :
    Except Fault (List Entry) :=
  ((shiftAll limits (depth + 1) g.inside []).bind (conclude limits.size)).bind fun
    | none => .error (.emptyGroup g.opening.place)
    | some e => reduce limits.size (e.entry :: stack)

theorem shiftAll_rightParen (limits : Limits) (depth : Int) {t : Token}
    (h : t.kind = .rightParen) (before : List Token) (stack : List Entry) :
    shiftAll limits depth (t :: before) stack =
      match closeGroup? 0 before with
      | none => .error (.unmatchedClose t.place)
      | some g =>
        if limits.depth < depth + 1 then .error (.tooDeep (depth + 1) limits.depth)
        else (shiftGroup limits depth g stack).bind (shiftAll limits depth g.before) := by
  rw [shiftAll]
  simp only [h]
  split
  · rename_i hg
    rw [hg]
  · rename_i g hg
    simp only [hg]
    by_cases hd : limits.depth < depth + 1
    · rw [if_pos hd, if_pos hd]
    · rw [if_neg hd, if_neg hd, shiftGroup]
      cases shiftAll limits (depth + 1) g.inside [] with
      | error fault => rfl
      | ok inner =>
        simp only [Except.bind]
        rcases conclude limits.size inner with fault | _ | e
        · rfl
        · rfl
        · dsimp only
          cases reduce limits.size (e.entry :: stack) <;> rfl

theorem conclude_eq (limit : Int) (stack : List Entry) :
    conclude limit stack = (reduce limit (.mark :: stack)).bind fun s => finish s.tail := by
  rw [conclude]
  cases reduce limit (.mark :: stack) <;> rfl

theorem finish_cons_cons (e f : Entry) (rest : List Entry) :
    finish (e :: f :: rest) = match firstVerb? (e :: f :: rest) with
      | some v => .error (.noRightArgument v)
      | none => .error .irreducible := by
  cases e <;> rfl

theorem fault_of_finish {stack : List Entry} {fault : Fault} (h : finish stack = .error fault) :
    fault = .irreducible ∨ ∃ v, fault = .noRightArgument v := by
  rcases stack with _ | ⟨e, _ | ⟨f, rest⟩⟩
  · cases h
  · cases e with
    | noun x => cases h
    | verb v => cases h
    | mark =>
      cases h
      exact .inl rfl
  · rw [finish_cons_cons] at h
    cases hv : firstVerb? (e :: f :: rest) with
    | none =>
      rw [hv] at h
      cases h
      exact .inl rfl
    | some v =>
      rw [hv] at h
      cases h
      exact .inr ⟨v, rfl⟩

/-- A verb alone is no value. -/
def valueOf : Option Fragment → Except Fault (Option Noun)
  | none => .ok none
  | some (.noun x) => .ok (some x)
  | some (.verb v) => .error (.noArgument v)

theorem evaluate_eq (h : 0 ≤ limits.depth) (tokens : List Token) :
    evaluate limits tokens =
      ((shiftAll limits 0 tokens.reverse []).bind (conclude limits.size)).bind valueOf := by
  rw [evaluate, if_neg (by omega)]
  cases shiftAll limits 0 tokens.reverse [] with
  | error fault => rfl
  | ok stack =>
    simp only [Except.bind]
    rcases conclude limits.size stack with fault | _ | x | v <;> rfl

end JCalc
