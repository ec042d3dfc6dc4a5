import JCalc.Sentence

/-! Reductions one at a time. The entries that match end at a noun and give way to
one noun, so every reduction shortens the stack, and neither the mark at its left
end nor the verbs at its right end are ever taken off. -/

namespace JCalc

variable {limit : Int} {stack : List Entry}

/-- The place of a reduction: the noun that it gives stands between the entries around it. -/
structure Redex where
  before : List Entry
  value : Except Fault Noun
  after : List Entry

def Redex.result (r : Redex) (z : Noun) : List Entry := r.before ++ .noun z :: r.after

/-- The reduction that the leftmost entries call for. -/
def redex? (limit : Int) : List Entry → Option Redex
  | .noun x :: .noun y :: rest => some ⟨[], x.concatenate limit y, rest⟩
  | .mark :: .verb v :: .noun y :: rest => some ⟨[.mark], v.applyMonad limit y, rest⟩
  | e :: .verb u :: .verb v :: .noun y :: rest => some ⟨[e, .verb u], v.applyMonad limit y, rest⟩
  | e :: .noun x :: .verb v :: .noun y :: rest => some ⟨[e], v.applyDyad x y, rest⟩
  | _ => none

theorem redex?_cases {r : Redex} (h : redex? limit stack = some r) :
    (∃ x y, stack = .noun x :: .noun y :: r.after ∧ r.before = [] ∧
      r.value = x.concatenate limit y) ∨
    (∃ v y, stack = r.before ++ .verb v :: .noun y :: r.after ∧ r.before ≠ [] ∧
      r.value = v.applyMonad limit y) ∨
    (∃ e x v y, stack = e :: .noun x :: .verb v :: .noun y :: r.after ∧ r.before = [e] ∧
      r.value = v.applyDyad x y) := by
  unfold redex? at h
  split at h <;> cases h
  · exact .inl ⟨_, _, rfl, rfl, rfl⟩
  · exact .inr (.inl ⟨_, _, rfl, by simp, rfl⟩)
  · exact .inr (.inl ⟨_, _, rfl, by simp, rfl⟩)
  · exact .inr (.inr ⟨_, _, _, _, rfl, rfl, rfl⟩)

theorem reduce_eq (limit : Int) (stack : List Entry) :
    reduce limit stack = match redex? limit stack with
      | none => .ok stack
      | some r => r.value.bind fun z => reduce limit (r.result z) := by
  fun_cases redex? limit stack with
  | case1 x y rest =>
    rw [reduce]
    cases x.concatenate limit y <;> rfl
  | case2 v y rest =>
    rw [reduce]
    cases v.applyMonad limit y <;> rfl
  | case3 e u v y rest =>
    rw [reduce]
    cases v.applyMonad limit y <;> rfl
  | case4 e x v y rest he =>
    rw [reduce]
    · cases v.applyDyad x y <;> rfl
    · exact he
  | case5 => rw [reduce] <;> assumption

theorem reduce_of_redex?_none (h : redex? limit stack = none) : reduce limit stack = .ok stack := by
  rw [reduce_eq, h]

theorem reduce_of_redex? {r : Redex} (h : redex? limit stack = some r) :
    reduce limit stack = r.value.bind fun z => reduce limit (r.result z) := by
  rw [reduce_eq, h]

theorem length_result_lt {r : Redex} (h : redex? limit stack = some r) (z : Noun) :
    (r.result z).length < stack.length := by
  rcases redex?_cases h with ⟨x, y, hs, hb, _⟩ | ⟨v, y, hs, _, _⟩ | ⟨e, x, v, y, hs, hb, _⟩
  · simp [hs, Redex.result, hb]
  · simp [hs, Redex.result]
  · simp [hs, Redex.result, hb]

/-- What holds of a stack and survives every reduction holds of the reduced stack. -/
theorem reduce_induction {p : List Entry → Prop}
    (step : ∀ {s r z}, p s → redex? limit s = some r → r.value = .ok z → p (r.result z))
    {stack' : List Entry} (hp : p stack) (h : reduce limit stack = .ok stack') : p stack' := by
  induction hn : stack.length using Nat.strongRecOn generalizing stack with
  | ind n ih =>
    cases hr : redex? limit stack with
    | none =>
      rw [reduce_of_redex?_none hr] at h
      cases h
      exact hp
    | some r =>
      rw [reduce_of_redex? hr] at h
      cases hv : r.value with
      | error fault => simp [hv, Except.bind] at h
      | ok z =>
        simp only [hv, Except.bind] at h
        exact ih _ (hn ▸ length_result_lt hr z) (step hp hr hv) h rfl

theorem redex?_append_verbs (limit : Int) (stack : List Entry) (vs : List Verb) :
    redex? limit (stack ++ vs.map .verb) =
      (redex? limit stack).map fun r => { r with after := r.after ++ vs.map .verb } := by
  rcases stack with _ | ⟨e, _ | ⟨f, _ | ⟨g, _ | ⟨h, rest⟩⟩⟩⟩
  · rcases vs with _ | ⟨v, _ | ⟨u, _ | ⟨w, _ | ⟨x, vs⟩⟩⟩⟩ <;> rfl
  · rcases vs with _ | ⟨v, _ | ⟨u, _ | ⟨w, vs⟩⟩⟩ <;> cases e <;> rfl
  · rcases vs with _ | ⟨v, _ | ⟨u, vs⟩⟩ <;> cases e <;> cases f <;> rfl
  · rcases vs with _ | ⟨v, vs⟩ <;> cases e <;> cases f <;> cases g <;> rfl
  · cases e <;> cases f <;> cases g <;> cases h <;> rfl

theorem reduce_append_verbs (limit : Int) (stack : List Entry) (vs : List Verb) :
    reduce limit (stack ++ vs.map .verb) = (reduce limit stack).map (· ++ vs.map .verb) := by
  induction hn : stack.length using Nat.strongRecOn generalizing stack with
  | ind n ih =>
    have ha := redex?_append_verbs limit stack vs
    cases hr : redex? limit stack with
    | none =>
      rw [hr] at ha
      rw [reduce_of_redex?_none ha, reduce_of_redex?_none hr]
      rfl
    | some r =>
      rw [hr] at ha
      rw [reduce_of_redex? ha, reduce_of_redex? hr]
      cases r.value with
      | error fault => rfl
      | ok z =>
        have hh := ih _ (hn ▸ length_result_lt hr z) (r.result z) rfl
        simpa only [Except.bind, Redex.result, List.append_assoc, List.cons_append] using hh

theorem reduce_mark {e : Entry} {stack' : List Entry}
    (h : reduce limit (.mark :: e :: stack) = .ok stack') :
    ∃ f rest, stack' = .mark :: f :: rest := by
  refine reduce_induction (p := fun s => ∃ f rest, s = .mark :: f :: rest) ?_ ⟨e, stack, rfl⟩ h
  rintro s r z ⟨f, rest, rfl⟩ hr _
  rcases redex?_cases hr with ⟨x, y, hs, _, _⟩ | ⟨v, y, hs, hb, _⟩ | ⟨g, x, v, y, hs, hb, _⟩
  · simp at hs
  · obtain ⟨g, before, hg⟩ := List.exists_cons_of_ne_nil hb
    rw [hg] at hs
    simp only [List.cons_append, List.cons.injEq] at hs
    cases before with
    | nil => exact ⟨.noun z, r.after, by simp [Redex.result, hg, ← hs.1]⟩
    | cons g' before =>
      exact ⟨g', before ++ .noun z :: r.after, by simp [Redex.result, hg, ← hs.1]⟩
  · have hg : Entry.mark = g := (List.cons.inj hs).1
    exact ⟨.noun z, r.after, by simp [Redex.result, hb, ← hg]⟩

end JCalc
