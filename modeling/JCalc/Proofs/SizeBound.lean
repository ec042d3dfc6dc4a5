import JCalc.Proofs.Invariant
import JCalc.Session
import JCalc.Verb.Apply

/-! The size limit bounds every noun that an evaluation arrives at. A list longer than its
arguments is only made by a join or a count, and both are refused beyond the limit. -/

namespace JCalc

def Noun.Fits (limit : Int) (x : Noun) : Prop := (x.elements.length : Int) ≤ limit

section

variable {limit : Int} {x y : Noun}

/-- The result, if there is one, is within the limit. -/
abbrev Bounded (limit : Int) : Except Fault Noun → Prop := Yields (Noun.Fits limit) fun _ => True

theorem bounded_bind {α : Type} (r : Except Fault α) {next : α → Except Fault Noun}
    (h : ∀ a, Bounded limit (next a)) : Bounded limit (r >>= next) := by
  cases r with
  | error fault => trivial
  | ok a => exact h a

theorem bounded_checkSize {subject : Text} {count : Nat} {next : Unit → Except Fault Noun}
    (h : (count : Int) ≤ limit → Bounded limit (next ())) :
    Bounded limit (checkSize limit subject count >>= next) := by
  unfold checkSize
  split
  · trivial
  · exact h (by omega)

theorem bounded_requireDefined (v : Verb) (h : x.Fits limit) : Bounded limit (v.requireDefined x) := by
  unfold Verb.requireDefined
  split
  · exact h
  · trivial

theorem fits_map (f : Scalar → Scalar) (h : x.Fits limit) : (x.map f).Fits limit := by
  rwa [Noun.Fits, Noun.elements_map, List.length_map]

theorem fits_zipWith (f : Scalar → Scalar → Scalar) (hx : x.Fits limit) (hy : y.Fits limit) :
    (x.zipWith f y).Fits limit := by
  cases x <;> cases y <;>
    simp only [Noun.Fits, Noun.zipWith, Noun.elements, List.length_map, List.length_zipWith,
      List.length_singleton] at *
  all_goals omega

theorem bounded_realElementwise (v : Verb) (f : Binary64 → Binary64 → Binary64)
    (hx : x.Fits limit) (hy : y.Fits limit) : Bounded limit (v.realElementwise f x y) :=
  bounded_bind _ fun _ => bounded_bind _ fun _ => bounded_bind _ fun _ =>
    bounded_requireDefined v (fits_zipWith _ hx hy)

theorem bounded_elementwise (v : Verb) (f : Scalar → Scalar → Scalar)
    (hx : x.Fits limit) (hy : y.Fits limit) : Bounded limit (v.elementwise f x y) :=
  bounded_bind _ fun _ => bounded_requireDefined v (fits_zipWith f hx hy)

theorem bounded_quotient (hx : x.Fits limit) (hy : y.Fits limit) :
    Bounded limit (Verb.quotient x y) := by
  unfold Verb.quotient
  split <;> exact bounded_realElementwise .divide _ hx hy

theorem bounded_countUp (limit : Int) (y : Noun) : Bounded limit (Verb.countUp limit y) := by
  cases y with
  | list ys => trivial
  | atom s =>
    refine bounded_bind _ fun _ => ?_
    cases s.re with
    | nan => trivial
    | number n =>
      dsimp only
      split
      · trivial
      · split
        · trivial
        · refine bounded_checkSize fun h => ?_
          simpa [Yields, Noun.Fits, Noun.elements, pure, Except.pure] using h

theorem bounded_applyMonad (h1 : 1 ≤ limit) (v : Verb) (hy : y.Fits limit) :
    Bounded limit (v.applyMonad limit y) := by
  cases v with
  | minus => exact bounded_requireDefined .minus (fits_map _ hy)
  | not =>
    refine bounded_bind _ fun _ => ?_
    split
    · exact bounded_requireDefined .not (fits_map _ hy)
    · trivial
  | tally => exact h1
  | shape =>
    cases y with
    | atom s => exact Int.le_trans (by decide) h1
    | list ys => exact bounded_checkSize fun h => h
  | times => exact bounded_bind _ fun _ => bounded_requireDefined .times (fits_map _ hy)
  | divide => exact bounded_quotient h1 hy
  | integers => exact bounded_countUp limit y
  | plus => trivial

theorem bounded_applyDyad (v : Verb) (hx : x.Fits limit) (hy : y.Fits limit) :
    Bounded limit (v.applyDyad x y) := by
  cases v with
  | minus => exact bounded_elementwise .minus _ hx hy
  | plus => exact bounded_elementwise .plus _ hx hy
  | times => exact bounded_realElementwise .times _ hx hy
  | divide => exact bounded_quotient hx hy
  | tally | shape | not | integers => trivial

theorem bounded_concatenate (x y : Noun) : Bounded limit (x.concatenate limit y) := by
  refine bounded_checkSize fun h => ?_
  simpa [Yields, Noun.Fits, Noun.elements, pure, Except.pure] using h

theorem closed_fits (h1 : 1 ≤ limit) : Closed limit (Noun.Fits limit) fun _ => True :=
  ⟨fun _ _ => bounded_concatenate _ _, fun v _ hy => bounded_applyMonad h1 v hy,
    fun v _ _ hx hy => bounded_applyDyad v hx hy⟩

end

theorem fits_of_evaluateLine {s : Session} (h1 : 1 ≤ s.maxSize) {line : Text} {x : Noun}
    (h : s.evaluateLine line = .ok (some x)) : x.Fits s.maxSize := by
  obtain ⟨tokens, _, he⟩ := bind_eq_ok h
  have hk := @keeps_evaluate s.limits (Noun.Fits s.maxSize) (fun _ => True) tokens
    (closed_fits h1) fun _ _ _ _ => h1
  rw [he] at hk
  exact hk x rfl

end JCalc
