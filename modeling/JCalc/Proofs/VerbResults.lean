import JCalc.Proofs.Invariant
import JCalc.Verb.Apply

/-! What verbs and joins give: nouns without undefined elements, whose elements come of
those of the arguments one by one, or one of a short list of faults. -/

namespace JCalc

def Noun.All (p : Scalar → Prop) (x : Noun) : Prop := ∀ s ∈ x.elements, p s

theorem Scalar.isDefined_iff (s : Scalar) :
    s.isDefined = true ↔ s.re.isNaN = false ∧ s.im.isNaN = false := by
  simp only [isDefined, Bool.and_eq_true, Bool.not_eq_true']

theorem Scalar.isDefined_ofReal (r : Binary64) :
    (Scalar.ofReal r).isDefined = true ↔ ¬ r.isNaN = true := by
  rw [isDefined_iff, ofReal, Bool.not_eq_true]
  exact and_iff_left rfl

/-- Real results, changes of sign, sums and differences keep the property. -/
structure ScalarClosed (p : Scalar → Prop) : Prop where
  ofReal : ∀ r, p (.ofReal r)
  neg : ∀ {x}, p x → p x.neg
  add : ∀ {x y}, p x → p y → p (x.add y)
  sub : ∀ {x y}, p x → p y → p (x.sub y)

/-- The faults of verbs and joins; only a noun that is not real is refused for that. -/
inductive VerbFault (p : Noun → Prop) : Fault → Prop where
  | notReal {x : Noun} (v : Verb) (hp : p x) (h : x.isReal = false) :
      VerbFault p (.notReal v.spelling)
  | undefinedResult (v : Verb) : VerbFault p (.undefinedResult v)
  | lengths (left right : List Nat) : VerbFault p (.lengths left right)
  | missingForm (v : Verb) (valence : Valence) : VerbFault p (.missingForm v valence)
  | reservedDyad (v : Verb) : VerbFault p (.reservedDyad v)
  | outsideUnitInterval : VerbFault p .outsideUnitInterval
  | notInteger : VerbFault p .notInteger
  | negativeCount : VerbFault p .negativeCount
  | listOfIntegers : VerbFault p .listOfIntegers
  | strandTooLarge (count : Nat) (limit : Int) :
      VerbFault p (.tooLarge "strand".toList count limit)
  | listTooLarge (count : Nat) (limit : Int) : VerbFault p (.tooLarge "list".toList count limit)
  | countTooLarge (count : Nat) (limit : Int) :
      VerbFault p (.tooLarge Verb.integers.spelling count limit)

theorem forall_zipWith {p q r : Scalar → Prop} {f : Scalar → Scalar → Scalar}
    (hf : ∀ {s t}, p s → q t → r (f s t)) {x y : Noun} (hx : x.All p) (hy : y.All q) :
    (x.zipWith f y).All r := by
  intro e he
  rcases x with s | xs <;> rcases y with t | ys
  · obtain rfl := List.mem_singleton.mp he
    exact hf (hx s (by simp [Noun.elements])) (hy t (by simp [Noun.elements]))
  · obtain ⟨t, ht, rfl⟩ := List.mem_map.mp he
    exact hf (hx s (by simp [Noun.elements])) (hy t ht)
  · obtain ⟨s, hs, rfl⟩ := List.mem_map.mp he
    exact hf (hx s hs) (hy t (by simp [Noun.elements]))
  · have he' : e ∈ List.zipWith f xs ys := he
    rw [← List.map_uncurry_zip_eq_zipWith] at he'
    obtain ⟨⟨s, t⟩, hst, rfl⟩ := List.mem_map.mp he'
    exact hf (hx s (List.of_mem_zip hst).1) (hy t (List.of_mem_zip hst).2)

theorem forall_map {p r : Scalar → Prop} {f : Scalar → Scalar} (hf : ∀ {s}, p s → r (f s))
    {x : Noun} (hx : x.All p) : (x.map f).All r := by
  intro e he
  rw [Noun.elements_map] at he
  obtain ⟨s, hs, rfl⟩ := List.mem_map.mp he
  exact hf (hx s hs)

section

variable {limit : Int} {p : Scalar → Prop}

/-- Elements that are defined and have the property. -/
def Noun.Sound (p : Scalar → Prop) : Noun → Prop := Noun.All fun s => s.isDefined = true ∧ p s

abbrev Verb.Results (p : Scalar → Prop) : Except Fault Noun → Prop :=
  Yields (Noun.Sound p) (VerbFault (Noun.Sound p))

theorem results_requireDefined (v : Verb) {x : Noun} (hx : x.All p) :
    Verb.Results p (v.requireDefined x) := by
  unfold Verb.requireDefined
  split
  · rename_i h
    intro s hs
    exact ⟨List.all_eq_true.mp h s hs, hx s hs⟩
  · exact .undefinedResult v

theorem results_of_requireReal {v : Verb} {x : Noun} (hx : x.Sound p)
    {next : Unit → Except Fault Noun} (h : Verb.Results p (next ())) :
    Verb.Results p (x.requireReal v.spelling >>= next) := by
  unfold Noun.requireReal
  split
  · exact h
  · exact .notReal v hx (by simpa using ‹¬ x.isReal = true›)

theorem results_of_conform {x y : Noun} {next : List Nat → Except Fault Noun}
    (h : ∀ shape, Verb.Results p (next shape)) : Verb.Results p (x.conform y >>= next) := by
  unfold Noun.conform
  split
  · exact h _
  · split
    · exact h _
    · split
      · exact h _
      · exact .lengths _ _

theorem results_elementwise (v : Verb) {f : Scalar → Scalar → Scalar}
    (hf : ∀ {s t}, p s → p t → p (f s t)) {x y : Noun} (hx : x.Sound p) (hy : y.Sound p) :
    Verb.Results p (v.elementwise f x y) :=
  results_of_conform fun _ =>
    results_requireDefined v (forall_zipWith (fun hs ht => hf hs.2 ht.2) hx hy)

theorem results_realElementwise (hp : ScalarClosed p) (v : Verb) (f : Binary64 → Binary64 → Binary64)
    {x y : Noun} (hx : x.Sound p) (hy : y.Sound p) :
    Verb.Results p (v.realElementwise f x y) :=
  results_of_conform fun _ => results_of_requireReal hx (results_of_requireReal hy
    (results_requireDefined v (forall_zipWith (fun _ _ => hp.ofReal _) hx hy)))

theorem results_quotient (hp : ScalarClosed p) {x y : Noun} (hx : x.Sound p) (hy : y.Sound p) :
    Verb.Results p (Verb.quotient x y) := by
  unfold Verb.quotient
  split <;> exact results_realElementwise hp .divide _ hx hy

theorem results_of_checkSize {subject : Text} {count : Nat}
    (hq : VerbFault (Noun.Sound p) (.tooLarge subject count limit))
    {next : Unit → Except Fault Noun} (h : Verb.Results p (next ())) :
    Verb.Results p (checkSize limit subject count >>= next) := by
  unfold checkSize
  split
  · exact hq
  · exact h

theorem sound_ofReal_number (hp : ScalarClosed p) (x : Extended) :
    (Scalar.ofReal (.number x)).isDefined = true ∧ p (.ofReal (.number x)) :=
  ⟨rfl, hp.ofReal _⟩

theorem sound_atom_ofReal (hp : ScalarClosed p) (x : Extended) :
    (Noun.atom (.ofReal (.number x))).Sound p := by
  intro s hs
  obtain rfl := List.mem_singleton.mp hs
  exact sound_ofReal_number hp x

theorem results_countUp (hp : ScalarClosed p) {y : Noun} (hy : y.Sound p) :
    Verb.Results p (Verb.countUp limit y) := by
  cases y with
  | list ys => exact .listOfIntegers
  | atom x =>
    refine results_of_requireReal hy ?_
    cases x.re with
    | nan => exact .notInteger
    | number n =>
      dsimp only
      split
      · exact .notInteger
      · split
        · exact .negativeCount
        · refine results_of_checkSize (.countTooLarge _ _) ?_
          intro s hs
          obtain ⟨k, _, rfl⟩ := List.mem_map.mp hs
          exact sound_ofReal_number hp _

theorem results_applyMonad (hp : ScalarClosed p) (v : Verb) {y : Noun} (hy : y.Sound p) :
    Verb.Results p (v.applyMonad limit y) := by
  have hreal (f : Binary64 → Binary64) : (y.map (.onReal f)).All p :=
    forall_map (fun _ => hp.ofReal _) hy
  cases v with
  | minus => exact results_requireDefined .minus (forall_map (fun hs => hp.neg hs.2) hy)
  | not =>
    refine results_of_requireReal hy ?_
    split
    · exact results_requireDefined .not (hreal _)
    · exact .outsideUnitInterval
  | tally => exact sound_atom_ofReal hp _
  | shape =>
    cases y with
    | atom x => exact nofun
    | list ys =>
      refine results_of_checkSize (.listTooLarge _ _) ?_
      exact sound_atom_ofReal hp (.ofNat ys.length)
  | times => exact results_of_requireReal hy (results_requireDefined .times (hreal _))
  | divide => exact results_quotient hp (sound_atom_ofReal hp .one) hy
  | integers => exact results_countUp hp hy
  | plus => exact .missingForm _ _

theorem results_applyDyad (hp : ScalarClosed p) (v : Verb) {x y : Noun} (hx : x.Sound p)
    (hy : y.Sound p) : Verb.Results p (v.applyDyad x y) := by
  cases v with
  | minus => exact results_elementwise .minus hp.sub hx hy
  | plus => exact results_elementwise .plus hp.add hx hy
  | times => exact results_realElementwise hp .times _ hx hy
  | divide => exact results_quotient hp hx hy
  | tally | shape => exact .reservedDyad _
  | not | integers => exact .missingForm _ _

theorem results_concatenate {x y : Noun} (hx : x.Sound p) (hy : y.Sound p) :
    Verb.Results p (x.concatenate limit y) := by
  refine results_of_checkSize (.strandTooLarge _ _) ?_
  intro s hs
  rcases List.mem_append.mp hs with hs | hs
  · exact hx s hs
  · exact hy s hs

theorem closed_sound (limit : Int) (hp : ScalarClosed p) :
    Closed limit (Noun.Sound p) (VerbFault (Noun.Sound p)) :=
  ⟨results_concatenate, results_applyMonad hp, results_applyDyad hp⟩

end

end JCalc
