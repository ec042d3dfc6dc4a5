import JCalc.Proofs.Equality
import JCalc.Proofs.Rules
import JCalc.Proofs.ValueModel

/-! Equal arguments give equal results. Every verb but two takes subnormals for zeros before anything
else, so that it does not see the difference; negation hands them on, and equality with them. The
count of `i.` alone is judged by the exact number. -/

namespace JCalc

namespace Binary64

variable (x y : Binary64)

theorem settle_neg : x.neg.settle = x.settle.neg.unsign := by
  rw [settle, flush_neg, settle, neg_unsign]

theorem settle_settle : x.settle.settle = x.settle :=
  (settle_unsign x.flush).trans (settle_flush x)

end Binary64

namespace Scalar

theorem settle_neg_settle (s : Scalar) : s.settle.neg.settle = s.neg.settle := by
  apply settle_eq_iff.mpr
  change s.re.settle.neg.settle = s.re.neg.settle ∧ s.im.settle.neg.settle = s.im.neg.settle
  simp only [Binary64.settle_neg, Binary64.settle_settle, and_self]

end Scalar

namespace Noun

variable (x y : Noun)

theorem map_flush {f : Scalar → Scalar} (h : ∀ s, f s.flush = f s) : x.flush.map f = x.map f := by
  rw [flush, map_map]
  simp only [h]

theorem isReal_flush : x.flush.isReal = x.isReal := isReal_map (fun s => s.im.vanishes_flush) x

theorem all_flush {f : Scalar → Bool} (h : ∀ s, f s.flush = f s) :
    x.flush.elements.all f = x.elements.all f := by
  simp only [flush, elements_map, List.all_map, Function.comp_def, h]

theorem requireReal_flush (subject : Text) : x.flush.requireReal subject = x.requireReal subject := by
  rw [requireReal, isReal_flush, requireReal]

theorem settle_eq : x.settle = x.flush.unsign := (map_map .flush .unsign x).symm

theorem settle_unsign : x.unsign.settle = x.settle := by
  rw [unsign, settle, map_map]
  simp only [Scalar.settle_unsign, settle]

theorem settle_concatenate (limit : Int) :
    (x.concatenate limit y).map settle = x.settle.concatenate limit y.settle :=
  (concatenate_map .settle limit x y).symm

theorem settle_map_neg : (x.settle.map .neg).settle = (x.map .neg).settle := by
  simp only [settle, map_map, Scalar.settle_neg_settle]

theorem conform_settle : x.settle.conform y.settle = x.conform y := conform_map _ _ x y

end Noun

namespace Verb

variable (limit : Int) (v : Verb) {realOnly : Bool} {f : Scalar → Scalar → Scalar} (x y : Noun)

theorem applyRule_flush (h : ∀ s t, f s.flush t.flush = f s t) :
    v.applyRule realOnly f x.flush y.flush = v.applyRule realOnly f x y := by
  have hreal (s : Scalar) : s.flush.im.vanishes = s.im.vanishes := s.im.vanishes_flush
  rw [Noun.flush, Noun.flush, applyRule_map hreal hreal]
  simp only [h]

theorem elementwise_flush (h : ∀ s t, f s.flush t.flush = f s t) :
    v.elementwise f x.flush y.flush = v.elementwise f x y := by
  rw [elementwise_eq_applyRule, elementwise_eq_applyRule, v.applyRule_flush x y h]

theorem divisionRule_flush (s t : Scalar) :
    s.flush.onReals (divisionRule x y) t.flush = s.onReals (divisionRule x y) t := by
  apply Scalar.onReals_flush
  unfold divisionRule
  split
  · exact Binary64.divideShared_flush
  · exact Binary64.divide_flush

theorem quotient_flush : quotient x.flush y.flush = quotient x y := by
  have hrule : divisionRule x.flush y.flush = divisionRule x y := divisionRule_map _ _ x y
  rw [quotient_eq_applyRule, quotient_eq_applyRule, hrule,
    applyRule_flush divide x y (divisionRule_flush x y)]

theorem applyDyad_flush : v.applyDyad x.flush y.flush = v.applyDyad x y := by
  cases v with
  | minus =>
    exact elementwise_flush .minus x y fun s t => by
      simp only [Scalar.sub, Scalar.flush, Binary64.sub_flush]
  | plus =>
    exact elementwise_flush .plus x y fun s t => by
      simp only [Scalar.add, Scalar.flush, Binary64.add_flush]
  | times =>
    simp only [applyDyad, realElementwise_eq_applyRule]
    exact applyRule_flush .times x y fun s t => s.onReals_flush t Binary64.times_flush
  | divide => exact quotient_flush x y
  | tally | shape | not | integers => rfl

theorem applyMonad_flush {v : Verb} (hm : v ≠ .minus) (hi : v ≠ .integers) (y : Noun) :
    v.applyMonad limit y.flush = v.applyMonad limit y := by
  cases v with
  | minus => exact absurd rfl hm
  | integers => exact absurd rfl hi
  | not =>
    have hunit := y.all_flush (f := fun s => s.re.inUnitInterval) fun s =>
      s.re.inUnitInterval_flush
    simp only [applyMonad, Noun.requireReal_flush, hunit,
      y.map_flush fun s => s.onReal_flush Binary64.complement_flush]
  | times =>
    simp only [applyMonad, Noun.requireReal_flush,
      y.map_flush fun s => s.onReal_flush Binary64.signum_flush]
  | divide =>
    have hone : (Noun.atom (.ofReal (.number .one))).flush = .atom (.ofReal (.number .one)) := by
      rw [Noun.flush, Noun.map, Scalar.flush, Scalar.ofReal, Binary64.flush_one]
      rfl
    rw [applyMonad, applyMonad, ← quotient_flush _ y, hone]
  | tally => cases y <;> simp [applyMonad, Noun.flush, Noun.map, Noun.tally]
  | shape => cases y <;> simp [applyMonad, Noun.flush, Noun.map]
  | plus => rfl

/-- Signs of zeros in the result are no difference. -/
theorem settle_of_unsign {r s : Except Fault Noun} (h : r.map Noun.unsign = s.map Noun.unsign) :
    r.map Noun.settle = s.map Noun.settle := by
  have hsettle (r : Except Fault Noun) : (r.map Noun.unsign).map Noun.settle = r.map Noun.settle := by
    cases r with
    | error fault => rfl
    | ok x => exact congrArg Except.ok x.settle_unsign
  rw [← hsettle r, h, hsettle s]

theorem applyDyad_settle :
    (v.applyDyad x.settle y.settle).map Noun.settle = (v.applyDyad x y).map Noun.settle := by
  apply settle_of_unsign
  rw [Noun.settle_eq, Noun.settle_eq, applyDyad_unsign, applyDyad_flush]

theorem applyMonad_settle {v : Verb} (hv : v ≠ .integers) (y : Noun) :
    (v.applyMonad limit y.settle).map Noun.settle = (v.applyMonad limit y).map Noun.settle := by
  -- a change of sign hands subnormals on, so that its result is settled with its argument
  by_cases hm : v = .minus
  · subst hm
    have hsettle (x : Noun) : (minus.requireDefined x).map Noun.settle = minus.requireDefined x.settle :=
      map_requireDefined Scalar.isDefined_settle .minus x
    rw [applyMonad, applyMonad, hsettle, hsettle, Noun.settle_map_neg]
  · apply settle_of_unsign
    rw [Noun.settle_eq, applyMonad_unsign, applyMonad_flush limit hm hv]

end Verb

section

variable {limit : Int} {x x' y y' : Noun}

theorem Noun.all_isDefined_settle (x : Noun) :
    (x.settle.All fun s => s.isDefined = true) ↔ x.All fun s => s.isDefined = true := by
  rw [settle, all_map]
  simp only [Scalar.isDefined_settle]

theorem Noun.Equal.symm (h : x.Equal y) : y.Equal x := by
  obtain ⟨hx, hsettle⟩ := equal_iff.mp h
  rw [← all_isDefined_settle, hsettle, all_isDefined_settle] at hx
  exact equal_of_settle hx hsettle.symm

theorem Noun.Equal.trans {z : Noun} (h : x.Equal y) (h' : y.Equal z) : x.Equal z := by
  obtain ⟨hx, hxy⟩ := equal_iff.mp h
  exact equal_of_settle hx (hxy.trans (equal_iff.mp h').2)

theorem Noun.Equal.sound (h : x.Equal y) : x.Sound fun _ => True :=
  fun s hs => ⟨(equal_iff.mp h).1 s hs, trivial⟩

/-- Outcomes that settle alike, the first of them with defined elements only. -/
theorem agree_of_results {r r' : Except Fault Noun} (hr : Verb.Results (fun _ => True) r)
    (h : r.map Noun.settle = r'.map Noun.settle) : Agree Noun.Equal Eq r r' := by
  refine .of_settle (fun z hz => ?_) (.of_eq (fun _ => rfl) (fun _ => rfl) h)
  subst hz
  exact fun s hs => (hr s hs).1

theorem agree_concatenate (hx : x.Equal x') (hy : y.Equal y') :
    Agree Noun.Equal Eq (x.concatenate limit y) (x'.concatenate limit y') := by
  refine agree_of_results (results_concatenate hx.sound hy.sound) ?_
  rw [Noun.settle_concatenate, Noun.settle_concatenate, (Noun.equal_iff.mp hx).2,
    (Noun.equal_iff.mp hy).2]

theorem conform_congr (hx : x.Equal x') (hy : y.Equal y') : x.conform y = x'.conform y' := by
  rw [← Noun.conform_settle, (Noun.equal_iff.mp hx).2, (Noun.equal_iff.mp hy).2,
    Noun.conform_settle]

theorem agree_applyMonad {v : Verb} (hv : v ≠ .integers) (hy : y.Equal y') :
    Agree Noun.Equal Eq (v.applyMonad limit y) (v.applyMonad limit y') := by
  refine agree_of_results (results_applyMonad scalarClosed_true v hy.sound) ?_
  rw [← Verb.applyMonad_settle limit hv y, (Noun.equal_iff.mp hy).2, Verb.applyMonad_settle limit hv]

theorem agree_applyDyad (v : Verb) (hx : x.Equal x') (hy : y.Equal y') :
    Agree Noun.Equal Eq (v.applyDyad x y) (v.applyDyad x' y') := by
  refine agree_of_results (results_applyDyad scalarClosed_true v hx.sound hy.sound) ?_
  rw [← v.applyDyad_settle x y, (Noun.equal_iff.mp hx).2, (Noun.equal_iff.mp hy).2,
    v.applyDyad_settle]

end

/-- Nouns are equal when they have one shape and at every index the same numbers, all numbers below
the normal ones counting as one. On nouns without undefined parts this is an equivalence, and joins,
lengths and every verb but the count respect it: equal arguments give equal nouns or the same
fault. -/
theorem equality_is_congruence (limit : Int) :
    (∀ x y : Noun, x.Equal y ↔ x.shape = y.shape ∧
      ∀ i a b, x.at? i = some a → y.at? i = some b → a.re.Same b.re ∧ a.im.Same b.im) ∧
    (∀ x : Noun, (x.All fun s => s.isDefined = true) → x.Equal x) ∧
    (∀ x y : Noun, x.Equal y → y.Equal x) ∧
    (∀ x y z : Noun, x.Equal y → y.Equal z → x.Equal z) ∧
    ∀ x x' y y' : Noun, x.Equal x' → y.Equal y' →
      Agree Noun.Equal Eq (x.concatenate limit y) (x'.concatenate limit y') ∧
      x.conform y = x'.conform y' ∧
      (∀ v : Verb, v ≠ .integers →
        Agree Noun.Equal Eq (v.applyMonad limit y) (v.applyMonad limit y')) ∧
      ∀ v : Verb, Agree Noun.Equal Eq (v.applyDyad x y) (v.applyDyad x' y') := by
  refine ⟨fun x y => Noun.equal_iff_same, fun x hx => Noun.equal_of_settle hx rfl,
    fun x y h => h.symm, fun x y z h h' => h.trans h', ?_⟩
  intro x x' y y' hx hy
  refine ⟨agree_concatenate hx hy, conform_congr hx hy, ?_, ?_⟩
  · intro v hv
    exact agree_applyMonad hv hy
  · intro v
    exact agree_applyDyad v hx hy

theorem equality_is_congruence_subnormal :
    let tiny := Noun.atom (.ofReal (.number ⟨true, ⟨1, by decide⟩⟩))
    let zero := Noun.atom (.ofReal .zero)
    let ones := Noun.list [.ofReal (.number .one), .ofReal (.number .one)]
    tiny.Equal zero ∧ ones.Equal ones ∧
      Verb.divide.applyDyad ones zero =
        .ok (.list [.ofReal (.number .infinity), .ofReal (.number .infinity)]) ∧
      Agree Noun.Equal Eq (Verb.divide.applyDyad ones tiny) (Verb.divide.applyDyad ones zero) ∧
      Agree Noun.Equal Eq (Verb.minus.applyMonad 2 tiny) (Verb.minus.applyMonad 2 zero) ∧
      Agree Noun.Equal Eq (ones.concatenate 2 tiny) (ones.concatenate 2 zero) := by
  intro tiny zero ones
  have hones : ones.All fun s => s.isDefined = true :=
    List.all_eq_true.mp (show ones.elements.all Scalar.isDefined = true from rfl)
  obtain ⟨_, hrefl, _, _, hcongr⟩ := equality_is_congruence 2
  have htiny : tiny.Equal zero := by decide
  obtain ⟨hjoin, _, hmonad, hdyad⟩ := hcongr ones ones tiny zero (hrefl ones hones) htiny
  exact ⟨htiny, hrefl ones hones, by decide +kernel, hdyad .divide, hmonad .minus (by decide), hjoin⟩

/-- The count tells a subnormal from a zero. -/
example : Verb.integers.applyMonad 1 (.atom (.ofReal (.number ⟨false, ⟨1, by decide⟩⟩))) =
      .error .notInteger ∧
    Verb.integers.applyMonad 1 (.atom (.ofReal .zero)) = .ok (.list []) := by
  decide +kernel

end JCalc
