import JCalc.Noun.Text
import JCalc.Proofs.Numeral
import JCalc.Proofs.Rules
import Mathlib.Tactic.SplitIfs

/-! Signs of zeros. No verb and no text of a noun depends on the sign of a zero in its
arguments, except that the sign of a zero in the result may. So it is enough to compare
nouns after the sign of every zero has been taken off. -/

namespace JCalc

theorem Extended.eq_of_isZero {x : Extended} (h : x.isZero = true) : x = ⟨x.negative, .zero⟩ := by
  obtain ⟨negative, ⟨code, hcode⟩⟩ := x
  obtain rfl : code = 0 := by simpa [isZero, Magnitude.isZero] using h
  rfl

/-- What both zeros are taken to alike, every number is taken to without the sign of a zero. -/
theorem Extended.apply_unsignZero {α : Type} (f : Extended → α) (h : f ⟨true, .zero⟩ = f .zero)
    (x : Extended) : f x.unsignZero = f x := by
  by_cases hz : x.isZero = true
  · rw [unsignZero, if_pos hz, eq_of_isZero hz]
    cases x.negative with
    | true => exact h.symm
    | false => rfl
  · rw [unsignZero, if_neg hz]

theorem Extended.units_zero (negative : Bool) : (Extended.mk negative .zero).units = 0 := by
  cases negative <;> rfl

theorem Extended.isInfinite_zero (negative : Bool) :
    (Extended.mk negative .zero).isInfinite = false := by
  cases negative <;> rfl

theorem Extended.isZero_zero (negative : Bool) : (Extended.mk negative .zero).isZero = true := rfl

theorem Extended.units_pos {x : Extended} (h : ¬ x.isZero = true) : 0 < x.magnitude.units := by
  have hcode : 0 < x.magnitude.code := by
    simp only [isZero, Magnitude.isZero, beq_iff_eq] at h
    omega
  exact unitsOf_strictMono hcode

namespace Binary64

def minusZero : Binary64 := .number ⟨true, .zero⟩

def unsign : Binary64 → Binary64
  | .nan => .nan
  | .number x => .number x.unsignZero

/-- The magnitude of a sum in which a term is a zero does not depend on the sign of that zero. -/
theorem unsign_zero_add (m n : Bool) (y : Extended) :
    (Extended.add ⟨m, .zero⟩ y).unsign = (Extended.add ⟨n, .zero⟩ y).unsign := by
  simp only [Extended.add, Extended.isInfinite_zero, Extended.units_zero, Int.zero_add,
    Bool.false_eq_true, if_false]
  split_ifs <;> rfl

theorem nearestNormal_zero {den : Nat} (h : 0 < den) : Magnitude.nearestNormal 0 den = .zero := by
  have hb : 0 < binade := by decide
  rw [Magnitude.nearestNormal, if_pos (Nat.mul_pos (by omega) h)]

theorem unsign_zero_mul (m n : Bool) (y : Extended) :
    (Extended.mul ⟨m, .zero⟩ y).unsign = (Extended.mul ⟨n, .zero⟩ y).unsign := by
  have hunits : Magnitude.zero.units = 0 := rfl
  simp only [Extended.mul, Extended.isInfinite_zero, Extended.isZero_zero, hunits, Nat.zero_mul,
    nearestNormal_zero unitsPerOne_pos, Bool.false_eq_true, if_false, if_true]
  split_ifs <;> rfl

theorem unsign_zero_div (m n : Bool) (y : Extended) :
    (Extended.div ⟨m, .zero⟩ y).unsign = (Extended.div ⟨n, .zero⟩ y).unsign := by
  have hunits : Magnitude.zero.units = 0 := rfl
  by_cases hy : y.isZero = true
  · simp only [Extended.div, Extended.isInfinite_zero, Extended.isZero_zero, hy, Bool.false_eq_true, if_false, if_true]
    split_ifs <;> rfl
  · simp only [Extended.div, Extended.isInfinite_zero, hy, hunits, Nat.zero_mul,
      nearestNormal_zero (Extended.units_pos hy), Bool.false_eq_true, if_false]
    split_ifs <;> rfl

theorem unsign_add_zero (m n : Bool) (x : Extended) :
    (x.add ⟨m, .zero⟩).unsign = (x.add ⟨n, .zero⟩).unsign := by
  simp only [Extended.add, Extended.isInfinite_zero, Extended.units_zero, Int.add_zero,
    Bool.false_and, Bool.false_eq_true, if_false]
  split_ifs <;> rfl

section

variable {α : Type}

theorem apply_unsign (f : Binary64 → α) (h : f minusZero = f zero) (x : Binary64) :
    f x.unsign = f x := by
  cases x with
  | nan => rfl
  | number x => exact Extended.apply_unsignZero (fun x => f (.number x)) h x

/-- The same for two arguments, each of them judged while the other is arbitrary. -/
theorem apply_unsign₂ (f : Binary64 → Binary64 → α) (hx : ∀ y, f minusZero y = f zero y)
    (hy : ∀ x, f x minusZero = f x zero) (x y : Binary64) : f x.unsign y.unsign = f x y := by
  rw [apply_unsign (fun x => f x y.unsign) (hx _), apply_unsign (f x) (hy x)]

end

theorem unsign_unsign (x : Binary64) : x.unsign.unsign = x.unsign := apply_unsign unsign rfl x

theorem neg_unsign (x : Binary64) : x.unsign.neg.unsign = x.neg.unsign :=
  apply_unsign (fun x => x.neg.unsign) rfl x

theorem vanishes_unsign (x : Binary64) : x.unsign.vanishes = x.vanishes := apply_unsign vanishes rfl x

theorem isNaN_unsign (x : Binary64) : x.unsign.isNaN = x.isNaN := apply_unsign isNaN rfl x

theorem inUnitInterval_unsign (x : Binary64) : x.unsign.inUnitInterval = x.inUnitInterval :=
  apply_unsign inUnitInterval rfl x

theorem signum_unsign (x : Binary64) : x.unsign.signum.unsign = x.signum.unsign :=
  apply_unsign (fun x => x.signum.unsign) rfl x

theorem add_unsign (x y : Binary64) : (x.unsign.add y.unsign).unsign = (x.add y).unsign := by
  refine apply_unsign₂ (fun x y => (x.add y).unsign) (fun y => ?_) (fun x => ?_) x y
  · cases y with
    | nan => rfl
    | number y => exact unsign_zero_add true false y.flush
  · cases x with
    | nan => rfl
    | number x => exact unsign_add_zero true false x.flush

theorem unsign_sub_zero (x : Binary64) : (x.sub minusZero).unsign = (x.sub zero).unsign := by
  cases x with
  | nan => rfl
  | number x => exact unsign_add_zero false true x.flush

theorem sub_unsign (x y : Binary64) : (x.unsign.sub y.unsign).unsign = (x.sub y).unsign := by
  refine apply_unsign₂ (fun x y => (x.sub y).unsign) (fun y => ?_) unsign_sub_zero x y
  cases y with
  | nan => rfl
  | number y => exact unsign_zero_add true false y.flush.neg

theorem complement_unsign (x : Binary64) : x.unsign.complement.unsign = x.complement.unsign :=
  apply_unsign (fun x => x.complement.unsign) (unsign_sub_zero (number .one)) x

theorem times_unsign (x y : Binary64) : (x.unsign.times y.unsign).unsign = (x.times y).unsign := by
  have hright (x z : Binary64) (hz : z.vanishes = true) : x.times z = zero := by
    rw [times, hz, Bool.or_true, if_pos rfl]
  refine apply_unsign₂ (fun x y => (x.times y).unsign) (fun y => rfl) (fun x => ?_) x y
  rw [hright x minusZero rfl, hright x zero rfl]

theorem divide_unsign (x y : Binary64) : (x.unsign.divide y.unsign).unsign = (x.divide y).unsign := by
  have hright (x z : Binary64) (hz : z.vanishes = true) : x.divide z = x.divideByZero := by
    rw [divide, if_pos hz]
  refine apply_unsign₂ (fun x y => (x.divide y).unsign) (fun y => ?_) (fun x => ?_) x y
  · simp only [divide]
    split
    · rfl
    · cases y with
      | nan => rfl
      | number y => exact unsign_zero_div true false y.flush
  · rw [hright x minusZero rfl, hright x zero rfl]

theorem divideShared_unsign (x y : Binary64) :
    (x.unsign.divideShared y.unsign).unsign = (x.divideShared y).unsign := by
  have hright (x z : Binary64) (hz : z.vanishes = true) : x.divideShared z = x.divideByZero := by
    rw [divideShared, if_pos hz]
  refine apply_unsign₂ (fun x y => (x.divideShared y).unsign) (fun y => ?_) (fun x => ?_) x y
  · simp only [divideShared]
    split
    · rfl
    · cases (number .one).div y with
      | nan => rfl
      | number z => exact unsign_zero_mul true false z.flush
  · rw [hright x minusZero rfl, hright x zero rfl]

end Binary64

def Scalar.unsign (s : Scalar) : Scalar := ⟨s.re.unsign, s.im.unsign⟩

theorem Scalar.unsign_unsign (s : Scalar) : s.unsign.unsign = s.unsign := by
  simp only [unsign, Binary64.unsign_unsign]

theorem Scalar.isDefined_unsign (s : Scalar) : s.unsign.isDefined = s.isDefined := by
  simp only [isDefined, unsign, Binary64.isNaN_unsign]

/-- Signs of zeros in the argument show in the result as signs of zeros only. -/
def Blind (f : Scalar → Scalar) : Prop := ∀ s, (f s.unsign).unsign = (f s).unsign

def Blind₂ (f : Scalar → Scalar → Scalar) : Prop :=
  ∀ s t, (f s.unsign t.unsign).unsign = (f s t).unsign

theorem blind_neg : Blind .neg := fun s => by
  simp only [Scalar.unsign, Scalar.neg, Binary64.neg_unsign]

theorem blind_onReal {f : Binary64 → Binary64} (h : ∀ x, (f x.unsign).unsign = (f x).unsign) :
    Blind (.onReal f) := fun s => by
  simp only [Scalar.unsign, Scalar.onReal, Scalar.ofReal, h]

theorem blind_add : Blind₂ .add := fun s t => by
  simp only [Scalar.unsign, Scalar.add, Binary64.add_unsign]

theorem blind_sub : Blind₂ .sub := fun s t => by
  simp only [Scalar.unsign, Scalar.sub, Binary64.sub_unsign]

theorem blind_onReals {f : Binary64 → Binary64 → Binary64}
    (h : ∀ x y, (f x.unsign y.unsign).unsign = (f x y).unsign) : Blind₂ (.onReals f) := fun s t => by
  simp only [Scalar.unsign, Scalar.onReals, Scalar.ofReal, h]

namespace Noun

def unsign (x : Noun) : Noun := x.map .unsign

variable (x y : Noun)

theorem unsign_unsign : x.unsign.unsign = x.unsign := by
  rw [unsign, unsign, map_map]
  simp only [Scalar.unsign_unsign]

theorem elements_unsign : x.unsign.elements = x.elements.map .unsign := elements_map _ x

theorem shape_unsign : x.unsign.shape = x.shape := shape_map _ x

theorem unsign_map {f : Scalar → Scalar} (h : Blind f) : (x.unsign.map f).unsign = (x.map f).unsign := by
  simp only [unsign, map_map, h _]

theorem isReal_unsign : x.unsign.isReal = x.isReal :=
  isReal_map (fun s => s.im.vanishes_unsign) x

theorem requireReal_unsign (subject : Text) :
    x.unsign.requireReal subject = x.requireReal subject := by
  rw [requireReal, isReal_unsign, requireReal]

end Noun

namespace Verb

variable {x y : Noun}

theorem requireDefined_unsign (v : Verb) (h : x.unsign = y.unsign) :
    (v.requireDefined x).map Noun.unsign = (v.requireDefined y).map Noun.unsign := by
  have hmap (z : Noun) : (v.requireDefined z).map Noun.unsign = v.requireDefined z.unsign :=
    map_requireDefined Scalar.isDefined_unsign v z
  rw [hmap, hmap, h]

theorem applyRule_unsign (v : Verb) (realOnly : Bool) {f : Scalar → Scalar → Scalar} (h : Blind₂ f)
    (x y : Noun) : (v.applyRule realOnly f x.unsign y.unsign).map Noun.unsign =
      (v.applyRule realOnly f x y).map Noun.unsign := by
  have hreal (s : Scalar) : s.unsign.im.vanishes = s.im.vanishes := s.im.vanishes_unsign
  have hmap (f : Scalar → Scalar → Scalar) : (v.applyRule realOnly f x y).map Noun.unsign =
      v.applyRule realOnly (fun s t => (f s t).unsign) x y := map_applyRule Scalar.isDefined_unsign
  rw [Noun.unsign, Noun.unsign, applyRule_map hreal hreal, hmap, hmap]
  simp only [h _ _]

theorem elementwise_unsign (v : Verb) {f : Scalar → Scalar → Scalar} (h : Blind₂ f) (x y : Noun) :
    (v.elementwise f x.unsign y.unsign).map Noun.unsign = (v.elementwise f x y).map Noun.unsign := by
  rw [elementwise_eq_applyRule, elementwise_eq_applyRule, v.applyRule_unsign false h]

theorem realElementwise_unsign (v : Verb) {f : Binary64 → Binary64 → Binary64}
    (h : ∀ x y, (f x.unsign y.unsign).unsign = (f x y).unsign) (x y : Noun) :
    (v.realElementwise f x.unsign y.unsign).map Noun.unsign =
      (v.realElementwise f x y).map Noun.unsign := by
  rw [realElementwise_eq_applyRule, realElementwise_eq_applyRule,
    v.applyRule_unsign true (blind_onReals h)]

theorem quotient_unsign (x y : Noun) :
    (quotient x.unsign y.unsign).map Noun.unsign = (quotient x y).map Noun.unsign := by
  have hrule : divisionRule x.unsign y.unsign = divisionRule x y := divisionRule_map _ _ x y
  have hblind (s t : Binary64) :
      (divisionRule x y s.unsign t.unsign).unsign = (divisionRule x y s t).unsign := by
    unfold divisionRule
    split
    · exact s.divideShared_unsign t
    · exact s.divide_unsign t
  rw [quotient_eq_applyRule, quotient_eq_applyRule, hrule,
    divide.applyRule_unsign true (blind_onReals hblind)]

theorem countUp_unsign (limit : Int) (y : Noun) : countUp limit y.unsign = countUp limit y := by
  cases y with
  | list ys => rfl
  | atom s =>
    have hreal := Noun.requireReal_unsign (.atom s) integers.spelling
    simp only [countUp, Noun.unsign, Noun.map] at hreal ⊢
    rw [hreal]
    cases (Noun.atom s).requireReal integers.spelling with
    | error fault => rfl
    | ok _ =>
      cases hre : s.re with
      | nan => simp [Scalar.unsign, hre, Binary64.unsign]
      | number n =>
        have hinteger := Extended.apply_unsignZero Extended.isInteger rfl n
        have hunits := Extended.apply_unsignZero Extended.units rfl n
        have hcount := Extended.apply_unsignZero (fun x => x.magnitude.units) rfl n
        simp only [Scalar.unsign, hre, Binary64.unsign, hinteger, hunits, hcount]

theorem applyMonad_unsign (limit : Int) (v : Verb) (y : Noun) :
    (v.applyMonad limit y.unsign).map Noun.unsign = (v.applyMonad limit y).map Noun.unsign := by
  cases v with
  | minus => exact requireDefined_unsign .minus (Noun.unsign_map y blind_neg)
  | not =>
    have hall : y.unsign.elements.all (·.re.inUnitInterval) = y.elements.all (·.re.inUnitInterval) := by
      rw [Noun.elements_unsign, List.all_map]
      exact congrArg y.elements.all (funext fun s => Binary64.inUnitInterval_unsign s.re)
    simp only [applyMonad, Noun.requireReal_unsign, hall]
    cases y.requireReal not.spelling with
    | error fault => rfl
    | ok _ =>
      simp only [bind, Except.bind]
      split
      · exact requireDefined_unsign .not (Noun.unsign_map y (blind_onReal Binary64.complement_unsign))
      · rfl
  | tally => cases y <;> simp [applyMonad, Noun.tally, Noun.unsign, Noun.map]
  | shape => cases y <;> simp [applyMonad, Noun.unsign, Noun.map]
  | times =>
    simp only [applyMonad, Noun.requireReal_unsign]
    cases y.requireReal times.spelling with
    | error fault => rfl
    | ok _ =>
      exact requireDefined_unsign .times (Noun.unsign_map y (blind_onReal Binary64.signum_unsign))
  | divide =>
    have hone := quotient_unsign (.atom (.ofReal (.number .one)))
    rw [applyMonad, applyMonad, ← hone, Noun.unsign_unsign, hone]
  | integers => exact congrArg _ (countUp_unsign limit y)
  | plus => rfl

theorem applyDyad_unsign (v : Verb) (x y : Noun) :
    (v.applyDyad x.unsign y.unsign).map Noun.unsign = (v.applyDyad x y).map Noun.unsign := by
  cases v with
  | minus => exact elementwise_unsign .minus blind_sub x y
  | plus => exact elementwise_unsign .plus blind_add x y
  | times => exact realElementwise_unsign .times Binary64.times_unsign x y
  | divide => exact quotient_unsign x y
  | tally | shape | not | integers => rfl

end Verb

def Number.unsign (x : Number) : Number := ⟨x.re.unsignZero, x.im.unsignZero⟩

theorem Number.text_unsign (x : Number) : x.unsign.text = x.text := by
  have hreal : x.unsign.isReal = x.isReal := Extended.apply_unsignZero Extended.isZero rfl x.im
  have hrealText (x : Extended) : realText x.unsignZero = realText x :=
    Extended.apply_unsignZero realText rfl x
  rw [text, hreal, unsign, hrealText, hrealText, text]

theorem Scalar.number?_unsign (s : Scalar) : s.unsign.number? = s.number?.map Number.unsign := by
  obtain ⟨re, im⟩ := s
  cases re <;> cases im <;> rfl

theorem mapM_number?_unsign (es : List Scalar) :
    (es.map Scalar.unsign).mapM Scalar.number? = (es.mapM Scalar.number?).map (·.map .unsign) := by
  induction es with
  | nil => rfl
  | cons e es ih =>
    simp only [List.map_cons, List.mapM_cons, ih, Scalar.number?_unsign]
    cases e.number? <;> cases es.mapM Scalar.number? <;> rfl

/-- The text of a noun does not show the sign of a zero. -/
theorem Noun.text_unsign (width : Option Int) (x : Noun) : x.unsign.text width = x.text width := by
  simp only [text, numbers, elements_unsign, mapM_number?_unsign]
  cases x.elements.mapM Scalar.number? with
  | none => rfl
  | some xs =>
    have htexts : (xs.map Number.unsign).map Number.text = xs.map Number.text := by
      rw [List.map_map]
      exact List.map_congr_left fun x _ => x.text_unsign
    simp only [Option.map_some, bind, Except.bind, htexts]

end JCalc
