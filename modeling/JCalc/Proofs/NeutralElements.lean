import JCalc.Proofs.Symmetries
import Mathlib.Data.Sign.Basic

/-! Neutral and absorbing elements. A normal number is the closest one to its own value, so that a
zero that is added and a one that multiplies or divides change nothing but subnormals and the signs
of zeros. The product with a zero asks for no multiplication, and is a zero for infinities too. -/

namespace JCalc

namespace Magnitude

variable {m : Magnitude} {den : Nat}

theorem nearestNormal_units (h : m.isSubnormal = false) (hd : 0 < den) :
    nearestNormal (m.units * den) den = m := by
  have hunits := binade_le_units h
  have hnormal : ¬ 4 * (m.units * den) < (4 * binade - 1) * den := by
    rw [← Nat.mul_assoc, Nat.not_lt]
    exact Nat.mul_le_mul_right den (by omega)
  have hne : (den : ℚ) ≠ 0 := by exact_mod_cast hd.ne'
  have hrounds := nearest_rounds (m.units * den) hd
  rw [Nat.cast_mul, mul_div_cancel_right₀ _ hne] at hrounds
  rw [nearestNormal, if_neg hnormal]
  exact hrounds.unique m.rounds_units

end Magnitude

namespace Extended

variable (x : Extended) {den : Nat}

/-- The value of a number; infinities stand at the next power of two. -/
def value (x : Extended) : ℚ := x.units / unitsPerOne

theorem isZero_one : one.isZero = false := by decide +kernel

theorem eq_of_isInfinite {x : Extended} (h : x.isInfinite = true) : x = ⟨x.negative, .infinity⟩ := by
  rw [← eq_infinity_of_isInfinite h]

theorem nearestNormal_flush (hd : 0 < den) :
    Magnitude.nearestNormal (x.flush.magnitude.units * den) den = x.flush.magnitude := by
  cases h : x.magnitude.isSubnormal with
  | true =>
    have hunits : Magnitude.zero.units = 0 := rfl
    rw [flush_of_isSubnormal h, hunits, Nat.zero_mul, Binary64.nearestNormal_zero hd]
  | false =>
    rw [flush_of_normal h]
    exact Magnitude.nearestNormal_units h hd

theorem units_pos_of_normal (h : x.magnitude.isSubnormal = false) : 0 < x.magnitude.units :=
  Nat.lt_of_lt_of_le (by decide) (Magnitude.binade_le_units h)

theorem add_zero (h : x.magnitude.isSubnormal = false) (negative : Bool) :
    x.add ⟨negative, .zero⟩ = .number x := by
  unfold add
  rw [units_zero, isInfinite_zero, Int.add_zero]
  by_cases hinf : x.isInfinite = true
  · rw [if_pos hinf]
    rfl
  · -- a normal number has units, so that this is not the sum that vanishes
    have hpos := x.units_pos_of_normal h
    have hne : x.units ≠ 0 := by
      unfold units
      split_ifs <;> omega
    have hsign : decide (x.units < 0) = x.negative := by
      unfold units
      cases x.negative with
      | true => simp only [if_true, decide_eq_true_eq, Int.neg_neg_iff_pos, Int.natCast_pos, hpos]
      | false => exact decide_eq_false (Int.not_lt.mpr (Int.natCast_nonneg _))
    have habs : x.units.natAbs = x.magnitude.units := by
      unfold units
      split_ifs <;> simp
    have hnearest := Magnitude.nearestNormal_units h Nat.one_pos
    rw [Nat.mul_one] at hnearest
    simp only [hinf, hne, if_false, Bool.false_eq_true, hsign, habs, hnearest]

theorem mul_one : x.flush.mul one = .number x.flush := by
  have hsign : (x.flush.negative != one.negative) = x.flush.negative := Bool.xor_false _
  unfold mul
  rw [hsign, isInfinite_one, isZero_one, units_one]
  by_cases hinf : x.flush.isInfinite = true
  · rw [if_pos hinf, ← eq_of_isInfinite hinf]
    rfl
  · simp only [hinf, if_false, Bool.false_eq_true, x.nearestNormal_flush unitsPerOne_pos]

theorem div_one : x.flush.div one = .number x.flush := by
  have hsign : (x.flush.negative != one.negative) = x.flush.negative := Bool.xor_false _
  unfold div
  rw [hsign, isInfinite_one, isZero_one, units_one]
  by_cases hinf : x.flush.isInfinite = true
  · rw [if_pos hinf, ← eq_of_isInfinite hinf]
    rfl
  · simp only [hinf, if_false, Bool.false_eq_true, x.nearestNormal_flush unitsPerOne_pos]

theorem value_mk_zero (negative : Bool) : (Extended.mk negative .zero).value = 0 := by
  rw [value, units_zero, Int.cast_zero, zero_div]

theorem value_one : one.value = 1 := by
  have hne : (unitsPerOne : ℚ) ≠ 0 := cast_unitsPerOne_pos.ne'
  have hunits : one.units = (unitsPerOne : Int) := congrArg Int.ofNat units_one
  rw [value, hunits, Int.cast_natCast, div_self hne]

theorem value_neg : x.neg.value = -x.value := by
  rw [value, units_neg, Int.cast_neg, value]
  ring

theorem sign_value : SignType.sign x.flush.value =
    if x.magnitude.isSubnormal then 0 else if x.negative then -1 else 1 := by
  have hone := cast_unitsPerOne_pos
  cases h : x.magnitude.isSubnormal with
  | true =>
    rw [flush_of_isSubnormal h, value_mk_zero, sign_zero]
    rfl
  | false =>
    have hpos := x.units_pos_of_normal h
    rw [flush_of_normal h, value]
    cases hneg : x.negative with
    | true =>
      have hlt : x.units < 0 := by
        simp only [units, hneg, if_true]
        omega
      exact sign_neg (div_neg_of_neg_of_pos (by exact_mod_cast hlt) hone)
    | false =>
      have hlt : 0 < x.units := by
        simp only [units, hneg, Bool.false_eq_true, if_false]
        omega
      exact sign_pos (div_pos (by exact_mod_cast hlt) hone)

end Extended

namespace Binary64

variable (x : Binary64)

theorem mul_one : x.mul (number .one) = x.flush := by
  cases x with
  | nan => rfl
  | number x =>
    rw [mul, lift, Extended.flush_one, Extended.mul_one, flush]

theorem div_one : x.div (number .one) = x.flush := by
  cases x with
  | nan => rfl
  | number x =>
    rw [div, lift, Extended.flush_one, Extended.div_one, flush]

theorem settle_add_zero (negative : Bool) :
    (x.add (number ⟨negative, .zero⟩)).settle = x.settle := by
  cases x with
  | nan => rfl
  | number x =>
    have hzero : (Extended.mk negative .zero).flush = ⟨negative, .zero⟩ := rfl
    cases h : x.magnitude.isSubnormal with
    | true =>
      have hvanishes : (number x).vanishes = true := h
      rw [settle_of_vanishes hvanishes, add, lift, hzero, Extended.flush_of_isSubnormal h]
      cases x.negative <;> cases negative <;> rfl
    | false => rw [add, lift, hzero, Extended.flush_of_normal h, x.add_zero h]

theorem vanishes_one : (number .one).vanishes = false := by decide +kernel

theorem settle_times_one : (x.times (number .one)).settle = x.settle := by
  rw [times, vanishes_one, Bool.or_false, mul_one]
  split_ifs with h
  · exact (settle_of_vanishes h).symm
  · exact settle_flush x

theorem settle_divide_one : (x.divide (number .one)).settle = x.settle := by
  rw [divide, vanishes_one, if_neg Bool.false_ne_true, div_one, settle_flush]

theorem settle_divideShared_one : (x.divideShared (number .one)).settle = x.settle := by
  rw [divideShared, vanishes_one, if_neg Bool.false_ne_true, div_one, flush_one, mul_one,
    settle_flush]

theorem isNaN_signum : x.signum.isNaN = x.isNaN := by
  cases x with
  | nan => rfl
  | number x =>
    rw [signum]
    split_ifs <;> simp only [isNaN]

theorem signum_signum : x.signum.signum = x.signum := by
  cases x with
  | nan => rfl
  | number x =>
    by_cases h : (number x).vanishes = true
    · rw [signum_of_vanishes h]
      rfl
    · have hone : Extended.one.magnitude.isSubnormal = false := vanishes_one
      have hsignum : (number x).signum = number ⟨x.negative, Extended.one.magnitude⟩ := if_neg h
      rw [hsignum, signum, hone]
      rfl

/-- The sign of what is left of a number once it is flushed. -/
theorem exists_signum (n : Extended) :
    ∃ s : Extended, (number n).signum = number s ∧ s.value = SignType.sign n.flush.value := by
  rw [signum, n.sign_value]
  split_ifs with h hneg
  · exact ⟨_, rfl, Extended.value_mk_zero n.negative⟩
  · refine ⟨Extended.one.neg, ?_, ?_⟩
    · rw [hneg]
      rfl
    · rw [Extended.value_neg, Extended.value_one]
      rfl
  · refine ⟨.one, ?_, ?_⟩
    · rw [Bool.eq_false_iff.mpr hneg]
      rfl
    · rw [Extended.value_one]
      rfl

theorem times_zero : x.times zero = zero := by
  have hzero : (x.vanishes || zero.vanishes) = true := Bool.or_true _
  rw [times, if_pos hzero]

end Binary64

namespace Noun

variable (f : Scalar → Scalar → Scalar) (x : Noun) (t : Scalar)

theorem zipWith_atom_right : x.zipWith f (.atom t) = x.map fun s => f s t := by cases x <;> rfl

theorem zipWith_atom_left : (atom t).zipWith f x = x.map (f t) := by cases x <;> rfl

theorem conform_atom_right : x.conform (.atom t) = .ok x.shape := by cases x <;> rfl

theorem conform_atom_left : (atom t).conform x = .ok x.shape := by cases x <;> rfl

theorem map_congr {x : Noun} {m n : Scalar → Scalar} (h : x.All fun s => m s = n s) :
    x.map m = x.map n := by
  cases x with
  | atom s => exact congrArg atom (h s (List.mem_singleton_self s))
  | list xs => exact congrArg list (List.map_congr_left h)

theorem at?_map (n : Scalar → Scalar) (i : Nat) : (x.map n).at? i = (x.at? i).map n := by
  cases x with
  | atom s => rfl
  | list xs => exact List.getElem?_map

end Noun

namespace Verb

variable {v : Verb} {x : Noun}

/-- Elements that settle as those of the noun do. -/
theorem agree_map {n : Scalar → Scalar} (hx : x.All fun s => s.isDefined = true)
    (h : x.All fun s => (n s).settle = s.settle) :
    Agree Noun.Equal Eq (v.requireDefined (x.map n)) (.ok x) := by
  have hdefined : x.All fun s => (n s).isDefined = true := by
    intro s hs
    rw [← Scalar.isDefined_settle, h s hs, Scalar.isDefined_settle]
    exact hx s hs
  have hsettle : (x.map n).settle = x.settle := by
    rw [Noun.settle, Noun.map_map]
    exact Noun.map_congr h
  rw [(requireDefined_map_eq_ok_iff v n).mpr ⟨hdefined, rfl⟩]
  exact .ok (Noun.equal_of_settle ((Noun.all_map n x).mpr hdefined) hsettle)

/-- A change of real parts that settles as they do; imaginary parts count as zeros before and are
zeros after it. -/
theorem agree_map_real {f : Binary64 → Binary64} (hx : x.All fun s => s.isDefined = true)
    (hreal : x.isReal = true) (h : ∀ r, (f r).settle = r.settle) :
    Agree Noun.Equal Eq (v.requireDefined (x.map fun s => .ofReal (f s.re))) (.ok x) := by
  refine agree_map hx fun s hs => Scalar.settle_eq_iff.mpr ⟨h s.re, ?_⟩
  have him : s.im.vanishes = true := x.isReal_iff.mp hreal s hs
  rw [Binary64.settle_of_vanishes him]
  rfl

theorem negate_negate (limit : Int) (hx : x.All fun s => s.isDefined = true) :
    (minus.applyMonad limit x >>= minus.applyMonad limit) = .ok x := by
  have hneg : (x.map .neg).All fun s => s.isDefined = true := by
    rw [Noun.all_map]
    simpa only [Scalar.isDefined_neg] using hx
  have hself (s : Scalar) : s.neg.neg = s := by
    rw [Scalar.neg, Scalar.neg, Binary64.neg_neg, Binary64.neg_neg]
  rw [negate_of_isDefined limit hx]
  change minus.applyMonad limit (x.map .neg) = _
  rw [negate_of_isDefined limit hneg, Noun.map_map]
  simp only [hself, Noun.map_self]

theorem realElementwise_atom_right (v : Verb) (f : Binary64 → Binary64 → Binary64) (r : Binary64)
    (h : x.isReal = true) : v.realElementwise f x (.atom (.ofReal r)) =
      v.requireDefined (x.map fun s => .ofReal (f s.re r)) := by
  rw [realElementwise_eq v f (x.conform_atom_right _) h rfl, Noun.zipWith_atom_right]
  rfl

theorem realElementwise_atom_left (v : Verb) (f : Binary64 → Binary64 → Binary64) (r : Binary64)
    (h : x.isReal = true) : v.realElementwise f (.atom (.ofReal r)) x =
      v.requireDefined (x.map fun s => .ofReal (f r s.re)) := by
  rw [realElementwise_eq v f (x.conform_atom_left _) rfl h, Noun.zipWith_atom_left]
  rfl

theorem agree_zero (hx : x.All fun s => s.isDefined = true) :
    ∀ r ∈ [plus.applyDyad x (.atom (.ofReal .zero)), plus.applyDyad (.atom (.ofReal .zero)) x,
      minus.applyDyad x (.atom (.ofReal .zero))], Agree Noun.Equal Eq r (.ok x) := by
  have hsettle (negative : Bool) (s : Scalar) :
      (s.add ⟨.number ⟨negative, .zero⟩, .number ⟨negative, .zero⟩⟩).settle = s.settle :=
    Scalar.settle_eq_iff.mpr ⟨s.re.settle_add_zero negative, s.im.settle_add_zero negative⟩
  have hleft (s : Scalar) : ((Scalar.ofReal .zero).add s).settle = s.settle := by
    rw [Scalar.add_comm]
    exact hsettle false s
  have hsub (s : Scalar) : (s.sub (.ofReal .zero)).settle = s.settle := by
    rw [Scalar.sub_eq_add_neg]
    exact hsettle true s
  simp only [List.forall_mem_cons, applyDyad, elementwise_eq _ _ (x.conform_atom_right _),
    elementwise_eq _ _ (x.conform_atom_left _), Noun.zipWith_atom_right, Noun.zipWith_atom_left]
  exact ⟨agree_map hx fun s _ => hsettle false s, agree_map hx fun s _ => hleft s,
    agree_map hx fun s _ => hsub s, List.forall_mem_nil _⟩

theorem agree_one (hx : x.All fun s => s.isDefined = true) (hreal : x.isReal = true) :
    ∀ r ∈ [times.applyDyad x (.atom (.ofReal (.number .one))),
      times.applyDyad (.atom (.ofReal (.number .one))) x,
      divide.applyDyad x (.atom (.ofReal (.number .one)))], Agree Noun.Equal Eq r (.ok x) := by
  have hleft (r : Binary64) : ((Binary64.number .one).times r).settle = r.settle := by
    rw [Binary64.times_comm, Binary64.settle_times_one]
  simp only [List.forall_mem_cons, applyDyad, quotient, realElementwise_atom_right _ _ _ hreal,
    realElementwise_atom_left _ _ _ hreal]
  refine ⟨agree_map_real hx hreal Binary64.settle_times_one, agree_map_real hx hreal hleft, ?_,
    List.forall_mem_nil _⟩
  -- by a shared one, elements are multiplied by its reciprocal, which is one again
  split_ifs
  · exact agree_map_real (f := fun r => r.divideShared (.number .one)) hx hreal
      Binary64.settle_divideShared_one
  · exact agree_map_real (f := fun r => r.divide (.number .one)) hx hreal
      Binary64.settle_divide_one

theorem times_zero (hreal : x.isReal = true) :
    ∀ r ∈ [times.applyDyad x (.atom (.ofReal .zero)), times.applyDyad (.atom (.ofReal .zero)) x],
      r = .ok (x.map fun _ => .ofReal .zero) := by
  have hdefined : times.requireDefined (x.map fun _ => .ofReal .zero) =
      .ok (x.map fun _ => .ofReal .zero) :=
    (requireDefined_map_eq_ok_iff times _).mpr ⟨fun _ _ => rfl, rfl⟩
  simp only [List.forall_mem_cons, applyDyad, realElementwise_atom_right _ _ _ hreal,
    realElementwise_atom_left _ _ _ hreal, Binary64.times_comm .zero, Binary64.times_zero]
  exact ⟨hdefined, hdefined, List.forall_mem_nil _⟩

theorem signum_of_isReal (limit : Int) (hx : x.All fun s => s.isDefined = true)
    (hreal : x.isReal = true) :
    times.applyMonad limit x = .ok (x.map (.onReal .signum)) := by
  have hdefined {s : Scalar} (h : s.isDefined = true) : (s.onReal .signum).isDefined = true := by
    rw [Scalar.onReal, Scalar.isDefined_ofReal, Binary64.isNaN_signum, (s.isDefined_iff.mp h).1]
    exact Bool.false_ne_true
  refine requireReal_eq_ok_iff.mpr ⟨x.isReal_iff.mp hreal, ?_⟩
  exact (requireDefined_map_eq_ok_iff times _).mpr ⟨fun s hs => hdefined (hx s hs), rfl⟩

/-- The signs of the elements, each of which is its own sign. -/
theorem exists_signs (limit : Int) (hx : x.All fun s => s.isDefined = true)
    (hreal : x.isReal = true) :
    ∃ z, times.applyMonad limit x = .ok z ∧
      Agree Noun.Equal Eq (times.applyMonad limit z) (.ok z) ∧ z.shape = x.shape ∧
      ∀ i e n, x.at? i = some e → e.re = .number n → ∃ s : Extended,
        z.at? i = some (.ofReal (.number s)) ∧ s.value = SignType.sign n.flush.value := by
  have hsign := signum_of_isReal limit hx hreal
  have hz : (x.map (.onReal .signum)).All fun s => s.isDefined = true := by
    obtain ⟨_, hz⟩ := requireReal_eq_ok_iff.mp hsign
    exact ((requireDefined_eq_ok_iff times).mp hz).1
  have hzreal : (x.map (.onReal .signum)).isReal = true := by
    rw [Noun.isReal_iff, Noun.all_map]
    exact fun _ _ => rfl
  refine ⟨_, hsign, ?_, Noun.shape_map _ x, ?_⟩
  · have hself (s : Scalar) : (s.onReal .signum).onReal .signum = s.onReal .signum :=
      congrArg Scalar.ofReal s.re.signum_signum
    rw [signum_of_isReal limit hz hzreal, Noun.map_map]
    simp only [hself]
    exact .ok (Noun.equal_of_settle hz rfl)
  · intro i e n he hn
    obtain ⟨s, hs, hvalue⟩ := Binary64.exists_signum n
    refine ⟨s, ?_, hvalue⟩
    rw [Noun.at?_map, he, Option.map_some, Scalar.onReal, hn, hs]

end Verb

/-- Two changes of sign undo each other, and a zero added or taken away gives an equal noun. So does
a one as a factor or a divisor of a noun that is real. The signs of its elements are those of their
values, and they are their own signs. The product with a zero is a zero at every element, and none
of these is ever refused. -/
theorem neutral_and_absorbing_elements (limit : Int) {x : Noun}
    (hx : x.All fun s => s.isDefined = true) :
    let zero := Noun.atom (.ofReal .zero)
    let one := Noun.atom (.ofReal (.number .one))
    (Verb.minus.applyMonad limit x >>= Verb.minus.applyMonad limit) = .ok x ∧
    (∀ r ∈ [Verb.plus.applyDyad x zero, Verb.plus.applyDyad zero x, Verb.minus.applyDyad x zero],
      Agree Noun.Equal Eq r (.ok x)) ∧
    (x.isReal = true →
      (∀ r ∈ [Verb.times.applyDyad x one, Verb.times.applyDyad one x, Verb.divide.applyDyad x one],
        Agree Noun.Equal Eq r (.ok x)) ∧
      (∃ z, Verb.times.applyMonad limit x = .ok z ∧
        Agree Noun.Equal Eq (Verb.times.applyMonad limit z) (.ok z) ∧ z.shape = x.shape ∧
        ∀ i e n, x.at? i = some e → e.re = .number n → ∃ s : Extended,
          z.at? i = some (.ofReal (.number s)) ∧ s.value = SignType.sign n.flush.value) ∧
      ∀ r ∈ [Verb.times.applyDyad x zero, Verb.times.applyDyad zero x],
        r = .ok (x.map fun _ => .ofReal .zero)) := by
  intro zero one
  refine ⟨Verb.negate_negate limit hx, Verb.agree_zero hx, fun hreal => ⟨?_, ?_, ?_⟩⟩
  · exact Verb.agree_one hx hreal
  · exact Verb.exists_signs limit hx hreal
  · exact Verb.times_zero hreal

theorem neutral_and_absorbing_elements_of_infinity :
    let infinity := Scalar.ofReal (.number .infinity)
    let tiny := Scalar.ofReal (.number ⟨true, ⟨1, by decide⟩⟩)
    let one := Noun.atom (.ofReal (.number .one))
    let x := Noun.list [infinity.neg, tiny]
    ((x.All fun s => s.isDefined = true) ∧ x.isReal = true) ∧
      (Verb.minus.applyMonad 2 x >>= Verb.minus.applyMonad 2) = .ok x ∧
      Agree Noun.Equal Eq (Verb.divide.applyDyad x one) (.ok x) ∧
      Verb.times.applyDyad (.atom (.ofReal .zero)) x = .ok (.list [.ofReal .zero, .ofReal .zero]) ∧
      ∃ z, Verb.times.applyMonad 2 x = .ok z ∧ ∃ s : Extended,
        z.at? 0 = some (.ofReal (.number s)) ∧ s.value = -1 := by
  intro infinity tiny one x
  have hx : x.All fun s => s.isDefined = true :=
    List.all_eq_true.mp (show x.elements.all Scalar.isDefined = true from rfl)
  have hreal : x.isReal = true := rfl
  obtain ⟨hneg, _, hall⟩ := neutral_and_absorbing_elements 2 hx
  obtain ⟨hone, ⟨z, hz, _, _, hsign⟩, hzero⟩ := hall hreal
  obtain ⟨s, hs, hvalue⟩ := hsign 0 infinity.neg Extended.infinity.neg rfl rfl
  refine ⟨⟨hx, hreal⟩, hneg, hone _ (.tail _ (.tail _ (.head _))), hzero _ (.tail _ (.head _)),
    z, hz, s, hs, ?_⟩
  rw [hvalue, Extended.sign_value]
  rfl

end JCalc
