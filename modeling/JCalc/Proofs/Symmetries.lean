import JCalc.Proofs.Equality
import JCalc.Proofs.Rules

/-! Symmetries of the arithmetic verbs. Sums and products do not depend on the order of their
arguments, a difference is a sum with the negated, and a change of sign of an argument is one of the
result. Rounding looks at magnitudes alone, so that these are facts about signs; only the sign of a
zero may differ. -/

namespace JCalc

namespace Extended

variable (x y : Extended)

theorem neg_neg : x.neg.neg = x := by
  rw [neg, neg, Bool.not_not]

theorem isInfinite_neg : x.neg.isInfinite = x.isInfinite := rfl

theorem isZero_neg : x.neg.isZero = x.isZero := rfl

theorem units_neg : x.neg.units = -x.units := by
  obtain ⟨negative, magnitude⟩ := x
  cases negative <;> simp [neg, units]

theorem add_comm : x.add y = y.add x := by
  unfold add
  by_cases hx : x.isInfinite = true
  · by_cases hy : y.isInfinite = true
    · -- of two infinities the left one is given, which is the right one if their sum is defined
      by_cases hsign : x.negative = y.negative
      · have heq : x = y := by
          apply eq_of_code hsign
          rw [eq_infinity_of_isInfinite hx, eq_infinity_of_isInfinite hy]
        rw [heq]
      · simp [hx, hy, hsign, Ne.symm hsign]
    · simp [hx, hy]
  · by_cases hy : y.isInfinite = true
    · simp [hx, hy]
    · simp only [hx, hy, if_false, Bool.false_eq_true, Int.add_comm x.units,
        Bool.and_comm x.negative]

theorem mul_comm : x.mul y = y.mul x := by
  have hsign : (x.negative != y.negative) = (y.negative != x.negative) := Bool.xor_comm _ _
  unfold mul
  by_cases hx : x.isInfinite = true <;> by_cases hy : y.isInfinite = true
  all_goals simp [hx, hy, hsign, Nat.mul_comm x.magnitude.units, isZero_of_isInfinite]

theorem neg_mul : x.neg.mul y = (x.mul y).neg := by
  have hsign : (x.neg.negative != y.negative) = !(x.negative != y.negative) := by
    cases h : x.negative <;> cases y.negative <;> simp [neg, h]
  unfold mul
  rw [isInfinite_neg, isZero_neg, hsign]
  dsimp only
  split_ifs <;> rfl

theorem neg_div : x.neg.div y = (x.div y).neg := by
  have hsign : (x.neg.negative != y.negative) = !(x.negative != y.negative) := by
    cases h : x.negative <;> cases y.negative <;> simp [neg, h]
  unfold div
  rw [isInfinite_neg, isZero_neg, hsign]
  dsimp only
  split_ifs <;> rfl

/-- A sum that vanishes is the only one whose sign does not change with those of the terms. -/
theorem unsign_neg_add_neg : (x.neg.add y.neg).neg.unsign = (x.add y).unsign := by
  have hneg (z : Extended) : (Binary64.number z.neg).neg = .number z := congrArg _ z.neg_neg
  have hsign : (x.neg.negative != y.neg.negative) = (x.negative != y.negative) := by
    cases h : x.negative <;> cases h' : y.negative <;> simp [neg, h, h']
  unfold add
  rw [isInfinite_neg, isInfinite_neg, units_neg, units_neg, hsign]
  by_cases hx : x.isInfinite = true
  · rw [if_pos hx, if_pos hx]
    split_ifs
    · rfl
    · rw [hneg]
  · by_cases hy : y.isInfinite = true
    · rw [if_neg hx, if_neg hx, if_pos hy, if_pos hy, hneg]
    · have hsum : -x.units + -y.units = -(x.units + y.units) := by omega
      simp only [hx, hy, if_false, Bool.false_eq_true, hsum, Int.neg_eq_zero, Int.natAbs_neg]
      by_cases hzero : x.units + y.units = 0
      · simp only [hzero, if_true]
        rfl
      · have hnegative : (decide (-(x.units + y.units) < 0)) = !decide (x.units + y.units < 0) := by
          rw [← decide_not, decide_eq_decide]
          omega
        simp only [hzero, if_false, hnegative, Binary64.neg, neg, Bool.not_not]

end Extended

namespace Binary64

variable (x y : Binary64)

theorem neg_neg : x.neg.neg = x := by
  cases x with
  | nan => rfl
  | number x => exact congrArg number x.neg_neg

theorem lift_comm {op : Extended → Extended → Binary64} (h : ∀ x y, op x y = op y x) :
    lift op x y = lift op y x := by
  cases x <;> cases y <;> first | rfl | exact h _ _

theorem add_comm : x.add y = y.add x := lift_comm x y Extended.add_comm

theorem sub_eq_add_neg : x.sub y = x.add y.neg := by
  cases x with
  | nan => rfl
  | number x =>
    cases y with
    | nan => rfl
    | number y =>
      have hflush : y.neg.flush = y.flush.neg := Binary64.number.inj (flush_neg (number y))
      simp only [sub, add, neg, lift, hflush]

theorem times_comm : x.times y = y.times x := by
  rw [times, times, Bool.or_comm, mul, lift_comm x y Extended.mul_comm]

theorem vanishes_neg : x.neg.vanishes = x.vanishes := by cases x <;> rfl

theorem isNaN_neg : x.neg.isNaN = x.isNaN := by cases x <;> rfl

theorem lift_neg {op : Extended → Extended → Binary64} (h : ∀ x y, op x.neg y = (op x y).neg) :
    lift op x.neg y = (lift op x y).neg := by
  cases x with
  | nan => rfl
  | number x =>
    cases y with
    | nan => rfl
    | number y =>
      have hflush : x.neg.flush = x.flush.neg := Binary64.number.inj (flush_neg (number x))
      simp only [neg, lift, hflush, h]

theorem neg_mul : x.neg.mul y = (x.mul y).neg := lift_neg x y Extended.neg_mul

theorem neg_div : x.neg.div y = (x.div y).neg := lift_neg x y Extended.neg_div

theorem unsign_neg_sub : (y.sub x).neg.unsign = (x.sub y).unsign := by
  cases x with
  | nan => cases y <;> rfl
  | number x =>
    cases y with
    | nan => rfl
    | number y =>
      simp only [sub, lift]
      rw [← x.flush.unsign_neg_add_neg y.flush.neg, Extended.neg_neg, Extended.add_comm]

theorem unsign_times_neg : (x.neg.times y).unsign = (x.times y).neg.unsign := by
  rw [times, times, vanishes_neg, neg_mul]
  split_ifs <;> rfl

theorem unsign_divideByZero_neg : x.neg.divideByZero.unsign = x.divideByZero.neg.unsign := by
  by_cases h : x.vanishes = true
  · rw [divideByZero_of_vanishes h, divideByZero_of_vanishes (by rwa [vanishes_neg])]
    rfl
  · cases x with
    | nan => rfl
    | number x =>
      have h := Bool.eq_false_iff.mpr h
      have hneg : (number x.neg).vanishes = false := h
      rw [divideByZero_number h, neg, divideByZero_number hneg]
      rfl

theorem unsign_divide_neg : (x.neg.divide y).unsign = (x.divide y).neg.unsign := by
  rw [divide, divide, neg_div]
  split_ifs
  · exact unsign_divideByZero_neg x
  · rfl

theorem unsign_divideShared_neg : (x.neg.divideShared y).unsign = (x.divideShared y).neg.unsign := by
  rw [divideShared, divideShared, neg_mul]
  split_ifs
  · exact unsign_divideByZero_neg x
  · rfl

end Binary64

namespace Scalar

variable (s t : Scalar)

theorem add_comm : s.add t = t.add s := by
  rw [add, add, Binary64.add_comm, Binary64.add_comm t.im]

theorem sub_eq_add_neg : s.sub t = s.add t.neg := by
  rw [sub, add, Binary64.sub_eq_add_neg, Binary64.sub_eq_add_neg]
  rfl

theorem isDefined_neg : s.neg.isDefined = s.isDefined := by
  rw [isDefined, neg, Binary64.isNaN_neg, Binary64.isNaN_neg, isDefined]

theorem unsign_neg_sub : (t.sub s).neg.unsign = (s.sub t).unsign := by
  simp only [unsign, neg, sub, Binary64.unsign_neg_sub]

theorem onReals_comm {f : Binary64 → Binary64 → Binary64} (h : ∀ x y, f x y = f y x) :
    s.onReals f t = t.onReals f s := congrArg ofReal (h s.re t.re)

theorem unsign_onReals_neg {f : Binary64 → Binary64 → Binary64}
    (h : ∀ x y, (f x.neg y).unsign = (f x y).neg.unsign) :
    (s.neg.onReals f t).unsign = (s.onReals f t).neg.unsign := by
  simp only [unsign, onReals, ofReal, neg, h]
  rfl

end Scalar

theorem Noun.conform_swap (x y : Noun) :
    (∃ shape, x.conform y = .ok shape ∧ y.conform x = .ok shape) ∨
      x.conform y = .error (.lengths x.shape y.shape) ∧
        y.conform x = .error (.lengths y.shape x.shape) := by
  cases x with
  | atom s => cases y <;> exact .inl ⟨_, rfl, rfl⟩
  | list xs =>
    cases y with
    | atom t => exact .inl ⟨_, rfl, rfl⟩
    | list ys =>
      by_cases h : xs.length = ys.length
      · exact .inl ⟨[xs.length], by simp [conform, shape, h], by simp [conform, shape, h]⟩
      · exact .inr ⟨by simp [conform, shape, isAtom, h], by simp [conform, shape, isAtom, Ne.symm h]⟩

namespace Verb

variable {v : Verb} {realOnly : Bool} {f g : Scalar → Scalar → Scalar} {x y : Noun}

/-- Both orders of the arguments pass, or both are refused for the same reason. -/
theorem judge_swap (v : Verb) (realOnly : Bool) (x y : Noun) :
    v.judge realOnly x y = .ok () ∧ v.judge realOnly y x = .ok () ∨
      ∃ f g : Fault, v.judge realOnly x y = .error f ∧ v.judge realOnly y x = .error g ∧
        f.SameKind g := by
  rcases x.conform_swap y with ⟨shape, hxy, hyx⟩ | ⟨hxy, hyx⟩
  · cases realOnly with
    | false =>
      rw [judge, judge, hxy, hyx]
      exact .inl ⟨rfl, rfl⟩
    | true =>
      rw [judge_realOnly hxy, judge_realOnly hyx, Bool.and_comm]
      split_ifs
      · exact .inl ⟨rfl, rfl⟩
      · exact .inr ⟨_, _, rfl, rfl, rfl⟩
  · refine .inr ⟨.lengths x.shape y.shape, .lengths y.shape x.shape, ?_, ?_, rfl⟩
    · rw [judge, hxy]
      rfl
    · rw [judge, hyx]
      rfl

/-- Arguments exchanged in the rule and arguments exchanged. -/
theorem agree_swap (v : Verb) (realOnly : Bool) (f : Scalar → Scalar → Scalar) (x y : Noun) :
    Agree Eq Fault.SameKind (v.applyRule realOnly (fun s t => f t s) x y)
      (v.applyRule realOnly f y x) := by
  rw [applyRule, applyRule, y.zipWith_swap]
  rcases v.judge_swap realOnly x y with ⟨hxy, hyx⟩ | ⟨f, g, hxy, hyx, h⟩
  · rw [hxy, hyx]
    exact .of_eq (fun _ => rfl) (fun _ => rfl) rfl
  · rw [hxy, hyx]
    exact .error h

theorem agree_of_comm (h : ∀ s t, f s t = f t s) : Agree Eq Fault.SameKind
    (v.applyRule realOnly f x y) (v.applyRule realOnly f y x) := by
  have hrule : (fun s t => f t s) = f := funext₂ fun s t => h t s
  have hswap := v.agree_swap realOnly f x y
  rwa [hrule] at hswap

/-- Verbs of one rule differ in the name that a fault bears. -/
theorem agree_rename (v w : Verb) (f : Scalar → Scalar → Scalar) (x y : Noun) :
    Agree Eq Fault.SameKind (v.applyRule false f x y) (w.applyRule false f x y) := by
  have hjudge : v.judge false x y = w.judge false x y := rfl
  rw [applyRule, applyRule, hjudge]
  cases w.judge false x y with
  | error fault => exact .error rfl
  | ok _ =>
    change Agree _ _ (v.requireDefined _) (w.requireDefined _)
    unfold requireDefined
    split_ifs
    · exact .ok rfl
    · exact .error rfl

theorem all_of_applyRule {z : Noun} (h : v.applyRule realOnly f x y = .ok z) :
    z.All fun s => s.isDefined = true := by
  obtain ⟨_, _, h⟩ := bind_eq_ok h
  obtain ⟨hdefined, rfl⟩ := (requireDefined_eq_ok_iff v).mp h
  exact hdefined

theorem negate_of_isDefined (limit : Int) (h : x.All fun s => s.isDefined = true) :
    minus.applyMonad limit x = .ok (x.map .neg) := by
  refine (requireDefined_map_eq_ok_iff minus .neg).mpr ⟨?_, rfl⟩
  simpa only [Scalar.isDefined_neg] using h

theorem negate_applyRule (limit : Int) :
    (v.applyRule realOnly f x y >>= minus.applyMonad limit) =
      v.applyRule realOnly (fun s t => (f s t).neg) x y := by
  rw [← map_applyRule Scalar.isDefined_neg]
  cases h : v.applyRule realOnly f x y with
  | error fault => rfl
  | ok z => exact negate_of_isDefined limit (all_of_applyRule h)

/-- Rules that differ in the signs of zeros give equal nouns. -/
theorem agree_of_unsign (h : ∀ s t, (f s t).unsign = (g s t).unsign) :
    Agree Noun.Equal Fault.SameKind (v.applyRule realOnly f x y) (v.applyRule realOnly g x y) := by
  have hsettle (s t : Scalar) : (f s t).settle = (g s t).settle := by
    rw [← Scalar.settle_unsign, h, Scalar.settle_unsign]
  refine .of_settle (fun z => all_of_applyRule) (.of_eq (fun _ => rfl) (fun _ => rfl) ?_)
  change Except.map (Noun.map .settle) _ = Except.map (Noun.map .settle) _
  rw [map_applyRule Scalar.isDefined_settle, map_applyRule Scalar.isDefined_settle]
  simp only [hsettle]

theorem unsign_divisionRule_neg (x y : Noun) (s t : Binary64) :
    (divisionRule x y s.neg t).unsign = (divisionRule x y s t).neg.unsign := by
  unfold divisionRule
  split_ifs
  · exact s.unsign_divideShared_neg t
  · exact s.unsign_divide_neg t

/-- A change of sign before and after the rule. -/
theorem agree_negate (limit : Int) {f : Binary64 → Binary64 → Binary64}
    (h : ∀ s t, (f s.neg t).unsign = (f s t).neg.unsign) :
    Agree Noun.Equal Fault.SameKind (v.applyRule true (.onReals f) (x.map .neg) y)
      (v.applyRule true (.onReals f) x y >>= minus.applyMonad limit) := by
  rw [applyRule_map_left fun s => s.im.vanishes_neg, negate_applyRule]
  exact agree_of_unsign fun s t => s.unsign_onReals_neg t h

end Verb

/-- Sums and products are the same in either order, and a difference is the sum with the negated
noun. A difference is equal to the negated difference in the other order, and the product and the
quotient of a negated noun to the negated ones. Where one side is refused, so is the other, for
faults of one kind. -/
theorem arithmetic_symmetries (limit : Int) {x y : Noun} (hx : x.All fun s => s.isDefined = true)
    (hy : y.All fun s => s.isDefined = true) :
    Agree Eq Fault.SameKind (Verb.plus.applyDyad x y) (Verb.plus.applyDyad y x) ∧
    Agree Eq Fault.SameKind (Verb.times.applyDyad x y) (Verb.times.applyDyad y x) ∧
    Agree Eq Fault.SameKind (Verb.minus.applyDyad x y)
      (Verb.minus.applyMonad limit y >>= Verb.plus.applyDyad x) ∧
    Agree Noun.Equal Fault.SameKind (Verb.minus.applyDyad x y)
      (Verb.minus.applyDyad y x >>= Verb.minus.applyMonad limit) ∧
    ∀ v ∈ [Verb.times, .divide], Agree Noun.Equal Fault.SameKind
      (Verb.minus.applyMonad limit x >>= fun z => v.applyDyad z y)
      (v.applyDyad x y >>= Verb.minus.applyMonad limit) := by
  have hsum (x y : Noun) : Verb.plus.applyDyad x y = Verb.plus.applyRule false .add x y :=
    Verb.elementwise_eq_applyRule .plus .add x y
  have hdifference (x y : Noun) : Verb.minus.applyDyad x y = Verb.minus.applyRule false .sub x y :=
    Verb.elementwise_eq_applyRule .minus .sub x y
  have hproduct (x y : Noun) :
      Verb.times.applyDyad x y = Verb.times.applyRule true (.onReals .times) x y :=
    Verb.realElementwise_eq_applyRule .times .times x y
  refine ⟨?_, ?_, ?_, ?_, ?_⟩
  · rw [hsum, hsum]
    exact Verb.agree_of_comm Scalar.add_comm
  · rw [hproduct, hproduct]
    exact Verb.agree_of_comm fun s t => s.onReals_comm t Binary64.times_comm
  · have hrule : Scalar.sub = fun s t => s.add t.neg := funext₂ Scalar.sub_eq_add_neg
    rw [hdifference, Verb.negate_of_isDefined limit hy, hrule]
    change Agree _ _ _ (Verb.plus.applyDyad x (y.map .neg))
    rw [hsum, Verb.applyRule_map_right fun s => s.im.vanishes_neg]
    exact Verb.agree_rename .minus .plus _ x y
  · rw [hdifference, hdifference, Verb.negate_applyRule]
    have hswap := Verb.minus.agree_swap false (fun s t => (s.sub t).neg) x y
    exact (Verb.agree_of_unsign fun s t => (s.unsign_neg_sub t).symm).trans hswap
  · intro v hv
    rw [Verb.negate_of_isDefined limit hx]
    simp only [List.mem_cons, List.not_mem_nil, or_false] at hv
    rcases hv with rfl | rfl
    · rw [hproduct]
      change Agree _ _ (Verb.times.applyDyad (x.map .neg) y) _
      rw [hproduct]
      exact Verb.agree_negate limit Binary64.unsign_times_neg
    · change Agree _ _ (Verb.quotient (x.map .neg) y) (Verb.quotient x y >>= _)
      rw [Verb.quotient_eq_applyRule, Verb.quotient_eq_applyRule, Verb.divisionRule_map_left]
      exact Verb.agree_negate limit (Verb.unsign_divisionRule_neg x y)

theorem arithmetic_symmetries_of_infinity :
    let infinity := Scalar.ofReal (.number .infinity)
    let x := Noun.list [infinity, .ofReal (.number .one)]
    let y := Noun.list [.ofReal .zero, infinity]
    ((x.All fun s => s.isDefined = true) ∧ y.All fun s => s.isDefined = true) ∧
      Verb.times.applyDyad x y = .ok (.list [.ofReal .zero, infinity]) ∧
      Agree Eq Fault.SameKind (Verb.times.applyDyad x y) (Verb.times.applyDyad y x) ∧
      Verb.divide.applyDyad x x = .error (.undefinedResult .divide) ∧
      Agree Noun.Equal Fault.SameKind
        (Verb.minus.applyMonad 2 x >>= fun z => Verb.divide.applyDyad z x)
        (Verb.divide.applyDyad x x >>= Verb.minus.applyMonad 2) := by
  intro infinity x y
  have hdefined (xs : List Scalar) (h : xs.all Scalar.isDefined = true) :
      (Noun.list xs).All fun s => s.isDefined = true := List.all_eq_true.mp h
  have hx : x.All fun s => s.isDefined = true := hdefined _ rfl
  have hy : y.All fun s => s.isDefined = true := hdefined _ rfl
  refine ⟨⟨hx, hy⟩, by decide +kernel, (arithmetic_symmetries 2 hx hy).2.1, by decide +kernel, ?_⟩
  exact (arithmetic_symmetries 2 hx hx).2.2.2.2 .divide (by decide)

end JCalc
