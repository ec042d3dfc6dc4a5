import JCalc.Proofs.InfiniteOperands
import JCalc.Verb.Apply

/-! Subnormals as zeros. Arrays take a subnormal operand for the zero of its sign, so that no
operation tells a value from what it is flushed to. Only a change of sign, which is none of theirs,
hands a subnormal on. -/

namespace JCalc

namespace Extended

variable {x : Extended}

theorem flush_of_isSubnormal (h : x.magnitude.isSubnormal = true) : x.flush = ⟨x.negative, .zero⟩ :=
  if_pos h

theorem flush_of_normal (h : x.magnitude.isSubnormal = false) : x.flush = x :=
  if_neg (Bool.eq_false_iff.mp h)

theorem flush_flush (x : Extended) : x.flush.flush = x.flush := by
  unfold flush
  split_ifs <;> rfl

end Extended

namespace Binary64

variable (x y : Binary64)

theorem flush_flush : x.flush.flush = x.flush := by
  cases x with
  | nan => rfl
  | number x => exact congrArg number x.flush_flush

theorem isNaN_flush : x.flush.isNaN = x.isNaN := by cases x <;> rfl

theorem vanishes_flush : x.flush.vanishes = x.vanishes := by
  cases x with
  | nan => rfl
  | number x =>
    change x.flush.magnitude.isSubnormal = x.magnitude.isSubnormal
    rw [← Extended.flush_isZero, Extended.flush_flush, Extended.flush_isZero]

theorem flush_of_not_vanishes {x : Binary64} (h : x.vanishes = false) : x.flush = x := by
  cases x with
  | nan => rfl
  | number x => exact congrArg number (Extended.flush_of_normal h)

theorem flush_one : (number .one).flush = number .one := congrArg number Extended.flush_one

theorem lift_flush_left (op : Extended → Extended → Binary64) : lift op x.flush y = lift op x y := by
  cases x with
  | nan => rfl
  | number x =>
    cases y with
    | nan => rfl
    | number y => simp only [flush, lift, Extended.flush_flush]

theorem lift_flush_right (op : Extended → Extended → Binary64) : lift op x y.flush = lift op x y := by
  cases x with
  | nan => rfl
  | number x =>
    cases y with
    | nan => rfl
    | number y => simp only [flush, lift, Extended.flush_flush]

theorem add_flush : x.flush.add y.flush = x.add y := by
  rw [add, lift_flush_left, lift_flush_right]

theorem sub_flush : x.flush.sub y.flush = x.sub y := by
  rw [sub, lift_flush_left, lift_flush_right]

theorem mul_flush_left : x.flush.mul y = x.mul y := lift_flush_left x y _

theorem mul_flush_right : x.mul y.flush = x.mul y := lift_flush_right x y _

theorem div_flush_left : x.flush.div y = x.div y := lift_flush_left x y _

theorem div_flush_right : x.div y.flush = x.div y := lift_flush_right x y _

theorem times_flush : x.flush.times y.flush = x.times y := by
  rw [times, vanishes_flush, vanishes_flush, mul_flush_left, mul_flush_right, times]

theorem divideByZero_flush : x.flush.divideByZero = x.divideByZero := by
  by_cases h : x.vanishes = true
  · have hflush : x.flush.vanishes = true := by rwa [vanishes_flush]
    rw [divideByZero_of_vanishes h, divideByZero_of_vanishes hflush]
  · rw [flush_of_not_vanishes (Bool.eq_false_iff.mpr h)]

theorem divide_flush : x.flush.divide y.flush = x.divide y := by
  rw [divide, vanishes_flush, divideByZero_flush, div_flush_left, div_flush_right, divide]

theorem divideShared_flush : x.flush.divideShared y.flush = x.divideShared y := by
  rw [divideShared, vanishes_flush, divideByZero_flush, mul_flush_left, div_flush_right,
    divideShared]

theorem complement_flush : x.flush.complement = x.complement := by
  rw [complement, sub, lift_flush_right, complement, sub]

theorem signum_of_vanishes {n : Extended} (h : (number n).vanishes = true) :
    (number n).signum = number ⟨n.negative, .zero⟩ := if_pos h

theorem signum_flush : x.flush.signum = x.signum := by
  by_cases h : x.vanishes = true
  · cases x with
    | nan => rfl
    | number x =>
      rw [flush, Extended.flush_of_isSubnormal h, signum_of_vanishes h]
      rfl
  · rw [flush_of_not_vanishes (Bool.eq_false_iff.mpr h)]

theorem below_flush_left : x.flush.below y = x.below y := by
  cases x with
  | nan => rfl
  | number x =>
    cases y with
    | nan => rfl
    | number y => simp only [flush, below, Extended.flush_flush]

theorem below_flush_right : x.below y.flush = x.below y := by
  cases x with
  | nan => rfl
  | number x =>
    cases y with
    | nan => rfl
    | number y => simp only [flush, below, Extended.flush_flush]

theorem inUnitInterval_flush : x.flush.inUnitInterval = x.inUnitInterval := by
  rw [inUnitInterval, below_flush_left, below_flush_right, inUnitInterval]

theorem flush_neg : x.neg.flush = x.flush.neg := by
  cases x with
  | nan => rfl
  | number x =>
    apply congrArg number
    change Extended.flush ⟨!x.negative, x.magnitude⟩ = x.flush.neg
    unfold Extended.flush
    split_ifs <;> rfl

end Binary64

namespace Scalar

variable (s t : Scalar)

def flush (s : Scalar) : Scalar := ⟨s.re.flush, s.im.flush⟩

theorem isDefined_flush : s.flush.isDefined = s.isDefined := by
  rw [isDefined, flush, Binary64.isNaN_flush, Binary64.isNaN_flush, isDefined]

theorem onReal_flush {f : Binary64 → Binary64} (h : ∀ x, f x.flush = f x) :
    s.flush.onReal f = s.onReal f := congrArg ofReal (h s.re)

theorem onReals_flush {f : Binary64 → Binary64 → Binary64} (h : ∀ x y, f x.flush y.flush = f x y) :
    s.flush.onReals f t.flush = s.onReals f t := congrArg ofReal (h s.re t.re)

end Scalar

def Noun.flush (x : Noun) : Noun := x.map .flush

end JCalc
