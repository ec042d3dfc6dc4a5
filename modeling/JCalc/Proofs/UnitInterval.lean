import JCalc.Proofs.FewDigits
import JCalc.Proofs.NeutralElements

/-! The complement. It is taken of numbers from zero to one, and what is left of one lies there too:
rounding keeps the order, and zero and one are numbers themselves. So a complement can be taken of a
complement, as often as wanted. -/

namespace JCalc

namespace Magnitude

variable {m : Magnitude} {num : Nat}

theorem nearestNormal_le (h : num ≤ m.units) : (nearestNormal num 1).code ≤ m.code := by
  unfold nearestNormal
  split_ifs
  · exact Nat.zero_le _
  · refine (nearest_rounds num Nat.one_pos).mono m.rounds_units ?_
    rw [Nat.cast_one, div_one]
    exact_mod_cast h

end Magnitude

namespace Extended

variable {x y : Extended}

theorem rank_lt_iff : x.rank < y.rank ↔ x.value < y.value := by
  have hone := cast_unitsPerOne_pos
  have hlt (a b : Nat) : Magnitude.unitsOf a < Magnitude.unitsOf b ↔ a < b :=
    unitsOf_strictMono.lt_iff_lt
  have hzero : Magnitude.unitsOf 0 = 0 := rfl
  have hxy := hlt x.magnitude.code y.magnitude.code
  have hyx := hlt y.magnitude.code x.magnitude.code
  have hx := hlt 0 x.magnitude.code
  have hy := hlt 0 y.magnitude.code
  rw [value, value, div_lt_div_iff_of_pos_right hone, Int.cast_lt]
  unfold rank units Magnitude.units
  split_ifs <;> omega

theorem value_zero : zero.value = 0 := value_mk_zero false

/-- Between zero and one, counted in units. -/
theorem value_mem_iff : 0 ≤ x.value ∧ x.value ≤ 1 ↔ 0 ≤ x.units ∧ x.units ≤ unitsPerOne := by
  have hone := cast_unitsPerOne_pos
  rw [value, le_div_iff₀ hone, div_le_iff₀ hone, zero_mul, one_mul, ← Int.cast_natCast,
    Int.cast_nonneg_iff, Int.cast_le]

theorem isInfinite_of_units_le (h : x.magnitude.units ≤ unitsPerOne) : x.isInfinite = false := by
  have hcode : one.magnitude.code < topCode := by decide +kernel
  have hlt : unitsPerOne < Magnitude.infinity.units := by
    rw [← units_one]
    exact unitsOf_strictMono hcode
  apply Bool.eq_false_iff.mpr
  intro hinf
  rw [eq_infinity_of_isInfinite hinf] at h
  omega

/-- What is left of one. -/
theorem one_sub (h : 0 ≤ x.value ∧ x.value ≤ 1) :
    ∃ z, one.add x.neg = .number z ∧ 0 ≤ z.value ∧ z.value ≤ 1 := by
  obtain ⟨hlow, hhigh⟩ := value_mem_iff.mp h
  have hunits : x.magnitude.units ≤ unitsPerOne := by
    unfold units at hlow hhigh
    split_ifs at hlow hhigh <;> omega
  have hone : one.units = (unitsPerOne : Int) := congrArg Int.ofNat units_one
  unfold add
  rw [isInfinite_one, isInfinite_neg, isInfinite_of_units_le hunits, units_neg, hone]
  simp only [Bool.false_eq_true, if_false]
  split_ifs with hzero
  · exact ⟨_, rfl, value_zero.ge, value_zero.le.trans zero_le_one⟩
  · -- no more than one is left, so that rounding cannot pass it
    have hsum : ((unitsPerOne : Int) + -x.units).natAbs ≤ one.magnitude.units := by
      rw [units_one]
      omega
    have hpositive : decide ((unitsPerOne : Int) + -x.units < 0) = false := by
      rw [decide_eq_false_iff_not]
      omega
    rw [hpositive]
    refine ⟨_, rfl, value_mem_iff.mpr ⟨Int.natCast_nonneg _, ?_⟩⟩
    have hle := unitsOf_strictMono.monotone (Magnitude.nearestNormal_le hsum)
    change _ ≤ one.magnitude.units at hle
    rw [units_one] at hle
    exact Int.ofNat_le.mpr hle

end Extended

namespace Binary64

def InUnit (x : Binary64) : Prop := ∃ n, x = .number n ∧ 0 ≤ n.value ∧ n.value ≤ 1

variable {x : Binary64}

theorem inUnitInterval_iff (n : Extended) :
    (number n).inUnitInterval = true ↔ 0 ≤ n.flush.value ∧ n.flush.value ≤ 1 := by
  have hzero : Extended.zero.flush = .zero := rfl
  rw [inUnitInterval, zero, below, below, hzero, Extended.flush_one]
  simp only [Bool.and_eq_true, Bool.not_eq_true', decide_eq_false_iff_not, Extended.rank_lt_iff,
    Extended.value_zero, Extended.value_one, not_lt]

/-- A number outside the interval has no complement, nor has what is no number. -/
theorem inUnit_flush_iff : x.flush.InUnit ↔ x.isNaN = false ∧ x.inUnitInterval = true := by
  cases x with
  | nan => simp [flush, InUnit, isNaN]
  | number n =>
    rw [inUnitInterval_iff]
    constructor
    · rintro ⟨_, ⟨⟩, h⟩
      exact ⟨rfl, h⟩
    · rintro ⟨_, h⟩
      exact ⟨_, rfl, h⟩

theorem InUnit.complement (h : x.flush.InUnit) : x.complement.InUnit := by
  cases x with
  | nan => obtain ⟨_, ⟨⟩, _⟩ := h
  | number n =>
    obtain ⟨_, ⟨⟩, h⟩ := h
    rw [Binary64.complement, sub, lift, Extended.flush_one]
    exact Extended.one_sub h

theorem InUnit.isNaN (h : x.InUnit) : x.isNaN = false := by
  obtain ⟨n, rfl, _⟩ := h
  rfl

theorem InUnit.flush (h : x.InUnit) : x.flush.InUnit := by
  obtain ⟨n, rfl, h⟩ := h
  refine ⟨n.flush, rfl, ?_⟩
  cases hn : n.magnitude.isSubnormal with
  | true =>
    rw [Extended.flush_of_isSubnormal hn, Extended.value_mk_zero]
    exact ⟨le_rfl, zero_le_one⟩
  | false =>
    rw [Extended.flush_of_normal hn]
    exact h

theorem vanishes_iff :
    x.vanishes = true ↔ ∃ n, x = .number n ∧ n.magnitude.value < 1 / 2 ^ 1022 := by
  cases x with
  | nan => simp [vanishes]
  | number n =>
    rw [vanishes, Magnitude.isSubnormal_iff]
    constructor
    · intro h
      exact ⟨n, rfl, h⟩
    · rintro ⟨_, ⟨⟩, h⟩
      exact h

end Binary64

/-- The imaginary part counts as a zero, and the real part lies between zero and one once it is
flushed. -/
structure Scalar.HasComplement (s : Scalar) : Prop where
  im : ∃ n, s.im = .number n ∧ n.magnitude.value < 1 / 2 ^ 1022
  re : s.re.flush.InUnit

namespace Verb

variable {limit : Int} {y z : Noun}

/-- The monad applied to its own results. -/
def repeatMonad (limit : Int) (v : Verb) : Nat → Noun → Except Fault Noun
  | 0, y => .ok y
  | k + 1, y => v.applyMonad limit y >>= v.repeatMonad limit k

/-- An element has a complement when all that the monad asks of it holds. -/
theorem hasComplement_iff (s : Scalar) : s.HasComplement ↔ s.im.vanishes = true ∧
    s.re.inUnitInterval = true ∧ (s.onReal .complement).isDefined = true := by
  constructor
  · rintro ⟨him, hre⟩
    refine ⟨Binary64.vanishes_iff.mpr him, (Binary64.inUnit_flush_iff.mp hre).2, ?_⟩
    rw [Scalar.onReal, Scalar.isDefined_ofReal, hre.complement.isNaN]
    exact Bool.false_ne_true
  · rintro ⟨him, hunit, hdefined⟩
    refine ⟨Binary64.vanishes_iff.mp him, Binary64.inUnit_flush_iff.mpr ⟨?_, hunit⟩⟩
    apply Bool.eq_false_iff.mpr
    intro hnan
    apply (Scalar.isDefined_ofReal _).mp hdefined
    -- what is left of no number is none
    obtain ⟨re, im⟩ := s
    cases re with
    | nan => rfl
    | number n => cases hnan

theorem not_eq_ok_iff_hasComplement : Verb.not.applyMonad limit y = .ok z ↔
    y.All Scalar.HasComplement ∧ z = y.map (.onReal .complement) := by
  simp only [not_eq_ok_iff, Noun.All, hasComplement_iff]

theorem exists_complement_iff :
    (∃ z, Verb.not.applyMonad limit y = .ok z) ↔ y.All Scalar.HasComplement := by
  simp only [not_eq_ok_iff_hasComplement, exists_and_left, exists_eq, and_true]

theorem complement_in_unit (h : Verb.not.applyMonad limit y = .ok z) :
    z.shape = y.shape ∧ z.All fun s => s.re.InUnit ∧ s.im = .zero := by
  obtain ⟨hall, rfl⟩ := not_eq_ok_iff_hasComplement.mp h
  refine ⟨Noun.shape_map _ y, ?_⟩
  rw [Noun.all_map]
  exact fun s hs => ⟨(hall s hs).re.complement, rfl⟩

theorem hasComplement_of_complement (h : Verb.not.applyMonad limit y = .ok z) :
    z.All Scalar.HasComplement := by
  intro s hs
  obtain ⟨hre, him⟩ := (complement_in_unit h).2 s hs
  refine ⟨Binary64.vanishes_iff.mp ?_, hre.flush⟩
  rw [him]
  rfl

theorem exists_repeated_complement (k : Nat) (h : y.All Scalar.HasComplement) :
    ∃ z, Verb.not.repeatMonad limit k y = .ok z ∧ z.shape = y.shape ∧
      z.All Scalar.HasComplement := by
  induction k generalizing y with
  | zero => exact ⟨y, rfl, rfl, h⟩
  | succ k ih =>
    obtain ⟨w, hw⟩ := exists_complement_iff.mpr h
    obtain ⟨z, hz, hshape, hall⟩ := ih (hasComplement_of_complement hw)
    refine ⟨z, ?_, hshape.trans (complement_in_unit hw).1, hall⟩
    rw [repeatMonad, hw]
    exact hz

end Verb

/-- A complement is taken of nouns all of whose imaginary parts count as zeros and all of whose real
parts lie between zero and one once they are flushed, and of no others. It has the shape of the
noun, its elements are real and lie in the interval too, and so complements can be taken without
end. -/
theorem complement_keeps_unit_interval (limit : Int) (y : Noun) :
    ((∃ z, Verb.not.applyMonad limit y = .ok z) ↔ y.All Scalar.HasComplement) ∧
    (∀ z, Verb.not.applyMonad limit y = .ok z →
      z.shape = y.shape ∧ z.All fun s => s.re.InUnit ∧ s.im = .zero) ∧
    (y.All Scalar.HasComplement → ∀ k, ∃ z, Verb.not.repeatMonad limit k y = .ok z ∧
      z.shape = y.shape ∧ z.All Scalar.HasComplement) := by
  refine ⟨Verb.exists_complement_iff, fun z => Verb.complement_in_unit, fun h k => ?_⟩
  exact Verb.exists_repeated_complement k h

theorem complement_keeps_unit_interval_subnormal :
    let tiny := Binary64.number ⟨true, ⟨1, by decide⟩⟩
    let y := Noun.list [⟨tiny, tiny⟩, .ofReal (.number .one)]
    let z := Noun.list [.ofReal (.number .one), .ofReal .zero]
    Verb.not.applyMonad 2 y = .ok z ∧ y.All Scalar.HasComplement ∧
      (z.All fun s => s.re.InUnit ∧ s.im = .zero) ∧
      ∃ w, Verb.not.repeatMonad 2 5 y = .ok w ∧ w.shape = [2] := by
  intro tiny y z
  have hz : Verb.not.applyMonad 2 y = .ok z := by decide +kernel
  obtain ⟨hiff, hresult, hrepeat⟩ := complement_keeps_unit_interval 2 y
  have hy := hiff.mp ⟨z, hz⟩
  obtain ⟨w, hw, hshape, _⟩ := hrepeat hy 5
  exact ⟨hz, hy, (hresult z hz).2, w, hw, hshape⟩

end JCalc
