import JCalc.Decimal

/-!
Magnitudes of binary64 numbers. A magnitude is its 63-bit pattern, so patterns
and values are ordered alike, and the largest pattern is infinity. Every finite
magnitude is a whole number of units of `2 ^ -1074`; exact results are quotients
of such numbers, and `nearest` rounds them to the closest magnitude, a tie going
to the even pattern. Where subnormals are not wanted, `nearestNormal` rounds.
-/

namespace JCalc

def topCode : Nat := 0x7FF0000000000000

/-- The pattern of the least normal number, and the distance between a pattern and the one of the
double. -/
def binade : Nat := 0x10000000000000

def twoPow (k : Nat) : Nat := 1 <<< k

def tenPow (k : Nat) : Nat := Nat.pow 10 k

def unitsPerOne : Nat := twoPow 1074

/-- The quotient rounded to a whole number, a half to the even neighbour. -/
def roundHalfEven (num den : Nat) : Nat :=
  let q := num / den
  let r := num % den
  if 2 * r < den then q
  else if den < 2 * r then q + 1
  else q + q % 2

structure Magnitude where
  code : Nat
  code_le : code ≤ topCode
deriving DecidableEq

namespace Magnitude

def zero : Magnitude := ⟨0, Nat.zero_le _⟩

def infinity : Magnitude := ⟨topCode, Nat.le_refl _⟩

def isZero (m : Magnitude) : Bool := m.code == 0

def isInfinite (m : Magnitude) : Bool := m.code == topCode

/-- Below the normal numbers, which begin at `2 ^ -1022`; zero counts as subnormal. -/
def isSubnormal (m : Magnitude) : Bool := m.code < binade

/-- The units of a pattern; at the pattern of infinity, the next power of two. -/
def unitsOf (code : Nat) : Nat :=
  if code < binade then code else (binade + code % binade) * twoPow (code / binade - 1)

def units (m : Magnitude) : Nat := unitsOf m.code

def nearest (num den : Nat) : Magnitude :=
  let shift := (num / den).log2 - 52
  ⟨min (shift * binade + roundHalfEven num (den * twoPow shift)) topCode, Nat.min_le_right _ _⟩

/-- The closest magnitude if the normal numbers went on with ever smaller exponents, and zero in
place of those smaller ones. They would lie half a unit apart just below the least normal number,
which is therefore the closest from a quarter of a unit below it on. -/
def nearestNormal (num den : Nat) : Magnitude :=
  if 4 * num < (4 * binade - 1) * den then zero else nearest num den

def ofNat (n : Nat) : Magnitude := nearest (n * unitsPerOne) 1

/-- The magnitude closest to a decimal. An exponent that settles the answer alone is settled
first, so that no power of ten is built beyond what the coefficient needs. -/
def ofDecimal (d : Decimal) : Magnitude :=
  if d.coefficient = 0 then zero
  else if 310 < d.exponent then infinity
  else if 0 ≤ d.exponent then nearest (d.coefficient * tenPow d.exponent.toNat * unitsPerOne) 1
  else if d.coefficient.log2 + 1077 < 3 * (-d.exponent).toNat then zero
  else nearest (d.coefficient * unitsPerOne) (tenPow (-d.exponent).toNat)

end Magnitude

end JCalc
