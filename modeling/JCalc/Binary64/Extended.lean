import JCalc.Binary64.Magnitude

/-!
Signed magnitudes, both zeros and both infinities included, and `Binary64`, which
adds the value that is no number. Sums, products and quotients are computed
exactly in units and rounded once, never to a subnormal. `flush` takes a
subnormal to the zero of its sign.
-/

namespace JCalc

structure Extended where
  negative : Bool
  magnitude : Magnitude
deriving DecidableEq

inductive Binary64 where
  | nan
  | number (x : Extended)
deriving DecidableEq

namespace Extended

def zero : Extended := ⟨false, .zero⟩

def infinity : Extended := ⟨false, .infinity⟩

def ofNat (n : Nat) : Extended := ⟨false, .ofNat n⟩

def one : Extended := ofNat 1

def neg (x : Extended) : Extended := ⟨!x.negative, x.magnitude⟩

def isZero (x : Extended) : Bool := x.magnitude.isZero

def isInfinite (x : Extended) : Bool := x.magnitude.isInfinite

/-- A position on the number line that orders numbers by value; both zeros have position zero. -/
def rank (x : Extended) : Int := if x.negative then -(x.magnitude.code : Int) else x.magnitude.code

def units (x : Extended) : Int :=
  if x.negative then -(x.magnitude.units : Int) else x.magnitude.units

def isInteger (x : Extended) : Bool := !x.isInfinite && x.magnitude.units % unitsPerOne == 0

def flush (x : Extended) : Extended :=
  if x.magnitude.isSubnormal then ⟨x.negative, .zero⟩ else x

/-- Infinities of opposite sign have no sum. A sum that vanishes is negative only if both terms are. -/
def add (x y : Extended) : Binary64 :=
  if x.isInfinite then
    if y.isInfinite && x.negative != y.negative then .nan else .number x
  else if y.isInfinite then .number y
  else
    let sum := x.units + y.units
    if sum = 0 then .number ⟨x.negative && y.negative, .zero⟩
    else .number ⟨sum < 0, .nearestNormal sum.natAbs 1⟩

def mul (x y : Extended) : Binary64 :=
  let negative := x.negative != y.negative
  if x.isInfinite then if y.isZero then .nan else .number ⟨negative, .infinity⟩
  else if y.isInfinite then if x.isZero then .nan else .number ⟨negative, .infinity⟩
  else .number ⟨negative, .nearestNormal (x.magnitude.units * y.magnitude.units) unitsPerOne⟩

def div (x y : Extended) : Binary64 :=
  let negative := x.negative != y.negative
  if x.isInfinite then if y.isInfinite then .nan else .number ⟨negative, .infinity⟩
  else if y.isInfinite then .number ⟨negative, .zero⟩
  else if y.isZero then if x.isZero then .nan else .number ⟨negative, .infinity⟩
  else .number ⟨negative, .nearestNormal (x.magnitude.units * unitsPerOne) y.magnitude.units⟩

end Extended

namespace Binary64

def zero : Binary64 := .number .zero

def signBit : Nat := 0x8000000000000000

/-- Reads a 64-bit pattern; every pattern above that of infinity, sign aside, is no number. -/
def ofBits (bits : Nat) : Binary64 :=
  let code := bits % signBit
  if h : code ≤ topCode then .number ⟨bits / signBit % 2 == 1, ⟨code, h⟩⟩ else .nan

def toBits : Binary64 → Nat
  | .nan => 0x7FF8000000000000
  | .number x => (if x.negative then signBit else 0) + x.magnitude.code

def isNaN : Binary64 → Bool
  | .nan => true
  | .number _ => false

def number? : Binary64 → Option Extended
  | .nan => none
  | .number x => some x

def neg : Binary64 → Binary64
  | .nan => .nan
  | .number x => .number x.neg

def flush : Binary64 → Binary64
  | .nan => .nan
  | .number x => .number x.flush

/-- An operation on numbers as arrays carry it out: subnormal operands count as zeros, and no
number comes of what is none. -/
def lift (op : Extended → Extended → Binary64) : Binary64 → Binary64 → Binary64
  | .number x, .number y => op x.flush y.flush
  | _, _ => .nan

def add : Binary64 → Binary64 → Binary64 := lift Extended.add

def sub : Binary64 → Binary64 → Binary64 := lift fun x y => x.add y.neg

def mul : Binary64 → Binary64 → Binary64 := lift Extended.mul

def div : Binary64 → Binary64 → Binary64 := lift Extended.div

/-- Counts as a zero of either sign in arrays. -/
def vanishes : Binary64 → Bool
  | .nan => false
  | .number x => x.magnitude.isSubnormal

/-- Less, as arrays compare; what is no number is not less than anything. -/
def below : Binary64 → Binary64 → Bool
  | .number x, .number y => x.flush.rank < y.flush.rank
  | _, _ => false

/-- Equal, as arrays compare: every two values that vanish are, and what is no number equals
nothing. -/
def equal : Binary64 → Binary64 → Bool
  | .number x, .number y => x.flush.rank == y.flush.rank
  | _, _ => false

end Binary64

end JCalc
