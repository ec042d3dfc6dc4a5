import JCalc.Binary64.Extended
import JCalc.Binary64.Shortest

/-!
Numbers of the language, and the scalars that arrays hold. A number has a real
and an imaginary part, neither of them undefined; a scalar may have undefined
parts, and is a number when it has none. The text of a number is its shortest
decimal, with an underscore for a minus and for infinity.
-/

namespace JCalc

structure Number where
  re : Extended
  im : Extended
deriving DecidableEq

structure Scalar where
  re : Binary64
  im : Binary64
deriving DecidableEq

inductive Extent where
  | finite
  | positiveInfinity
  | negativeInfinity
deriving DecidableEq

namespace Scalar

def ofReal (re : Binary64) : Scalar := ⟨re, .zero⟩

def number? (s : Scalar) : Option Number := do
  let re ← s.re.number?
  let im ← s.im.number?
  return ⟨re, im⟩

end Scalar

/-- How a real number is written: its infinity and its exponent; a minus goes before either. -/
structure NumeralStyle where
  minus : Char
  infinity : Text
  mark : Int → Text

def NumeralStyle.magnitude (style : NumeralStyle) (m : Magnitude) : Text :=
  if m.isInfinite then style.infinity
  else if m.isZero then ['0']
  else m.shortest.write style.mark

def literalStyle : NumeralStyle := ⟨'_', ['_'], fun e => 'e' :: integerText '_' e⟩

namespace Number

def ofReal (re : Extended) : Number := ⟨re, .zero⟩

def toScalar (x : Number) : Scalar := ⟨.number x.re, .number x.im⟩

def extent (x : Number) : Extent :=
  if x.re.isInfinite then if x.re.negative then .negativeInfinity else .positiveInfinity
  else .finite

/-- The imaginary part is a zero of either sign; a subnormal is not. -/
def isReal (x : Number) : Bool := x.im.isZero

/-- Both zeros are written alike. -/
def realText (x : Extended) : Text :=
  if x.negative && !x.isZero then literalStyle.minus :: literalStyle.magnitude x.magnitude
  else literalStyle.magnitude x.magnitude

def text (x : Number) : Text :=
  if x.isReal then realText x.re else realText x.re ++ 'j' :: realText x.im

end Number

end JCalc
