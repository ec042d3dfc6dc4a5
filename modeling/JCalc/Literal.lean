import JCalc.Number

/-!
Number literals: an underscore for infinity, two for its negative, and decimals
with an optional underscore for a minus, an optional fraction and an optional
exponent. The value of a decimal literal is the number closest to what it
denotes, however many digits it has.
-/

namespace JCalc

/-- A decimal as written. The fraction may be an empty run after its point. -/
structure DecimalLiteral where
  negative : Bool
  whole : Text
  fraction : Option Text
  exponent : Option (Bool × Text)
deriving DecidableEq

inductive Literal where
  | infinity (negative : Bool)
  | decimal (d : DecimalLiteral)
deriving DecidableEq

def takeMinus : Text → Bool × Text
  | '_' :: rest => (true, rest)
  | text => (false, text)

def minusText (negative : Bool) : Text := if negative then ['_'] else []

namespace DecimalLiteral

def text (d : DecimalLiteral) : Text :=
  let fraction := match d.fraction with
    | none => []
    | some digits => '.' :: digits
  let exponent := match d.exponent with
    | none => []
    | some (negative, digits) => 'e' :: (minusText negative ++ digits)
  minusText d.negative ++ d.whole ++ fraction ++ exponent

def decimal (d : DecimalLiteral) : Decimal :=
  let fraction := d.fraction.getD []
  let exponent : Int := match d.exponent with
    | none => 0
    | some (true, digits) => -(Decimal.ofDigits digits : Int)
    | some (false, digits) => Decimal.ofDigits digits
  ⟨Decimal.ofDigits (d.whole ++ fraction), exponent - fraction.length⟩

/-- A negative literal that rounds to zero gives the negative zero. -/
def value (d : DecimalLiteral) : Extended := ⟨d.negative, .ofDecimal d.decimal⟩

def takeFraction : Text → Option Text × Text
  | '.' :: rest => (some (rest.takeWhile isDigit), rest.dropWhile isDigit)
  | text => (none, text)

/-- An exponent needs a digit; without one the whole text is refused. -/
def takeExponent? : Text → Option (Option (Bool × Text) × Text)
  | 'e' :: rest =>
    let (negative, rest) := takeMinus rest
    let digits := rest.takeWhile isDigit
    if digits.isEmpty then none else some (some (negative, digits), rest.dropWhile isDigit)
  | text => some (none, text)

def isClosing (text : Text) : Bool := text.isEmpty || text == ['\n']

def ofText? (text : Text) : Option DecimalLiteral :=
  let (negative, rest) := takeMinus text
  let whole := rest.takeWhile isDigit
  if whole.isEmpty then none
  else
    let (fraction, rest) := takeFraction (rest.dropWhile isDigit)
    match takeExponent? rest with
    | none => none
    | some (exponent, rest) =>
      if isClosing rest then some ⟨negative, whole, fraction, exponent⟩ else none

end DecimalLiteral

namespace Literal

def text : Literal → Text
  | infinity false => ['_']
  | infinity true => ['_', '_']
  | decimal d => d.text

def value : Literal → Number
  | infinity negative => .ofReal ⟨negative, .infinity⟩
  | decimal d => .ofReal d.value

def ofText? (text : Text) : Option Literal :=
  if text == ['_'] then some (infinity false)
  else if text == ['_', '_'] then some (infinity true)
  else (DecimalLiteral.ofText? text).map decimal

end Literal

end JCalc
