import JCalc.Noun

/-!
The texts of nouns. As output of a sentence a noun is its numbers with single
blanks between them, and a list that is wider than it may be is cut after the
numbers that fit. As a description it also shows its shape and, unlike the
output, signs of zeros and values that are no numbers.
-/

namespace JCalc

def ellipsis : Text := [' ', '.', '.', '.']

/-- Goes on while the next part leaves room for the ellipsis. -/
def cutAt (width : Int) (shown : Text) : List Text → Text
  | [] => shown ++ ellipsis
  | part :: parts =>
    let longer := shown ++ ' ' :: part
    if width < longer.length + ellipsis.length then shown ++ ellipsis
    else cutAt width longer parts

/-- The parts on one line, at most `width` long if that can be had; the first part is always
shown. -/
def fit (width : Option Int) (parts : List Text) : Text :=
  let full := spaced parts
  match width, parts with
  | some w, first :: second :: rest =>
    if full.length ≤ w then full else cutAt w first (second :: rest)
  | _, _ => full

def describedStyle : NumeralStyle where
  minus := '-'
  infinity := "inf".toList
  mark e :=
    let digits := Decimal.digits e.natAbs
    let padding := List.replicate (2 - digits.length) '0'
    'e' :: (if e < 0 then '-' else '+') :: (padding ++ digits)

namespace Binary64

def described : Binary64 → Text
  | nan => "nan".toList
  | number x =>
    let text := describedStyle.magnitude x.magnitude
    if x.negative then describedStyle.minus :: text else text

def describedSigned (x : Binary64) : Text :=
  let text := x.described
  if text.head? = some describedStyle.minus then text else '+' :: text

end Binary64

/-- A real part that is the positive zero is left out. -/
def Scalar.described (s : Scalar) : Text :=
  if s.re = .zero then s.im.described ++ ['j']
  else '(' :: (s.re.described ++ s.im.describedSigned ++ ['j', ')'])

namespace Noun

def text (width : Option Int) (x : Noun) : Except Fault Text := do
  let numbers ← x.numbers
  return fit width (numbers.map Number.text)

def described (x : Noun) : Text :=
  "Noun(shape=".toList ++ dimensionsText (x.shape.map Int.ofNat) ++ ", data=[".toList ++
    List.intercalate [',', ' '] (x.elements.map Scalar.described) ++ [']', ')']

end Noun

end JCalc
