import JCalc.Number
import JCalc.Fault

/-!
Nouns, the values that verbs work on: a single scalar, or a flat list of them.
The shape of an atom is empty, that of a list is its length. Data from outside
becomes a noun only if it fits the shape that is asked for.
-/

namespace JCalc

inductive Noun where
  | atom (x : Scalar)
  | list (xs : List Scalar)
deriving DecidableEq

inductive ShapeFault where
  | rank (rank : Nat)
  | negative (shape : List Int)
  | count (shape : List Int) (count : Nat)
deriving DecidableEq

/-- Dimensions in parentheses, a single one followed by a comma. -/
def dimensionsText : List Int → Text
  | [n] => '(' :: (intText n ++ [',', ')'])
  | shape => '(' :: (List.intercalate [',', ' '] (shape.map intText) ++ [')'])

def ShapeFault.message : ShapeFault → Text
  | rank r => "Nouns of rank ".toList ++ Decimal.digits r ++ " are not supported".toList
  | negative shape => "Negative dimension in shape ".toList ++ dimensionsText shape
  | count shape n =>
    "Shape ".toList ++ dimensionsText shape ++ " does not match ".toList ++ Decimal.digits n ++
      " elements".toList

def checkSize (limit : Int) (subject : Text) (count : Nat) : Except Fault Unit :=
  if limit < count then .error (.tooLarge subject count limit) else .ok ()

namespace Noun

def empty : Noun := list []

def shape : Noun → List Nat
  | atom _ => []
  | list xs => [xs.length]

def elements : Noun → List Scalar
  | atom x => [x]
  | list xs => xs

def isAtom : Noun → Bool
  | atom _ => true
  | list _ => false

def tally : Noun → Nat
  | atom _ => 1
  | list xs => xs.length

def map (f : Scalar → Scalar) : Noun → Noun
  | atom x => atom (f x)
  | list xs => list (xs.map f)

/-- The elements in a given shape. The rank is judged first, then the signs of the dimensions,
then the count. -/
def ofShape (shape : List Int) (xs : List Scalar) : Except ShapeFault Noun :=
  if 1 < shape.length then .error (.rank shape.length)
  else if shape.any (· < 0) then .error (.negative shape)
  else match shape, xs with
    | [], [x] => .ok (atom x)
    | [n], xs => if n = xs.length then .ok (list xs) else .error (.count shape xs.length)
    | _, xs => .error (.count shape xs.length)

def ofValues (limit : Int) (xs : List Scalar) : Except Fault Noun := do
  checkSize limit "list".toList xs.length
  return list xs

/-- Every imaginary part counts as zero. -/
def isReal (x : Noun) : Bool := x.elements.all (·.im.vanishes)

def requireReal (subject : Text) (x : Noun) : Except Fault Unit :=
  if x.isReal then .ok () else .error (.notReal subject)

def reals (subject : Text) (x : Noun) : Except Fault (List Binary64) := do
  requireReal subject x
  return x.elements.map (·.re)

def numbers (x : Noun) : Except Fault (List Number) :=
  match x.elements.mapM Scalar.number? with
  | some ns => .ok ns
  | none => .error .notANumber

def concatenate (limit : Int) (x y : Noun) : Except Fault Noun := do
  checkSize limit "strand".toList (x.elements.length + y.elements.length)
  return list (x.elements ++ y.elements)

/-- The shape of an elementwise result: an atom goes with anything, a list with its own length. -/
def conform (x y : Noun) : Except Fault (List Nat) :=
  if x.shape = y.shape then .ok x.shape
  else if x.isAtom then .ok y.shape
  else if y.isAtom then .ok x.shape
  else .error (.lengths x.shape y.shape)

/-- Element by element, an atom standing for as many copies of itself as needed. -/
def zipWith (f : Scalar → Scalar → Scalar) : Noun → Noun → Noun
  | atom x, atom y => atom (f x y)
  | atom x, list ys => list (ys.map (f x))
  | list xs, atom y => list (xs.map (f · y))
  | list xs, list ys => list (List.zipWith f xs ys)

theorem elements_map (f : Scalar → Scalar) (x : Noun) : (x.map f).elements = x.elements.map f := by
  cases x <;> rfl

theorem shape_map (f : Scalar → Scalar) (x : Noun) : (x.map f).shape = x.shape := by
  cases x <;> simp [map, shape]

theorem elements_of_concatenate {limit : Int} {x y z : Noun} (h : concatenate limit x y = .ok z) :
    z = list (x.elements ++ y.elements) := by
  unfold concatenate checkSize at h
  split at h
  · cases h
  · cases h
    rfl

theorem concatenate_map (f : Scalar → Scalar) (limit : Int) (x y : Noun) :
    concatenate limit (x.map f) (y.map f) = (concatenate limit x y).map (map f) := by
  simp only [concatenate, elements_map, List.length_map, ← List.map_append]
  cases checkSize limit "strand".toList (x.elements.length + y.elements.length) <;> rfl

theorem shape_zipWith_of_conform (f : Scalar → Scalar → Scalar) {x y : Noun} {s : List Nat}
    (h : conform x y = .ok s) : (zipWith f x y).shape = s := by
  cases x <;> cases y <;> simp [conform, shape, isAtom] at h <;> simp [zipWith, shape, h]
  split at h <;> simp_all

def equal (x y : Noun) : Bool :=
  x.shape == y.shape &&
    (List.zipWith (fun s t => s.re.equal t.re && s.im.equal t.im) x.elements y.elements).all id

end Noun

end JCalc
