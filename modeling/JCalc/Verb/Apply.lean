import JCalc.Noun

/-!
What each verb does to its arguments. The arithmetic verbs work element by
element, and an undefined element makes the whole result undefined. Sums and
differences take complex arguments part by part; products, quotients and
complements take real ones and give real results.
-/

namespace JCalc

namespace Binary64

/-- The sign of a number as a number; a zero keeps its own. -/
def signum : Binary64 → Binary64
  | nan => nan
  | number x =>
    if x.magnitude.isSubnormal then number ⟨x.negative, .zero⟩
    else number ⟨x.negative, Extended.one.magnitude⟩

def times (x y : Binary64) : Binary64 :=
  if x.vanishes || y.vanishes then zero else x.mul y

/-- By a zero of either sign, zero gives zero and any other number the infinity of its sign. -/
def divideByZero (x : Binary64) : Binary64 :=
  if x.vanishes then zero
  else match x with
    | nan => nan
    | number x => number ⟨x.negative, .infinity⟩

def divide (x y : Binary64) : Binary64 := if y.vanishes then x.divideByZero else x.div y

/-- Division by a divisor that many dividends share: its reciprocal is rounded first. -/
def divideShared (x y : Binary64) : Binary64 :=
  if y.vanishes then x.divideByZero else x.mul ((number .one).div y)

def complement (x : Binary64) : Binary64 := (number .one).sub x

/-- From 0 to 1, or no number at all. -/
def inUnitInterval (x : Binary64) : Bool := !x.below zero && !(number .one).below x

end Binary64

namespace Scalar

def isDefined (s : Scalar) : Bool := !s.re.isNaN && !s.im.isNaN

def neg (x : Scalar) : Scalar := ⟨x.re.neg, x.im.neg⟩

def add (x y : Scalar) : Scalar := ⟨x.re.add y.re, x.im.add y.im⟩

def sub (x y : Scalar) : Scalar := ⟨x.re.sub y.re, x.im.sub y.im⟩

def onReal (f : Binary64 → Binary64) (x : Scalar) : Scalar := ofReal (f x.re)

def onReals (f : Binary64 → Binary64 → Binary64) (x y : Scalar) : Scalar := ofReal (f x.re y.re)

end Scalar

namespace Verb

def requireDefined (v : Verb) (x : Noun) : Except Fault Noun :=
  if x.elements.all Scalar.isDefined then .ok x else .error (.undefinedResult v)

def elementwise (v : Verb) (f : Scalar → Scalar → Scalar) (x y : Noun) : Except Fault Noun := do
  let _ ← x.conform y
  v.requireDefined (x.zipWith f y)

/-- The same for real arguments only; lengths are judged before elements, the left noun before
the right. -/
def realElementwise (v : Verb) (f : Binary64 → Binary64 → Binary64) (x y : Noun) :
    Except Fault Noun := do
  let _ ← x.conform y
  x.requireReal v.spelling
  y.requireReal v.spelling
  v.requireDefined (x.zipWith (.onReals f) y)

/-- An atom divides a list of several elements by way of its reciprocal. -/
def quotient (x y : Noun) : Except Fault Noun :=
  if y.isAtom && 1 < x.elements.length then divide.realElementwise .divideShared x y
  else divide.realElementwise .divide x y

/-- The whole numbers below a whole number. The size limit is judged last. -/
def countUp (limit : Int) : Noun → Except Fault Noun
  | .list _ => .error .listOfIntegers
  | .atom x => do
    (Noun.atom x).requireReal integers.spelling
    match x.re with
    | .nan => .error .notInteger
    | .number n =>
      if !n.isInteger then .error .notInteger
      else if n.units < 0 then .error .negativeCount
      else
        let count := n.magnitude.units / unitsPerOne
        checkSize limit integers.spelling count
        return .list ((List.range count).map fun k => .ofReal (.number (.ofNat k)))

def applyMonad (limit : Int) (v : Verb) (y : Noun) : Except Fault Noun :=
  match v with
  | minus => v.requireDefined (y.map .neg)
  | not => do
    y.requireReal v.spelling
    if y.elements.all (·.re.inUnitInterval) then v.requireDefined (y.map (.onReal .complement))
    else .error .outsideUnitInterval
  | tally => .ok (.atom (.ofReal (.number (.ofNat y.tally))))
  | shape =>
    match y with
    | .atom _ => .ok .empty
    | .list ys => Noun.ofValues limit [.ofReal (.number (.ofNat ys.length))]
  | times => do
    y.requireReal v.spelling
    v.requireDefined (y.map (.onReal .signum))
  | divide => quotient (.atom (.ofReal (.number .one))) y
  | integers => countUp limit y
  | plus => .error (.missingForm v .monadic)

def applyDyad (v : Verb) (x y : Noun) : Except Fault Noun :=
  match v with
  | minus => v.elementwise .sub x y
  | plus => v.elementwise .add x y
  | times => v.realElementwise .times x y
  | divide => quotient x y
  | tally | shape => .error (.reservedDyad v)
  | not | integers => .error (.missingForm v .dyadic)

end Verb

end JCalc
