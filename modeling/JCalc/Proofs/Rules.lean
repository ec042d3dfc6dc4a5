import JCalc.Verb.Apply

/-! Dyads as rules for elements. A dyad judges lengths and, where it takes real arguments only,
imaginary parts, then applies a rule to the elements, and then judges the results. So a change of
all elements of an argument that keeps what is judged is a change of the rule, and so is a change of
all elements of the result. -/

namespace JCalc

namespace Noun

theorem map_map (m n : Scalar → Scalar) (x : Noun) : (x.map m).map n = x.map fun s => n (m s) := by
  cases x with
  | atom s => rfl
  | list xs => exact congrArg list List.map_map

theorem map_self (x : Noun) : x.map (fun s => s) = x := by
  cases x with
  | atom s => rfl
  | list xs => exact congrArg list xs.map_id

theorem isAtom_map (n : Scalar → Scalar) (x : Noun) : (x.map n).isAtom = x.isAtom := by
  cases x <;> rfl

theorem length_elements_map (n : Scalar → Scalar) (x : Noun) :
    (x.map n).elements.length = x.elements.length := by
  rw [elements_map, List.length_map]

theorem zipWith_map (f : Scalar → Scalar → Scalar) (m n : Scalar → Scalar) (x y : Noun) :
    (x.map m).zipWith f (y.map n) = x.zipWith (fun s t => f (m s) (n t)) y := by
  cases x <;> cases y <;> simp only [map, zipWith, List.map_map, List.zipWith_map] <;> rfl

theorem map_zipWith (n : Scalar → Scalar) (f : Scalar → Scalar → Scalar) (x y : Noun) :
    (x.zipWith f y).map n = x.zipWith (fun s t => n (f s t)) y := by
  cases x <;> cases y <;> simp only [map, zipWith, List.map_map, List.map_zipWith] <;> rfl

theorem zipWith_swap (f : Scalar → Scalar → Scalar) (x y : Noun) :
    y.zipWith f x = x.zipWith (fun s t => f t s) y := by
  cases x <;> cases y <;> simp only [zipWith]
  exact congrArg list List.zipWith_comm

theorem conform_map (m n : Scalar → Scalar) (x y : Noun) :
    (x.map m).conform (y.map n) = x.conform y := by
  simp only [conform, shape_map, isAtom_map]

theorem isReal_map {n : Scalar → Scalar} (h : ∀ s, (n s).im.vanishes = s.im.vanishes) (x : Noun) :
    (x.map n).isReal = x.isReal := by
  simp only [isReal, elements_map, List.all_map, Function.comp_def, h]

end Noun

namespace Verb

variable {v : Verb} {realOnly : Bool} {f g : Scalar → Scalar → Scalar} {m n : Scalar → Scalar}
  {x y : Noun}

/-- What is asked of the arguments before the rule is applied. -/
def judge (v : Verb) (realOnly : Bool) (x y : Noun) : Except Fault Unit := do
  let _ ← x.conform y
  if realOnly then
    x.requireReal v.spelling
    y.requireReal v.spelling

def applyRule (v : Verb) (realOnly : Bool) (f : Scalar → Scalar → Scalar) (x y : Noun) :
    Except Fault Noun := do
  v.judge realOnly x y
  v.requireDefined (x.zipWith f y)

/-- Which of the two ways of dividing is taken hangs on the shapes alone. -/
def divisionRule (x y : Noun) : Binary64 → Binary64 → Binary64 :=
  if y.isAtom && 1 < x.elements.length then .divideShared else .divide

theorem elementwise_eq_applyRule (v : Verb) (f : Scalar → Scalar → Scalar) (x y : Noun) :
    v.elementwise f x y = v.applyRule false f x y := by
  rw [elementwise, applyRule, judge]
  cases x.conform y <;> rfl

theorem realElementwise_eq_applyRule (v : Verb) (f : Binary64 → Binary64 → Binary64) (x y : Noun) :
    v.realElementwise f x y = v.applyRule true (.onReals f) x y := by
  rw [realElementwise, applyRule, judge]
  cases x.conform y with
  | error fault => rfl
  | ok shape => cases x.requireReal v.spelling <;> cases y.requireReal v.spelling <;> rfl

theorem quotient_eq_applyRule (x y : Noun) :
    quotient x y = divide.applyRule true (.onReals (divisionRule x y)) x y := by
  rw [quotient, divisionRule]
  split <;> exact realElementwise_eq_applyRule _ _ _ _

theorem divisionRule_map (m n : Scalar → Scalar) (x y : Noun) :
    divisionRule (x.map m) (y.map n) = divisionRule x y := by
  rw [divisionRule, Noun.isAtom_map, Noun.length_elements_map, divisionRule]

theorem divisionRule_map_left (m : Scalar → Scalar) (x y : Noun) :
    divisionRule (x.map m) y = divisionRule x y := by
  rw [divisionRule, Noun.length_elements_map, divisionRule]

theorem judge_realOnly {shape : List Nat} (h : x.conform y = .ok shape) :
    v.judge true x y = if x.isReal && y.isReal then .ok () else .error (.notReal v.spelling) := by
  rw [judge, h, Noun.requireReal, Noun.requireReal]
  cases x.isReal <;> cases y.isReal <;> rfl

theorem map_requireDefined (hn : ∀ s, (n s).isDefined = s.isDefined) (v : Verb) (x : Noun) :
    (v.requireDefined x).map (Noun.map n) = v.requireDefined (x.map n) := by
  simp only [requireDefined, Noun.elements_map, List.all_map, Function.comp_def, hn]
  split <;> rfl

theorem judge_map (hm : ∀ s, (m s).im.vanishes = s.im.vanishes)
    (hn : ∀ s, (n s).im.vanishes = s.im.vanishes) :
    v.judge realOnly (x.map m) (y.map n) = v.judge realOnly x y := by
  simp only [judge, Noun.requireReal, Noun.conform_map, Noun.isReal_map hm, Noun.isReal_map hn]

theorem applyRule_map (hm : ∀ s, (m s).im.vanishes = s.im.vanishes)
    (hn : ∀ s, (n s).im.vanishes = s.im.vanishes) :
    v.applyRule realOnly f (x.map m) (y.map n) =
      v.applyRule realOnly (fun s t => f (m s) (n t)) x y := by
  rw [applyRule, judge_map hm hn, Noun.zipWith_map, applyRule]

theorem applyRule_map_left (hm : ∀ s, (m s).im.vanishes = s.im.vanishes) :
    v.applyRule realOnly f (x.map m) y = v.applyRule realOnly (fun s t => f (m s) t) x y := by
  rw [← applyRule_map hm fun s => rfl, Noun.map_self]

theorem applyRule_map_right (hn : ∀ s, (n s).im.vanishes = s.im.vanishes) :
    v.applyRule realOnly f x (y.map n) = v.applyRule realOnly (fun s t => f s (n t)) x y := by
  rw [← applyRule_map (fun s => rfl) hn, Noun.map_self]

theorem map_applyRule (hn : ∀ s, (n s).isDefined = s.isDefined) :
    (v.applyRule realOnly f x y).map (Noun.map n) =
      v.applyRule realOnly (fun s t => n (f s t)) x y := by
  rw [applyRule, applyRule, ← Noun.map_zipWith, ← map_requireDefined hn]
  cases v.judge realOnly x y <;> rfl

end Verb

end JCalc
