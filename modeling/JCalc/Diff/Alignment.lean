/-!
How one list became another. The longest run of items common to both is kept,
the earliest one of several, and what lies before and after it is aligned in the
same way. Items that are very frequent in a long new list do not begin or
continue a run, but a run found is extended over them on both sides.
-/

namespace JCalc

/-- A stretch of an alignment: items that stay, or old items that new ones replace. -/
inductive Edit (α : Type) where
  | keep (items : List α)
  | change (removed added : List α)
deriving DecidableEq

namespace Edit

def old {α : Type} : Edit α → List α
  | keep items => items
  | change removed _ => removed

def new {α : Type} : Edit α → List α
  | keep items => items
  | change _ added => added

end Edit

variable {α : Type} [DecidableEq α]

/-- A run common to two lists: where it begins in each, and how long it is. -/
structure Run where
  left : Nat
  right : Nat
  size : Nat
deriving DecidableEq

def commonLength (passes : α → Bool) : List α → List α → Nat
  | x :: xs, y :: ys => if x = y && passes y then commonLength passes xs ys + 1 else 0
  | _, _ => 0

/-- The earlier run unless the later one is longer. -/
def Run.orLonger (earlier later : Run) : Run := if earlier.size < later.size then later else earlier

def longestFrom (passes : α → Bool) (left : Nat) (xs : List α) (best : Run) (right : Nat) :
    List α → Run
  | [] => best
  | y :: ys =>
    longestFrom passes left xs
      (best.orLonger ⟨left, right, commonLength passes xs (y :: ys)⟩) (right + 1) ys

def longestOver (passes : α → Bool) (ys : List α) (best : Run) (left : Nat) :
    List α → Run
  | [] => best
  | x :: xs =>
    longestOver passes ys (longestFrom passes left (x :: xs) best 0 ys) (left + 1) xs

/-- The run made longer on both sides while the lines there are equal. -/
def Run.extend (r : Run) (xs ys : List α) : Run :=
  let before := commonLength (fun _ => true) (xs.take r.left).reverse (ys.take r.right).reverse
  let after :=
    commonLength (fun _ => true) (xs.drop (r.left + r.size)) (ys.drop (r.right + r.size))
  ⟨r.left - before, r.right - before, before + r.size + after⟩

def longestRun (passes : α → Bool) (xs ys : List α) : Run :=
  (longestOver passes ys ⟨0, 0, 0⟩ 0 xs).extend xs ys

def Run.Fits (r : Run) (n : Nat) : Prop := r.left + r.size ≤ n

theorem commonLength_le (passes : α → Bool) (xs ys : List α) :
    commonLength passes xs ys ≤ xs.length := by
  fun_induction commonLength passes xs ys <;> simp_all

theorem fits_longestFrom {passes : α → Bool} {left right n : Nat} {xs ys : List α}
    {best : Run} (hb : best.Fits n) (hx : left + xs.length ≤ n) :
    (longestFrom passes left xs best right ys).Fits n := by
  induction ys generalizing best right with
  | nil => exact hb
  | cons y ys ih =>
    apply ih
    have := commonLength_le passes xs (y :: ys)
    unfold Run.orLonger
    split
    · exact Nat.le_trans (Nat.add_le_add_left this left) hx
    · exact hb

theorem fits_longestOver {passes : α → Bool} {left n : Nat} {xs ys : List α} {best : Run}
    (hb : best.Fits n) (hx : left + xs.length ≤ n) :
    (longestOver passes ys best left xs).Fits n := by
  induction xs generalizing best left with
  | nil => exact hb
  | cons x xs ih =>
    apply ih
    · exact fits_longestFrom hb hx
    · simp only [List.length_cons] at hx
      omega

theorem fits_extend {r : Run} {xs : List α} (h : r.Fits xs.length) (ys : List α) :
    (r.extend xs ys).Fits xs.length := by
  have hb := commonLength_le (fun _ => true) (xs.take r.left).reverse (ys.take r.right).reverse
  have ha := commonLength_le (fun _ => true) (xs.drop (r.left + r.size))
    (ys.drop (r.right + r.size))
  simp only [List.length_reverse, List.length_take, List.length_drop] at hb ha
  unfold Run.Fits at h ⊢
  simp only [Run.extend]
  omega

theorem fits_longestRun (passes : α → Bool) (xs ys : List α) :
    (longestRun passes xs ys).Fits xs.length :=
  fits_extend (fits_longestOver (by simp [Run.Fits]) (by simp)) ys

/-- Two kept stretches in a row become one. -/
def consEdit {α : Type} : Edit α → List (Edit α) → List (Edit α)
  | .keep xs, .keep ys :: rest => .keep (xs ++ ys) :: rest
  | e, rest => e :: rest

def alignWith (passes : α → Bool) (xs ys : List α) : List (Edit α) :=
  let r := longestRun passes xs ys
  if r.size = 0 then
    if xs.isEmpty && ys.isEmpty then [] else [.change xs ys]
  else
    (alignWith passes (xs.take r.left) (ys.take r.right)).foldr consEdit
      (consEdit (.keep ((xs.drop r.left).take r.size))
        (alignWith passes (xs.drop (r.left + r.size)) (ys.drop (r.right + r.size))))
termination_by xs.length
decreasing_by
  · have fits : r.left + r.size ≤ xs.length := fits_longestRun passes xs ys
    change (xs.drop (r.left + r.size)).length < xs.length
    rw [List.length_drop]
    omega
  · have fits : r.left + r.size ≤ xs.length := fits_longestRun passes xs ys
    change (xs.take r.left).length < xs.length
    rw [List.length_take]
    omega

/-- In a list of 200 items or more, an item that occurs more than once for every hundred items,
and once more. -/
def isFrequent (ys : List α) (y : α) : Bool :=
  200 ≤ ys.length && ys.length / 100 + 1 < ys.count y

def align (xs ys : List α) : List (Edit α) :=
  let frequent := (ys.filter (isFrequent ys)).eraseDups
  alignWith (fun y => !frequent.contains y) xs ys

end JCalc
