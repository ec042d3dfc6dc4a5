import JCalc.Binary64.Magnitude

/-!
The shortest decimal of a finite magnitude: of all decimals that round to it,
one with the fewest digits, and of those the closest. The decimals that round to
a magnitude fill the interval between the midpoints to its two neighbours, ends
included when its pattern is even. Grids of multiples of a power of ten are tried
from coarse to fine; the first grid with a point in the interval gives the digits.
-/

namespace JCalc

namespace Magnitude

/-- The midpoint to the next smaller magnitude, in half units. -/
def lowerEnd (m : Magnitude) : Nat := unitsOf (m.code - 1) + unitsOf m.code

def upperEnd (m : Magnitude) : Nat := unitsOf m.code + unitsOf (m.code + 1)

/-- The number `point / scale` of half units rounds to `m`. -/
def holds (m : Magnitude) (point scale : Nat) : Bool :=
  if m.code % 2 = 0 then m.lowerEnd * scale ≤ point && point ≤ m.upperEnd * scale
  else m.lowerEnd * scale < point && point < m.upperEnd * scale

/-- The multiple of `10 ^ grid` that rounds to `m` and is closest to it, a tie going to the even
multiple. Only the two multiples around `m` can be closest. -/
def onGrid? (m : Magnitude) (grid : Int) : Option Decimal :=
  let step := 2 * unitsPerOne * tenPow grid.toNat
  let scale := tenPow (-grid).toNat
  let value := 2 * m.units * scale
  let below := value / step
  let above := below + 1
  let toBelow := value - below * step
  let toAbove := above * step - value
  match m.holds (below * step) scale, m.holds (above * step) scale with
  | true, true =>
    if toBelow < toAbove ∨ (toBelow = toAbove ∧ below % 2 = 0) then some ⟨below, grid⟩
    else some ⟨above, grid⟩
  | true, false => some ⟨below, grid⟩
  | false, true => some ⟨above, grid⟩
  | false, false => none

/-- A power of ten too large for any positive multiple of it to round to `m`: eight to its power
exceeds `m` for a large `m`, one sixteenth to its power for a small one. -/
def coarsestGrid (m : Magnitude) : Int :=
  let bits : Int := (m.units.log2 : Int) - 1074 + 2
  if 0 ≤ bits then bits / 3 + 1 else -((-bits) / 4)

def exact (m : Magnitude) : Decimal := ⟨m.units * Nat.pow 5 1074, -1074⟩

def shortest (m : Magnitude) : Decimal :=
  ((List.range 128).findSome? fun i : Nat => m.onGrid? (m.coarsestGrid - (i : Int))).getD m.exact

end Magnitude

end JCalc
