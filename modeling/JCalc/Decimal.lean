import JCalc.Text.Basic

/-!
Decimals with a natural coefficient, their digits, and the two ways they are
written: plain, when the leading digit is not far from the point, and with an
exponent otherwise. Both writings start from the normal form, whose coefficient
does not end in a zero, so equal decimals have one text.
-/

namespace JCalc

/-- Stands for `coefficient * 10 ^ exponent`. -/
structure Decimal where
  coefficient : Nat
  exponent : Int
deriving DecidableEq

namespace Decimal

def digitChar (d : Nat) : Char := Char.ofNat (48 + d)

def digitValue (c : Char) : Nat := c.toNat - 48

def digits (n : Nat) : Text :=
  if n < 10 then [digitChar n] else digits (n / 10) ++ [digitChar (n % 10)]
termination_by n

def ofDigits (ds : Text) : Nat := ds.foldl (fun n c => 10 * n + digitValue c) 0

theorem digitValue_digitChar {d : Nat} (h : d < 10) : digitValue (digitChar d) = d := by
  have : ∀ e : Fin 10, digitValue (digitChar e.val) = e.val := by decide
  exact this ⟨d, h⟩

theorem isDigit_digitChar {d : Nat} (h : d < 10) : isDigit (digitChar d) = true := by
  have : ∀ e : Fin 10, isDigit (digitChar e.val) = true := by decide
  exact this ⟨d, h⟩

theorem ofDigits_concat (ds : Text) (c : Char) :
    ofDigits (ds ++ [c]) = 10 * ofDigits ds + digitValue c := by
  simp [ofDigits]

theorem ofDigits_digits (n : Nat) : ofDigits (digits n) = n := by
  fun_induction digits n with
  | case1 n h => simp [ofDigits, digitValue_digitChar h]
  | case2 n h ih =>
    rw [ofDigits_concat, ih, digitValue_digitChar (Nat.mod_lt _ (by omega))]
    omega

theorem isDigit_of_mem_digits {n : Nat} {c : Char} (h : c ∈ digits n) : isDigit c = true := by
  fun_induction digits n with
  | case1 n hn =>
    rw [List.mem_singleton.mp h]
    exact isDigit_digitChar hn
  | case2 n hn ih =>
    rcases List.mem_append.mp h with h | h
    · exact ih h
    · rw [List.mem_singleton.mp h]
      exact isDigit_digitChar (Nat.mod_lt _ (by omega))

theorem digits_ne_nil (n : Nat) : digits n ≠ [] := by
  unfold digits
  split <;> simp

/-- The same number with every trailing zero of the coefficient moved into the exponent. -/
def normal (d : Decimal) : Decimal :=
  if 0 < d.coefficient ∧ d.coefficient % 10 = 0 then
    normal ⟨d.coefficient / 10, d.exponent + 1⟩
  else d
termination_by d.coefficient
decreasing_by omega

def leading (d : Decimal) : Int := d.exponent + (digits d.coefficient).length - 1

/-- The digits with a point where it stands, zeros filling up to it on either side. -/
def plain (d : Decimal) : Text :=
  let ds := digits d.coefficient
  if 0 ≤ d.exponent then ds ++ List.replicate d.exponent.toNat '0'
  else if 0 ≤ d.leading then
    let whole := d.leading.toNat + 1
    ds.take whole ++ '.' :: ds.drop whole
  else '0' :: '.' :: (List.replicate (-d.leading - 1).toNat '0' ++ ds)

/-- One digit, a point before the other digits if there are any, and the exponent as `mark` writes it. -/
def scientific (mark : Int → Text) (d : Decimal) : Text :=
  let ds := digits d.coefficient
  let fraction := ds.drop 1
  ds.take 1 ++ (if fraction.isEmpty then [] else '.' :: fraction) ++ mark d.leading

/-- Numbers from one ten-thousandth up to sixteen digits before the point are written plainly. -/
def write (mark : Int → Text) (d : Decimal) : Text :=
  let d := d.normal
  if -4 ≤ d.leading ∧ d.leading ≤ 15 then d.plain else d.scientific mark

end Decimal

def integerText (minus : Char) (n : Int) : Text :=
  if n < 0 then minus :: Decimal.digits n.natAbs else Decimal.digits n.natAbs

end JCalc
