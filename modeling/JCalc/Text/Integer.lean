import JCalc.Text.Basic

/-!
Integers as they are given on a command line. Every character that Unicode 14
classes as a decimal digit stands for its value; blanks may stand around the
number, a sign before it and single underscores between its digits.
-/

namespace JCalc

/-- The zeros of the decimal digits; the other nine follow each of them. -/
def digitZeros : List Nat :=
  [0x30, 0x660, 0x6F0, 0x7C0, 0x966, 0x9E6, 0xA66, 0xAE6, 0xB66, 0xBE6, 0xC66, 0xCE6, 0xD66, 0xDE6,
   0xE50, 0xED0, 0xF20, 0x1040, 0x1090, 0x17E0, 0x1810, 0x1946, 0x19D0, 0x1A80, 0x1A90, 0x1B50,
   0x1BB0, 0x1C40, 0x1C50, 0xA620, 0xA8D0, 0xA900, 0xA9D0, 0xA9F0, 0xAA50, 0xABF0, 0xFF10, 0x104A0,
   0x10D30, 0x11066, 0x110F0, 0x11136, 0x111D0, 0x112F0, 0x11450, 0x114D0, 0x11650, 0x116C0,
   0x11730, 0x118E0, 0x11950, 0x11C50, 0x11D50, 0x11DA0, 0x16A60, 0x16AC0, 0x16B50, 0x1D7CE,
   0x1D7D8, 0x1D7E2, 0x1D7EC, 0x1D7F6, 0x1E140, 0x1E2F0, 0x1E950, 0x1FBF0]

def decimalValue? (c : Char) : Option Nat :=
  (digitZeros.find? fun first => first ≤ c.toNat && c.toNat < first + 10).map (c.toNat - ·)

def isDecimal (c : Char) : Bool := (decimalValue? c).isSome

/-- A blank that may stand around an integer; the four separators of information may not. -/
def isMargin (c : Char) : Bool := isBlank c && !('\x1c' ≤ c && c ≤ '\x1f')

def groupedDigits? : Text → Option (List Nat)
  | [] => none
  | [c] => (decimalValue? c).map ([·])
  | c :: '_' :: rest => do return (← decimalValue? c) :: (← groupedDigits? rest)
  | c :: rest => do return (← decimalValue? c) :: (← groupedDigits? rest)

/-- No integer has more digits, leading zeros counted. -/
def maxIntegerDigits : Nat := 4300

def natural? (t : Text) : Option Nat := do
  let digits ← groupedDigits? t
  if digits.length ≤ maxIntegerDigits then some (digits.foldl (fun n d => 10 * n + d) 0) else none

def integer? (t : Text) : Option Int :=
  let core := ((t.dropWhile isMargin).reverse.dropWhile isMargin).reverse
  match core with
  | '-' :: rest => (natural? rest).map fun n => -(n : Int)
  | '+' :: rest => (natural? rest).map Int.ofNat
  | rest => (natural? rest).map Int.ofNat

end JCalc
