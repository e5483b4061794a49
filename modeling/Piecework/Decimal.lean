import Piecework.Word

/-!
# Decimal digits

Reading takes ASCII digits only, keeps leading zeros harmless and decides the
bound on the exact value. Writing gives the shortest digits, so reading back
what was written always gives the number itself.
-/

namespace Piecework.Decimal

/-- The number that one digit stands for. -/
def digitValue (c : Char) : Nat := c.toNat - '0'.toNat

/-- The digit that stands for a number below ten. -/
def digit (n : Nat) : Char := Char.ofNat ('0'.toNat + n)

/-- The number that a row of digits stands for. -/
def value (digits : List Char) : Nat :=
  digits.foldl (fun n c => 10 * n + digitValue c) 0

/-- The digits of a number without leading zeros. -/
def digits (n : Nat) : List Char :=
  if n < 10 then [digit n] else digits (n / 10) ++ [digit (n % 10)]
termination_by n
decreasing_by omega

/-- The digits of an integer, after a minus sign when it is negative. -/
def signedDigits (i : Int) : List Char :=
  if i < 0 then '-' :: digits i.natAbs else digits i.natAbs

/-- A nonempty row of ASCII digits. -/
def isNumeral (cs : List Char) : Bool := !cs.isEmpty && cs.all Char.isDigit

/-- The number written by a nonempty row of digits, when it is at most `limit`. -/
def bounded? (limit : Nat) (cs : List Char) : Option Nat :=
  if isNumeral cs ∧ value cs ≤ limit then some (value cs) else none

/-- The number written by digits after at most one plus sign, when it is at most `limit`. -/
def unsigned? (limit : Nat) : List Char → Option Nat
  | '+' :: cs => bounded? limit cs
  | cs => bounded? limit cs

/-- The signed 64-bit number written by digits after at most one minus sign. -/
def signedValue? : List Char → Option Int64
  | '-' :: cs => if isNumeral cs then signed? (-(value cs : Int)) else none
  | cs => if isNumeral cs then signed? (value cs) else none

/-- A natural number as text. -/
def text (n : Nat) : String := String.ofList (digits n)

/-- An integer as text. -/
def signedText (i : Int) : String := String.ofList (signedDigits i)

end Piecework.Decimal
