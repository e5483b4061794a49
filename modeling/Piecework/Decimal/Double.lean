import Piecework.Decimal

/-!
# Integers shown through a double

A sample value is shown as the double nearest to it, in the fewest decimal
digits that still read back as that double, filled up with zeros. Up to 2 ^ 53
this is the integer itself.
-/

namespace Piecework.Decimal

/-- A double that is a natural number: a significand and a power of two. -/
structure Double where
  significand : Nat
  exponent : Nat
  deriving DecidableEq, Repr

namespace Double

/-- The number that a double is. -/
def toNat (d : Double) : Nat := d.significand * Nat.pow 2 d.exponent

/-- The double nearest to a natural number; of two equally near ones, the even one. -/
def nearest (n : Nat) : Double :=
  let e := n.log2 - 52
  let unit := Nat.pow 2 e
  let q := n / unit
  let r := n % unit
  let up := decide (unit < 2 * r) || (decide (unit = 2 * r) && decide (q % 2 = 1))
  let q' := if up then q + 1 else q
  if q' = Nat.pow 2 53 then ⟨Nat.pow 2 52, e + 1⟩ else ⟨q', e⟩

/-- Whether a natural number reads back as the double, in quarters of its last place. -/
def readsBack (d : Double) (n : Nat) : Bool :=
  let v := 4 * d.toNat
  let unit := Nat.pow 2 d.exponent
  let above := 2 * unit
  let below := if d.significand = Nat.pow 2 52 then unit else above
  let n := 4 * n
  if d.significand % 2 = 0 then decide (v ≤ n + below ∧ n ≤ v + above)
  else decide (v < n + below ∧ n < v + above)

/-- The nearest multiple of `10 ^ k` that reads back; of two equally near ones, the larger. -/
def onGrid? (d : Double) (k : Nat) : Option Nat :=
  let v := d.toNat
  let step := Nat.pow 10 k
  let low := v / step * step
  let high := low + step
  let near := if v - low < high - v then low else high
  let far := if v - low < high - v then high else low
  if d.readsBack near then some near else if d.readsBack far then some far else none

/-- The coarsest decimal grid, from `10 ^ k` down, on which a number reads back. -/
def shortest (d : Double) : Nat → Nat
  | 0 => d.toNat
  | k + 1 => (d.onGrid? (k + 1)).getD (shortest d k)

end Double

/-- A natural number as a sample value. -/
def sample (n : Nat) : String :=
  if n ≤ Nat.pow 2 53 then text n
  else
    let d := Double.nearest n
    text (d.shortest (digits d.toNat).length)

/-- An integer as a sample value. -/
def signedSample (i : Int) : String :=
  if i < 0 then "-" ++ sample i.natAbs else sample i.natAbs

end Piecework.Decimal
