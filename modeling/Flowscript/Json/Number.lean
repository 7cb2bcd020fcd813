/-
Numbers of JSON texts.

A whole number without point and exponent is an integer when it fits 64 bits,
signed or unsigned, and a double otherwise; `-0` is a double.  Every other
number is a double, taken from a coefficient below `2^64` and a power of ten by
one multiplication or division.  A number too large for a double is refused.
-/
import Flowscript.Decimal.Layout

namespace Flowscript.Json

/-- A JSON number: an integer, or a real in double precision. -/
inductive Number
  | integer (value : Int)
  | real (value : Float)
  deriving DecidableEq, Repr

/-- The written form of a number, split at its marks; digits are numbers below ten. -/
structure Numeral where
  negative : Bool
  whole : List Nat
  fraction : List Nat
  /-- The exponent as given, none if there is no mark for it. -/
  exponent : Option Int
  deriving DecidableEq, Repr

namespace Numeral

/-- Coefficients are natural numbers below this, `2^64`. -/
def wordSize : Nat := 18446744073709551616

/-- Takes digits into a coefficient as long as it stays below `2^64`, and gives what is left. -/
def absorb : Nat → List Nat → Nat × List Nat
  | m, [] => (m, [])
  | m, d :: ds => if m * 10 + d < wordSize then absorb (m * 10 + d) ds else (m, d :: ds)

/-- A power of ten as a double, for `n ≤ 308`. -/
def powerOfTen (n : Nat) : Float := Float.ofScientific 1 false n

/-- `x · 10^e`; none when it is too large. Three steps bring every double down to zero. -/
def scale : Nat → Float → Int → Option Float
  | 0, x, _ => some x
  | steps + 1, x, e =>
    if e.natAbs ≤ 308 then
      if 0 ≤ e then
        let y := x * powerOfTen e.natAbs
        if y.isInf then none else some y
      else some (x / powerOfTen e.natAbs)
    else if x == 0 then some x
    else if 0 ≤ e then none
    else scale steps (x / powerOfTen 308) (e + 308)

/-- The value of a numeral; none when it is too large. -/
def value (n : Numeral) : Option Number :=
  let (m, dropped) := absorb 0 n.whole
  if n.fraction.isEmpty && n.exponent.isNone && dropped.isEmpty then
    if !n.negative then some (.integer m)
    else if m = 0 || wordSize / 2 < m then some (.real (-(Float.ofNat m)))
    else some (.integer (-(m : Int)))
  else
    let (c, unread) := absorb m n.fraction
    let e : Int := n.exponent.getD 0 + dropped.length - (n.fraction.length - unread.length : Nat)
    (scale 4 (Float.ofNat c) e).map fun x => .real (if n.negative then -x else x)

end Numeral

/-- Doubles in JSON: no exponent from `10^-5` to below `10^16`, and `.0` on whole numbers. -/
def realLayout : Decimal.Layout where
  positional k := -5 ≤ k && k ≤ 15
  point := true
  tie := .toEven

/-- A number as JSON writes it. -/
def Number.render : Number → String
  | .integer i => toString i
  | .real x => realLayout.write x

end Flowscript.Json
