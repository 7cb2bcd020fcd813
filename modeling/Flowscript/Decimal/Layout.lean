/-
Decimals as text.

A `Layout` says when the point is written in its place and when a power of ten
is, and whether a whole number keeps its `.0`.
-/
import Flowscript.Decimal.Shortest

namespace Flowscript.Decimal

/-- How a double is written. -/
structure Layout where
  /-- Whether the leading digit at this power of ten is written without an exponent. -/
  positional : Int → Bool
  /-- Whether a whole number is followed by `.0`. -/
  point : Bool
  tie : Tie

/-- Digits with the point in its place. -/
def positional (point : Bool) (d : Decimal) : List Char :=
  let digits := Nat.toDigits 10 d.coefficient
  if 0 ≤ d.exponent then
    digits ++ List.replicate d.exponent.toNat '0' ++ (if point then ['.', '0'] else [])
  else
    let places := (-d.exponent).toNat
    if places < digits.length then
      digits.take (digits.length - places) ++ '.' :: digits.drop (digits.length - places)
    else
      '0' :: '.' :: (List.replicate (places - digits.length) '0' ++ digits)

/-- The power of ten of the leading digit. -/
def leading (d : Decimal) : Int := digitCount d.coefficient - 1 + d.exponent

/-- One digit, the others behind a point, and the signed power of ten. -/
def scientific (d : Decimal) : List Char :=
  let power := d.leading
  let mantissa :=
    match Nat.toDigits 10 d.coefficient with
    | c :: [] => [c]
    | c :: cs => c :: '.' :: cs
    | [] => []
  mantissa ++ 'e' :: (if power < 0 then '-' else '+') :: Nat.toDigits 10 power.natAbs

/-- The bit of a double that is set below zero, `2^63`. -/
def signBit : Nat := 9223372036854775808

/-- A finite double in a layout; the sign of zero is kept. -/
def Layout.write (l : Layout) (x : Float) : String :=
  let bits := x.toBits.toNat
  let d := (Binary.ofBits bits).shortest l.tie
  let body := if l.positional d.leading then d.positional l.point else d.scientific
  String.ofList (if bits < signBit then body else '-' :: body)

end Flowscript.Decimal
