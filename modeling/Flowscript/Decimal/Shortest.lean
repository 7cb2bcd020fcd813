/-
The shortest decimal that reads back as a given double.

A finite double other than zero is `m · 2^q` with natural `m`.  The reals that
round to it form an interval around it, whose ends belong to it when `m` is
even.  Of the decimals in that interval the one with the fewest digits is
taken, and of those the one nearest to the double.  All tests are made in
exact arithmetic on natural numbers.
-/

namespace Flowscript

/-- The decimal `coefficient · 10^exponent`. -/
structure Decimal where
  coefficient : Nat
  exponent : Int
  deriving DecidableEq, Repr

namespace Decimal

/-- Which neighbour is taken when the double lies exactly between two of the fewest digits. -/
inductive Tie
  | away
  | toEven
  deriving DecidableEq, Repr

/-- The size of a finite double as `m · 2^q`. -/
structure Binary where
  m : Nat
  q : Int
  deriving DecidableEq, Repr

/-- The leading bit that the fraction of a double leaves out, `2^52`. -/
def hidden : Nat := 4503599627370496

/-- Reads the size off the bits: 52 bits of fraction, then 11 bits of exponent. -/
def Binary.ofBits (bits : Nat) : Binary :=
  let fraction := bits % hidden
  let e : Nat := bits / hidden % 2048
  if e = 0 then ⟨fraction, -1074⟩ else ⟨fraction + hidden, (e : Int) - 1075⟩

/-- The interval of reals that round to a double, as fractions of one denominator. -/
structure Interval where
  low : Nat
  value : Nat
  high : Nat
  den : Nat
  closed : Bool

/-- The next double below is half as far away at a power of two. -/
def Binary.interval (b : Binary) : Interval :=
  let below := if b.m = hidden ∧ b.q ≠ -1074 then 1 else 2
  let scale := Nat.pow 2 (b.q - 2).toNat
  { low := (4 * b.m - below) * scale
    value := 4 * b.m * scale
    high := (4 * b.m + 2) * scale
    den := Nat.pow 2 (2 - b.q).toNat
    closed := b.m % 2 == 0 }

/-- Whether `num / den` lies in the interval, for a fraction of any denominator. -/
def Interval.holds (i : Interval) (num den : Nat) : Bool :=
  if i.closed then i.low * den ≤ num * i.den && num * i.den ≤ i.high * den
  else i.low * den < num * i.den && num * i.den < i.high * den

/-- The number of decimal digits of a natural number, one for zero. -/
def digitCount (n : Nat) : Nat := (Nat.toDigits 10 n).length

/-- The power of ten of the leading digit of `num / den`, for `0 < num`. -/
def leadingPower (num den : Nat) : Int :=
  if den ≤ num then (digitCount (num / den) : Int) - 1
  else -(digitCount ((den - 1) / num) : Int)

/-- The multiple of `10^e` in the interval that is nearest to its value, if there is one. -/
def Interval.onGrid (i : Interval) (tie : Tie) (e : Int) : Option Decimal :=
  let up := Nat.pow 10 e.toNat
  let down := Nat.pow 10 (-e).toNat
  -- the value is `num / unit` steps of the grid
  let num := i.value * down
  let unit := i.den * up
  let lower := num / unit
  let upper := lower + 1
  let lowerIn := i.holds (lower * up) down
  let upperIn := i.holds (upper * up) down
  let twice := 2 * (num - lower * unit)
  let takeLower :=
    match lowerIn, upperIn with
    | true, true =>
      if twice = unit then
        match tie with
        | .away => false
        | .toEven => lower % 2 == 0
      else decide (twice < unit)
    | true, false => true
    | false, _ => false
  if takeLower then some ⟨lower, e⟩
  else if upperIn then some ⟨upper, e⟩
  else none

/-- Tries one digit more at each step, on ever finer grids. -/
def Interval.search (i : Interval) (tie : Tie) : Nat → Int → Decimal
  | 0, e => ⟨i.value * Nat.pow 10 (-e).toNat / (i.den * Nat.pow 10 e.toNat), e⟩
  | steps + 1, e =>
    match i.onGrid tie e with
    | some d => d
    | none => i.search tie steps (e - 1)

/-- Moves the zeros at the end of the coefficient into the exponent. -/
def dropZeros : Nat → Decimal → Decimal
  | 0, d => d
  | steps + 1, d =>
    if d.coefficient ≠ 0 ∧ d.coefficient % 10 = 0 then
      dropZeros steps ⟨d.coefficient / 10, d.exponent + 1⟩
    else d

/-- Seventeen digits are enough for every double. -/
def Binary.shortest (tie : Tie) (b : Binary) : Decimal :=
  if b.m = 0 then ⟨0, 0⟩
  else
    let i := b.interval
    dropZeros 20 (i.search tie 17 (leadingPower i.value i.den))

end Decimal

end Flowscript
