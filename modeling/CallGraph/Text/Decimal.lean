/-!
# Shortest decimals of doubles

A finite double is a sign and an exact number `mantissa · 2 ^ power`.  Of the decimals that round back to
it, `Decimal.shortest` takes one with the fewest digits, and of those the nearest; a tie goes to the even
digit.  `Decimal.text` writes it positionally when the leading digit stands for a power of ten between
-5 and 15, with a digit after the point in any case, and with a signed exponent otherwise.
-/

namespace CallGraph.Decimal

/-- The sign bit of a double. -/
def isNegative (bits : UInt64) : Bool :=
  bits.toNat / Nat.pow 2 63 == 1

/-- The biased exponent of a double. -/
def biased (bits : UInt64) : Nat :=
  bits.toNat / Nat.pow 2 52 % 2048

/-- The fraction bits of a double. -/
def fraction (bits : UInt64) : Nat :=
  bits.toNat % Nat.pow 2 52

/-- The mantissa of a double, the hidden bit included. -/
def mantissa (bits : UInt64) : Nat :=
  if biased bits == 0 then fraction bits else fraction bits + Nat.pow 2 52

/-- The power of two the mantissa is multiplied with. -/
def power (bits : UInt64) : Int :=
  if biased bits == 0 then -1074 else (biased bits : Int) - 1075

/-- An interval of positive rationals around a value, over one denominator. -/
structure Interval where
  low : Nat
  value : Nat
  high : Nat
  denominator : Nat
  /-- Whether the ends belong to the interval. -/
  closed : Bool

/-- The reals that round to a double: half way to its neighbours, where the lower neighbour of a power of
two is at half the distance; the ends round to even mantissas. -/
def interval (bits : UInt64) : Interval :=
  let m := mantissa bits
  let below := if fraction bits == 0 && 1 < biased bits then 1 else 2
  let q := power bits - 2
  let scale := if 0 ≤ q then Nat.pow 2 q.toNat else 1
  { low := (4 * m - below) * scale
    value := 4 * m * scale
    high := (4 * m + 2) * scale
    denominator := if 0 ≤ q then 1 else Nat.pow 2 (-q).toNat
    closed := m % 2 == 0 }

/-- The least `j` up to `fuel` steps on with `denominator ≤ value · 10 ^ j`. -/
def leadingPlace : Nat → Nat → Nat → Nat → Nat
  | 0, j, _, _ => j
  | fuel + 1, j, value, denominator =>
    if denominator ≤ value then j else leadingPlace fuel (j + 1) (value * 10) denominator

/-- The power of ten that the leading digit of an interval's value stands for. -/
def magnitude (i : Interval) : Int :=
  if i.denominator ≤ i.value then ((Nat.toDigits 10 (i.value / i.denominator)).length : Int) - 1
  else -(leadingPlace 400 0 i.value i.denominator : Int)

/-- Whether `d · 10 ^ p` lies in an interval. -/
def Interval.has (i : Interval) (d : Nat) (p : Int) : Bool :=
  let point := if 0 ≤ p then d * Nat.pow 10 p.toNat * i.denominator else d * i.denominator
  let scale := if 0 ≤ p then 1 else Nat.pow 10 (-p).toNat
  if i.closed then i.low * scale ≤ point && point ≤ i.high * scale
  else i.low * scale < point && point < i.high * scale

/-- The best of the two neighbours of an interval's value among the multiples of `10 ^ p`. -/
def Interval.neighbour (i : Interval) (p : Int) : Option Nat :=
  let numerator := if 0 ≤ p then i.value else i.value * Nat.pow 10 (-p).toNat
  let unit := if 0 ≤ p then i.denominator * Nat.pow 10 p.toNat else i.denominator
  let d := numerator / unit
  let rest := numerator % unit
  match i.has d p, i.has (d + 1) p with
  | true, true =>
    if 2 * rest < unit then some d
    else if unit < 2 * rest then some (d + 1)
    else some (if d % 2 == 0 then d else d + 1)
  | true, false => some d
  | false, true => some (d + 1)
  | false, false => none

/-- Tries grids of `digits` digits and more, `fuel` of them, on an interval whose leading digit stands
for `10 ^ place`. -/
def search (i : Interval) (place : Int) : Nat → Nat → Nat × Int
  | 0, _ => (0, 0)
  | fuel + 1, digits =>
    let p := place - (digits : Int) + 1
    match i.neighbour p with
    | some d => (d, p)
    | none => search i place fuel (digits + 1)

/-- A positive finite double as `d · 10 ^ p` with the fewest digits that read back. -/
def shortest (bits : UInt64) : Nat × Int :=
  let i := interval bits
  search i (magnitude i) 17 1

/-- Digits without the zeros at their end, and how many those were. -/
def trim (digits : List Char) : List Char × Nat :=
  let kept := digits.reverse.dropWhile (· == '0')
  (kept.reverse, digits.length - kept.length)

/-- The digits of a positive decimal and the power of ten of the first, in writing. -/
def layout (digits : List Char) (exponent : Int) : List Char :=
  if -5 ≤ exponent && exponent < 0 then
    ['0', '.'] ++ List.replicate ((-exponent).toNat - 1) '0' ++ digits
  else if 0 ≤ exponent && exponent ≤ 15 then
    let whole := exponent.toNat + 1
    if digits.length ≤ whole then
      digits ++ List.replicate (whole - digits.length) '0' ++ ['.', '0']
    else digits.take whole ++ ['.'] ++ digits.drop whole
  else
    let first := digits.take 1 ++ (if digits.length ≤ 1 then [] else '.' :: digits.drop 1)
    let sign := if exponent < 0 then '-' else '+'
    first ++ ['e', sign] ++ Nat.toDigits 10 exponent.natAbs

/-- A finite double in writing. -/
def text (bits : UInt64) : String :=
  let sign := if isNegative bits then ['-'] else []
  if mantissa bits == 0 then String.ofList (sign ++ ['0', '.', '0'])
  else
    let (d, p) := shortest bits
    let (digits, zeros) := trim (Nat.toDigits 10 d)
    let exponent := p + (zeros : Int) + (digits.length : Int) - 1
    String.ofList (sign ++ layout digits exponent)

end CallGraph.Decimal
