import Barrage.Number.Binary

/-!
# Decimal digits of a double

A finite double is written with the fewest decimal digits that read back to it. All reals that round
to the double form an interval, which contains its ends when the mantissa is even. For one digit, two
digits and so on, the two neighbours of the value on that decimal grid are tested in exact whole-number
arithmetic; the first grid with a neighbour inside the interval gives the digits.

## Main definitions

* `Decimal`: a numeral `digits · 10 ^ exponent`
* `Decimal.shortest`: the numeral of a positive double
* `Decimal.toFloat`: the double nearest to a numeral
* `Decimal.ofChars?`: reads digits, an optional fraction and an optional exponent
-/

namespace Barrage

/-- The numeral `digits · 10 ^ exponent`. -/
structure Decimal where
  digits : Nat
  exponent : Int
deriving DecidableEq, Repr

namespace Decimal

/-- How many decimal digits a whole number has; zero has none. -/
def width (n : Nat) : Nat := if n = 0 then 0 else (Nat.toDigits 10 n).length

/-- The exponent `p` with `10 ^ (p - 1) ≤ num / den < 10 ^ p`. -/
def magnitude (num den : Nat) : Int :=
  if den ≤ num then width (num / den)
  else 1 - (width ((den + num - 1) / num - 1) : Int)

/-- Drops trailing zeros of the digits into the exponent. -/
def normalize (digits : Nat) (exponent : Int) : Decimal :=
  if h : 0 < digits ∧ digits % 10 = 0 then normalize (digits / 10) (exponent + 1)
  else ⟨digits, exponent⟩
termination_by digits
decreasing_by omega

/-- A value with the interval of reals that stand for the same double, over one denominator. -/
structure Interval where
  low : Nat
  value : Nat
  high : Nat
  den : Nat
  closed : Bool

/-- The rounding interval of `mantissa · 2 ^ exponent`. Below a power of two the doubles lie twice as
close, so the lower gap is half as wide there. -/
def Interval.ofBinary (mantissa : Nat) (exponent : Int) : Interval :=
  let gap := if mantissa = Nat.pow 2 52 then 1 else 2
  let scale := Nat.pow 2 (exponent - 2).toNat
  { low := (4 * mantissa - gap) * scale
    value := 4 * mantissa * scale
    high := (4 * mantissa + 2) * scale
    den := Nat.pow 2 (2 - exponent).toNat
    closed := mantissa % 2 == 0 }

/-- Whether `point / den` lies in the interval. -/
def Interval.contains (i : Interval) (point : Nat) : Bool :=
  if i.closed then i.low ≤ point && point ≤ i.high else i.low < point && point < i.high

/-- The interval with every number measured in units of `10 ^ exponent`. -/
def Interval.inUnits (i : Interval) (exponent : Int) : Interval :=
  let up := Nat.pow 10 (-exponent).toNat
  { i with
    low := i.low * up, value := i.value * up, high := i.high * up
    den := i.den * Nat.pow 10 exponent.toNat }

/-- The neighbour of the value on the grid of whole units that lies in the interval: the nearer one
if both do, and the upper one if they are equally near. -/
def Interval.gridPoint? (i : Interval) : Option Nat :=
  let below := i.value / i.den
  let above := below + 1
  match i.contains (below * i.den), i.contains (above * i.den) with
  | true, true => some (if above * i.den - i.value ≤ i.value - below * i.den then above else below)
  | true, false => some below
  | false, true => some above
  | false, false => none

/-- Digits enough to tell any two doubles apart. -/
def mostDigits : Nat := 17

/-- The fewest digits that read back to `mantissa · 2 ^ exponent`, for a positive mantissa. -/
def shortest (mantissa : Nat) (exponent : Int) : Decimal :=
  let interval := Interval.ofBinary mantissa exponent
  let top := magnitude interval.value interval.den
  let found := (List.range mostDigits).findSome? fun (n : Nat) =>
    let unit := top - ((n : Int) + 1)
    (interval.inUnits unit).gridPoint?.map fun digits => normalize digits unit
  found.getD ⟨0, 0⟩

/-- The double nearest to a numeral. Numerals far outside the range of doubles are infinite or zero
whatever their digits, and are settled without computing the power of ten. -/
def toFloat (d : Decimal) : Float :=
  let top := d.exponent + width d.digits
  if d.digits = 0 then 0.0
  else if 310 < top then Float.ofBits 0x7ff0000000000000
  else if top < -330 then 0.0
  else if 0 ≤ d.exponent then Float.ofScientific d.digits false d.exponent.toNat
  else Float.ofScientific d.digits true (-d.exponent).toNat

/-- The number written by a list of decimal digits. -/
def ofDigits (cs : List Char) : Nat :=
  cs.foldl (fun n c => 10 * n + (c.toNat - '0'.toNat)) 0

/-- Reads an exponent after its mark: an optional sign and at least one digit. -/
def exponentOfChars? (cs : List Char) : Option Int :=
  let (negative, digits) := match cs with
    | '-' :: rest => (true, rest)
    | '+' :: rest => (false, rest)
    | rest => (false, rest)
  if digits.isEmpty || !digits.all Char.isDigit then none
  else some (if negative then -(ofDigits digits : Int) else ofDigits digits)

/-- Reads an unsigned numeral: digits with an optional point among or around them, then optionally
`e` or `E` and an exponent. At least one digit has to stand before the exponent. -/
def ofChars? (cs : List Char) : Option Decimal :=
  let whole := cs.takeWhile Char.isDigit
  let afterWhole := cs.dropWhile Char.isDigit
  let (fraction, tail) := match afterWhole with
    | '.' :: rest => (rest.takeWhile Char.isDigit, rest.dropWhile Char.isDigit)
    | rest => ([], rest)
  if whole.isEmpty && fraction.isEmpty then none
  else
    let numeral (e : Int) : Decimal := ⟨ofDigits (whole ++ fraction), e - fraction.length⟩
    match tail with
    | [] => some (numeral 0)
    | c :: rest => if c = 'e' || c = 'E' then (exponentOfChars? rest).map numeral else none

end Decimal

/-- Reads a double from text: an optional sign before a numeral, `inf`, `infinity` or `nan`. -/
def readFloat? (text : String) : Option Float :=
  let (negative, body) := match text.toList with
    | '-' :: rest => (true, rest)
    | '+' :: rest => (false, rest)
    | rest => (false, rest)
  let magnitude? : Option Float :=
    match String.ofList (body.map Char.toLower) with
    | "inf" | "infinity" => some (Binary.toFloat (.infinite false))
    | "nan" => some (Binary.toFloat .nan)
    | _ => (Decimal.ofChars? body).map Decimal.toFloat
  magnitude?.map fun x => if negative then -x else x

end Barrage
