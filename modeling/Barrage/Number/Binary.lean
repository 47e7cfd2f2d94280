/-!
# Doubles as exact binary fractions

Every rule about numbers that has to be exact (the digits a double is written with, the remainder of
a division, the frames that cover a duration) is stated on the value a double stands for rather than
on rounded arithmetic. This file decodes a double into a signed multiple of a power of two and
encodes such a multiple back.

## Main definitions

* `Binary`: the value a double stands for
* `Binary.ofFloat`, `Binary.toFloat`: decoding, and encoding of representable values
* `Binary.remainder`: the exact remainder of a truncated division
* `Binary.ceilToWord`: the least whole number above a double, held within 64 bits
* `lesser`, `greater`, `atLeastZero`: selections that pass over a NaN
-/

namespace Barrage

/-- The value a double stands for: `±mantissa · 2 ^ exponent`, an infinity, or no number. -/
inductive Binary where
  | nan
  | infinite (negative : Bool)
  | finite (negative : Bool) (mantissa : Nat) (exponent : Int)
deriving DecidableEq, Repr

namespace Binary

/-- Exponent of the smallest positive double, and so of every subnormal one. -/
def leastExponent : Int := -1074

/-- Decodes the sign, the eleven exponent bits and the fraction of a double. -/
def ofFloat (x : Float) : Binary :=
  let bits : Nat := x.toBits.toNat
  let negative := decide (Nat.pow 2 63 ≤ bits)
  let biased : Nat := bits / Nat.pow 2 52 % Nat.pow 2 11
  let fraction : Nat := bits % Nat.pow 2 52
  if biased = 2047 then
    if fraction = 0 then infinite negative else nan
  else if biased = 0 then finite negative fraction leastExponent
  else finite negative (Nat.pow 2 52 + fraction) ((biased : Int) - 1075)

/-- The bit pattern of `±mantissa · 2 ^ exponent`, for a value that some double holds exactly. -/
def finiteBits (negative : Bool) (mantissa : Nat) (exponent : Int) : Nat :=
  let sign := if negative then Nat.pow 2 63 else 0
  if mantissa = 0 then sign
  else
    let width : Int := (Nat.log2 mantissa : Int) + 1
    let target := max (exponent + width - 53) leastExponent
    let scaled := if target ≤ exponent then mantissa * Nat.pow 2 (exponent - target).toNat
      else mantissa / Nat.pow 2 (target - exponent).toNat
    if scaled < Nat.pow 2 52 then sign + scaled
    else sign + (target + 1075).toNat * Nat.pow 2 52 + (scaled - Nat.pow 2 52)

/-- The double that stands for a value; exact whenever some double does. -/
def toFloat : Binary → Float
  | nan => Float.ofBits 0x7ff8000000000000
  | infinite negative => Float.ofBits (if negative then 0xfff0000000000000 else 0x7ff0000000000000)
  | finite negative mantissa exponent => Float.ofBits (finiteBits negative mantissa exponent).toUInt64

/-- Remainder of the division truncated toward zero; it has the sign of the dividend. Both operands
are multiples of the smaller of the two powers of two, so the remainder is one of whole numbers. -/
def remainder : Binary → Binary → Binary
  | nan, _ => nan
  | _, nan => nan
  | infinite _, _ => nan
  | finite negative mantissa exponent, infinite _ => finite negative mantissa exponent
  | finite negative mantissa exponent, finite _ divisor divisorExponent =>
    if divisor = 0 then nan
    else
      let unit := min exponent divisorExponent
      let whole := mantissa * Nat.pow 2 (exponent - unit).toNat
      let part := divisor * Nat.pow 2 (divisorExponent - unit).toNat
      finite negative (whole % part) unit

/-- The greatest unsigned 64-bit number. -/
def greatestWord : Nat := Nat.pow 2 64 - 1

/-- The least whole number that is not below the value, held between zero and `greatestWord`. -/
def ceilToWord : Binary → Nat
  | nan => 0
  | infinite negative => if negative then 0 else greatestWord
  | finite true _ _ => 0
  | finite false mantissa exponent =>
    let whole := if 0 ≤ exponent then mantissa * Nat.pow 2 exponent.toNat
      else
        let unit := Nat.pow 2 (-exponent).toNat
        (mantissa + unit - 1) / unit
    min whole greatestWord

end Binary

/-- Remainder of a truncated division of doubles. -/
def floatRemainder (x y : Float) : Float :=
  ((Binary.ofFloat x).remainder (Binary.ofFloat y)).toFloat

/-- The smaller of two doubles. A NaN loses against a number, and of equal operands the second is
taken, which tells the two zeros apart. -/
def lesser (x y : Float) : Float :=
  if x < y || y.isNaN then x else y

/-- The greater of two doubles, with the same treatment of NaN and of equal operands. -/
def greater (x y : Float) : Float :=
  if x > y || y.isNaN then x else y

/-- A double held at zero from below; a NaN counts as zero too. -/
def atLeastZero (x : Float) : Float := if x > 0.0 then x else 0.0

end Barrage
