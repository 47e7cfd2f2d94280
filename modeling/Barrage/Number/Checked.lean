/-!
# Checked 64-bit arithmetic

Whole numbers of the expression language are signed 64-bit words, and no operation wraps: a result
outside the word is a fault of the operation. Each operation is the one on integers, followed by the
test that its result fits.
-/

namespace Barrage.Checked

/-- The word that holds an integer, if one does. -/
def word? (n : Int) : Option Int64 :=
  if Int64.minValue.toInt ≤ n ∧ n ≤ Int64.maxValue.toInt then some (Int64.ofInt n) else none

/-- Sum of two words. -/
def add? (a b : Int64) : Option Int64 := word? (a.toInt + b.toInt)

/-- Difference of two words. -/
def sub? (a b : Int64) : Option Int64 := word? (a.toInt - b.toInt)

/-- Product of two words. -/
def mul? (a b : Int64) : Option Int64 := word? (a.toInt * b.toInt)

/-- Quotient truncated toward zero; the divisor is not zero. -/
def div? (a b : Int64) : Option Int64 := word? (a.toInt.tdiv b.toInt)

/-- Remainder of the truncated division by a divisor other than zero. It is refused together with the
quotient, although the remainder alone would fit. -/
def rem? (a b : Int64) : Option Int64 := (div? a b).bind fun _ => word? (a.toInt.tmod b.toInt)

/-- Negation; the least word has none. -/
def neg? (a : Int64) : Option Int64 := word? (-a.toInt)

/-- Absolute value; the least word has none. -/
def abs? (a : Int64) : Option Int64 := word? a.toInt.natAbs

/-- Reads a word written as an optional sign and decimal digits. -/
def ofText? (text : String) : Option Int64 :=
  let (negative, digits) := match text.toList with
    | '-' :: rest => (true, rest)
    | '+' :: rest => (false, rest)
    | rest => (false, rest)
  if digits.isEmpty || !digits.all Char.isDigit then none
  else
    let n : Int := digits.foldl (fun n c => 10 * n + ((c.toNat - '0'.toNat : Nat) : Int)) 0
    word? (if negative then -n else n)

end Barrage.Checked
