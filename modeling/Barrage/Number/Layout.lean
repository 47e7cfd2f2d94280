import Barrage.Number.Decimal

/-!
# Written forms of doubles

The digits of a double are one matter and their layout another. A layout says which exponents are
written positionally and where a point and a zero are added. The program writes doubles in three
layouts, each one value of `FloatLayout`, and once with a fixed number of places.

## Main definitions

* `FloatLayout`, `FloatLayout.render`: a layout and the text it gives a double
* `FloatLayout.plain`: values in messages and events
* `FloatLayout.marked`: tokens in parse errors
* `FloatLayout.literal`: literals of printed units
* `fixedPlaces`: a fixed number of places, a half going to the even neighbour
-/

namespace Barrage

/-- How the digits of a double are laid out. -/
structure FloatLayout where
  /-- The least exponent of ten, and the first one too great, of a leading digit that are written
  positionally; all of them if absent. -/
  positional : Option (Int × Int)
  /-- Whether a whole number is followed by a point and a zero. -/
  wholePoint : Bool
  /-- Whether a single digit before an exponent is followed by a point and a zero. -/
  exponentPoint : Bool

/-- The decimal digits of a number as text. -/
def digitText (n : Nat) : String := String.ofList (Nat.toDigits 10 n)

/-- A run of zeros. -/
def zeros (n : Nat) : String := String.ofList (List.replicate n '0')

namespace FloatLayout

/-- Digits alone, always positional. -/
def plain : FloatLayout := ⟨none, false, false⟩

/-- Positional from `10⁻⁴` up to `10¹⁶`, and recognisable as no whole-number literal. -/
def marked : FloatLayout := ⟨some (-4, 16), true, false⟩

/-- Like `marked`, with a point in every literal. -/
def literal : FloatLayout := ⟨some (-4, 16), true, true⟩

/-- Lays out digits by the place of the point. -/
def positionalText (layout : FloatLayout) (d : Decimal) : String :=
  let digits := digitText d.digits
  let point := (digits.length : Int) + d.exponent
  if point ≤ 0 then "0." ++ zeros (-point).toNat ++ digits
  else if (digits.length : Int) ≤ point then
    digits ++ zeros (point - digits.length).toNat ++ (if layout.wholePoint then ".0" else "")
  else
    let cs := digits.toList
    String.ofList (cs.take point.toNat) ++ "." ++ String.ofList (cs.drop point.toNat)

/-- Lays out digits as one digit, the fraction, and an exponent. -/
def exponentText (layout : FloatLayout) (d : Decimal) : String :=
  let digits := digitText d.digits
  let lead := String.ofList (digits.toList.take 1)
  let fraction := digits.toList.drop 1
  let exponent := d.exponent + digits.length - 1
  lead ++ (if fraction.isEmpty then (if layout.exponentPoint then ".0" else "")
    else "." ++ String.ofList fraction) ++ "e" ++ toString exponent

/-- Lays out a positive numeral. -/
def numeral (layout : FloatLayout) (d : Decimal) : String :=
  let lead := d.exponent + (digitText d.digits).length - 1
  match layout.positional with
  | none => layout.positionalText d
  | some (least, most) =>
    if least ≤ lead && lead < most then layout.positionalText d else layout.exponentText d

/-- The text of a double. -/
def render (layout : FloatLayout) (x : Float) : String :=
  match Binary.ofFloat x with
  | .nan => "NaN"
  | .infinite negative => if negative then "-inf" else "inf"
  | .finite negative mantissa exponent =>
    let body := if mantissa = 0 then (if layout.wholePoint then "0.0" else "0")
      else layout.numeral (Decimal.shortest mantissa exponent)
    if negative then "-" ++ body else body

end FloatLayout

/-- The whole number nearest to `num / den`; a half goes to the even neighbour. -/
def roundHalfEven (num den : Nat) : Nat :=
  let quotient := num / den
  let twice := 2 * (num % den)
  if den < twice || (twice == den && quotient % 2 == 1) then quotient + 1 else quotient

/-- A double with exactly `places` decimals, rounded from its exact value. -/
def fixedPlaces (places : Nat) (x : Float) : String :=
  match Binary.ofFloat x with
  | .nan => "NaN"
  | .infinite negative => if negative then "-inf" else "inf"
  | .finite negative mantissa exponent =>
    let scale := Nat.pow 10 places
    let units :=
      roundHalfEven (mantissa * scale * Nat.pow 2 exponent.toNat) (Nat.pow 2 (-exponent).toNat)
    let fraction := digitText (units % scale)
    let body := digitText (units / scale) ++
      (if places = 0 then "" else "." ++ zeros (places - fraction.length) ++ fraction)
    if negative then "-" ++ body else body

end Barrage
