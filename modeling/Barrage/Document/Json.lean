import Barrage.Number.Decimal
import Barrage.Text.Quoted

/-!
# Documents

Pattern files, configuration files and the registry of baked units are JSON documents. A text is first
read into a tree that keeps what later readers may object to: a numeral stays in its written form, since
it may be out of range for whoever reads it, and a text with an unpaired surrogate has no value. Readers
look only at what they use, so an unused part of a document may hold either.

## Main definitions

* `Numeral`, `NumberValue`: numerals as written, and the numbers they denote
* `Json`: document trees
* `Json.parse?`: reads a document
* `Json.pretty`: writes a document over several lines
-/

namespace Barrage

/-- A numeral as it is written. -/
structure Numeral where
  negative : Bool
  whole : List Char
  fraction : List Char
  exponent : Option (Bool × List Char)
deriving DecidableEq

/-- What a numeral denotes: an unsigned 64-bit number, a negative signed one, or a double. -/
inductive NumberValue where
  | word (n : Nat)
  | below (n : Int)
  | float (x : Float)

namespace NumberValue

/-- The double nearest to a number. -/
def toFloat : NumberValue → Float
  | word n => Float.ofNat n
  | below n => Float.ofInt n
  | float x => x

end NumberValue

namespace Numeral

/-- Digits gathered while they fit in a word, and how many were left over. -/
def gather (start : Nat) : List Char → Nat × Nat
  | [] => (start, 0)
  | c :: cs =>
    let next := start * 10 + (c.toNat - '0'.toNat)
    if next ≤ Binary.greatestWord then gather next cs else (start, cs.length + 1)

/-- The greatest power of ten that a double holds. -/
def mostTens : Nat := 308

/-- Scales a number by a power of ten, in steps that a double can hold. There is no result if it leaves
the range of doubles. -/
def scale (x : Float) (exponent : Int) : Option Float :=
  let tens (n : Nat) : Float := Float.ofScientific 1 false n
  if x == 0.0 then some x
  else if 0 ≤ exponent then
    if exponent ≤ mostTens then
      let y := x * tens exponent.toNat
      if y.isInf then none else some y
    else none
  else
    let steps := ((-exponent).toNat - 1) / mostTens
    -- four steps take any number to zero
    let x := (List.range (min steps 4)).foldl (fun x _ => x / tens mostTens) x
    some (x / tens ((-exponent).toNat - steps * mostTens))

/-- The greatest exponent mark that is taken at its word. -/
def greatestExponent : Nat := Nat.pow 2 31 - 1

/-- The number a numeral denotes, if it is in range. Digits that do not fit in a word count as zeros. -/
def value? (n : Numeral) : Option NumberValue :=
  let sign (x : Float) : Float := if n.negative then -x else x
  let (whole, dropped) := gather 0 n.whole
  if n.fraction.isEmpty && n.exponent.isNone && dropped = 0 then
    if !n.negative then some (.word whole)
    else if whole = 0 || Nat.pow 2 63 < whole then some (.float (-(Float.ofNat whole)))
    else some (.below (-(whole : Int)))
  else
    let (digits, left) := gather whole n.fraction
    let exponent := (dropped : Int) - ((n.fraction.length - left : Nat) : Int)
    let marked : Option Int :=
      match n.exponent with
      | none => some exponent
      | some (negative, marks) =>
        let mark := Decimal.ofDigits marks
        if greatestExponent < mark then none
        else some (exponent + if negative then -(mark : Int) else mark)
    match marked with
    | some exponent => (scale (Float.ofNat digits) exponent).map fun x => .float (sign x)
    | none =>
      let shrinks := match n.exponent with
        | some (negative, _) => negative
        | none => false
      if digits = 0 || shrinks then some (.float (sign 0.0)) else none

end Numeral

/-- Document trees. A text or key without a value holds an unpaired surrogate. -/
inductive Json where
  | null
  | bool (b : Bool)
  | number (n : Numeral)
  | text (s : Option String)
  | array (items : List Json)
  | object (fields : List (Option String × Json))

namespace Json

/-- The blanks between the parts of a document. -/
def isJsonBlank (c : Char) : Bool := c = ' ' || c = '\n' || c = '\t' || c = '\r'

/-- Drops blanks. -/
def skip (cs : List Char) : List Char := cs.dropWhile isJsonBlank

theorem length_skip (cs : List Char) : (skip cs).length ≤ cs.length :=
  (List.dropWhile_sublist _).length_le

/-- A numeral after its sign, and what follows it. A leading zero stands alone, and a point or an exponent
mark needs digits. -/
def unsigned? (negative : Bool) (cs : List Char) : Option (Numeral × List Char) :=
  let whole := cs.takeWhile Char.isDigit
  let rest := cs.dropWhile Char.isDigit
  if whole.isEmpty || (whole.head? = some '0' && 1 < whole.length) then none
  else do
    let (fraction, rest) ←
      match rest with
      | '.' :: rest =>
        let digits := rest.takeWhile Char.isDigit
        if digits.isEmpty then none else some (digits, rest.dropWhile Char.isDigit)
      | rest => some ([], rest)
    match rest with
    | c :: tail =>
      if c = 'e' || c = 'E' then
        let (less, tail) := match tail with
          | '-' :: tail => (true, tail)
          | '+' :: tail => (false, tail)
          | tail => (false, tail)
        let digits := tail.takeWhile Char.isDigit
        if digits.isEmpty then none
        else some (⟨negative, whole, fraction, some (less, digits)⟩, tail.dropWhile Char.isDigit)
      else some (⟨negative, whole, fraction, none⟩, rest)
    | [] => some (⟨negative, whole, fraction, none⟩, [])

/-- The character that an escape stands for, read after the backslash, and what follows it. Two escaped
surrogates that form a pair are one character; an unpaired one is none. -/
def escape? : List Char → Option (Option Char × List Char)
  | '"' :: rest => some (some '"', rest)
  | '\\' :: rest => some (some '\\', rest)
  | '/' :: rest => some (some '/', rest)
  | 'b' :: rest => some (some '\x08', rest)
  | 'f' :: rest => some (some '\x0c', rest)
  | 'n' :: rest => some (some '\n', rest)
  | 'r' :: rest => some (some '\r', rest)
  | 't' :: rest => some (some '\t', rest)
  | 'u' :: a :: b :: c :: d :: rest => do
    let (unit, _) ← Text.fourHex? [a, b, c, d]
    if 0xd800 ≤ unit && unit < 0xdc00 then
      match rest with
      | '\\' :: 'u' :: e :: f :: g :: h :: tail =>
        let (low, _) ← Text.fourHex? [e, f, g, h]
        if 0xdc00 ≤ low && low < 0xe000 then
          some (some (Char.ofNat (0x10000 + (unit - 0xd800) * 0x400 + (low - 0xdc00))), tail)
        else some (none, rest)
      | _ => some (none, rest)
    else if 0xdc00 ≤ unit && unit < 0xe000 then some (none, rest)
    else some (some (Char.ofNat unit), rest)
  | _ => none

theorem length_escape? {cs rest : List Char} {c : Option Char} (h : escape? cs = some (c, rest)) :
    rest.length < cs.length := by
  unfold escape? at h
  split at h <;> try (simp at h; obtain ⟨_, rfl⟩ := h; simp)
  · obtain ⟨⟨unit, _⟩, _, h⟩ := Option.bind_eq_some_iff.1 h
    dsimp only at h
    split at h
    · split at h
      · obtain ⟨⟨low, _⟩, _, h⟩ := Option.bind_eq_some_iff.1 h
        dsimp only at h
        split at h <;> (simp at h; obtain ⟨_, rfl⟩ := h; simp <;> omega)
      · simp at h; obtain ⟨_, rfl⟩ := h; simp; omega
    · split at h <;> (simp at h; obtain ⟨_, rfl⟩ := h; simp; omega)
  · simp at h

/-- A text after its opening quote, and what follows the closing one. -/
def text? (cs : List Char) : Option (Option (List Char) × List Char) :=
  match cs with
  | [] => none
  | c :: rest =>
    if c = '"' then some (some [], rest)
    else if c = '\\' then
      match _h : escape? rest with
      | none => none
      | some (x, rest) => (text? rest).map fun (xs, rest) => (x.bind fun x => xs.map (x :: ·), rest)
    else if c.toNat < 0x20 then none
    else (text? rest).map fun (xs, rest) => (xs.map (c :: ·), rest)
termination_by cs.length
decreasing_by
  · have := length_escape? _h; simp; omega
  · simp

/-- A key with its colon, and what follows them. -/
def key? : List Char → Option (Option String × List Char)
  | '"' :: rest => do
    let (key, rest) ← text? rest
    match skip rest with
    | ':' :: rest => some (key.map String.ofList, skip rest)
    | _ => none
  | _ => none

/-- A constant with the given spelling, and what follows it. -/
def word? (spelling : List Char) (value : Json) (cs : List Char) : Option (Json × List Char) :=
  (Text.strip? spelling cs).map (value, ·)

mutual

/-- A value, and what follows it. -/
def value? (cs : List Char) : Option (Json × List Char) :=
  match cs with
  | [] => none
  | c :: rest =>
    if c = '"' then (text? rest).map fun (s, rest) => (text (s.map String.ofList), rest)
    else if c = '[' then
      match _h : skip rest with
      | ']' :: after => some (array [], after)
      | start => (items? start).map fun (items, rest) => (array items, rest)
    else if c = '\x7b' then
      match _h : skip rest with
      | '\x7d' :: after => some (object [], after)
      | start => (fields? start).map fun (fields, rest) => (object fields, rest)
    else if c = '-' then (unsigned? true rest).map fun (n, rest) => (number n, rest)
    else if c.isDigit then (unsigned? false cs).map fun (n, rest) => (number n, rest)
    else if c = 'n' then word? ['n', 'u', 'l', 'l'] null cs
    else if c = 't' then word? ['t', 'r', 'u', 'e'] (bool true) cs
    else if c = 'f' then word? ['f', 'a', 'l', 's', 'e'] (bool false) cs
    else none
termination_by (cs.length, 0)
decreasing_by all_goals
  have := length_skip rest
  rw [_h] at this
  exact Prod.Lex.left _ _ (by simp at *; omega)

/-- One or more items up to the closing bracket. -/
def items? (cs : List Char) : Option (List Json × List Char) := do
  let (item, rest) ← value? cs
  match skip rest with
  | ']' :: rest => some ([item], rest)
  | ',' :: rest =>
    let rest := skip rest
    if rest.length < cs.length then
      let (items, rest) ← items? rest
      some (item :: items, rest)
    else none
  | _ => none
termination_by (cs.length, 1)

/-- One or more fields up to the closing brace. -/
def fields? (cs : List Char) : Option (List (Option String × Json) × List Char) := do
  let (key, rest) ← key? cs
  if rest.length < cs.length then
    let (value, rest) ← value? rest
    match skip rest with
    | '\x7d' :: rest => some ([(key, value)], rest)
    | ',' :: rest =>
      let rest := skip rest
      if rest.length < cs.length then
        let (fields, rest) ← fields? rest
        some ((key, value) :: fields, rest)
      else none
    | _ => none
  else none
termination_by (cs.length, 1)

end

/-- Reads a document: one value with blanks around it. -/
def parse? (document : String) : Option Json := do
  let (value, rest) ← value? (skip document.toList)
  if (skip rest).isEmpty then some value else none

/-- One character of a written text. -/
def writtenChar (c : Char) : List Char :=
  match c with
  | '"' => ['\\', '"']
  | '\\' => ['\\', '\\']
  | '\x08' => ['\\', 'b']
  | '\x0c' => ['\\', 'f']
  | '\n' => ['\\', 'n']
  | '\r' => ['\\', 'r']
  | '\t' => ['\\', 't']
  | c => if c.toNat < 0x20 then '\\' :: 'u' :: Text.fourHex c.toNat else [c]

/-- A written text. -/
def written (s : String) : String := "\"" ++ String.ofList (s.toList.flatMap writtenChar) ++ "\""

/-- The whole number as a document holds it. -/
def ofNat (n : Nat) : Json := number ⟨false, Nat.toDigits 10 n, [], none⟩

/-- A text as a document holds it. -/
def ofText (s : String) : Json := text (some s)

/-- An object with the given fields. -/
def ofFields (fields : List (String × Json)) : Json := object (fields.map fun (k, v) => (some k, v))

/-- A numeral as it was written. -/
def numeralText (n : Numeral) : String := String.ofList n.whole

/-- The blanks that open a line. -/
def indentation (depth : Nat) : String := String.ofList (List.replicate (2 * depth) ' ')

mutual

/-- Writes a document, each item on a line of its own. -/
def pretty (depth : Nat) : Json → String
  | null => "null"
  | bool b => if b then "true" else "false"
  | number n => numeralText n
  | text s => written (s.getD "")
  | array [] => "[]"
  | array (item :: items) =>
    "[\n" ++ prettyItems (depth + 1) (item :: items) ++ "\n" ++ indentation depth ++ "]"
  | object [] => "\x7b\x7d"
  | object (field :: fields) =>
    "\x7b\n" ++ prettyFields (depth + 1) (field :: fields) ++ "\n" ++ indentation depth ++ "\x7d"

/-- Writes the items of an array. -/
def prettyItems (depth : Nat) : List Json → String
  | [] => ""
  | [item] => indentation depth ++ pretty depth item
  | item :: items => indentation depth ++ pretty depth item ++ ",\n" ++ prettyItems depth items

/-- Writes the fields of an object. -/
def prettyFields (depth : Nat) : List (Option String × Json) → String
  | [] => ""
  | [(key, value)] => indentation depth ++ written (key.getD "") ++ ": " ++ pretty depth value
  | (key, value) :: fields =>
    indentation depth ++ written (key.getD "") ++ ": " ++ pretty depth value ++ ",\n" ++
      prettyFields depth fields

end

end Json

end Barrage
