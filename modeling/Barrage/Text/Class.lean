/-!
# Classes of characters

The rules that read text differ in what they call blank: source text and chunks skip a few ASCII
characters, while names of settings are trimmed of every character that Unicode calls white space.
-/

namespace Barrage.Text

/-- The blanks between tokens of expression source. -/
def isSourceBlank (c : Char) : Bool :=
  c = ' ' || c = '\t' || c = '\n' || c = '\x0c' || c = '\r'

/-- The characters with the Unicode property `White_Space`. -/
def isBlank (c : Char) : Bool :=
  let n := c.toNat
  (9 ≤ n && n ≤ 13) || n = 0x20 || n = 0x85 || n = 0xa0 || n = 0x1680 ||
    (0x2000 ≤ n && n ≤ 0x200a) || n = 0x2028 || n = 0x2029 || n = 0x202f || n = 0x205f || n = 0x3000

/-- Control characters: the ASCII controls, the delete character and the second control block. -/
def isControl (c : Char) : Bool :=
  c.toNat < 0x20 || (0x7f ≤ c.toNat && c.toNat < 0xa0)

/-- Removes white space from both ends. -/
def trim (s : String) : String :=
  String.ofList ((s.toList.dropWhile isBlank).reverse.dropWhile isBlank).reverse

/-- Lower-cases the ASCII letters. -/
def lower (s : String) : String := String.ofList (s.toList.map Char.toLower)

/-- Whether the characters of `front` open `cs`, and what follows them. -/
def strip? : (front cs : List Char) → Option (List Char)
  | [], cs => some cs
  | _ :: _, [] => none
  | p :: ps, c :: cs => if p = c then strip? ps cs else none

/-- First byte of a character's encoding in UTF-8. -/
def firstByte (c : Char) : Nat :=
  let n := c.toNat
  if n < 0x80 then n
  else if n < 0x800 then 0xc0 + n / 0x40
  else if n < 0x10000 then 0xe0 + n / 0x1000
  else 0xf0 + n / 0x40000

/-- Cuts text at line feeds. A carriage return before a line feed belongs to the break, and a break
at the end of the text starts no further line. -/
def lines (s : String) : List String :=
  let pieces := s.toList.splitOn '\n'
  let last := pieces.getLast?.getD []
  let closed := pieces.dropLast.map fun line =>
    if line.getLast? = some '\r' then line.dropLast else line
  (if last.isEmpty then closed else closed ++ [last]).map String.ofList

end Barrage.Text
