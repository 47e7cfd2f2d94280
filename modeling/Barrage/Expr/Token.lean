import Barrage.Expr.Basic
import Barrage.Number.Checked

/-!
# Tokens of expression source

Source text is cut into numbers, identifiers, quoted keys and symbols. Every token carries the byte
offset at which it starts. The scanner works on the characters that are left of the text, and each
step hands back the characters it took together with those after them, so that the offset of the next
token is the offset of this one plus the bytes taken.

## Main definitions

* `Symbol`, `Token`, `Lexeme`: symbols, tokens, and tokens with their offsets
* `ParseFault`, `ParseError`: why source is refused, and where
* `Lexeme.ofChars`: the tokens of a text
-/

namespace Barrage

/-- Symbols of expression source. -/
inductive Symbol where
  | andAnd | orOr | eqEq | notEq | lessEq | greaterEq | less | greater
  | plus | minus | star | slash | percent | bang | question | colon
  | opening | closing | comma | dot | assign
deriving DecidableEq, Repr

namespace Symbol

/-- Spelling of a symbol. -/
def chars : Symbol → List Char
  | andAnd => ['&', '&']
  | orOr => ['|', '|']
  | eqEq => ['=', '=']
  | notEq => ['!', '=']
  | lessEq => ['<', '=']
  | greaterEq => ['>', '=']
  | less => ['<']
  | greater => ['>']
  | plus => ['+']
  | minus => ['-']
  | star => ['*']
  | slash => ['/']
  | percent => ['%']
  | bang => ['!']
  | question => ['?']
  | colon => [':']
  | opening => ['(']
  | closing => [')']
  | comma => [',']
  | dot => ['.']
  | assign => ['=']

/-- All symbols; one that opens another comes after it. -/
def all : List Symbol :=
  [andAnd, orOr, eqEq, notEq, lessEq, greaterEq, less, greater, plus, minus, star, slash, percent,
    bang, question, colon, opening, closing, comma, dot, assign]

/-- Spelling of a symbol as text. -/
def text (s : Symbol) : String := String.ofList s.chars

end Symbol

/-- Tokens of expression source. -/
inductive Token where
  | float (x : Float)
  | int (n : Int64)
  | ident (name : String)
  | key (text : String)
  | symbol (s : Symbol)
  /-- What stands after the last token. -/
  | finish
deriving BEq

/-- A token as messages show it. -/
def Token.describe : Token → String
  | float x => "Float(" ++ FloatLayout.marked.render x ++ ")"
  | int n => "Int(" ++ toString n.toInt ++ ")"
  | ident name => "Ident(" ++ Text.shown name ++ ")"
  | key text => "Str(" ++ Text.shown text ++ ")"
  | symbol s => "Sym(" ++ Text.shown s.text ++ ")"
  | finish => "End"

/-- The deepest nesting of source that is read. -/
def maxNesting : Nat := 64

/-- Why source is refused. -/
inductive ParseFault where
  | invalidNumber (text : String)
  | invalidInteger (text : String)
  | unterminatedKey
  | unsupportedEscape
  | unexpectedCharacter (shown : Char)
  | tooDeep
  | trailing (found : Token)
  | expectedSymbol (expected : Symbol) (found : Token)
  | expectedBindingName (found : Token)
  | expectedIn
  | unknownMember (name : String)
  | expectedMember (found : Token)
  | unknownEntity (id : String)
  | unknownFunction (name : String)
  | expectedKey (found : Token)
  | unexpected (found : Token)
  | reservedName (name : String)
  | keyword (name : String)

/-- The text of a fault. -/
def ParseFault.message : ParseFault → String
  | invalidNumber text => "invalid number '" ++ text ++ "'"
  | invalidInteger text => "invalid integer '" ++ text ++ "'"
  | unterminatedKey => "unterminated string"
  | unsupportedEscape => "unsupported escape"
  | unexpectedCharacter shown => "unexpected character '" ++ shown.toString ++ "'"
  | tooDeep => s!"expression nested more than {maxNesting} levels deep"
  | trailing found => "unexpected trailing " ++ found.describe
  | expectedSymbol expected found => "expected '" ++ expected.text ++ "', found " ++ found.describe
  | expectedBindingName found => "expected binding name, found " ++ found.describe
  | expectedIn => "expected 'in' after let binding"
  | unknownMember name => "unknown member '" ++ name ++ "'"
  | expectedMember found => "expected member name, found " ++ found.describe
  | unknownEntity id => "unknown entity '" ++ id ++ "'"
  | unknownFunction name => "unknown function '" ++ name ++ "'"
  | expectedKey found => "expected string key, found " ++ found.describe
  | unexpected found => "unexpected " ++ found.describe
  | reservedName name => "identifier '" ++ name ++ "' uses reserved '__'"
  | keyword name => "'" ++ name ++ "' is a keyword"

/-- A fault with the byte offset it was met at. -/
structure ParseError where
  offset : Nat
  fault : ParseFault

/-- The text of a parse error. -/
def ParseError.message (e : ParseError) : String := e.fault.message ++ s!" at offset {e.offset}"

/-- A token with the byte offset it starts at. -/
structure Lexeme where
  offset : Nat
  token : Token

/-- Bytes of some characters in UTF-8. -/
def byteLength (cs : List Char) : Nat := cs.foldl (fun n c => n + c.utf8Size) 0

/-- A token with the characters it is made of and those after it. -/
structure Scanned where
  token : Token
  taken : List Char
  rest : List Char

namespace Scanned

/-- Splits off the rest of a number: digits and underscores, one point that is followed by a digit, and
exponent marks that are followed by a digit or a sign. The flag tells whether the number is a float. -/
def number : (isFloat : Bool) → List Char → List Char × Bool × List Char
  | isFloat, [] => ([], isFloat, [])
  | isFloat, [c] => if c.isDigit || c = '_' then ([c], isFloat, []) else ([], isFloat, [c])
  | isFloat, c :: d :: rest =>
    if c.isDigit || c = '_' then
      let (taken, isFloat, rest) := number isFloat (d :: rest)
      (c :: taken, isFloat, rest)
    else if c = '.' && !isFloat && d.isDigit then
      let (taken, isFloat, rest) := number true (d :: rest)
      (c :: taken, isFloat, rest)
    else if (c = 'e' || c = 'E') && (d.isDigit || d = '-' || d = '+') then
      let (taken, isFloat, rest) := number true rest
      (c :: d :: taken, isFloat, rest)
    else ([], isFloat, c :: d :: rest)

/-- The content of a quoted key, the characters up to and with the closing quote, and the rest. Only the
quote and the backslash can be escaped. -/
def key (start : Nat) :
    (offset : Nat) → List Char → Except ParseError (List Char × List Char × List Char)
  | _, [] => .error ⟨start, .unterminatedKey⟩
  | _, '"' :: rest => .ok ([], ['"'], rest)
  | offset, ['\\'] => .error ⟨offset, .unsupportedEscape⟩
  | offset, '\\' :: c :: rest =>
    if c = '"' || c = '\\' then do
      let (content, taken, rest) ← key start (offset + 2) rest
      .ok (c :: content, '\\' :: c :: taken, rest)
    else .error ⟨offset, .unsupportedEscape⟩
  | offset, c :: rest => do
    let (content, taken, rest) ← key start (offset + c.utf8Size) rest
    .ok (c :: content, c :: taken, rest)

/-- Whether a character can open an identifier. -/
def opensName (c : Char) : Bool := c.isAlpha || c = '_'

/-- Whether a character can stand within an identifier. -/
def continuesName (c : Char) : Bool := c.isAlphanum || c = '_'

/-- The value of a number, whose underscores do not count. -/
def numberToken (offset : Nat) (taken : List Char) (isFloat : Bool) : Except ParseError Token :=
  let digits := taken.filter (· != '_')
  let text := String.ofList digits
  if isFloat then
    match Decimal.ofChars? digits with
    | some d => .ok (.float d.toFloat)
    | none => .error ⟨offset, .invalidNumber text⟩
  else
    match Checked.ofText? text with
    | some n => .ok (.int n)
    | none => .error ⟨offset, .invalidInteger text⟩

/-- The first symbol that opens a text. -/
def symbol? (cs : List Char) : Option Scanned :=
  Symbol.all.findSome? fun s => (Text.strip? s.chars cs).map fun rest => ⟨.symbol s, s.chars, rest⟩

/-- The token that a character which is not blank opens. A character that opens none is reported by the
first byte of its encoding. -/
def next (offset : Nat) (c : Char) (rest : List Char) : Except ParseError Scanned :=
  if c.isDigit then do
    let (taken, isFloat, rest) := number false rest
    let token ← numberToken offset (c :: taken) isFloat
    .ok ⟨token, c :: taken, rest⟩
  else if opensName c then
    let taken := c :: rest.takeWhile continuesName
    .ok ⟨.ident (String.ofList taken), taken, rest.dropWhile continuesName⟩
  else if c = '"' then do
    let (content, taken, rest) ← key offset (offset + 1) rest
    .ok ⟨.key (String.ofList content), c :: taken, rest⟩
  else
    match symbol? (c :: rest) with
    | some scanned => .ok scanned
    | none => .error ⟨offset, .unexpectedCharacter (Char.ofNat (Text.firstByte c))⟩

theorem length_number (isFloat : Bool) (cs : List Char) : (number isFloat cs).2.2.length ≤ cs.length := by
  fun_induction number isFloat cs <;> simp_all <;> omega

theorem length_key {start offset : Nat} {cs content taken rest : List Char}
    (h : key start offset cs = .ok (content, taken, rest)) : rest.length ≤ cs.length := by
  fun_induction key start offset cs generalizing content taken rest with
  | case1 => simp at h
  | case2 => simp at h; obtain ⟨_, _, rfl⟩ := h; simp
  | case3 => simp at h
  | case4 offset c tail _ ih =>
    cases hk : key start (offset + 2) tail with
    | error e => simp [hk, bind, Except.bind] at h
    | ok r =>
      obtain ⟨content', taken', rest'⟩ := r
      simp [hk, bind, Except.bind] at h
      have := ih hk
      obtain ⟨_, _, rfl⟩ := h
      simp; omega
  | case5 => simp at h
  | case6 offset c tail _ _ _ ih =>
    cases hk : key start (offset + c.utf8Size) tail with
    | error e => simp [hk, bind, Except.bind] at h
    | ok r =>
      obtain ⟨content', taken', rest'⟩ := r
      simp [hk, bind, Except.bind] at h
      have := ih hk
      obtain ⟨_, _, rfl⟩ := h
      simp; omega

theorem length_strip? {front cs rest : List Char} (h : Text.strip? front cs = some rest) :
    rest.length + front.length = cs.length := by
  fun_induction Text.strip? front cs with
  | case1 => simp_all
  | case2 => simp at h
  | case3 p ps cs ih => have := ih h; simp; omega
  | case4 => simp at h

theorem length_symbol? {cs : List Char} {s : Scanned} (h : symbol? cs = some s) :
    s.rest.length < cs.length := by
  obtain ⟨sym, _, hs⟩ := List.exists_of_findSome?_eq_some h
  obtain ⟨rest, hr, rfl⟩ := Option.map_eq_some_iff.1 hs
  have := length_strip? hr
  have : 0 < sym.chars.length := by cases sym <;> decide
  simp; omega

/-- A token takes at least the character that opens it. -/
theorem length_next {offset : Nat} {c : Char} {cs : List Char} {s : Scanned}
    (h : next offset c cs = .ok s) : s.rest.length ≤ cs.length := by
  unfold next at h
  split at h
  · cases hn : numberToken offset (c :: (number false cs).1) (number false cs).2.1 with
    | error e => simp [hn, bind, Except.bind] at h
    | ok t =>
      simp [hn, bind, Except.bind] at h
      subst h
      exact length_number false cs
  · split at h
    · simp at h; subst h
      exact (List.dropWhile_sublist _).length_le
    · split at h
      · cases hk : key offset (offset + 1) cs with
        | error e => simp [hk, bind, Except.bind] at h
        | ok r =>
          obtain ⟨content, taken, rest⟩ := r
          simp [hk, bind, Except.bind] at h
          subst h
          exact length_key hk
      · split at h
        · rename_i found hs
          simp at h; subst h
          have := length_symbol? hs
          simp at this; omega
        · simp at h

end Scanned

/-- The tokens of a text that starts at a byte offset. -/
def Lexeme.ofChars (offset : Nat) : List Char → Except ParseError (List Lexeme)
  | [] => .ok []
  | c :: cs =>
    if Text.isSourceBlank c then ofChars (offset + 1) cs
    else
      match _h : Scanned.next offset c cs with
      | .error e => .error e
      | .ok s => (ofChars (offset + byteLength s.taken) s.rest).map (⟨offset, s.token⟩ :: ·)
termination_by cs => cs.length
decreasing_by
  · simp
  · have := Scanned.length_next _h; simp; omega

end Barrage
