import Barrage.Chunk.Term

/-!
# Tokens of chunks

A chunk is cut into words, numbers, texts and symbols. ASCII white space and comments stand between
tokens. A text ends in the line it starts in unless a backslash carries it on to the next one, where
blanks up to the column of its opening quote do not belong to it. Its escapes include those that printed
keys use.

A minus sign is read by what stands before it. After an operand or a closing bracket it is the operator
between two operands; elsewhere it belongs to the digits that follow at once, or else it negates the
operand after it. So the least whole number can be written, while two minus signs side by side are
refused everywhere.

## Main definitions

* `ChunkToken`: tokens
* `ChunkToken.ofText?`: the tokens of a text
-/

namespace Barrage

/-- Tokens of chunks. -/
inductive ChunkToken where
  | word (name : String)
  | int (n : Int64)
  | float (x : Float)
  | text (s : String)
  | symbol (s : Symbol)
  /-- A minus sign that no operand stands before. -/
  | negative
  /-- A plus sign that no operand stands before. -/
  | positive
  | openBrace
  | closeBrace
  | semicolon

namespace ChunkToken

/-- Whether a sign after the token stands between two operands. -/
def endsOperand : ChunkToken → Bool
  | word name => name != "return" && name != "if"
  | int _ | float _ | text _ | closeBrace => true
  | symbol s => s == .closing
  | negative | positive | openBrace | semicolon => false

/-- The column of the last character before `rest`, the end of `whole`; a line starts with column one. -/
def column (whole rest : List Char) : Nat :=
  ((whole.take (whole.length - rest.length)).reverse.takeWhile (· != '\n')).length

/-- What a text goes on with on a new line: blanks that stand in no more than so many columns are left
out. -/
def carriedOn (margin : Nat) (line : List Char) : List Char :=
  line.drop ((line.take margin).takeWhile fun c => Text.isBlank c && c != '\n').length

theorem length_carriedOn (margin : Nat) (line : List Char) :
    (carriedOn margin line).length ≤ line.length := by
  simp [carriedOn]

/-- The content of a text after its opening quote, and what follows the closing one. Two quotes side by
side stand for one. The text opened before `opening`, within `whole`. -/
def content? (whole opening : List Char) : List Char → Option (List Char × List Char)
  | [] => none
  | '"' :: '"' :: rest => (content? whole opening rest).map fun (cs, rest) => ('"' :: cs, rest)
  | '"' :: rest => some ([], rest)
  | '\n' :: _ => none
  | '\\' :: '\n' :: line => content? whole opening (carriedOn (column whole opening) line)
  | '\\' :: '\r' :: '\n' :: line => content? whole opening (carriedOn (column whole opening) line)
  | '\\' :: escape =>
    match _h : Text.unescape? escape with
    | none => none
    | some (c, rest) => (content? whole opening rest).map fun (cs, rest) => (c :: cs, rest)
  | c :: rest => (content? whole opening rest).map fun (cs, rest) => (c :: cs, rest)
termination_by cs => cs.length
decreasing_by
  · simp only [List.length_cons]; omega
  · have := length_carriedOn (column whole opening) line; simp only [List.length_cons]; omega
  · have := length_carriedOn (column whole opening) line; simp only [List.length_cons]; omega
  · have := Text.length_unescape? _h; simp only [List.length_cons]; omega
  · simp

theorem length_content? {whole opening cs content rest : List Char}
    (h : content? whole opening cs = some (content, rest)) : rest.length < cs.length := by
  fun_induction content? whole opening cs generalizing content rest with
  | case1 => simp at h
  | case2 _ ih =>
    obtain ⟨⟨cs', rest'⟩, hr, heq⟩ := Option.map_eq_some_iff.1 h
    simp at heq; obtain ⟨_, rfl⟩ := heq
    have := ih hr
    simp; omega
  | case3 => simp at h; obtain ⟨_, rfl⟩ := h; simp
  | case4 => simp at h
  | case5 line ih =>
    have := ih h
    have := length_carriedOn (column whole opening) line
    simp only [List.length_cons]; omega
  | case6 line ih =>
    have := ih h
    have := length_carriedOn (column whole opening) line
    simp only [List.length_cons]; omega
  | case7 => simp at h
  | case8 _ _ _ _ _ hu ih =>
    obtain ⟨⟨cs', rest'⟩, hr, heq⟩ := Option.map_eq_some_iff.1 h
    simp at heq; obtain ⟨_, rfl⟩ := heq
    have := ih hr
    have := Text.length_unescape? hu
    simp only [List.length_cons]; omega
  | case9 _ _ _ _ _ _ _ _ ih =>
    obtain ⟨⟨cs', rest'⟩, hr, heq⟩ := Option.map_eq_some_iff.1 h
    simp at heq; obtain ⟨_, rfl⟩ := heq
    have := ih hr
    simp; omega

/-- The characters of a number after its first digit that count, and the rest. A point counts before a
digit, and also where no name could follow it; an exponent mark counts before a digit or a sign. -/
def numeral : List Char → List Char × List Char
  | [] => ([], [])
  | [c] => if c.isDigit then ([c], []) else if c = '_' then ([], []) else ([], [c])
  | c :: d :: rest =>
    if c.isDigit then
      let (taken, rest) := numeral (d :: rest)
      (c :: taken, rest)
    else if c = '_' then numeral (d :: rest)
    else if c = '.' && !(d = '.' || Scanned.opensName d) then
      let (taken, rest) := numeral (d :: rest)
      ('.' :: taken, rest)
    else if (c = 'e' || c = 'E') && d.isDigit then
      let (taken, rest) := numeral (d :: rest)
      ('e' :: taken, rest)
    else if (c = 'e' || c = 'E') && (d = '+' || d = '-') then
      let (taken, rest) := numeral rest
      ('e' :: d :: taken, rest)
    else ([], c :: d :: rest)

theorem length_numeral (cs : List Char) : (numeral cs).2.length ≤ cs.length := by
  fun_induction numeral cs <;> simp_all <;> omega

/-- The value of a number. A whole number that is too large for a word is a double. -/
def number? (taken : List Char) : Option ChunkToken :=
  let text := String.ofList taken
  match Checked.ofText? text with
  | some n => some (int n)
  | none => (readFloat? text).map float

/-- The base that a letter after a leading zero announces, and what follows the letter. -/
def announced? (first : Char) (cs : List Char) : Option (Nat × List Char) :=
  match first, cs.dropWhile (· = '_') with
  | '0', letter :: rest =>
    match letter.toLower with
    | 'x' => some (16, rest)
    | 'o' => some (8, rest)
    | 'b' => some (2, rest)
    | _ => none
  | _, _ => none

theorem length_announced? {first : Char} {cs rest : List Char} {base : Nat}
    (h : announced? first cs = some (base, rest)) : rest.length ≤ cs.length := by
  have hle := (List.dropWhile_sublist (l := cs) (fun c => decide (c = '_'))).length_le
  unfold announced? at h
  split at h
  · rename_i heq
    rw [heq] at hle
    simp only [List.length_cons] at hle
    split at h <;> simp at h
    all_goals (obtain ⟨_, rfl⟩ := h; omega)
  · simp at h

/-- The digits of a number in a base, and what follows them. Underscores do not count. -/
def digitsIn (base : Nat) : List Char → List Nat × List Char
  | [] => ([], [])
  | c :: rest =>
    if c = '_' then digitsIn base rest
    else
      match (Text.hexDigit? c).filter (· < base) with
      | some d =>
        let (ds, rest) := digitsIn base rest
        (d :: ds, rest)
      | none => ([], c :: rest)

theorem length_digitsIn (base : Nat) (cs : List Char) : (digitsIn base cs).2.length ≤ cs.length := by
  fun_induction digitsIn base cs <;> simp_all <;> omega

/-- The word with given digits in a base; it may fill the bit of the sign. -/
def wordIn? (base : Nat) (digits : List Nat) : Option Int64 :=
  let n := digits.foldl (fun n d => base * n + d) 0
  if digits.isEmpty || 18446744073709551616 ≤ n then none else some (Int64.ofNat n)

/-- A number after its first digit, and what follows it. -/
def numberFrom? (first : Char) (cs : List Char) : Option (ChunkToken × List Char) :=
  match announced? first cs with
  | some (base, cs) => (wordIn? base (digitsIn base cs).1).map fun n => (int n, (digitsIn base cs).2)
  | none => (number? (first :: (numeral cs).1)).map fun t => (t, (numeral cs).2)

theorem length_numberFrom? {first : Char} {cs rest : List Char} {t : ChunkToken}
    (h : numberFrom? first cs = some (t, rest)) : rest.length ≤ cs.length := by
  unfold numberFrom? at h
  split at h
  · rename_i base digits ha
    obtain ⟨_, _, heq⟩ := Option.map_eq_some_iff.1 h
    simp at heq; obtain ⟨_, rfl⟩ := heq
    exact Nat.le_trans (length_digitsIn base digits) (length_announced? ha)
  · obtain ⟨_, _, heq⟩ := Option.map_eq_some_iff.1 h
    simp at heq; obtain ⟨_, rfl⟩ := heq
    exact length_numeral cs

/-- Whether characters of names make a name: the first that is no underscore has to be a letter. -/
def isWord (cs : List Char) : Bool := ((cs.dropWhile (· = '_')).head?.map Char.isAlpha).getD false

/-- Whether two characters side by side are a symbol that the language keeps for itself. -/
def isKept (c : Char) (next : Option Char) : Bool :=
  (c = '-' && next = some '-') || (c = '+' && next = some '+') || (c = '<' && next = some '-')

/-- The token that a character of `whole` opens which is not blank, and what follows it. -/
def next? (whole : List Char) (afterOperand : Bool) (c : Char) (rest : List Char) :
    Option (ChunkToken × List Char) :=
  if c.isDigit then numberFrom? c rest
  else if Scanned.opensName c then
    let name := c :: rest.takeWhile Scanned.continuesName
    if isWord name then some (word (String.ofList name), rest.dropWhile Scanned.continuesName) else none
  else if c = '"' then (content? whole rest rest).map fun (cs, rest) => (text (String.ofList cs), rest)
  else if c = '\x7b' then some (openBrace, rest)
  else if c = '\x7d' then some (closeBrace, rest)
  else if c = ';' then some (semicolon, rest)
  else if isKept c rest.head? then none
  else if c = '-' && !afterOperand then
    if (rest.head?.map Char.isDigit).getD false then
      (number? (c :: (numeral rest).1)).map fun t => (t, (numeral rest).2)
    else some (negative, rest)
  else if c = '+' && !afterOperand then some (positive, rest)
  else (Scanned.symbol? (c :: rest)).bind fun s =>
    match s.token with
    | .symbol sym => some (symbol sym, s.rest)
    | _ => none

theorem length_next? {whole : List Char} {afterOperand : Bool} {c : Char} {cs rest : List Char}
    {t : ChunkToken} (h : next? whole afterOperand c cs = some (t, rest)) : rest.length ≤ cs.length := by
  have hname : (cs.dropWhile Scanned.continuesName).length ≤ cs.length :=
    (List.dropWhile_sublist _).length_le
  unfold next? at h
  split at h
  · exact length_numberFrom? h
  split at h
  · dsimp only at h
    split at h <;> simp at h
    obtain ⟨_, rfl⟩ := h
    exact hname
  split at h
  · obtain ⟨⟨cs', rest'⟩, hc, heq⟩ := Option.map_eq_some_iff.1 h
    simp at heq; obtain ⟨_, rfl⟩ := heq
    exact Nat.le_of_lt (length_content? hc)
  split at h
  · simp at h; obtain ⟨_, rfl⟩ := h; exact Nat.le_refl _
  split at h
  · simp at h; obtain ⟨_, rfl⟩ := h; exact Nat.le_refl _
  split at h
  · simp at h; obtain ⟨_, rfl⟩ := h; exact Nat.le_refl _
  split at h
  · simp at h
  split at h
  · split at h
    · obtain ⟨_, _, heq⟩ := Option.map_eq_some_iff.1 h
      simp at heq; obtain ⟨_, rfl⟩ := heq
      exact length_numeral cs
    · simp at h; obtain ⟨_, rfl⟩ := h; exact Nat.le_refl _
  split at h
  · simp at h; obtain ⟨_, rfl⟩ := h; exact Nat.le_refl _
  obtain ⟨s, hs, heq⟩ := Option.bind_eq_some_iff.1 h
  have := Scanned.length_symbol? hs
  split at heq
  · simp at heq; obtain ⟨_, rfl⟩ := heq
    simp at this; omega
  · simp at heq

/-- What follows a comment within which so many comments are open. Text that ends first is comment. -/
def afterComment : (depth : Nat) → List Char → List Char
  | 0, cs => cs
  | _, [] => []
  | depth + 1, '/' :: '*' :: rest => afterComment (depth + 2) rest
  | depth + 1, '*' :: '/' :: rest => afterComment depth rest
  | depth + 1, _ :: rest => afterComment (depth + 1) rest

theorem length_afterComment (depth : Nat) (cs : List Char) : (afterComment depth cs).length ≤ cs.length := by
  fun_induction afterComment depth cs <;> simp_all <;> omega

/-- The tokens of the end of a text that comes after some others. -/
def ofChars? (whole : List Char) (afterOperand : Bool) : List Char → Option (List ChunkToken)
  | [] => some []
  | '/' :: '/' :: rest => ofChars? whole afterOperand (rest.dropWhile fun c => c != '\n' && c != '\r')
  | '/' :: '*' :: rest => ofChars? whole afterOperand (afterComment 1 rest)
  | c :: rest =>
    if Text.isSourceBlank c then ofChars? whole afterOperand rest
    else
      match _h : next? whole afterOperand c rest with
      | none => none
      | some (token, rest) => (ofChars? whole token.endsOperand rest).map (token :: ·)
termination_by cs => cs.length
decreasing_by
  · have := (List.dropWhile_sublist (l := rest) (fun c => c != '\n' && c != '\r')).length_le
    simp; omega
  · have := length_afterComment 1 rest
    simp; omega
  · simp
  · have := length_next? _h; simp; omega

/-- The tokens of a text, unless some part of it is none. -/
def ofText? (text : String) : Option (List ChunkToken) := ofChars? text.toList false text.toList

end ChunkToken

end Barrage
