import Barrage.Chunk.Token

/-!
# Reading chunks

A chunk is a list of functions and statements. The reader follows the grammar of the serving language,
whose operators bind like those of expression source, and refuses text that nests too deeply. Every
construct opens levels: a term, a parenthesis, a list of arguments, a sign, a choice, a block and a
statement one each, a choice or a block within a term and the value of a binding one more, and every
operator opens one for what follows it in its chain.

A choice within a term is a block of its own, which tells it apart from one that is a statement, and so is
a block within a term that does nothing.

As in expression source, a reader is given *room*, the number of levels it may still open, and the
functions below recurse on it.

## Main definitions

* `Chunk.Reading`: the mutually recursive readers of terms and statements
* `Chunk.parse?`: the functions and statements of a text, unless it is no chunk
-/

namespace Barrage.Chunk

/-- Levels that a text may nest. -/
def maxLevels : Nat := 512

/-- Functions that belong to the language. They can be called but not defined, and name nothing else. -/
def builtInFunctions : List String :=
  ["print", "debug", "type_of", "eval", "Fn", "call", "curry", "is_def_var", "is_def_fn", "is_shared"]

/-- Words that are neither names nor functions. -/
def reservedWords : List String :=
  ["true", "false", "let", "const", "if", "else", "switch", "do", "while", "until", "loop", "for", "in",
    "continue", "break", "return", "throw", "try", "catch", "import", "export", "as", "private", "fn",
    "this", "var", "static", "shared", "goto", "match", "case", "public", "protected", "new", "use", "with",
    "is", "module", "package", "super", "thread", "spawn", "go", "await", "async", "sync", "yield",
    "default", "void", "null", "nil"]

/-- Whether a word can name a variable, a parameter or a function of a chunk. -/
def isFree (word : String) : Bool := !reservedWords.contains word && !builtInFunctions.contains word

/-- Whether a text is the name of a function that a chunk can hold. -/
def isFunctionName (text : String) : Bool :=
  isFree text && ChunkToken.isWord text.toList && text.toList.all Scanned.continuesName

/-- The tokens that are left. -/
abbrev Rest := List ChunkToken

/-- What follows a symbol, if that is next. -/
def eat? (s : Symbol) : Rest → Option Rest
  | .symbol t :: rest => if t = s then some rest else none
  | _ => none

/-- What follows an opening brace, if that is next. -/
def eatOpen? : Rest → Option Rest
  | .openBrace :: rest => some rest
  | _ => none

/-- A name, and what follows it. -/
def name? : Rest → Option (String × Rest)
  | .word w :: rest => if isFree w then some (w, rest) else none
  | _ => none

/-- The level of the operator that a symbol stands for; the greater the level, the looser it binds. -/
def operatorOf? (s : Symbol) : Option (Nat × Operator) :=
  (List.range Operator.levels).findSome? fun level => (Operator.at? level s).map (level, ·)

/-- The operator that is next, if it binds tighter than a level, and what follows it. -/
def operator? (below : Nat) : Rest → Option ({ level : Nat // level < below } × Operator × Rest)
  | .symbol s :: rest =>
    match operatorOf? s with
    | some (level, op) => if h : level < below then some (⟨level, h⟩, op, rest) else none
    | none => none
  | _ => none

/-- A term with a minus sign before it. The least whole number has no counterpart and becomes a double. -/
def negated : Term → Term
  | .int n =>
    match Checked.neg? n with
    | some m => .int m
    | none => .float (-Float.ofInt n.toInt)
  | .float x => .float (-x)
  | inner => .call "-" [inner]

/-- A term with a plus sign before it. -/
def affirmed : Term → Term
  | .int n => .int n
  | .float x => .float x
  | inner => .call "+" [inner]

/-- An operator with its operands. Literals that are no truth values cannot be joined as such. -/
def joined? (op : Operator) (left right : Term) : Option Term :=
  if (op = .func .and || op = .func .or) && !(left.mayBeTruth && right.mayBeTruth) then none
  else some (.binary op left right)

/-- What follows a statement: nothing more before a closing brace, else a semicolon, which a statement that
ends in a brace can do without. -/
def separated? (endsInBrace : Bool) : Rest → Option Rest
  | .closeBrace :: rest => some (.closeBrace :: rest)
  | .semicolon :: rest => some rest
  | [] => some []
  | rest => if endsInBrace then some rest else none

namespace Reading

mutual

/-- A chain of operators. -/
def term (room : Nat) (ts : Rest) : Option (Term × Rest) :=
  match room with
  | 0 => none
  | room + 1 => do
    let (left, ts) ← signed room ts
    chain Operator.levels room left ts
termination_by (room, 0, 0)

/-- The operators below a level that follow an operand, with the operands after them. -/
def chain (below room : Nat) (left : Term) (ts : Rest) : Option (Term × Rest) :=
  match operator? below ts with
  | none => some (left, ts)
  | some (⟨level, _⟩, op, ts) => do
    let (right, ts) ← signed room ts
    let (right, ts) ← chain level room right ts
    match room with
    | 0 => none
    | room + 1 => do
      chain below room (← joined? op left right) ts
termination_by (room, below + 4, 0)

/-- Signs before an operand. A statement may open with one after a closing brace. -/
def signed (room : Nat) (ts : Rest) : Option (Term × Rest) :=
  match ts with
  | .negative :: ts | .symbol .minus :: ts =>
    match room with
    | 0 => none
    | room + 1 => do
      let (inner, ts) ← signed room ts
      some (negated inner, ts)
  | .positive :: ts | .symbol .plus :: ts =>
    match room with
    | 0 => none
    | room + 1 => do
      let (inner, ts) ← signed room ts
      some (affirmed inner, ts)
  | .symbol .bang :: ts =>
    match room with
    | 0 => none
    | room + 1 => do
      let (inner, ts) ← signed room ts
      some (.not inner, ts)
  | ts => do
    let (object, rest) ← primary room ts
    parts room object rest
termination_by (room, 3, 0)

/-- What is asked of an object after it: its parts, and functions called on it. -/
def parts (room : Nat) (object : Term) (ts : Rest) : Option (Term × Rest) :=
  match room, ts with
  | room + 1, .symbol .dot :: .word w :: rest =>
    match eat? .opening rest with
    | none => if isFree w then parts room (.part object w) rest else none
    | some rest =>
      if reservedWords.contains w then none
      else
        match eat? .closing rest with
        | some rest => parts room (.send object w []) rest
        | none => do
          let (args, rest) ← arguments room rest
          parts room (.send object w args) rest
  | _, ts => some (object, ts)
termination_by (room, 2, 0)

/-- A literal, a name, a call, a choice, a block or a term in parentheses. -/
def primary (room : Nat) (ts : Rest) : Option (Term × Rest) :=
  match ts with
  | .int n :: rest => some (.int n, rest)
  | .float x :: rest => some (.float x, rest)
  | .text s :: rest => some (.text s, rest)
  | .symbol .opening :: rest =>
    match room with
    | 0 => none
    | room + 1 =>
      match eat? .closing rest with
      | some rest => some (.unit, rest)
      | none => do
        let (inner, rest) ← term room rest
        some (inner, ← eat? .closing rest)
  | .openBrace :: rest =>
    match room with
    | 0 | 1 => none
    | room + 2 => do
      let (body, rest) ← statements room rest
      some (.block (if body.all (·.isNothing) then [.nothing] else body), rest)
  | .word "true" :: rest => some (.bool true, rest)
  | .word "false" :: rest => some (.bool false, rest)
  | .word "this" :: rest => some (.name "this", rest)
  | .word "if" :: rest =>
    match room with
    | 0 => none
    | room + 1 => do
      let (value, rest) ← choice room rest
      some (.block [.eval value], rest)
  | .word w :: rest =>
    match eat? .opening rest with
    | none => if isFree w then some (.name w, rest) else none
    | some rest =>
      if reservedWords.contains w then none
      else
        match eat? .closing rest with
        | some rest => some (.call w [], rest)
        | none =>
          match room with
          | 0 => none
          | room + 1 => do
            let (args, rest) ← arguments room rest
            some (.call w args, rest)
  | _ => none
termination_by (room, 2, 0)

/-- One or more arguments up to the closing parenthesis, which a comma may stand before. -/
def arguments (room : Nat) (ts : Rest) : Option (List Term × Rest) := do
  let (arg, rest) ← term room ts
  match eat? .closing rest with
  | some rest => some ([arg], rest)
  | none =>
    let rest ← eat? .comma rest
    match eat? .closing rest with
    | some rest => some ([arg], rest)
    | none =>
      if rest.length < ts.length then
        let (args, rest) ← arguments room rest
        some (arg :: args, rest)
      else none
termination_by (room, 1, ts.length)

/-- A choice after its first word. A condition cannot open with a brace. The branch that is not written is
empty. -/
def choice (room : Nat) (ts : Rest) : Option (Term × Rest) :=
  match room with
  | 0 | 1 => none
  | room + 2 => do
    if (eatOpen? ts).isSome then none
    else
      let (cond, ts) ← term (room + 1) ts
      if cond.mayBeTruth then
        let (yes, ts) ← statements room (← eatOpen? ts)
        match ts with
        | .word "else" :: .word "if" :: ts => do
          let (no, ts) ← choice (room + 1) ts
          some (.choice cond yes [.eval no], ts)
        | .word "else" :: ts => do
          let (no, ts) ← statements room (← eatOpen? ts)
          some (.choice cond yes no, ts)
        | ts => some (.choice cond yes [], ts)
      else none
termination_by (room, 0, 0)

/-- Statements up to a closing brace. -/
def statements (room : Nat) (ts : Rest) : Option (List Statement × Rest) :=
  match ts with
  | .closeBrace :: rest => some ([], rest)
  | .semicolon :: rest => statements room rest
  | ts => do
    let (statement, endsInBrace, rest) ← statement room ts
    let rest ← separated? endsInBrace rest
    if rest.length < ts.length then
      let (more, rest) ← statements room rest
      some (statement :: more, rest)
    else none
termination_by (room, 2, ts.length)

/-- One statement, and whether it ends in a brace. A block that does nothing has no statements. -/
def statement (room : Nat) (ts : Rest) : Option (Statement × Bool × Rest) :=
  match room with
  | 0 => none
  | room + 1 =>
    match ts with
    | .word "let" :: rest => do
      let (name, rest) ← name? rest
      match room with
      | 0 => none
      | room + 1 =>
        match eat? .assign rest with
        | none => some (.bind name .unit, false, rest)
        | some rest => do
          let (value, rest) ← term room rest
          some (.bind name value, false, rest)
    | .word "return" :: rest =>
      match rest with
      | [] | .semicolon :: _ | .closeBrace :: _ => some (.give .unit, false, rest)
      | rest => do
        let (value, rest) ← term room rest
        some (.give value, false, rest)
    | .word "if" :: rest => do
      let (value, rest) ← choice room rest
      some (.eval value, true, rest)
    | .openBrace :: rest =>
      match room with
      | 0 => none
      | room + 1 => do
        let (body, rest) ← statements room rest
        some (if body.all (·.isNothing) then .nothing else .eval (.block body), true, rest)
    | ts => do
      let (value, rest) ← term room ts
      some (.eval value, false, rest)
termination_by (room, 1, 0)

end

end Reading

/-- Parameter names after an opening parenthesis, up to the closing one, which a comma may stand before. -/
def params? (ts : Rest) : Option (List String × Rest) :=
  match eat? .closing ts with
  | some rest => some ([], rest)
  | none => do
    let (name, rest) ← name? ts
    match eat? .closing rest with
    | some rest => some ([name], rest)
    | none =>
      let rest ← eat? .comma rest
      if rest.length < ts.length then
        let (names, rest) ← params? rest
        some (name :: names, rest)
      else none
termination_by ts.length

/-- Whether no entry occurs twice. -/
def allDistinct {α : Type} [BEq α] : List α → Bool
  | [] => true
  | a :: rest => !rest.contains a && allDistinct rest

/-- A function after its first word, and what follows it. Its parameters have distinct names. The function
and its block open a level each. -/
def definition? (ts : Rest) : Option (Definition × Rest) := do
  let (name, rest) ← name? ts
  let (params, rest) ← params? (← eat? .opening rest)
  let (body, rest) ← Reading.statements (maxLevels - 2) (← eatOpen? rest)
  if allDistinct params then some (⟨name, params, body⟩, rest) else none

/-- All functions and statements up to the end of the tokens. -/
def chunk? (ts : Rest) : Option Chunk :=
  match ts with
  | [] => some ⟨[], []⟩
  | .semicolon :: rest => chunk? rest
  | .word "fn" :: after => do
    let (definition, rest) ← definition? after
    if rest.length ≤ after.length then
      let more ← chunk? rest
      some { more with definitions := definition :: more.definitions }
    else none
  | ts => do
    let (statement, endsInBrace, rest) ← Reading.statement maxLevels ts
    let rest ← separated? endsInBrace rest
    if rest.length < ts.length then
      let more ← chunk? rest
      some { more with main := statement :: more.main }
    else none
termination_by ts.length

/-- Reads the functions and statements of a text. No two functions have the same name and number of
parameters. -/
def parse? (text : String) : Option Chunk := do
  let chunk ← chunk? (← ChunkToken.ofText? text)
  if allDistinct (chunk.definitions.map fun f => (f.name, f.params.length)) then some chunk else none

end Barrage.Chunk
