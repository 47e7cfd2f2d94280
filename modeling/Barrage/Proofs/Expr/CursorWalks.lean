import Barrage.Proofs.Expr.ByteScanning

/-!
# Walking over tokens with a cursor

The readers can be run with a cursor in a table of tokens, the last of which is the mark of the end. A walk looks
at the token under the cursor and takes it; the table is asked for it by position, and a walk of which the cursor
is outside the table is stuck. A walk is also stuck if it would negate the least word, or if it would read
another argument without having taken a token for the last one.

## Main definitions

* `Expr.Cursor`, `Expr.Walk` — cursors and walks
* `Expr.Walk.nested` — the readers as walks
* `Expr.Walk.parseIn` — a text read by bytes and with a cursor
-/

namespace Barrage

/-- Whether a token is a given symbol. -/
def Token.isSymbol : Token → Symbol → Bool
  | symbol t, s => decide (t = s)
  | _, _ => false

/-- Whether a token is a given word. -/
def Token.isWord : Token → String → Bool
  | ident name, word => name == word
  | _, _ => false

/-- The operator of a level that a token stands for. -/
def Token.operator? : Token → Nat → Option Operator
  | symbol s, level => Operator.at? level s
  | _, _ => none

namespace Expr

/-- Whether a tree is the word that has no opposite. -/
def isLeast : Expr → Bool
  | const (.int n) => n == Int64.minValue
  | _ => false

/-- A place among the tokens, and the hosts that names are resolved in. -/
structure Cursor where
  pos : Nat
  hosts : Hosts

/-- Walks over a table of tokens. -/
abbrev Walk := ExceptT Halt (StateM Cursor)

namespace Walk

section

variable (table : List Lexeme)

/-- What is read without taking tokens. -/
def lift {α : Type} (p : Parse α) : Walk α := fun cursor =>
  ((p.run.run cursor.hosts).1.mapError .refused, { cursor with hosts := (p.run.run cursor.hosts).2 })

/-- The place of the cursor. -/
def position : Walk Nat := do return (← get).pos

/-- The token under the cursor, which has to be in the table. -/
def current : Walk Lexeme := do
  match table[← position]? with
  | some l => return l
  | none => throw .stuck

/-- Takes the token under the cursor, which stays at the last one. -/
def bump : Walk Token := do
  let l ← current table
  modify fun cursor => if cursor.pos + 1 < table.length then { cursor with pos := cursor.pos + 1 } else cursor
  return l.token

/-- A fault at the token under the cursor. -/
def fail {α : Type} (fault : ParseFault) : Walk α := do throw (.refused ⟨(← current table).offset, fault⟩)

/-- Takes a symbol if it is next, and tells whether it was. -/
def eat (s : Symbol) : Walk Bool := do
  if (← current table).token.isSymbol s then
    let _ ← bump table
    return true
  else return false

/-- Takes a symbol that has to be next. -/
def expect (s : Symbol) : Walk Unit := do
  if ← eat table s then return ()
  else
    let found := (← current table).token
    fail table (.expectedSymbol s found)

/-- Whether a given word is next. -/
def isWord (word : String) : Walk Bool := do return (← current table).token.isWord word

/-- Takes an operator of a level if one is next. -/
def operator? (level : Nat) : Walk (Option Operator) := do
  match (← current table).token.operator? level with
  | some op =>
    let _ ← bump table
    return some op
  | none => return none

/-- A minus sign before an expression; the word that a number is must have an opposite. -/
def negated (inner : Expr) : Walk Expr :=
  if inner.isLeast then throw .stuck else return Expr.negated inner

/-- The quoted key of a host lookup, in parentheses. -/
def keyArgument : Walk String := do
  expect table .opening
  let offset := (← current table).offset
  match ← bump table with
  | .key text =>
    expect table .closing
    return text
  | found => throw (.refused ⟨offset, .expectedKey found⟩)

mutual

/-- An expression one level further in. -/
def nested (room : Nat) : Walk Expr :=
  match room with
  | 0 => fail table .tooDeep
  | room + 1 => body room
termination_by (room, 0, 0)

/-- A binding, or a chain of operators that a choice may follow. -/
def body (room : Nat) : Walk Expr := do
  if ← isWord table "let" then
    let _ ← bump table
    let offset := (← current table).offset
    match ← bump table with
    | .ident word =>
      let name ← lift (checkedName word offset)
      expect table .assign
      let value ← nested room
      if ← isWord table "in" then
        let _ ← bump table
        let rest ← nested room
        return .bind name value rest
      else fail table .expectedIn
    | found => throw (.refused ⟨offset, .expectedBindingName found⟩)
  else
    let cond ← level Operator.levels room
    if ← eat table .question then
      let yes ← nested room
      expect table .colon
      let no ← nested room
      return .branch cond yes no
    else return cond
termination_by (room, Operator.levels + 6, 0)

/-- A chain of the operators below a level; below the tightest there are the unary ones. -/
def level (above : Nat) (room : Nat) : Walk Expr :=
  match above with
  | 0 => signed room
  | tight + 1 => do
    let left ← level tight room
    chain tight room left
termination_by (room, above + 5, 0)

/-- The operands that follow the first one of a chain. -/
def chain (tight room : Nat) (left : Expr) : Walk Expr := do
  match ← operator? table tight with
  | none => return left
  | some op =>
    match room with
    | 0 => fail table .tooDeep
    | room + 1 =>
      let right ← level tight room
      chain tight room (op.apply left right)
termination_by (room, 0, 0)

/-- Unary operators before an operand. -/
def signed (room : Nat) : Walk Expr := do
  if ← eat table .minus then
    match room with
    | 0 => fail table .tooDeep
    | room + 1 =>
      let inner ← signed room
      negated inner
  else if ← eat table .bang then
    match room with
    | 0 => fail table .tooDeep
    | room + 1 =>
      let inner ← signed room
      return .unary .not inner
  else
    let inner ← primary room
    members room inner
termination_by (room, 4, 0)

/-- Member accesses after an operand. -/
def members (room : Nat) (inner : Expr) : Walk Expr := do
  if ← eat table .dot then
    match room with
    | 0 => fail table .tooDeep
    | room + 1 =>
      let offset := (← current table).offset
      match ← bump table with
      | .ident name =>
        match Member.ofName? name with
        | some field => members room (.member inner field)
        | none => throw (.refused ⟨offset, .unknownMember name⟩)
      | found => throw (.refused ⟨offset, .expectedMember found⟩)
  else return inner
termination_by (room, 0, 0)

/-- A number, a name, a call, a host lookup or an expression in parentheses. -/
def primary (room : Nat) : Walk Expr := do
  let offset := (← current table).offset
  match ← bump table with
  | .float x => return .const (.float x)
  | .int n => return .const (.int n)
  | .symbol .opening =>
    let inner ← nested room
    expect table .closing
    return inner
  | .ident name =>
    if name = "true" then return .const (.bool true)
    else if name = "false" then return .const (.bool false)
    else if name = "timer" then
      let key ← keyArgument table
      let handle ← lift (modifyGet fun hosts => hosts.timer key)
      return .const (.timer handle)
    else if name = "entity" then
      let key ← keyArgument table
      match (← lift get).entity? key with
      | some handle => return .const (.entity handle)
      | none => throw (.refused ⟨offset, .unknownEntity key⟩)
    else if ← eat table .opening then
      match Func.ofName? name with
      | none => throw (.refused ⟨offset, .unknownFunction name⟩)
      | some func =>
        if ← eat table .closing then return .call func []
        else
          let start ← position
          return .call func (← arguments room (table.length - start))
    else return .var (← lift (checkedName name offset))
  | found => throw (.refused ⟨offset, .unexpected found⟩)
termination_by (room, 2, 0)

/-- One or more arguments up to the closing parenthesis, over a number of tokens that are left. -/
def arguments (room : Nat) (left : Nat) : Walk (List Expr) := do
  let arg ← nested room
  if ← eat table .closing then return [arg]
  else
    expect table .comma
    let now ← position
    if table.length - now < left then
      let args ← arguments room (table.length - now)
      return arg :: args
    else throw .stuck
termination_by (room, 1, left)

end

end

/-- Reads a whole text as one expression. -/
def parse (source : String) : Walk Expr := do
  match ByteScan.lexemes source 0 with
  | .error halt => throw halt
  | .ok lexemes =>
    let table := lexemes ++ [⟨source.utf8ByteSize, .finish⟩]
    let e ← nested table maxNesting
    match (← current table).token with
    | .finish => return e
    | found => fail table (.trailing found)

/-- Reads a text against given hosts. -/
def parseIn (hosts : Hosts) (source : String) : Except Halt Expr × Hosts :=
  (((parse source).run.run ⟨0, hosts⟩).1, ((parse source).run.run ⟨0, hosts⟩).2.hosts)

end Walk

end Expr

end Barrage
