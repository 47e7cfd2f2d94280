import Barrage.Expr.Token

/-!
# Reading expressions

The grammar, from loose to tight: bindings and choices, six levels of left-associative operators,
unary operators, member accesses, and at the core numbers, names, calls, host lookups and expressions
in parentheses. Host lookups are resolved while they are read, so a tree holds the objects themselves.

Nesting is bounded. A parser is given *room*, the number of levels it may still open; parentheses,
arguments, unary operators and every further operand of a chain open one. The room a parser is given
therefore bounds the depth of the tree it builds, and the functions below recurse on it.

## Main definitions

* `Operator.at?`: the operators of a level
* `Expr.Reading`: the mutually recursive readers
* `Expr.parse`: source text to a tree
-/

namespace Barrage

/-- What a symbol between two operands builds. -/
inductive Operator where
  | func (f : Func)
  | op (o : BinOp)
deriving DecidableEq, Repr

namespace Operator

/-- The node of an operator with its operands. -/
def apply : Operator → Expr → Expr → Expr
  | func f, left, right => .call f [left, right]
  | op o, left, right => .binary o left right

/-- The operator that a symbol stands for at a level; the greater the level, the looser it binds. -/
def at? : (level : Nat) → Symbol → Option Operator
  | 0, .star => some (func .mul)
  | 0, .slash => some (op .div)
  | 0, .percent => some (op .rem)
  | 1, .plus => some (func .add)
  | 1, .minus => some (op .sub)
  | 2, .lessEq => some (op .le)
  | 2, .greaterEq => some (op .ge)
  | 2, .less => some (op .lt)
  | 2, .greater => some (op .gt)
  | 3, .eqEq => some (op .eq)
  | 3, .notEq => some (op .ne)
  | 4, .andAnd => some (func .and)
  | 5, .orOr => some (func .or)
  | _, _ => none

/-- The number of levels. -/
def levels : Nat := 6

end Operator

namespace Expr

/-- Readers may create the timers that source names, and keep them if they fail later on. -/
abbrev Parse := ExceptT ParseError (StateM Hosts)

/-- The tokens that are left, in a text of which the end is at a known offset. -/
structure Input where
  tokens : List Lexeme
  finish : Nat

namespace Input

/-- The next token. -/
def token (i : Input) : Token := (i.tokens.head?.map (·.token)).getD .finish

/-- Offset of the next token. -/
def offset (i : Input) : Nat := (i.tokens.head?.map (·.offset)).getD i.finish

/-- The input after its next token. -/
def advance (i : Input) : Input := { i with tokens := i.tokens.tail }

/-- A fault at the next token. -/
def fail {α : Type} (i : Input) (fault : ParseFault) : Parse α := throw ⟨i.offset, fault⟩

/-- The input after a symbol, if that is next. -/
def eat? (i : Input) (s : Symbol) : Option Input :=
  match i.token with
  | .symbol t => if t = s then some i.advance else none
  | _ => none

/-- The input after a symbol that has to come next. -/
def expect (i : Input) (s : Symbol) : Parse Input :=
  match i.eat? s with
  | some i => pure i
  | none => i.fail (.expectedSymbol s i.token)

/-- Whether a given word is next. -/
def isWord (i : Input) (word : String) : Bool :=
  match i.token with
  | .ident name => name == word
  | _ => false

/-- The operator of a level that is next, and the input after it. -/
def operator? (i : Input) (level : Nat) : Option (Operator × Input) :=
  match i.token with
  | .symbol s => (Operator.at? level s).map (·, i.advance)
  | _ => none

end Input

/-- Words that name no variable. -/
def keywords : List String :=
  ["let", "in", "true", "false", "timer", "entity", "fn", "return", "if", "else"]

/-- Whether two underscores follow each other; such names are kept for names made while baking. -/
def hasDoubleUnderscore : List Char → Bool
  | '_' :: '_' :: _ => true
  | _ :: rest => hasDoubleUnderscore rest
  | [] => false

/-- A name that a variable or binding may have. -/
def checkedName (name : String) (offset : Nat) : Parse String :=
  if hasDoubleUnderscore name.toList then throw ⟨offset, .reservedName name⟩
  else if keywords.contains name then throw ⟨offset, .keyword name⟩
  else pure name

/-- A minus sign before an expression; before a number it belongs to the number. -/
def negated : Expr → Expr
  | const (.float x) => const (.float (-x))
  | const (.int n) => const (.int (-n))
  | inner => unary .neg inner

/-- The quoted key of a host lookup, in parentheses. -/
def keyArgument (i : Input) : Parse (String × Input) := do
  let i ← i.expect .opening
  match i.token with
  | .key text => return (text, ← i.advance.expect .closing)
  | found => i.fail (.expectedKey found)

namespace Reading

mutual

/-- An expression one level further in. -/
def nested (room : Nat) (i : Input) : Parse (Expr × Input) :=
  match room with
  | 0 => i.fail .tooDeep
  | room + 1 => body room i
termination_by (room, 0, 0)

/-- A binding, or a chain of operators that a choice may follow. -/
def body (room : Nat) (i : Input) : Parse (Expr × Input) := do
  if i.isWord "let" then
    let i := i.advance
    match i.token with
    | .ident word =>
      let name ← checkedName word i.offset
      let i ← i.advance.expect .assign
      let (value, i) ← nested room i
      if i.isWord "in" then
        let (rest, i) ← nested room i.advance
        return (.bind name value rest, i)
      else i.fail .expectedIn
    | found => i.fail (.expectedBindingName found)
  else
    let (cond, i) ← level Operator.levels room i
    match i.eat? .question with
    | none => return (cond, i)
    | some i =>
      let (yes, i) ← nested room i
      let i ← i.expect .colon
      let (no, i) ← nested room i
      return (.branch cond yes no, i)
termination_by (room, Operator.levels + 6, 0)

/-- A chain of the operators below a level; below the tightest there are the unary ones. -/
def level (above : Nat) (room : Nat) (i : Input) : Parse (Expr × Input) :=
  match above with
  | 0 => signed room i
  | tight + 1 => do
    let (left, i) ← level tight room i
    chain tight room left i
termination_by (room, above + 5, 0)

/-- The operands that follow the first one of a chain. -/
def chain (tight room : Nat) (left : Expr) (i : Input) : Parse (Expr × Input) :=
  match i.operator? tight with
  | none => return (left, i)
  | some (op, i) =>
    match room with
    | 0 => i.fail .tooDeep
    | room + 1 => do
      let (right, i) ← level tight room i
      chain tight room (op.apply left right) i
termination_by (room, 0, 0)

/-- Unary operators before an operand. -/
def signed (room : Nat) (i : Input) : Parse (Expr × Input) :=
  match i.eat? .minus with
  | some i =>
    match room with
    | 0 => i.fail .tooDeep
    | room + 1 => do
      let (inner, i) ← signed room i
      return (negated inner, i)
  | none =>
    match i.eat? .bang with
    | some i =>
      match room with
      | 0 => i.fail .tooDeep
      | room + 1 => do
        let (inner, i) ← signed room i
        return (.unary .not inner, i)
    | none => do
      let (inner, i) ← primary room i
      members room inner i
termination_by (room, 4, 0)

/-- Member accesses after an operand. -/
def members (room : Nat) (inner : Expr) (i : Input) : Parse (Expr × Input) :=
  match i.eat? .dot with
  | none => return (inner, i)
  | some i =>
    match room with
    | 0 => i.fail .tooDeep
    | room + 1 =>
      match i.token with
      | .ident name =>
        match Member.ofName? name with
        | some field => members room (.member inner field) i.advance
        | none => i.fail (.unknownMember name)
      | found => i.fail (.expectedMember found)
termination_by (room, 0, 0)

/-- A number, a name, a call, a host lookup or an expression in parentheses. -/
def primary (room : Nat) (i : Input) : Parse (Expr × Input) := do
  let after := i.advance
  match i.token with
  | .float x => return (.const (.float x), after)
  | .int n => return (.const (.int n), after)
  | .symbol .opening =>
    let (inner, after) ← nested room after
    return (inner, ← after.expect .closing)
  | .ident name =>
    if name = "true" then return (.const (.bool true), after)
    else if name = "false" then return (.const (.bool false), after)
    else if name = "timer" then
      let (key, after) ← keyArgument after
      let handle ← modifyGet fun hosts => hosts.timer key
      return (.const (.timer handle), after)
    else if name = "entity" then
      let (key, after) ← keyArgument after
      match (← get).entity? key with
      | some handle => return (.const (.entity handle), after)
      | none => i.fail (.unknownEntity key)
    else
      match after.eat? .opening with
      | some after =>
        match Func.ofName? name with
        | none => i.fail (.unknownFunction name)
        | some func =>
          match after.eat? .closing with
          | some after => return (.call func [], after)
          | none =>
            let (args, after) ← arguments room after
            return (.call func args, after)
      | none => return (.var (← checkedName name i.offset), after)
  | found => i.fail (.unexpected found)
termination_by (room, 2, 0)

/-- One or more arguments up to the closing parenthesis. Every argument takes a token, so the input
gets shorter from one to the next. -/
def arguments (room : Nat) (i : Input) : Parse (List Expr × Input) := do
  let (arg, rest) ← nested room i
  match rest.eat? .closing with
  | some rest => return ([arg], rest)
  | none =>
    let rest ← rest.expect .comma
    if rest.tokens.length < i.tokens.length then
      let (args, rest) ← arguments room rest
      return (arg :: args, rest)
    else rest.fail (.unexpected rest.token)
termination_by (room, 1, i.tokens.length)

end

end Reading

/-- Reads a whole text as one expression. -/
def parse (source : String) : Parse Expr := do
  let finish := source.utf8ByteSize
  match Lexeme.ofChars 0 source.toList with
  | .error e => throw e
  | .ok tokens =>
    let (e, i) ← Reading.nested maxNesting ⟨tokens, finish⟩
    match i.token with
    | .finish => return e
    | found => i.fail (.trailing found)

/-- Reads a text against given hosts; the hosts with the timers it named come back in any case. -/
def parseIn (hosts : Hosts) (source : String) : Except ParseError Expr × Hosts :=
  (parse source).run.run hosts

end Expr

end Barrage
