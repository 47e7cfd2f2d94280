import Barrage.Chunk.Reader
import Barrage.Expr.Printer
import Barrage.Proofs.Expr.Trees

/-!
# Phrases

What is printed for an expression is made of few kinds of parts: literals, names, calls, operators in
parentheses, and choices in parentheses. A *phrase* is a tree of such parts. It has a text, the tokens
that the text is cut into, the term that the tokens are read as, and the number of levels that reading it
takes. The files after this one show that the four fit together; this one shows that every expression
without objects and bindings is printed as a phrase.

## Main definitions

* `Phrase` — the parts of printed text
* `Phrase.text`, `Phrase.tokens`, `Phrase.term`, `Phrase.levels` — what a phrase looks like at each stage
* `Expr.phrase` — the phrase of an expression
* `Expr.Printable` — expressions that have a phrase

## Main results

* `Expr.print_phrase` — an expression is printed as the text of its phrase
-/

namespace Barrage

/-- Parts of printed text. -/
inductive Phrase where
  | unit
  | bool (b : Bool)
  | int (n : Int64)
  /-- The least whole number, as a difference. -/
  | least
  | float (x : Float)
  | text (s : String)
  | name (x : String)
  /-- Operands between which the same operator stands. -/
  | chain (op : Operator) (first : Phrase) (rest : List Phrase)
  | call (function : String) (args : List Phrase)
  | choice (cond yes no : Phrase)

/-- The symbol of an operator. -/
def BinOp.sign : BinOp → Symbol
  | sub => .minus
  | div => .slash
  | rem => .percent
  | lt => .less
  | le => .lessEq
  | gt => .greater
  | ge => .greaterEq
  | eq => .eqEq
  | ne => .notEq

/-- The symbol of an operator; only four functions are written with one. -/
def Operator.sign : Operator → Symbol
  | func .mul => .star
  | func .and => .andAnd
  | func .or => .orOr
  | func _ => .plus
  | op o => o.sign

/-- Whether a double is written with a minus sign. -/
def hasSign (x : Float) : Bool :=
  match Binary.ofFloat x with
  | .finite negative _ _ => negative
  | _ => false

namespace Phrase

/-- Induction over phrases; for chains and calls, the property is known of all operands. -/
@[elab_as_elim]
theorem phraseInduction {motive : Phrase → Prop}
    (unit : motive unit)
    (bool : ∀ b, motive (bool b))
    (int : ∀ n, motive (int n))
    (least : motive least)
    (float : ∀ x, motive (float x))
    (text : ∀ s, motive (text s))
    (name : ∀ x, motive (name x))
    (chain : ∀ op first rest, motive first → (∀ p ∈ rest, motive p) → motive (chain op first rest))
    (call : ∀ function args, (∀ p ∈ args, motive p) → motive (call function args))
    (choice : ∀ cond yes no, motive cond → motive yes → motive no → motive (choice cond yes no))
    : ∀ p, motive p
  | .unit => unit
  | .bool b => bool b
  | .int n => int n
  | .least => least
  | .float x => float x
  | .text s => text s
  | .name x => name x
  | .chain op first rest =>
    chain op first rest
      (phraseInduction unit bool int least float text name chain call choice first)
      fun p _ => phraseInduction unit bool int least float text name chain call choice p
  | .call function args =>
    call function args
      fun p _ => phraseInduction unit bool int least float text name chain call choice p
  | .choice cond yes no =>
    choice cond yes no
      (phraseInduction unit bool int least float text name chain call choice cond)
      (phraseInduction unit bool int least float text name chain call choice yes)
      (phraseInduction unit bool int least float text name chain call choice no)
termination_by p => sizeOf p
decreasing_by
  all_goals
    try have := List.sizeOf_lt_of_mem ‹_ ∈ _›
    simp
    try omega

/-- A number with a sign stands in parentheses. -/
def signedText (signed : Bool) (text : String) : String := if signed then "(" ++ text ++ ")" else text

mutual

/-- The text of a phrase. -/
def toText : Phrase → String
  | unit => "()"
  | bool b => if b then "true" else "false"
  | int n => signedText (n < 0) (toString n.toInt)
  | least => "(-9223372036854775807 - 1)"
  | float x => signedText (hasSign x) (FloatLayout.literal.render x)
  | text s => Text.literal s
  | name x => x
  | chain op first rest =>
    "(" ++ (" " ++ op.sign.text ++ " ").intercalate (first.toText :: toTexts rest) ++ ")"
  | call function args => function ++ "(" ++ ", ".intercalate (toTexts args) ++ ")"
  | choice cond yes no =>
    "(if " ++ cond.toText ++ " \x7b " ++ yes.toText ++ " \x7d else \x7b " ++ no.toText ++ " \x7d)"

/-- The texts of phrases. -/
def toTexts : List Phrase → List String
  | [] => []
  | p :: ps => p.toText :: toTexts ps

end

section Tokens

open ChunkToken

/-- Tokens between parentheses. -/
def enclosed (ts : List ChunkToken) : List ChunkToken :=
  .symbol .opening :: ts ++ [.symbol .closing]

/-- Tokens between braces. -/
def braced (ts : List ChunkToken) : List ChunkToken := .openBrace :: ts ++ [.closeBrace]

/-- The token of a number, in parentheses if it has a sign. -/
def signedToken (signed : Bool) (t : ChunkToken) : List ChunkToken :=
  if signed then enclosed [t] else [t]

mutual

/-- The tokens of a phrase. -/
def tokens : Phrase → List ChunkToken
  | unit => enclosed []
  | bool b => [.word (if b then "true" else "false")]
  | int n => signedToken (n < 0) (.int n)
  | least => enclosed [.int (-9223372036854775807), .symbol .minus, .int 1]
  | float x => signedToken (hasSign x) (.float x)
  | text s => [.text s]
  | name x => [.word x]
  | chain op first rest => enclosed (first.tokens ++ linked (.symbol op.sign) rest)
  | call function [] => .word function :: enclosed []
  | call function (first :: rest) =>
    .word function :: enclosed (first.tokens ++ linked (.symbol .comma) rest)
  | choice cond yes no =>
    enclosed (.word "if" :: cond.tokens ++ braced yes.tokens ++ .word "else" :: braced no.tokens)

/-- The tokens of further operands, with a token before each of them. -/
def linked (link : ChunkToken) : List Phrase → List ChunkToken
  | [] => []
  | p :: ps => link :: p.tokens ++ linked link ps

end

end Tokens

mutual

/-- The term that a phrase is read as. -/
def term : Phrase → Term
  | unit => .unit
  | bool b => .bool b
  | int n => .int n
  | least => .binary (.op .sub) (.int (-9223372036854775807)) (.int 1)
  | float x => .float x
  | text s => .text s
  | name x => .name x
  | chain op first rest => (terms rest).foldl (.binary op) first.term
  | call function args => .call function (terms args)
  | choice cond yes no => .block [.eval (.choice cond.term [.eval yes.term] [.eval no.term])]

/-- The terms that phrases are read as. -/
def terms : List Phrase → List Term
  | [] => []
  | p :: ps => p.term :: terms ps

end

mutual

/-- How many levels reading a phrase opens within the one of its term. -/
def levels : Phrase → Nat
  | unit => 1
  | bool _ | text _ | name _ => 0
  | int n => if n < 0 then 2 else 0
  | least => 3
  | float x => if hasSign x then 2 else 0
  | chain _ first rest => 2 + max first.levels (chainLevels rest)
  | call _ [] => 0
  | call _ (first :: rest) => 2 + max first.levels (mostLevels rest)
  | choice cond yes no => 5 + max cond.levels (2 + max yes.levels no.levels)

/-- How many levels the further operands of a chain open; each of them stands one level below the one
before it. -/
def chainLevels : List Phrase → Nat
  | [] => 0
  | p :: ps => max (max p.levels 1) (1 + chainLevels ps)

/-- The greatest number of levels that one of some phrases opens. -/
def mostLevels : List Phrase → Nat
  | [] => 0
  | p :: ps => max p.levels (mostLevels ps)

end

end Phrase

/-! ### The phrase of an expression -/

/-- The phrase of a double. -/
def floatPhrase (x : Float) : Phrase :=
  match Binary.ofFloat x with
  | .nan => .call "float_nan" []
  | .infinite negative => if negative then .call "neg" [.call "float_inf" []] else .call "float_inf" []
  | .finite _ _ _ => .float x

/-- The phrase of a whole number. -/
def intPhrase (n : Int64) : Phrase := if n = Int64.minValue then .least else .int n

/-- The phrase of a constant; objects have none. -/
def Value.phrase : Value → Phrase
  | float x => floatPhrase x
  | int n => intPhrase n
  | bool b => .bool b
  | vec2 v => .call "vec2" [floatPhrase v.x, floatPhrase v.y]
  | timer _ | entity _ => .unit

/-- The phrase of a call. -/
def Func.phrase (func : Func) (args : List Phrase) : Phrase :=
  match func, args with
  | add, first :: rest | mul, first :: rest | and, first :: rest | or, first :: rest =>
    .chain (.func func) first rest
  | min, first :: rest | max, first :: rest => rest.foldl (fun acc p => .call func.name [acc, p]) first
  | _, args => .call func.name args

namespace Expr

mutual

/-- The phrase of an expression without objects and bindings. -/
def phrase : Expr → Phrase
  | const value => value.phrase
  | var name => .name name
  | member inner field => .call field.getter [inner.phrase]
  | unary op inner => .call op.function [inner.phrase]
  | binary op left right => .chain (.op op) left.phrase [right.phrase]
  | call func args => func.phrase (phrases args)
  | branch cond yes no => .choice cond.phrase yes.phrase no.phrase
  | bind _ _ _ => .unit

/-- The phrases of expressions. -/
def phrases : List Expr → List Phrase
  | [] => []
  | e :: es => e.phrase :: phrases es

end

/-- Expressions that can be printed: without objects, without bindings, and with arguments in every
call. -/
inductive Printable : Expr → Prop
  | const {value : Value} (timer : value.type ≠ .timer) (entity : value.type ≠ .entity) :
    Printable (const value)
  | var (name : String) : Printable (var name)
  | member {inner : Expr} (field : Member) (hinner : Printable inner) :
    Printable (member inner field)
  | unary {inner : Expr} (op : UnOp) (hinner : Printable inner) : Printable (unary op inner)
  | binary {left right : Expr} (op : BinOp) (hleft : Printable left) (hright : Printable right) :
    Printable (binary op left right)
  | call {args : List Expr} (func : Func) (nonempty : args ≠ []) (hargs : ∀ e ∈ args, Printable e) :
    Printable (call func args)
  | branch {cond yes no : Expr} (hcond : Printable cond) (hyes : Printable yes) (hno : Printable no) :
    Printable (branch cond yes no)

end Expr

/-! ### Printing -/

theorem floatLiteral_eq (x : Float) : floatLiteral x = (floatPhrase x).toText := by
  unfold floatLiteral floatPhrase
  cases hx : Binary.ofFloat x with
  | nan => rfl
  | infinite negative => cases negative <;> rfl
  | finite negative mantissa exponent =>
    simp only [Phrase.toText, hasSign, hx]
    rfl

theorem intLiteral_eq (n : Int64) : intLiteral n = (intPhrase n).toText := by
  unfold intLiteral intPhrase
  by_cases hmin : n = Int64.minValue
  · rw [if_pos hmin, if_pos hmin]
    rfl
  · rw [if_neg hmin, if_neg hmin]
    by_cases hneg : n < 0
    · simp [hneg, Phrase.toText, Phrase.signedText]
    · simp [hneg, Phrase.toText, Phrase.signedText]

theorem Value.literal_eq {v : Value} (htimer : v.type ≠ .timer) (hentity : v.type ≠ .entity) :
    v.literal = .ok v.phrase.toText := by
  cases v with
  | float x => exact congrArg Except.ok (floatLiteral_eq x)
  | int n => exact congrArg Except.ok (intLiteral_eq n)
  | bool b => rfl
  | vec2 v =>
    simp only [literal, phrase, Phrase.toText, Phrase.toTexts, floatLiteral_eq,
      String.intercalate_cons_cons, String.intercalate_singleton]
    simp only [String.append_assoc]
    rfl
  | timer handle => exact absurd rfl htimer
  | entity handle => exact absurd rfl hentity

/-- Nested calls of two arguments are printed as they are folded. -/
theorem toText_foldl_call (function : String) (rest : List Phrase) (first : Phrase) :
    (rest.foldl (fun acc p => .call function [acc, p]) first).toText =
      Func.foldCalls function first.toText (Phrase.toTexts rest) := by
  induction rest generalizing first with
  | nil => rfl
  | cons p rest ih =>
    rw [List.foldl_cons, ih]
    simp [Phrase.toTexts, Func.foldCalls, Phrase.toText, String.append_assoc]

theorem Func.print_eq (func : Func) {args : List Phrase} (h : args ≠ []) :
    func.print (Phrase.toTexts args) = (func.phrase args).toText := by
  obtain ⟨first, rest, rfl⟩ := List.exists_cons_of_ne_nil h
  cases func
  case min => exact (toText_foldl_call "min" rest first).symm
  case max => exact (toText_foldl_call "max" rest first).symm
  all_goals rfl

namespace Expr

theorem printList_eq {es : List Expr} (h : ∀ e ∈ es, e.print = .ok e.phrase.toText) :
    printList es = .ok (Phrase.toTexts (phrases es)) := by
  induction es with
  | nil => rfl
  | cons e es ih =>
    simp only [printList, h e (by simp), ih fun e' he => h e' (by simp [he]), Except.ok_bind]
    rfl

theorem phrases_ne_nil {es : List Expr} (h : es ≠ []) : phrases es ≠ [] := by
  obtain ⟨e, es, rfl⟩ := List.exists_cons_of_ne_nil h
  exact List.cons_ne_nil _ _

/-- An expression is printed as the text of its phrase. -/
theorem print_phrase {e : Expr} (h : e.Printable) : e.print = .ok e.phrase.toText := by
  induction h with
  | const htimer hentity => exact Value.literal_eq htimer hentity
  | var name => rfl
  | member field _ ih =>
    rw [print, ih, Except.ok_bind]
    rfl
  | unary op _ ih =>
    rw [print, ih, Except.ok_bind]
    rfl
  | binary op _ _ ihl ihr =>
    rw [print, ihl, Except.ok_bind, ihr, Except.ok_bind]
    have hsymbol : op.symbol = op.sign.text := by cases op <;> rfl
    simp only [phrase, Phrase.toText, Phrase.toTexts, Operator.sign, hsymbol,
      String.intercalate_cons_cons, String.intercalate_singleton, String.append_assoc]
  | call func hargs _ ih =>
    rw [print, printList_eq ih, Except.ok_bind, Func.print_eq func (phrases_ne_nil hargs)]
    rfl
  | branch _ _ _ ihc ihy ihn =>
    rw [print, ihc, Except.ok_bind, ihy, Except.ok_bind, ihn, Except.ok_bind]
    rfl

end Expr

end Barrage
