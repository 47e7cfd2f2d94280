import Barrage.Expr.Parser
import Barrage.Proofs.Chunk.Reading
import Barrage.Proofs.Expr.Nesting
import Barrage.Proofs.Expr.Sizes
import Barrage.Proofs.Expr.SourceNames

/-!
# Source text and its parts

Source text is made of numbers, names, lookups, operators, calls, choices, bindings and parentheses. A
*surface* is a tree of such parts, parentheses included. It has tokens, each with its spelling, it stands for
an expression, and reading it takes a number of levels. Whether a part can stand at a place without
parentheses is decided by how loosely it binds.

Every expression that source can write at all has a surface with no parentheses but those that its operators
need. More can be put around any part of it.

## Main definitions

* `Surface`, `Surface.tokens`, `Surface.expr` — parts of source text, their tokens, and what they stand for
* `Surface.looseness`, `Surface.WellFormed` — how loosely a part binds, and parts that stand where they may
* `Surface.levels` — the levels that reading a part takes
* `Expr.Writable`, `Expr.surface` — expressions that source can write, and how it writes them
* `Surface.Wraps` — further parentheses

## Main results

* `Expr.Writable.surface_cases` — the surface of an expression stands for it, and can be read
* `Surface.Wraps.wellFormed`, `Surface.Wraps.expr_eq` — further parentheses change nothing
* `Expr.fits_surface` — reading the surface of an expression takes at most two levels for each node
-/

namespace Barrage

open Barrage.Expr

/-! ### Tokens with their spelling -/

/-- The symbol of a unary operator. -/
def UnOp.sign : UnOp → Symbol
  | neg => .minus
  | not => .bang

/-- The name that source calls a function by. -/
def Func.sourceName : Func → String
  | toFloat => "float"
  | f => f.name

/-- A token with the characters it is made of. -/
structure Spelling where
  chars : List Char
  token : Token

namespace Spelling

/-- The characters of a key, of which quotes and backslashes are escaped. -/
def keyChars : List Char → List Char
  | [] => []
  | c :: cs => if c = '"' || c = '\\' then '\\' :: c :: keyChars cs else c :: keyChars cs

/-- What an unsigned number is read as. -/
def numberValue (text : List Char) : Value :=
  match Checked.ofText? (String.ofList text) with
  | some n => .int n
  | none => .float (((Decimal.ofChars? text).map Decimal.toFloat).getD 0.0)

/-- The token of an unsigned number. -/
def number (text : List Char) : Spelling :=
  ⟨text, match numberValue text with
    | .int n => .int n
    | .float x => .float x
    | _ => .finish⟩

/-- A symbol. -/
def symbol (s : Symbol) : Spelling := ⟨s.chars, .symbol s⟩

/-- A word. -/
def word (x : String) : Spelling := ⟨x.toList, .ident x⟩

/-- A key in quotes. -/
def key (text : String) : Spelling := ⟨'"' :: keyChars text.toList ++ ['"'], .key text⟩

end Spelling

/-! ### Surfaces -/

/-- Parts of source text. -/
inductive Surface where
  /-- A number without a sign. -/
  | number (text : List Char)
  | bool (b : Bool)
  | timer (handle : TimerHandle)
  | entity (handle : EntityHandle)
  | name (x : String)
  | sign (op : UnOp) (inner : Surface)
  | member (inner : Surface) (field : Member)
  | join (op : Operator) (left right : Surface)
  | call (func : Func) (args : List Surface)
  | choice (cond yes no : Surface)
  | bind (x : String) (value rest : Surface)
  | parens (inner : Surface)

namespace Surface

/-- Tokens between parentheses. -/
def enclosed (ts : List Spelling) : List Spelling := .symbol .opening :: ts ++ [.symbol .closing]

mutual

/-- The tokens of a surface. -/
def tokens : Surface → List Spelling
  | number text => [.number text]
  | bool b => [.word (if b then "true" else "false")]
  | timer handle => .word "timer" :: enclosed [.key handle.name]
  | entity handle => .word "entity" :: enclosed [.key handle.id]
  | name x => [.word x]
  | sign op inner => .symbol op.sign :: inner.tokens
  | member inner field => inner.tokens ++ [.symbol .dot, .word field.name]
  | join op left right => left.tokens ++ .symbol op.sign :: right.tokens
  | call func args => .word func.sourceName :: .symbol .opening :: listed args
  | choice cond yes no => cond.tokens ++ .symbol .question :: (yes.tokens ++ .symbol .colon :: no.tokens)
  | bind x value rest =>
    .word "let" :: .word x :: .symbol .assign :: (value.tokens ++ .word "in" :: rest.tokens)
  | parens inner => enclosed inner.tokens

/-- The tokens of arguments, with commas between them, and the closing parenthesis. -/
def listed : List Surface → List Spelling
  | [] => [.symbol .closing]
  | [arg] => arg.tokens ++ [.symbol .closing]
  | arg :: next :: args => arg.tokens ++ .symbol .comma :: listed (next :: args)

end

mutual

/-- The expression that a surface stands for. -/
def expr : Surface → Expr
  | number text => .const (Spelling.numberValue text)
  | bool b => .const (.bool b)
  | timer handle => .const (.timer handle)
  | entity handle => .const (.entity handle)
  | name x => .var x
  | sign .neg inner => negated inner.expr
  | sign .not inner => .unary .not inner.expr
  | member inner field => .member inner.expr field
  | join op left right => op.apply left.expr right.expr
  | call func args => .call func (exprs args)
  | choice cond yes no => .branch cond.expr yes.expr no.expr
  | bind x value rest => .bind x value.expr rest.expr
  | parens inner => inner.expr

/-- The expressions that surfaces stand for. -/
def exprs : List Surface → List Expr
  | [] => []
  | s :: ss => s.expr :: exprs ss

end

/-- How loosely a part binds: zero for an operand, one for a sign, two and more for the operators. -/
def looseness : Surface → Nat
  | sign .. => 1
  | join op .. => op.level + 2
  | choice .. | bind .. => Operator.levels + 2
  | _ => 0

/-- How many operators of a level follow each other at the left of a part. -/
def links (level : Nat) : Surface → Nat
  | join op left _ => if op.level = level then left.links level + 1 else 0
  | _ => 0

/-- How many accesses follow each other at the end of a part. -/
def dots : Surface → Nat
  | member inner _ => inner.dots + 1
  | _ => 0

mutual

/-- The levels that reading a part takes. What is read after a part of the same chain stands below it. -/
def levels : Surface → Nat
  | sign _ inner => inner.levels + 1
  | member inner _ => max inner.levels (inner.dots + 1)
  | join op left right => max left.levels (left.links op.level + 1 + right.levels)
  | call _ args => levelsList args
  | choice cond yes no => max cond.levels (max yes.levels no.levels + 1)
  | bind _ value rest => max value.levels rest.levels + 1
  | parens inner => inner.levels + 1
  | _ => 0

/-- The levels that reading arguments takes. -/
def levelsList : List Surface → Nat
  | [] => 0
  | arg :: args => max (arg.levels + 1) (levelsList args)

end

/-- The characters of a surface, with a blank between any two tokens. -/
def chars (s : Surface) : List Char := [' '].intercalate (s.tokens.map (·.chars))

/-- The text of a surface. -/
def text (s : Surface) : String := String.ofList s.chars

end Surface

/-- Names that a variable or a binding may have. -/
structure FreeName (x : String) : Prop extends SourceName x where
  free : keywords.contains x = false

/-- Numbers without a sign: digits around a point, perhaps with an exponent, and whole numbers that fit. -/
inductive IsNumberText : List Char → Prop where
  | float {t : FloatText} (h : t.IsNumeral) : IsNumberText t.chars
  | int {cs : List Char} {n : Int64} (hne : cs ≠ []) (hdigits : ∀ c ∈ cs, c.isDigit = true)
      (hword : Checked.ofText? (String.ofList cs) = some n) : IsNumberText cs

/-- Parts that can be read, given some hosts: names and numbers are such, host objects are known, and
everything that binds too loosely for its place stands in parentheses. -/
inductive Surface.WellFormed (hosts : Hosts) : Surface → Prop where
  | number {text : List Char} (h : IsNumberText text) : WellFormed hosts (number text)
  | bool (b : Bool) : WellFormed hosts (bool b)
  | timer {handle : TimerHandle} (h : hosts.timer handle.name = (handle, hosts)) : WellFormed hosts (timer handle)
  | entity {handle : EntityHandle} (h : hosts.entity? handle.id = some handle) : WellFormed hosts (entity handle)
  | name {x : String} (hx : FreeName x) : WellFormed hosts (name x)
  | sign {op : UnOp} {inner : Surface} (hloose : inner.looseness ≤ 1) (h : WellFormed hosts inner) :
      WellFormed hosts (sign op inner)
  | member {inner : Surface} {field : Member} (hloose : inner.looseness ≤ 0) (h : WellFormed hosts inner) :
      WellFormed hosts (member inner field)
  | join {op : Operator} {left right : Surface} (hop : op.isWritten = true)
      (hleft : left.looseness ≤ op.level + 2) (hright : right.looseness ≤ op.level + 1)
      (hl : WellFormed hosts left) (hr : WellFormed hosts right) : WellFormed hosts (join op left right)
  | call {func : Func} {args : List Surface} (hfunc : func.isInfix = false)
      (hargs : ∀ arg ∈ args, WellFormed hosts arg) : WellFormed hosts (call func args)
  | choice {cond yes no : Surface} (hloose : cond.looseness ≤ Operator.levels + 1) (hcond : WellFormed hosts cond)
      (hyes : WellFormed hosts yes) (hno : WellFormed hosts no) : WellFormed hosts (choice cond yes no)
  | bind {x : String} {value rest : Surface} (hx : FreeName x) (hvalue : WellFormed hosts value)
      (hrest : WellFormed hosts rest) : WellFormed hosts (bind x value rest)
  | parens {inner : Surface} (h : WellFormed hosts inner) : WellFormed hosts (parens inner)

/-- A surface with further parentheses around some of its parts. -/
inductive Surface.Wraps : Surface → Surface → Prop where
  | refl (s : Surface) : Wraps s s
  | around {s s' : Surface} (h : Wraps s s') : Wraps s (parens s')
  | parens {s s' : Surface} (h : Wraps s s') : Wraps (parens s) (parens s')
  | sign {s s' : Surface} (op : UnOp) (h : Wraps s s') : Wraps (sign op s) (sign op s')
  | member {s s' : Surface} (field : Member) (h : Wraps s s') : Wraps (member s field) (member s' field)
  | join {left left' right right' : Surface} (op : Operator) (hl : Wraps left left') (hr : Wraps right right') :
      Wraps (join op left right) (join op left' right')
  | call {args args' : List Surface} (func : Func) (hlength : args.length = args'.length)
      (h : ∀ (i : Nat) s s', args[i]? = some s → args'[i]? = some s' → Wraps s s') :
      Wraps (call func args) (call func args')
  | choice {cond cond' yes yes' no no' : Surface} (hc : Wraps cond cond') (hy : Wraps yes yes')
      (hn : Wraps no no') : Wraps (choice cond yes no) (choice cond' yes' no')
  | bind {value value' rest rest' : Surface} (x : String) (hv : Wraps value value') (hr : Wraps rest rest') :
      Wraps (bind x value rest) (bind x value' rest')

/-! ### Surfaces of expressions -/

namespace Surface

/-- A part in parentheses if it binds too loosely. -/
def fenced (limit : Nat) (s : Surface) : Surface := if s.looseness ≤ limit then s else parens s

/-- Operands around an operator. -/
def joined (op : Operator) (left right : Surface) : Surface :=
  join op (left.fenced (op.level + 2)) (right.fenced (op.level + 1))

/-- A call; some functions are written between their operands. -/
def called (func : Func) (args : List Surface) : Surface :=
  match func.isInfix, args with
  | true, [left, right] => joined (.func func) left right
  | _, args => call func args

/-- A number, perhaps with a sign. -/
def ofNumberText : List Char → Surface
  | '-' :: text => sign .neg (number text)
  | text => number text

end Surface

namespace Expr

/-- Whether an expression is a number. A sign before a number belongs to it. -/
def isNumber : Expr → Bool
  | const (.float _) | const (.int _) => true
  | _ => false

mutual

/-- How an expression is written; vectors are not. -/
def surface : Expr → Surface
  | const (.float x) => .ofNumberText (FloatLayout.literal.render x).toList
  | const (.int n) => .ofNumberText (toString n.toInt).toList
  | const (.bool b) => .bool b
  | const (.timer handle) => .timer handle
  | const (.entity handle) => .entity handle
  | const (.vec2 _) => .number []
  | var x => .name x
  | member inner field => .member (inner.surface.fenced 0) field
  | unary op inner => .sign op (inner.surface.fenced 1)
  | binary op left right => .joined (.op op) left.surface right.surface
  | call func args => .called func (surfaces args)
  | branch cond yes no => .choice (cond.surface.fenced (Operator.levels + 1)) yes.surface no.surface
  | bind x value body => .bind x value.surface body.surface

/-- How expressions are written. -/
def surfaces : List Expr → List Surface
  | [] => []
  | e :: es => e.surface :: surfaces es

end

/-- Expressions that source can write, given some hosts: numbers are finite and above the least word, timers
and entities are those that the hosts have handed out, names are free, a minus sign does not stand before a
number, and a function that is written between its operands has two of them. -/
inductive Writable (hosts : Hosts) : Expr → Prop where
  | float {x : Float} (hx : IsFinite x) : Writable hosts (const (.float x))
  | int {n : Int64} (hn : Int64.minValue < n) : Writable hosts (const (.int n))
  | bool (b : Bool) : Writable hosts (const (.bool b))
  | timer {handle : TimerHandle} (h : hosts.timer handle.name = (handle, hosts)) :
      Writable hosts (const (.timer handle))
  | entity {handle : EntityHandle} (h : hosts.entity? handle.id = some handle) :
      Writable hosts (const (.entity handle))
  | var {x : String} (hx : FreeName x) : Writable hosts (var x)
  | member {inner : Expr} (field : Member) (h : Writable hosts inner) : Writable hosts (member inner field)
  | unary {op : UnOp} {inner : Expr} (hop : op = .neg → inner.isNumber = false) (h : Writable hosts inner) :
      Writable hosts (unary op inner)
  | binary {left right : Expr} (op : BinOp) (hl : Writable hosts left) (hr : Writable hosts right) :
      Writable hosts (binary op left right)
  | call {func : Func} {args : List Expr} (hfunc : func.isInfix = true → args.length = 2)
      (hargs : ∀ arg ∈ args, Writable hosts arg) : Writable hosts (call func args)
  | branch {cond yes no : Expr} (hc : Writable hosts cond) (hy : Writable hosts yes) (hn : Writable hosts no) :
      Writable hosts (branch cond yes no)
  | bind {x : String} {value body : Expr} (hx : FreeName x) (hv : Writable hosts value)
      (hb : Writable hosts body) : Writable hosts (bind x value body)

end Expr

/-! ### Numbers -/

namespace Spelling

theorem numberValue_float {t : FloatText} (h : t.IsNumeral) :
    numberValue t.chars = .float t.numeral.toFloat := by
  obtain ⟨d, ds, hds⟩ := List.exists_cons_of_ne_nil h.whole
  have hd : d.isDigit = true := h.digits d (by simp [hds])
  have hchars : t.chars = d :: (ds ++ '.' :: (t.fraction ++ FloatText.exponentChars t.exponent)) := by
    simp [FloatText.chars, hds]
  -- The point keeps the text from being a whole number.
  have hword : Checked.ofText? (String.ofList t.chars) = none := by
    rw [hchars]
    exact Checked.ofText?_eq_none (.inr hd) (by simp : '.' ∈ _) rfl
  rw [numberValue, hword, FloatText.ofChars?_chars h]
  rfl

theorem numberValue_int {cs : List Char} {n : Int64} (h : Checked.ofText? (String.ofList cs) = some n) :
    numberValue cs = .int n := by
  rw [numberValue, h]

end Spelling

namespace Surface

theorem ofNumberText_digit {d : Char} (hd : d.isDigit = true) (ds : List Char) :
    ofNumberText (d :: ds) = number (d :: ds) := by
  have hminus : d ≠ '-' := Checked.forall_digits (· ≠ '-') (by decide) hd
  unfold ofNumberText
  split
  · rename_i heq
    exact absurd (List.cons.inj heq).1 hminus
  · rfl

variable {hosts : Hosts}

/-- A finite number is written without a sign, or with one before it. -/
theorem float_cases {x : Float} (hx : IsFinite x) :
    (ofNumberText (FloatLayout.literal.render x).toList).expr = .const (.float x) ∧
      (ofNumberText (FloatLayout.literal.render x).toList).WellFormed hosts := by
  obtain ⟨negative, t, ht, hchars, hfloat⟩ := exists_floatText hx
  have hvalue := Spelling.numberValue_float ht
  cases negative with
  | true =>
    rw [hchars]
    refine ⟨?_, .sign (Nat.zero_le _) (.number (.float ht))⟩
    change negated (.const (Spelling.numberValue t.chars)) = _
    rw [hvalue, hfloat]
    rfl
  | false =>
    obtain ⟨d, ds, hds⟩ := List.exists_cons_of_ne_nil ht.whole
    have hd : d.isDigit = true := ht.digits d (by simp [hds])
    have hnumber : ofNumberText t.chars = number t.chars := by
      rw [FloatText.chars, hds]
      exact ofNumberText_digit hd _
    simp only [Bool.false_eq_true, if_false, List.nil_append] at hchars
    rw [hchars, hnumber]
    refine ⟨?_, .number (.float ht)⟩
    change Expr.const (Spelling.numberValue t.chars) = _
    rw [hvalue, hfloat]
    rfl

theorem toInt_neg {n : Int64} (hn : Int64.minValue < n) : (-n).toInt = -n.toInt := by
  have hlow : Int64.minValue.toInt < n.toInt := Int64.lt_iff_toInt_lt.1 hn
  have hhigh := Int64.toInt_le n
  have hmin : Int64.minValue.toInt = -2 ^ 63 := by decide
  have hmax : Int64.maxValue.toInt = 2 ^ 63 - 1 := by decide
  rw [Int64.toInt_neg, Int.bmod_eq_of_le] <;> omega

/-- A whole number above the least one is written without a sign, or with one before it. -/
theorem int_cases {n : Int64} (hn : Int64.minValue < n) :
    (ofNumberText (toString n.toInt).toList).expr = .const (.int n) ∧
      (ofNumberText (toString n.toInt).toList).WellFormed hosts := by
  obtain ⟨sign, d, ds, htext, hdigits, hvalue⟩ := toList_toString n.toInt
  have hd : d.isDigit = true := hdigits d (by simp)
  rw [htext]
  obtain ⟨rfl, hvalue⟩ | ⟨rfl, hvalue⟩ := hvalue
  · have hword : Checked.ofText? (String.ofList (d :: ds)) = some n := by
      rw [← Checked.ofText?_toString n, ← String.ofList_toList (s := toString n.toInt), htext]
      rfl
    rw [List.nil_append, ofNumberText_digit hd]
    exact ⟨congrArg Expr.const (Spelling.numberValue_int hword), .number (.int (by simp) hdigits hword)⟩
  · have hword : Checked.ofText? (String.ofList (d :: ds)) = some (-n) := by
      have hneg : (Nat.ofDigitChars 10 (d :: ds) 0 : Int) = (-n).toInt := by
        rw [toInt_neg hn, hvalue, Int.neg_neg]
        rfl
      rw [Checked.ofText?_digits (by simp) hdigits, hneg, Checked.word?_toInt]
    refine ⟨?_, .sign (Nat.zero_le _) (.number (.int (by simp) hdigits hword))⟩
    -- The sign is read apart from the digits, and then taken into the number.
    change negated (.const (Spelling.numberValue (d :: ds))) = _
    rw [Spelling.numberValue_int hword]
    change Expr.const (.int (- -n)) = _
    rw [Int64.neg_neg]

/-! ### What the surface of an expression stands for -/

theorem exprs_eq_map (ss : List Surface) : exprs ss = ss.map expr := by
  induction ss with
  | nil => rfl
  | cons s ss ih => rw [exprs, ih, List.map_cons]

theorem expr_fenced (limit : Nat) (s : Surface) : (s.fenced limit).expr = s.expr := by
  unfold fenced
  split <;> rfl

theorem looseness_fenced (limit : Nat) (s : Surface) : (s.fenced limit).looseness ≤ limit := by
  unfold fenced
  split
  · assumption
  · exact Nat.zero_le _

theorem WellFormed.fenced {s : Surface} (h : s.WellFormed hosts) (limit : Nat) : (s.fenced limit).WellFormed hosts := by
  unfold Surface.fenced
  split
  · exact h
  · exact .parens h

theorem expr_joined (op : Operator) (left right : Surface) :
    (joined op left right).expr = op.apply left.expr right.expr := by
  rw [joined, expr, expr_fenced, expr_fenced]

theorem WellFormed.joined {op : Operator} {left right : Surface} (hop : op.isWritten = true)
    (hl : left.WellFormed hosts) (hr : right.WellFormed hosts) : (joined op left right).WellFormed hosts :=
  .join hop (looseness_fenced _ _) (looseness_fenced _ _) (hl.fenced _) (hr.fenced _)

theorem isWritten_func {f : Func} (h : f.isInfix = true) : (Operator.func f).isWritten = true := by
  cases f <;> first | rfl | cases h

/-- A call stands for a call, however it is written. -/
theorem called_cases {func : Func} {args : List Surface} (hfunc : func.isInfix = true → args.length = 2)
    (hargs : ∀ arg ∈ args, arg.WellFormed hosts) :
    (called func args).expr = .call func (exprs args) ∧ (called func args).WellFormed hosts := by
  cases hbetween : func.isInfix with
  | false =>
    have hcalled : called func args = call func args := by
      unfold called
      rw [hbetween]
    rw [hcalled]
    exact ⟨rfl, .call hbetween hargs⟩
  | true =>
    obtain ⟨left, right, rfl⟩ := List.length_eq_two.1 (hfunc hbetween)
    have hcalled : called func [left, right] = joined (.func func) left right := by
      unfold called
      rw [hbetween]
    rw [hcalled]
    refine ⟨expr_joined _ _ _, .joined (isWritten_func hbetween) (hargs left ?_) (hargs right ?_)⟩ <;> simp

end Surface

namespace Expr

open Surface

variable {hosts : Hosts} {e : Expr}

theorem surfaces_eq_map (es : List Expr) : surfaces es = es.map surface := by
  induction es with
  | nil => rfl
  | cons e es ih => rw [surfaces, ih, List.map_cons]

theorem negated_eq (h : e.isNumber = false) : negated e = .unary .neg e := by
  unfold negated
  split
  · cases h
  · cases h
  · rfl

/-- The surface of an expression stands for it, and can be read. -/
theorem Writable.surface_cases (h : e.Writable hosts) : e.surface.expr = e ∧ e.surface.WellFormed hosts := by
  induction h with
  | float hx => exact float_cases hx
  | int hn => exact int_cases hn
  | bool b => exact ⟨rfl, .bool b⟩
  | timer h => exact ⟨rfl, .timer h⟩
  | entity h => exact ⟨rfl, .entity h⟩
  | var hx => exact ⟨rfl, .name hx⟩
  | member field _ ih =>
    exact ⟨by rw [surface, expr, expr_fenced, ih.1], .member (looseness_fenced 0 _) (ih.2.fenced 0)⟩
  | @unary op inner hop _ ih =>
    refine ⟨?_, .sign (looseness_fenced 1 _) (ih.2.fenced 1)⟩
    cases op with
    | not => rw [surface, expr, expr_fenced, ih.1]
    | neg =>
      rw [surface, expr, expr_fenced, ih.1]
      exact negated_eq (hop rfl)
  | binary op _ _ hl hr =>
    exact ⟨by rw [surface, expr_joined, hl.1, hr.1]; rfl, .joined rfl hl.2 hr.2⟩
  | @call func args hfunc hargs ih =>
    have hlength : func.isInfix = true → (surfaces args).length = 2 := by simpa [surfaces_eq_map] using hfunc
    have hwell : ∀ arg ∈ surfaces args, arg.WellFormed hosts := by
      rw [surfaces_eq_map]
      exact List.forall_mem_map.2 fun arg harg => (ih arg harg).2
    have hexprs : exprs (surfaces args) = args := by
      rw [exprs_eq_map, surfaces_eq_map, List.map_map]
      exact (List.map_congr_left fun arg harg => (ih arg harg).1).trans (List.map_id _)
    obtain ⟨hexpr, hcalled⟩ := called_cases hlength hwell
    exact ⟨by rw [surface, hexpr, hexprs], hcalled⟩
  | branch _ _ _ hc hy hn =>
    refine ⟨?_, .choice (looseness_fenced _ _) (hc.2.fenced _) hy.2 hn.2⟩
    rw [surface, expr, expr_fenced, hc.1, hy.1, hn.1]
  | bind hx _ _ hv hb => exact ⟨by rw [surface, expr, hv.1, hb.1], .bind hx hv.2 hb.2⟩

end Expr

/-! ### Further parentheses -/

namespace Surface.Wraps

variable {hosts : Hosts} {s s' : Surface}

theorem expr_eq (h : s.Wraps s') : s'.expr = s.expr := by
  induction h with
  | refl => rfl
  | around _ ih => exact ih
  | parens _ ih => exact ih
  | sign op _ ih => cases op <;> rw [expr, expr, ih]
  | member field _ ih => rw [expr, expr, ih]
  | join op _ _ hl hr => rw [expr, expr, hl, hr]
  | @call args args' func hlength _ ih =>
    -- Arguments are wrapped place by place, so the two lists are compared place by place.
    have hargs : args'.map expr = args.map expr := by
      refine List.ext_getElem (by simpa using hlength.symm) fun i hi hi' => ?_
      rw [List.length_map] at hi hi'
      rw [List.getElem_map, List.getElem_map]
      exact ih i _ _ (List.getElem?_eq_getElem hi') (List.getElem?_eq_getElem hi)
    rw [expr, expr, exprs_eq_map, exprs_eq_map, hargs]
  | choice _ _ _ hc hy hn => rw [expr, expr, hc, hy, hn]
  | bind x _ _ hv hr => rw [expr, expr, hv, hr]

theorem looseness_le (h : s.Wraps s') : s'.looseness ≤ s.looseness := by
  cases h with
  | around => exact Nat.zero_le _
  | _ => exact Nat.le_refl _

theorem wellFormed (h : s.Wraps s') (hs : s.WellFormed hosts) : s'.WellFormed hosts := by
  induction h with
  | refl => exact hs
  | around _ ih => exact .parens (ih hs)
  | parens _ ih =>
    cases hs with
    | parens hs => exact .parens (ih hs)
  | sign op h ih =>
    cases hs with
    | sign hloose hs => exact .sign (h.looseness_le.trans hloose) (ih hs)
  | member field h ih =>
    cases hs with
    | member hloose hs => exact .member (h.looseness_le.trans hloose) (ih hs)
  | join op hl hr ihl ihr =>
    cases hs with
    | join hop hleft hright hsl hsr =>
      exact .join hop (hl.looseness_le.trans hleft) (hr.looseness_le.trans hright) (ihl hsl) (ihr hsr)
  | @call args args' func hlength _ ih =>
    cases hs with
    | call hfunc hargs =>
      refine .call hfunc fun arg' harg' => ?_
      obtain ⟨i, hi, rfl⟩ := List.mem_iff_getElem.1 harg'
      have hi' : i < args.length := by omega
      exact ih i _ _ (List.getElem?_eq_getElem hi') (List.getElem?_eq_getElem hi) (hargs _ (List.getElem_mem hi'))
  | choice hc _ _ ihc ihy ihn =>
    cases hs with
    | choice hloose hcond hyes hno =>
      exact .choice (hc.looseness_le.trans hloose) (ihc hcond) (ihy hyes) (ihn hno)
  | bind x _ _ ihv ihr =>
    cases hs with
    | bind hx hvalue hrest => exact .bind hx (ihv hvalue) (ihr hrest)

end Surface.Wraps

/-! ### Levels -/

namespace Surface

theorem levels_fenced (limit : Nat) (s : Surface) : (s.fenced limit).levels ≤ s.levels + 1 := by
  unfold fenced
  split
  · exact Nat.le_succ _
  · exact Nat.le_refl _

theorem links_fenced (level limit : Nat) (s : Surface) : (s.fenced limit).links level ≤ s.links level := by
  unfold fenced
  split
  · exact Nat.le_refl _
  · exact Nat.zero_le _

theorem dots_fenced (limit : Nat) (s : Surface) : (s.fenced limit).dots ≤ s.dots := by
  unfold fenced
  split
  · exact Nat.le_refl _
  · exact Nat.zero_le _

/-- A surface is small for a number of nodes. -/
structure Fits (s : Surface) (n : Nat) : Prop where
  levels : s.levels + 1 ≤ 2 * n
  links : ∀ level, s.links level + 1 ≤ n
  dots : s.dots + 1 ≤ n

variable {s left right : Surface} {m n : Nat}

/-- What neither goes on a chain nor ends in an access need only be small in its levels. -/
theorem Fits.of_levels (hlinks : ∀ level, s.links level = 0) (hdots : s.dots = 0)
    (hlevels : s.levels + 1 ≤ 2 * n) : s.Fits n := by
  refine ⟨hlevels, fun level => ?_, by omega⟩
  rw [hlinks level]
  omega

theorem Fits.joined (op : Operator) (hl : left.Fits m) (hr : right.Fits n) :
    (joined op left right).Fits (m + n + 1) := by
  have hleft := levels_fenced (op.level + 2) left
  have hright := levels_fenced (op.level + 1) right
  have hlinks := links_fenced op.level (op.level + 2) left
  have hl1 := hl.levels
  have hl2 := hl.links op.level
  have hr1 := hr.levels
  refine ⟨?_, fun level => ?_, ?_⟩
  · rw [Surface.joined, Surface.levels]
    omega
  · rw [Surface.joined, Surface.links]
    split
    · rename_i heq
      subst heq
      omega
    · omega
  · change 0 + 1 ≤ _
    omega

theorem levelsList_le {args : List Expr} (h : ∀ e ∈ args, e.surface.Fits e.nodes) :
    levelsList (Expr.surfaces args) ≤ 2 * Expr.nodesList args := by
  induction args with
  | nil => exact Nat.le_refl _
  | cons e es ih =>
    obtain ⟨he, hes⟩ := List.forall_mem_cons.1 h
    have hlevels := he.levels
    have hrest := ih hes
    rw [Expr.surfaces, levelsList, Expr.nodesList]
    omega

theorem fits_called (func : Func) {args : List Expr} (h : ∀ e ∈ args, e.surface.Fits e.nodes) :
    (called func (Expr.surfaces args)).Fits (Expr.nodesList args + 1) := by
  have hcall : (call func (Expr.surfaces args)).Fits (Expr.nodesList args + 1) := by
    have hargs := levelsList_le h
    refine .of_levels (fun _ => rfl) rfl ?_
    rw [Surface.levels]
    omega
  unfold called
  split
  · rename_i left right _ hargs
    obtain ⟨l, r, rfl⟩ : ∃ l r, args = [l, r] := by
      refine List.length_eq_two.1 ?_
      have hlength := congrArg List.length hargs
      simpa [Expr.surfaces_eq_map] using hlength
    cases hargs
    exact Fits.joined _ (h l (by simp)) (h r (by simp))
  · exact hcall

end Surface

namespace Expr

open Surface

/-- Reading an expression takes at most two levels for each of its nodes. -/
theorem fits_surface (e : Expr) : e.surface.Fits e.nodes := by
  -- Chains and accesses are counted apart from levels: what joins them opens a level for each of their parts.
  induction e using treeInduction with
  | const value =>
    have hnumber (text : List Char) : (ofNumberText text).Fits 1 := by
      unfold ofNumberText
      split
      · exact .of_levels (fun _ => rfl) rfl (Nat.le_refl 2)
      · exact .of_levels (fun _ => rfl) rfl (Nat.le_succ 1)
    cases value with
    | float x => exact hnumber _
    | int n => exact hnumber _
    | bool | timer | entity | vec2 => exact .of_levels (fun _ => rfl) rfl (Nat.le_succ 1)
  | var name => exact .of_levels (fun _ => rfl) rfl (Nat.le_succ 1)
  | member inner field ih =>
    have hlevels := levels_fenced 0 inner.surface
    have hdots := dots_fenced 0 inner.surface
    have h1 := ih.levels
    have h2 := ih.dots
    refine ⟨?_, fun level => ?_, ?_⟩
    · rw [surface, Surface.levels, nodes]
      omega
    · change 0 + 1 ≤ _
      rw [nodes]
      omega
    · rw [surface, Surface.dots, nodes]
      omega
  | unary op inner ih =>
    have hlevels := levels_fenced 1 inner.surface
    have h1 := ih.levels
    refine .of_levels (fun _ => rfl) rfl ?_
    rw [surface, Surface.levels, nodes]
    omega
  | binary op left right hl hr => exact hl.joined (.op op) hr
  | call func args ih => exact Surface.fits_called func ih
  | branch cond yes no hc hy hn =>
    have hlevels := levels_fenced (Operator.levels + 1) cond.surface
    have h1 := hc.levels
    have h2 := hy.levels
    have h3 := hn.levels
    refine .of_levels (fun _ => rfl) rfl ?_
    rw [surface, Surface.levels, nodes]
    omega
  | bind name value body hv hb =>
    have h1 := hv.levels
    have h2 := hb.levels
    refine .of_levels (fun _ => rfl) rfl ?_
    rw [surface, Surface.levels, nodes]
    omega

end Expr

end Barrage
