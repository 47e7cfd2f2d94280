import Barrage.Proofs.Expr.CursorWalks

/-!
# The walk of a reader

The input of a reader is what the table of tokens holds from the cursor on. Every step of a walk keeps this: the
cursor moves where the input is shortened, and as the last token is never passed, it stays in the table. So a walk
gives what the reader gives, tree or fault, and is never stuck. Two invariants are carried along. The tokens start
between characters of the text, so faults are reported there; and whole numbers have no sign when they are read,
and are never the least word after a minus sign, so each number can be negated.

## Main definitions

* `Expr.ints`, `Expr.Bounded` — the whole numbers of a tree, of which none is the least
* `Tape` — the tokens of a text, and the input at a position among them
* `Expr.Walk.Agrees` — a walk from a position gives what a reader gives
* `Expr.ReadSoundly` — what a text may be read as

## Main results

* `Expr.Walk.nested_agrees` — the walk of a reader
* `Expr.reading_stays_within` — a text read by bytes and with a cursor
-/

namespace Barrage

namespace Expr

/-! ### Whole numbers of a tree -/

mutual

/-- The whole numbers of a tree. -/
def ints : Expr → List Int64
  | const (.int n) => [n]
  | const _ | var _ => []
  | member inner _ | unary _ inner => inner.ints
  | binary _ left right => left.ints ++ right.ints
  | call _ args => intsList args
  | branch cond yes no => cond.ints ++ yes.ints ++ no.ints
  | bind _ value body => value.ints ++ body.ints

/-- The whole numbers of trees. -/
def intsList : List Expr → List Int64
  | [] => []
  | e :: es => e.ints ++ intsList es

end

/-- Trees without the least word. -/
def Bounded (e : Expr) : Prop := ∀ n ∈ e.ints, Int64.minValue.toInt < n.toInt

namespace Bounded

variable {left right cond yes no value body inner : Expr}

theorem int {n : Int64} (h : 0 ≤ n.toInt) : Bounded (.const (.int n)) :=
  List.forall_mem_singleton.2 (Int.lt_of_lt_of_le (by decide) h)

theorem binary (op : BinOp) (hl : left.Bounded) (hr : right.Bounded) : Bounded (.binary op left right) :=
  List.forall_mem_append.2 ⟨hl, hr⟩

theorem branch (hc : cond.Bounded) (hy : yes.Bounded) (hn : no.Bounded) : Bounded (.branch cond yes no) :=
  List.forall_mem_append.2 ⟨List.forall_mem_append.2 ⟨hc, hy⟩, hn⟩

theorem bind (name : String) (hv : value.Bounded) (hb : body.Bounded) : Bounded (.bind name value body) :=
  List.forall_mem_append.2 ⟨hv, hb⟩

theorem call (func : Func) {args : List Expr} (h : ∀ e ∈ args, e.Bounded) : Bounded (.call func args) := by
  change ∀ n ∈ intsList args, Int64.minValue.toInt < n.toInt
  induction args with
  | nil => exact List.forall_mem_nil _
  | cons e es ih =>
    obtain ⟨he, hes⟩ := List.forall_mem_cons.1 h
    exact List.forall_mem_append.2 ⟨he, ih hes⟩

theorem operator (op : Operator) (hl : left.Bounded) (hr : right.Bounded) : Bounded (op.apply left right) := by
  cases op with
  | op o => exact binary o hl hr
  | func f => exact call f (List.forall_mem_cons.2 ⟨hl, List.forall_mem_singleton.2 hr⟩)

/-- A word above the least one has an opposite, which is above it as well. -/
theorem negated (h : inner.Bounded) : (Expr.negated inner).Bounded := by
  unfold Expr.negated
  split
  · exact List.forall_mem_nil _
  · rename_i n
    have hn : Int64.minValue.toInt < n.toInt := h n (List.mem_singleton_self n)
    have hlt := Int64.toInt_lt n
    refine List.forall_mem_singleton.2 ?_
    rw [Int64.toInt_minValue] at hn ⊢
    rw [Int64.toInt_neg, Int.bmod_eq_of_le] <;> omega
  · exact h

theorem isLeast (h : inner.Bounded) : inner.isLeast = false := by
  unfold Expr.isLeast
  split
  · rename_i n
    have hn : Int64.minValue.toInt < n.toInt := h n (List.mem_singleton_self n)
    refine beq_false_of_ne ?_
    rintro rfl
    exact absurd hn (by decide)
  · rfl

end Bounded

end Expr

/-! ### Tokens of a text -/

/-- The tokens of a text. -/
structure Tape (source : String) where
  lexemes : List Lexeme
  placed : ∀ l ∈ lexemes, l.Placed source

namespace Tape

open Barrage.Expr

variable {source : String} (t : Tape source) {pos : Nat}

/-- The tokens with the mark of the end. -/
def table : List Lexeme := t.lexemes ++ [⟨source.utf8ByteSize, .finish⟩]

/-- What is left at a position. -/
def input (pos : Nat) : Input := ⟨t.lexemes.drop pos, source.utf8ByteSize⟩

theorem length_table : t.table.length = t.lexemes.length + 1 := List.length_append

theorem advance_input (pos : Nat) : (t.input pos).advance = t.input (pos + 1) := by
  unfold input Input.advance
  rw [List.tail_drop]

theorem length_tokens (pos : Nat) : (t.input pos).tokens.length = t.lexemes.length - pos := List.length_drop

/-- The token under the cursor is the next one of the input. -/
theorem table_getElem? (h : pos ≤ t.lexemes.length) :
    t.table[pos]? = some ⟨(t.input pos).offset, (t.input pos).token⟩ := by
  unfold table Input.offset Input.token input
  rw [List.head?_drop]
  rcases Nat.lt_or_eq_of_le h with hlt | rfl
  · rw [List.getElem?_append_left hlt, List.getElem?_eq_getElem hlt]
    rfl
  · rw [List.getElem?_append_right (Nat.le_refl _), Nat.sub_self, List.getElem?_eq_none (Nat.le_refl _)]
    rfl

/-- The next token is placed, and so is the end. -/
theorem placed_input (h : pos ≤ t.lexemes.length) :
    Lexeme.Placed source ⟨(t.input pos).offset, (t.input pos).token⟩ := by
  have hmem := List.mem_of_getElem? (t.table_getElem? h)
  rcases List.mem_append.1 hmem with hmem | hmem
  · exact t.placed _ hmem
  · rw [List.mem_singleton.1 hmem]
    exact ⟨String.Pos.Raw.isValid_rawEndPos, fun n hn => nomatch hn⟩

theorem isValid_offset (h : pos ≤ t.lexemes.length) :
    String.Pos.Raw.IsValid source ⟨(t.input pos).offset⟩ := (t.placed_input h).isValid

/-- At the end there is no token but the mark. -/
theorem lt_of_token (h : pos ≤ t.lexemes.length) (htoken : (t.input pos).token ≠ .finish) :
    pos < t.lexemes.length := by
  refine Nat.lt_of_le_of_ne h ?_
  rintro rfl
  refine htoken ?_
  unfold input Input.token
  rw [List.drop_length]
  rfl

end Tape

namespace Expr.Walk

variable {source : String} {t : Tape source} {pos : Nat} {α α' β β' γ : Type}

/-! ### Steps of a walk -/

/-- A walk from a position that ends at another one with a result, and leaves the hosts alone. -/
def Steps (p : Walk α) (pos : Nat) (a : α) (pos' : Nat) : Prop :=
  ∀ hosts, p.run.run ⟨pos, hosts⟩ = (.ok a, ⟨pos', hosts⟩)

theorem steps_pure (a : α) (pos : Nat) : Steps (pure a) pos a pos := fun _ => rfl

theorem run_bind_ok {p : Walk α} {f : α → Walk β} {c c' : Cursor} {a : α} (h : p.run.run c = (.ok a, c')) :
    (p >>= f).run.run c = (f a).run.run c' := by
  rw [ExceptT.run_bind, StateT.run_bind, h]
  rfl

theorem run_bind_error {p : Walk α} {f : α → Walk β} {c c' : Cursor} {e : Halt}
    (h : p.run.run c = (.error e, c')) : (p >>= f).run.run c = (.error e, c') := by
  rw [ExceptT.run_bind, StateT.run_bind, h]
  rfl

theorem Steps.bind {p : Walk α} {f : α → Walk β} {a : α} {b : β} {pos' pos'' : Nat} (hp : Steps p pos a pos')
    (hf : Steps (f a) pos' b pos'') : Steps (p >>= f) pos b pos'' :=
  fun hosts => (run_bind_ok (hp hosts)).trans (hf hosts)

theorem steps_position (pos : Nat) : Steps position pos pos pos := fun _ => rfl

theorem steps_current (h : pos ≤ t.lexemes.length) :
    Steps (current t.table) pos ⟨(t.input pos).offset, (t.input pos).token⟩ pos := by
  unfold current
  refine (steps_position pos).bind ?_
  rw [t.table_getElem? h]
  exact steps_pure _ _

/-- Taking a token shortens the input by it, and does not pass the end. -/
theorem exists_steps_bump (h : pos ≤ t.lexemes.length) :
    ∃ pos', Steps (bump t.table) pos (t.input pos).token pos' ∧ (t.input pos).advance = t.input pos' ∧
      pos ≤ pos' ∧ pos' ≤ t.lexemes.length ∧ ((t.input pos).token ≠ .finish → pos < pos') := by
  have hbump : Steps (bump t.table) pos (t.input pos).token (if pos + 1 < t.table.length then pos + 1 else pos) := by
    unfold bump
    refine (steps_current h).bind fun hosts => ?_
    change (Except.ok _, if pos + 1 < t.table.length then _ else _) = _
    split <;> rfl
  rw [t.length_table] at hbump
  rcases Nat.lt_or_eq_of_le h with hlt | rfl
  · rw [if_pos (by omega)] at hbump
    exact ⟨pos + 1, hbump, t.advance_input pos, by omega, hlt, fun _ => by omega⟩
  · rw [if_neg (by omega)] at hbump
    refine ⟨_, hbump, ?_, Nat.le_refl _, Nat.le_refl _, fun hne => absurd (t.lt_of_token h hne) (Nat.lt_irrefl _)⟩
    rw [t.advance_input, Tape.input, Tape.input, List.drop_length, List.drop_of_length_le (by omega)]

theorem eat?_eq (i : Input) (s : Symbol) : i.eat? s = if i.token.isSymbol s then some i.advance else none := by
  unfold Input.eat? Token.isSymbol
  cases i.token <;> simp

theorem operator?_eq (i : Input) (level : Nat) :
    i.operator? level = (i.token.operator? level).map (·, i.advance) := by
  unfold Input.operator? Token.operator?
  cases i.token <;> rfl

theorem isWord_eq (i : Input) (word : String) : i.isWord word = i.token.isWord word := by
  unfold Input.isWord Token.isWord
  cases i.token <;> rfl

/-- A symbol is taken, or the walk stays where it is. -/
theorem eat_cases (h : pos ≤ t.lexemes.length) (s : Symbol) :
    (∃ pos', Steps (eat t.table s) pos true pos' ∧ (t.input pos).eat? s = some (t.input pos') ∧ pos < pos' ∧
      pos' ≤ t.lexemes.length) ∨
    Steps (eat t.table s) pos false pos ∧ (t.input pos).eat? s = none := by
  rw [eat?_eq]
  cases hsymbol : (t.input pos).token.isSymbol s with
  | true =>
    obtain ⟨pos', hbump, hadvance, -, hle, hlt⟩ := exists_steps_bump h
    refine .inl ⟨pos', (steps_current h).bind ?_, congrArg some hadvance, hlt ?_, hle⟩
    · rw [if_pos hsymbol]
      exact hbump.bind (steps_pure _ _)
    · intro hfinish
      rw [hfinish] at hsymbol
      cases hsymbol
  | false =>
    refine .inr ⟨(steps_current h).bind ?_, rfl⟩
    rw [if_neg (by rw [hsymbol]; exact Bool.false_ne_true)]
    exact steps_pure _ _

theorem steps_isWord (h : pos ≤ t.lexemes.length) (word : String) :
    Steps (isWord t.table word) pos ((t.input pos).isWord word) pos := by
  rw [isWord_eq]
  exact (steps_current h).bind (steps_pure _ _)

/-- An operator is taken, or the walk stays where it is. -/
theorem operator?_cases (h : pos ≤ t.lexemes.length) (level : Nat) :
    (∃ op pos', Steps (operator? t.table level) pos (some op) pos' ∧
      (t.input pos).operator? level = some (op, t.input pos') ∧ pos ≤ pos' ∧ pos' ≤ t.lexemes.length) ∨
    Steps (operator? t.table level) pos none pos ∧ (t.input pos).operator? level = none := by
  rw [operator?_eq]
  cases hop : (t.input pos).token.operator? level with
  | some op =>
    obtain ⟨pos', hbump, hadvance, hle, hle', -⟩ := exists_steps_bump h
    refine .inl ⟨op, pos', (steps_current h).bind ?_, congrArg (fun i => some (op, i)) hadvance, hle, hle'⟩
    rw [hop]
    exact hbump.bind (steps_pure _ _)
  | none =>
    refine .inr ⟨(steps_current h).bind ?_, rfl⟩
    rw [hop]
    exact steps_pure _ _

/-! ### Walks and readers -/

/-- A walk from a position gives what a reader gives: results that stand in a relation, with the cursor further on
among the tokens, or the same fault, which is between characters of the text. -/
def Agrees (t : Tape source) (pos : Nat) (R : Nat → α → β → Prop) (p : Walk α) (q : Parse β) : Prop :=
  ∀ hosts, ∃ pos' later, pos ≤ pos' ∧ pos' ≤ t.lexemes.length ∧
    ((∃ a b, p.run.run ⟨pos, hosts⟩ = (.ok a, ⟨pos', later⟩) ∧ q.run.run hosts = (.ok b, later) ∧ R pos' a b) ∨
      ∃ e, p.run.run ⟨pos, hosts⟩ = (.error (.refused e), ⟨pos', later⟩) ∧ q.run.run hosts = (.error e, later) ∧
        String.Pos.Raw.IsValid source ⟨e.offset⟩)

section Rules

variable {R : Nat → α → α' → Prop} {S : Nat → β → β' → Prop}

theorem agrees_pure {a : α} {b : α'} (h : pos ≤ t.lexemes.length) (hR : R pos a b) :
    Agrees t pos R (pure a) (pure b) :=
  fun hosts => ⟨pos, hosts, Nat.le_refl _, h, .inl ⟨a, b, rfl, rfl, hR⟩⟩

theorem agrees_refused {e : ParseError} (h : pos ≤ t.lexemes.length)
    (he : String.Pos.Raw.IsValid source ⟨e.offset⟩) : Agrees t pos R (throw (.refused e)) (throw e) :=
  fun hosts => ⟨pos, hosts, Nat.le_refl _, h, .inr ⟨e, rfl, rfl, he⟩⟩

/-- Sequencing: what follows may rely on what relates the first results. -/
theorem Agrees.bind {p : Walk α} {q : Parse α'} {f : α → Walk β} {g : α' → Parse β'} (hpq : Agrees t pos R p q)
    (hfg : ∀ pos' a b, pos ≤ pos' → pos' ≤ t.lexemes.length → R pos' a b → Agrees t pos' S (f a) (g b)) :
    Agrees t pos S (p >>= f) (q >>= g) := by
  intro hosts
  obtain ⟨pos', later, hle, hend, ⟨a, b, hp, hq, hR⟩ | ⟨e, hp, hq, he⟩⟩ := hpq hosts
  · obtain ⟨pos'', last, hle', hend', hresult⟩ := hfg pos' a b hle hend hR later
    refine ⟨pos'', last, Nat.le_trans hle hle', hend', ?_⟩
    rw [run_bind_ok hp, Parse.run_bind_of_ok hq]
    exact hresult
  · refine ⟨pos', later, hle, hend, .inr ⟨e, ?_, ?_, he⟩⟩
    · rw [run_bind_error hp]
    · rw [Parse.run_bind_of_error hq]

/-- Steps that a walk makes by itself. -/
theorem Agrees.after {p : Walk γ} {c : γ} {f : γ → Walk α} {q : Parse α'} {pos' : Nat} (hp : Steps p pos c pos')
    (hle : pos ≤ pos') (h : Agrees t pos' R (f c) q) : Agrees t pos R (p >>= f) q := by
  intro hosts
  obtain ⟨pos'', later, hle', hend, hresult⟩ := h hosts
  refine ⟨pos'', later, Nat.le_trans hle hle', hend, ?_⟩
  rw [run_bind_ok (hp hosts)]
  exact hresult

theorem agrees_fail (h : pos ≤ t.lexemes.length) (fault : ParseFault) :
    Agrees t pos R (fail t.table fault) ((t.input pos).fail fault) :=
  .after (steps_current h) (Nat.le_refl _) (agrees_refused h (t.isValid_offset h))

/-- What is read without taking tokens. -/
theorem agrees_lift (h : pos ≤ t.lexemes.length) {p : Parse α}
    (hp : ∀ hosts e, (p.run.run hosts).1 = .error e → String.Pos.Raw.IsValid source ⟨e.offset⟩) :
    Agrees t pos (fun pos' a b => pos' = pos ∧ a = b) (lift p) p := by
  intro hosts
  refine ⟨pos, (p.run.run hosts).2, Nat.le_refl _, h, ?_⟩
  have hrun : (lift p).run.run ⟨pos, hosts⟩ =
      ((p.run.run hosts).1.mapError .refused, ⟨pos, (p.run.run hosts).2⟩) := rfl
  rw [hrun]
  rcases hresult : p.run.run hosts with ⟨e | a, later⟩
  · exact .inr ⟨e, rfl, rfl, hp hosts e (by rw [hresult])⟩
  · exact .inl ⟨a, a, rfl, rfl, rfl, rfl⟩

theorem agrees_checkedName (h : pos ≤ t.lexemes.length) (name : String) {offset : Nat}
    (hoffset : String.Pos.Raw.IsValid source ⟨offset⟩) :
    Agrees t pos (fun pos' a b => pos' = pos ∧ a = b) (lift (checkedName name offset)) (checkedName name offset) := by
  refine agrees_lift h fun hosts e he => ?_
  unfold checkedName at he
  split at he
  · cases he
    exact hoffset
  split at he
  · cases he
    exact hoffset
  · cases he

/-- A symbol that has to come next is taken. -/
theorem agrees_expect (h : pos ≤ t.lexemes.length) (s : Symbol) :
    Agrees t pos (fun pos' _ i => pos < pos' ∧ i = t.input pos') (expect t.table s) ((t.input pos).expect s) := by
  unfold expect Input.expect
  rcases eat_cases h s with ⟨pos', heat, hinput, hlt, hle⟩ | ⟨heat, hinput⟩
  · rw [hinput]
    exact .after heat (Nat.le_of_lt hlt) (agrees_pure hle ⟨hlt, rfl⟩)
  · rw [hinput]
    exact .after heat (Nat.le_refl _) (.after (steps_current h) (Nat.le_refl _) (agrees_fail h _))

theorem Agrees.bind_expect {s : Symbol} {f : Unit → Walk α} {g : Input → Parse α'} (h : pos ≤ t.lexemes.length)
    (hfg : ∀ pos', pos < pos' → pos' ≤ t.lexemes.length → Agrees t pos' R (f ()) (g (t.input pos'))) :
    Agrees t pos R (expect t.table s >>= f) ((t.input pos).expect s >>= g) := by
  refine (agrees_expect h s).bind fun pos' _ i _ hle ⟨hlt, hi⟩ => ?_
  rw [hi]
  exact hfg pos' hlt hle

/-- The key of a host lookup. -/
theorem agrees_keyArgument (h : pos ≤ t.lexemes.length) :
    Agrees t pos (fun pos' a b => b = (a, t.input pos')) (keyArgument t.table) (Expr.keyArgument (t.input pos)) := by
  unfold keyArgument Expr.keyArgument
  refine .bind_expect h fun pos₁ _ h₁ => ?_
  refine .after (steps_current h₁) (Nat.le_refl _) ?_
  obtain ⟨pos₂, hbump, hadvance, hle, h₂, -⟩ := exists_steps_bump h₁
  refine .after hbump hle ?_
  have hoffset := t.isValid_offset h₁
  rw [hadvance]
  cases (t.input pos₁).token with
  | key text => exact .bind_expect h₂ fun pos₃ _ h₃ => agrees_pure h₃ rfl
  | _ => exact agrees_refused h₂ hoffset

/-! ### Readers -/

/-- What a walk and a reader hand over: the same tree, of which the numbers have opposites, and the input that the
cursor is at. -/
def Reads (t : Tape source) (pos : Nat) (e : Expr) (r : Expr × Input) : Prop :=
  r = (e, t.input pos) ∧ e.Bounded

theorem Agrees.bind_read {p : Walk Expr} {q : Parse (Expr × Input)} {f : Expr → Walk α}
    {g : Expr × Input → Parse α'} (hpq : Agrees t pos (Reads t) p q)
    (hfg : ∀ pos' e, pos ≤ pos' → pos' ≤ t.lexemes.length → e.Bounded →
      Agrees t pos' R (f e) (g (e, t.input pos'))) : Agrees t pos R (p >>= f) (q >>= g) := by
  refine hpq.bind fun pos' e r hle hend ⟨hr, hbounded⟩ => ?_
  rw [hr]
  exact hfg pos' e hle hend hbounded

theorem agrees_read {e : Expr} (h : pos ≤ t.lexemes.length) (he : e.Bounded) :
    Agrees t pos (Reads t) (pure e) (pure (e, t.input pos)) :=
  agrees_pure h ⟨rfl, he⟩

theorem agrees_negated {inner : Expr} (h : pos ≤ t.lexemes.length) (he : inner.Bounded) :
    Agrees t pos (Reads t) (negated inner) (pure (Expr.negated inner, t.input pos)) := by
  unfold negated
  rw [he.isLeast]
  exact agrees_read h he.negated

end Rules

mutual

/-- The walk of a reader. -/
theorem nested_agrees (room pos : Nat) (h : pos ≤ t.lexemes.length) :
    Agrees t pos (Reads t) (nested t.table room) (Reading.nested room (t.input pos)) := by
  unfold nested Reading.nested
  cases room with
  | zero => exact agrees_fail h _
  | succ room =>
    intro hosts
    exact body_agrees room pos h hosts
termination_by (room, 0, 0)

theorem body_agrees (room pos : Nat) (h : pos ≤ t.lexemes.length) :
    Agrees t pos (Reads t) (body t.table room) (Reading.body room (t.input pos)) := by
  unfold body Reading.body
  refine .after (steps_isWord h "let") (Nat.le_refl _) ?_
  cases (t.input pos).isWord "let" with
  | true =>
    obtain ⟨pos₁, hbump, hadvance, hle₁, h₁, -⟩ := exists_steps_bump h
    rw [if_pos rfl, if_pos rfl]
    dsimp only
    rw [hadvance]
    refine .after hbump hle₁ (.after (steps_current h₁) (Nat.le_refl _) ?_)
    obtain ⟨pos₂, hbump, hadvance, hle₂, h₂, -⟩ := exists_steps_bump h₁
    rw [hadvance]
    refine .after hbump hle₂ ?_
    have hoffset := t.isValid_offset h₁
    cases (t.input pos₁).token with
    | ident word =>
      refine (agrees_checkedName h₂ word hoffset).bind fun pos₃ name name' _ _ ⟨hpos, hname⟩ => ?_
      rw [hpos, ← hname]
      refine .bind_expect h₂ fun pos₄ _ h₄ => ?_
      refine (nested_agrees room pos₄ h₄).bind_read fun pos₅ value _ h₅ hvalue => ?_
      refine .after (steps_isWord h₅ "in") (Nat.le_refl _) ?_
      dsimp only
      cases (t.input pos₅).isWord "in" with
      | true =>
        obtain ⟨pos₆, hbump, hadvance, hle₆, h₆, -⟩ := exists_steps_bump h₅
        rw [if_pos rfl, if_pos rfl, hadvance]
        refine .after hbump hle₆ ?_
        exact (nested_agrees room pos₆ h₆).bind_read fun pos₇ rest _ h₇ hrest => agrees_read h₇ (hvalue.bind name hrest)
      | false => exact agrees_fail h₅ _
    | _ => exact agrees_refused h₂ hoffset
  | false =>
    rw [if_neg Bool.false_ne_true, if_neg Bool.false_ne_true]
    refine (level_agrees Operator.levels room pos h).bind_read fun pos₁ cond _ h₁ hcond => ?_
    rcases eat_cases h₁ .question with ⟨pos₂, heat, hinput, hlt, h₂⟩ | ⟨heat, hinput⟩
    · dsimp only
      rw [hinput]
      refine .after heat (Nat.le_of_lt hlt) ?_
      refine (nested_agrees room pos₂ h₂).bind_read fun pos₃ yes _ h₃ hyes => ?_
      refine .bind_expect h₃ fun pos₄ _ h₄ => ?_
      exact (nested_agrees room pos₄ h₄).bind_read fun pos₅ no _ h₅ hno => agrees_read h₅ (hcond.branch hyes hno)
    · dsimp only
      rw [hinput]
      exact .after heat (Nat.le_refl _) (agrees_read h₁ hcond)
termination_by (room, Operator.levels + 6, 0)

theorem level_agrees (above room pos : Nat) (h : pos ≤ t.lexemes.length) :
    Agrees t pos (Reads t) (level t.table above room) (Reading.level above room (t.input pos)) := by
  cases above with
  | zero => 
    unfold level Reading.level
    exact signed_agrees room pos h
  | succ tight =>
    unfold level Reading.level
    exact (level_agrees tight room pos h).bind_read fun pos₁ left _ h₁ hleft => chain_agrees tight room pos₁ h₁ hleft
termination_by (room, above + 5, 0)

theorem chain_agrees (tight room pos : Nat) (h : pos ≤ t.lexemes.length) {left : Expr} (hleft : left.Bounded) :
    Agrees t pos (Reads t) (chain t.table tight room left) (Reading.chain tight room left (t.input pos)) := by
  unfold chain Reading.chain
  rcases operator?_cases h tight with ⟨op, pos₁, hop, hinput, hle, h₁⟩ | ⟨hop, hinput⟩
  · rw [hinput]
    refine .after hop hle ?_
    cases room with
    | zero => exact agrees_fail h₁ _
    | succ room =>
      refine (level_agrees tight room pos₁ h₁).bind_read fun pos₂ right _ h₂ hright => ?_
      exact chain_agrees tight room pos₂ h₂ (hleft.operator op hright)
  · rw [hinput]
    exact .after hop (Nat.le_refl _) (agrees_read h hleft)
termination_by (room, 0, 0)

theorem signed_agrees (room pos : Nat) (h : pos ≤ t.lexemes.length) :
    Agrees t pos (Reads t) (signed t.table room) (Reading.signed room (t.input pos)) := by
  unfold signed Reading.signed
  rcases eat_cases h .minus with ⟨pos₁, heat, hinput, hlt, h₁⟩ | ⟨heat, hinput⟩
  · rw [hinput]
    refine .after heat (Nat.le_of_lt hlt) ?_
    cases room with
    | zero => exact agrees_fail h₁ _
    | succ room =>
      exact (signed_agrees room pos₁ h₁).bind_read fun pos₂ inner _ h₂ hinner => agrees_negated h₂ hinner
  rw [hinput]
  refine .after heat (Nat.le_refl _) ?_
  rcases eat_cases h .bang with ⟨pos₁, heat, hinput, hlt, h₁⟩ | ⟨heat, hinput⟩
  · rw [hinput]
    refine .after heat (Nat.le_of_lt hlt) ?_
    cases room with
    | zero => exact agrees_fail h₁ _
    | succ room =>
      exact (signed_agrees room pos₁ h₁).bind_read fun pos₂ inner _ h₂ hinner => agrees_read h₂ hinner
  · rw [hinput]
    refine .after heat (Nat.le_refl _) ?_
    exact (primary_agrees room pos h).bind_read fun pos₁ inner _ h₁ hinner => members_agrees room pos₁ h₁ hinner
termination_by (room, 4, 0)

theorem members_agrees (room pos : Nat) (h : pos ≤ t.lexemes.length) {inner : Expr} (hinner : inner.Bounded) :
    Agrees t pos (Reads t) (members t.table room inner) (Reading.members room inner (t.input pos)) := by
  unfold members Reading.members
  rcases eat_cases h .dot with ⟨pos₁, heat, hinput, hlt, h₁⟩ | ⟨heat, hinput⟩
  · rw [hinput]
    refine .after heat (Nat.le_of_lt hlt) ?_
    cases room with
    | zero => exact agrees_fail h₁ _
    | succ room =>
      dsimp only
      refine .after (steps_current h₁) (Nat.le_refl _) ?_
      obtain ⟨pos₂, hbump, hadvance, hle, h₂, -⟩ := exists_steps_bump h₁
      rw [hadvance]
      refine .after hbump hle ?_
      have hoffset := t.isValid_offset h₁
      cases (t.input pos₁).token with
      | ident name =>
        dsimp only
        cases Member.ofName? name with
        | some field => exact members_agrees room pos₂ h₂ hinner
        | none => exact agrees_refused h₂ hoffset
      | _ => exact agrees_refused h₂ hoffset
  · rw [hinput]
    exact .after heat (Nat.le_refl _) (agrees_read h hinner)
termination_by (room, 0, 0)

theorem primary_agrees (room pos : Nat) (h : pos ≤ t.lexemes.length) :
    Agrees t pos (Reads t) (primary t.table room) (Reading.primary room (t.input pos)) := by
  unfold primary Reading.primary
  refine .after (steps_current h) (Nat.le_refl _) ?_
  obtain ⟨pos₁, hbump, hadvance, hle, h₁, -⟩ := exists_steps_bump h
  dsimp only
  rw [hadvance]
  refine .after hbump hle ?_
  have hplaced := t.placed_input h
  have hoffset := hplaced.isValid
  cases htoken : (t.input pos).token with
  | float x => exact agrees_read h₁ (List.forall_mem_nil _)
  | int n => exact agrees_read h₁ (.int (hplaced.unsigned n htoken))
  | symbol s =>
    cases s with
    | opening =>
      refine (nested_agrees room pos₁ h₁).bind_read fun pos₂ inner _ h₂ hinner => ?_
      exact .bind_expect h₂ fun pos₃ _ h₃ => agrees_read h₃ hinner
    | _ => exact agrees_refused h₁ hoffset
  | ident name =>
    dsimp only
    split
    · exact agrees_read h₁ (List.forall_mem_nil _)
    split
    · exact agrees_read h₁ (List.forall_mem_nil _)
    split
    · refine (agrees_keyArgument h₁).bind fun pos₂ key r _ h₂ hr => ?_
      rw [hr]
      refine (agrees_lift h₂ fun _ _ he => by cases he).bind fun pos₃ handle handle' _ _ ⟨hpos, hhandle⟩ => ?_
      rw [hpos, ← hhandle]
      exact agrees_read h₂ (List.forall_mem_nil _)
    split
    · refine (agrees_keyArgument h₁).bind fun pos₂ key r _ h₂ hr => ?_
      rw [hr]
      refine (agrees_lift h₂ fun _ _ he => by cases he).bind fun pos₃ hosts hosts' _ _ ⟨hpos, hhosts⟩ => ?_
      rw [hpos, ← hhosts]
      dsimp only
      cases hosts.entity? key with
      | some handle => exact agrees_read h₂ (List.forall_mem_nil _)
      | none => exact agrees_refused h₂ hoffset
    · rcases eat_cases h₁ .opening with ⟨pos₂, heat, hinput, hlt, h₂⟩ | ⟨heat, hinput⟩
      · rw [hinput]
        refine .after heat (Nat.le_of_lt hlt) ?_
        dsimp only
        cases Func.ofName? name with
        | none => exact agrees_refused h₂ hoffset
        | some func =>
          rcases eat_cases h₂ .closing with ⟨pos₃, heat, hinput, hlt, h₃⟩ | ⟨heat, hinput⟩
          · dsimp only
            rw [hinput]
            exact .after heat (Nat.le_of_lt hlt) (agrees_read h₃ (.call func (List.forall_mem_nil _)))
          · dsimp only
            rw [hinput]
            refine .after heat (Nat.le_refl _) (.after (steps_position pos₂) (Nat.le_refl _) ?_)
            refine (arguments_agrees room pos₂ h₂).bind fun pos₃ args r _ h₃ ⟨hr, hargs⟩ => ?_
            rw [hr]
            exact agrees_read h₃ (.call func hargs)
      · rw [hinput]
        refine .after heat (Nat.le_refl _) ?_
        refine (agrees_checkedName h₁ name hoffset).bind fun pos₂ name name' _ _ ⟨hpos, hname⟩ => ?_
        rw [hpos, ← hname]
        exact agrees_read h₁ (List.forall_mem_nil _)
  | _ => exact agrees_refused h₁ hoffset
termination_by (room, 2, 0)

theorem arguments_agrees (room pos : Nat) (h : pos ≤ t.lexemes.length) :
    Agrees t pos (fun pos' es r => r = (es, t.input pos') ∧ ∀ e ∈ es, e.Bounded)
      (arguments t.table room (t.table.length - pos)) (Reading.arguments room (t.input pos)) := by
  unfold arguments Reading.arguments
  refine (nested_agrees room pos h).bind_read fun pos₁ arg hle₁ h₁ harg => ?_
  dsimp only
  rcases eat_cases h₁ .closing with ⟨pos₂, heat, hinput, hlt, h₂⟩ | ⟨heat, hinput⟩
  · rw [hinput]
    exact .after heat (Nat.le_of_lt hlt) (agrees_pure h₂ ⟨rfl, List.forall_mem_singleton.2 harg⟩)
  · rw [hinput]
    refine .after heat (Nat.le_refl _) (.bind_expect h₁ fun pos₂ hlt h₂ => ?_)
    have htable := t.length_table
    refine .after (steps_position pos₂) (Nat.le_refl _) ?_
    -- The comma is a token, so the argument before it and the comma have taken one.
    rw [if_pos (by omega), if_pos (by rw [t.length_tokens, t.length_tokens]; omega)]
    refine (arguments_agrees room pos₂ h₂).bind fun pos₃ args r _ h₃ ⟨hr, hargs⟩ => ?_
    rw [hr]
    exact agrees_pure h₃ ⟨rfl, List.forall_mem_cons.2 ⟨harg, hargs⟩⟩
termination_by (room, 1, t.lexemes.length - pos)

end

/-! ### Texts -/

theorem agrees_parse {source : String} {lexemes : List Lexeme}
    (hlexemes : Lexeme.ofChars 0 source.toList = .ok lexemes) :
    ∃ t : Tape source, Agrees t 0 (fun _ e e' => e = e' ∧ e.Bounded) (parse source) (Expr.parse source) := by
  have hleaves := Text.leaves_zero source
  let t : Tape source := ⟨lexemes, fun l hl => Lexeme.placed_of_mem hleaves hlexemes hl⟩
  refine ⟨t, ?_⟩
  unfold parse Expr.parse
  rw [ByteScan.lexemes_eq hleaves, hlexemes]
  refine (nested_agrees maxNesting 0 (t := t) (Nat.zero_le _)).bind_read fun pos e _ h he => ?_
  refine .after (steps_current h) (Nat.le_refl _) ?_
  dsimp only
  cases (t.input pos).token with
  | finish => exact agrees_pure h ⟨rfl, he⟩
  | _ => exact agrees_fail h _

end Expr.Walk

namespace Expr

/-- What a text may be read as: a tree of which each whole number is above the least word, or a fault within the
text and between its characters. -/
inductive ReadSoundly (source : String) : Except ParseError Expr → Prop
  | tree {e : Expr} (bounded : ∀ n ∈ e.ints, Int64.minValue.toInt < n.toInt) : ReadSoundly source (.ok e)
  | fault {e : ParseError} (within : e.offset ≤ source.utf8ByteSize)
      (boundary : String.Pos.Raw.IsValid source ⟨e.offset⟩) : ReadSoundly source (.error e)

theorem ReadSoundly.of_isValid {source : String} {e : ParseError}
    (h : String.Pos.Raw.IsValid source ⟨e.offset⟩) : ReadSoundly source (.error e) :=
  .fault h.le_rawEndPos h

/-- Whatever the text and the hosts are, reading by bytes and with a cursor gives a tree or a fault, and these are
what the readers give: no byte is read outside the text, no part is cut out of it within a character, the cursor
stays in the table of tokens, and the least word is not negated. -/
theorem reading_stays_within (hosts : Hosts) (source : String) :
    Walk.parseIn hosts source = ((parseIn hosts source).1.mapError .refused, (parseIn hosts source).2) ∧
      ReadSoundly source (parseIn hosts source).1 := by
  unfold Walk.parseIn parseIn
  cases hlexemes : Lexeme.ofChars 0 source.toList with
  | error e =>
    have hleaves := Text.leaves_zero source
    have hbytes : (Walk.parse source).run.run ⟨0, hosts⟩ = (.error (.refused e), ⟨0, hosts⟩) := by
      unfold Walk.parse
      rw [ByteScan.lexemes_eq hleaves, hlexemes]
      rfl
    have hchars : (parse source).run.run hosts = (.error e, hosts) := by
      unfold parse
      rw [hlexemes]
      rfl
    rw [hbytes, hchars]
    exact ⟨rfl, .of_isValid (Lexeme.isValid_of_error hleaves hlexemes)⟩
  | ok lexemes =>
    obtain ⟨t, hagrees⟩ := Walk.agrees_parse hlexemes
    obtain ⟨pos, later, -, -, ⟨e, e', hwalk, hread, rfl, he⟩ | ⟨e, hwalk, hread, he⟩⟩ := hagrees hosts
    · rw [hwalk, hread]
      exact ⟨rfl, .tree he⟩
    · rw [hwalk, hread]
      exact ⟨rfl, .of_isValid he⟩

end Expr

end Barrage
