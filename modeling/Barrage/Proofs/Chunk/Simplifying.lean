import Barrage.Chunk.Simplify
import Barrage.Proofs.Chunk.Lines

/-!
# Simplified units

Loading a chunk simplifies it. What a phrase is read as is simplified from the operands up: literals are
computed, a truth value beside `&&` or `||` is dropped or decides, and a choice with a decided condition
becomes one of its sides. No phrase is simplified to a block, so the sides of a choice are never opened
into statements, and no line of a unit is dropped, since a unit ends by giving its result.

## Main definitions

* `Term.ofDecided` — a choice between two terms whose condition may be decided
* `Line.simplified` — the statement that a line is simplified to

## Main results

* `Phrase.simplify_choice` — the simplified form of a choice
* `Line.simplifyBody_eq` — the lines of a unit are simplified one by one
-/

namespace Barrage

namespace Term

/-- A choice between two terms, or the one that its condition decides for. -/
def ofDecided (cond yes no : Term) : Term :=
  match cond with
  | bool true => yes
  | bool false => no
  | cond => choice cond [.eval yes] [.eval no]

/-- Whether a term is a block. -/
def isBlock : Term → Bool
  | block _ => true
  | _ => false

theorem ofDecided_cases (cond yes no : Term) :
    (cond = bool true ∧ ofDecided cond yes no = yes) ∨
      (cond = bool false ∧ ofDecided cond yes no = no) ∨
      (cond ≠ bool true ∧ cond ≠ bool false ∧
        ofDecided cond yes no = choice cond [.eval yes] [.eval no]) := by
  cases cond with
  | bool b => cases b <;> simp [ofDecided]
  | _ => simp [ofDecided]

variable {left right yes no : Term}

theorem isBlock_ofDecided (cond : Term) (hyes : yes.isBlock = false) (hno : no.isBlock = false) :
    (ofDecided cond yes no).isBlock = false := by
  rcases ofDecided_cases cond yes no with ⟨-, h⟩ | ⟨-, h⟩ | ⟨-, -, h⟩
  · rw [h, hyes]
  · rw [h, hno]
  · rw [h]
    rfl

theorem isBlock_conjunction (hleft : left.isBlock = false) (hright : right.isBlock = false) :
    (conjunction left right).isBlock = false := by
  unfold conjunction
  split
  · exact hright
  · rfl
  · exact hleft
  · split <;> rfl
  · rfl

theorem isBlock_disjunction (hleft : left.isBlock = false) (hright : right.isBlock = false) :
    (disjunction left right).isBlock = false := by
  unfold disjunction
  split
  · exact hright
  · rfl
  · exact hleft
  · split <;> rfl
  · rfl

theorem isBlock_of_literal? {d : Datum} {t : Term} (h : d.literal? = some t) : t.isBlock = false := by
  unfold Datum.literal? at h
  split at h <;> cases h <;> rfl

theorem isBlock_ofOperator (op : Operator) (left right : Term) :
    (ofOperator op left right).isBlock = false := by
  unfold ofOperator
  cases hcomputed : (do
      let a ← left.literal?
      let b ← right.literal?
      (← Datum.operate? op a b).literal?) with
  | none => rfl
  | some t =>
    simp only [Option.bind_eq_bind, Option.bind_eq_some_iff] at hcomputed
    obtain ⟨a, -, b, -, d, -, hd⟩ := hcomputed
    exact isBlock_of_literal? hd

theorem isBlock_ofCall (function : String) (args : List Term) :
    (ofCall function args).isBlock = false := by
  unfold ofCall
  split <;> rfl

/-- An operator with simplified operands, in each of its forms. -/
def joined (op : Operator) (left right : Term) : Term :=
  match op with
  | .func .and => conjunction left right
  | .func .or => disjunction left right
  | op => ofOperator op left right

theorem simplify_binary (op : Operator) (left right : Term) :
    (binary op left right).simplify = joined op left.simplify right.simplify := by
  unfold joined
  split
  · rw [simplify]
  · rw [simplify]
  · rename_i hand hor
    rw [simplify]
    · exact hand
    · exact hor

theorem isBlock_joined (op : Operator) (hleft : left.isBlock = false) (hright : right.isBlock = false) :
    (joined op left right).isBlock = false := by
  unfold joined
  split
  · exact isBlock_conjunction hleft hright
  · exact isBlock_disjunction hleft hright
  · exact isBlock_ofOperator _ _ _

theorem simplifyAll_eq_map (ts : List Term) : simplifyAll ts = ts.map simplify := by
  induction ts with
  | nil => rfl
  | cons t ts ih => exact congrArg (t.simplify :: ·) ih

end Term

namespace Statement

theorem isIdle_eval {t : Term} (h : t.isBlock = false) : (eval t).isIdle = false := by
  cases t <;> first | rfl | cases h

theorem results_singleton {t : Term} (h : t.isBlock = false) : results [eval t] = [eval t] := by
  rw [results, isIdle_eval h]
  rfl

theorem opened_singleton (t : Term) : opened [eval t] = [eval t] := rfl

/-- A choice between two terms is one term. -/
theorem ofChoice_eq (cond : Term) (alone : List Statement) (yes no : Term) :
    ofChoice cond alone [eval yes] [eval no] = [eval (Term.ofDecided cond yes no)] := by
  rcases Term.ofDecided_cases cond yes no with ⟨rfl, -⟩ | ⟨rfl, -⟩ | ⟨htrue, hfalse, h⟩
  · rfl
  · rfl
  · rw [h]
    unfold ofChoice
    split <;> simp_all

end Statement

open Term Statement

namespace Phrase

theorem terms_eq_map (ps : List Phrase) : terms ps = ps.map term := by
  induction ps with
  | nil => rfl
  | cons p ps ih => exact congrArg (p.term :: ·) ih

/-- A phrase is simplified to a term that is no block, also as a statement of its own. -/
structure Simplifies (p : Phrase) : Prop where
  isBlock_eq : p.term.simplify.isBlock = false
  body_eq : simplifyBody true [.eval p.term] = [.eval p.term.simplify]

theorem simplifyBody_one {s : Statement} (h : s.isNothing = false) :
    simplifyBody true [s] = simplifyStatement true s := by
  rw [simplifyBody, h, simplifyBody]
  simp

/-- A term that is neither a block nor a choice is simplified in place. -/
theorem simplifyBody_singleton {t : Term} (hblock : t.isBlock = false)
    (hchoice : ∀ cond yes no, t ≠ .choice cond yes no) :
    simplifyBody true [.eval t] = [.eval t.simplify] := by
  have hnothing : (Statement.eval t).isNothing = false := by
    cases t <;> first | rfl | cases hblock
  rw [simplifyBody_one hnothing]
  cases t with
  | block body => cases hblock
  | choice cond yes no => exact absurd rfl (hchoice cond yes no)
  | _ => rw [simplifyStatement] <;> first | rfl | simp

theorem Simplifies.kept {p : Phrase} (h : p.Simplifies) :
    Statement.kept true (simplifyBody true [.eval p.term]) = [.eval p.term.simplify] := by
  rw [h.body_eq, Statement.kept, if_pos rfl, results_singleton h.isBlock_eq]

/-- The one statement in the block of a choice. -/
theorem simplifyBody_choice {cond yes no : Phrase} (hyes : yes.Simplifies) (hno : no.Simplifies) :
    simplifyBody true [.eval (.choice cond.term [.eval yes.term] [.eval no.term])] =
      [.eval (ofDecided cond.term.simplify yes.term.simplify no.term.simplify)] := by
  rw [simplifyBody_one rfl, simplifyStatement]
  · rw [hyes.kept, hno.kept, Statement.ofChoice_eq]
  · simp

theorem simplify_choice (cond : Phrase) {yes no : Phrase} (hyes : yes.Simplifies) (hno : no.Simplifies) :
    (choice cond yes no).term.simplify =
      ofDecided cond.term.simplify yes.term.simplify no.term.simplify := by
  rw [term, simplify, simplifyBody_choice hyes hno,
    results_singleton (isBlock_ofDecided _ hyes.isBlock_eq hno.isBlock_eq)]
  rfl

theorem simplifies_choice (cond : Phrase) {yes no : Phrase} (hyes : yes.Simplifies)
    (hno : no.Simplifies) : (choice cond yes no).Simplifies := by
  have hterm := simplify_choice cond hyes hno
  have hblock := isBlock_ofDecided cond.term.simplify hyes.isBlock_eq hno.isBlock_eq
  refine ⟨by rw [hterm]; exact hblock, ?_⟩
  rw [hterm, term, simplifyBody_one rfl, simplifyStatement, simplifyBody_choice hyes hno, Statement.kept,
    if_pos rfl, results_singleton hblock, opened_singleton]

theorem exists_binary (op : Operator) (ts : List Term) (first second : Term) :
    ∃ l r, (second :: ts).foldl (Term.binary op) first = .binary op l r := by
  induction ts generalizing first second with
  | nil => exact ⟨first, second, rfl⟩
  | cons t ts ih => exact ih _ t

/-- A chain is simplified from its first operand on. -/
theorem simplify_chain (op : Operator) (first : Phrase) (rest : List Phrase) :
    (chain op first rest).term.simplify =
      (rest.map fun p => p.term.simplify).foldl (joined op) first.term.simplify := by
  have hfold : ∀ (ts : List Term) (t : Term), (ts.foldl (Term.binary op) t).simplify =
      (ts.map simplify).foldl (joined op) t.simplify := by
    intro ts
    induction ts with
    | nil => exact fun _ => rfl
    | cons u ts ih =>
      intro t
      rw [List.foldl_cons, ih, simplify_binary, List.map_cons, List.foldl_cons]
  rw [term, hfold, terms_eq_map, List.map_map]
  rfl

theorem isBlock_foldl_joined (op : Operator) {ts : List Term} (h : ∀ t ∈ ts, t.isBlock = false)
    {first : Term} (hfirst : first.isBlock = false) : (ts.foldl (joined op) first).isBlock = false := by
  induction ts generalizing first with
  | nil => exact hfirst
  | cons t ts ih =>
    rw [List.forall_mem_cons] at h
    exact ih h.2 (isBlock_joined op hfirst h.1)

theorem simplifies_chain (op : Operator) {first : Phrase} (hfirst : first.Simplifies)
    {rest : List Phrase} (hrest : ∀ p ∈ rest, p.Simplifies) : (chain op first rest).Simplifies := by
  refine ⟨?_, ?_⟩
  · rw [simplify_chain]
    refine isBlock_foldl_joined op ?_ hfirst.isBlock_eq
    rw [List.forall_mem_map]
    exact fun p hp => (hrest p hp).isBlock_eq
  · cases rest with
    | nil => exact hfirst.body_eq
    | cons p ps =>
      obtain ⟨l, r, hbinary⟩ : ∃ l r, (chain op first (p :: ps)).term = .binary op l r :=
        exists_binary op (terms ps) first.term p.term
      rw [hbinary]
      exact simplifyBody_singleton rfl fun _ _ _ h => nomatch h

/-- Every phrase is simplified to a term that is no block. -/
theorem simplifies (p : Phrase) : p.Simplifies := by
  induction p using phraseInduction with
  | unit => exact ⟨rfl, simplifyBody_singleton rfl fun _ _ _ h => nomatch h⟩
  | bool b => exact ⟨rfl, simplifyBody_singleton rfl fun _ _ _ h => nomatch h⟩
  | int n => exact ⟨rfl, simplifyBody_singleton rfl fun _ _ _ h => nomatch h⟩
  | least =>
    refine ⟨?_, simplifyBody_singleton rfl fun _ _ _ h => nomatch h⟩
    rw [term, simplify_binary]
    exact isBlock_joined _ rfl rfl
  | float x => exact ⟨rfl, simplifyBody_singleton rfl fun _ _ _ h => nomatch h⟩
  | text s => exact ⟨rfl, simplifyBody_singleton rfl fun _ _ _ h => nomatch h⟩
  | name x => exact ⟨rfl, simplifyBody_singleton rfl fun _ _ _ h => nomatch h⟩
  | chain op first rest ihfirst ihrest => exact simplifies_chain op ihfirst ihrest
  | call function args ih =>
    refine ⟨?_, simplifyBody_singleton rfl fun _ _ _ h => nomatch h⟩
    rw [term, simplify]
    exact isBlock_ofCall _ _
  | choice cond yes no _ ihyes ihno => exact simplifies_choice cond ihyes ihno

end Phrase

/-! ### Lines -/

namespace Line

/-- The statement that a line is simplified to. -/
def simplified : Line → Statement
  | bind x value => .bind x value.term.simplify
  | guarded x cond value => .bind x (Phrase.choice cond value .unit).term.simplify
  | give value => .give value.term.simplify

/-- Whether a line binds a name. -/
def isBind : Line → Bool
  | give _ => false
  | _ => true

theorem simplifyStatement_eq (used : Bool) (l : Line) :
    simplifyStatement used l.statement = [l.simplified] := by
  cases l <;> rw [statement, simplifyStatement] <;> rfl

/-- The lines of a unit are simplified one by one. -/
theorem simplifyBody_eq (ls : List Line) (used : Bool) :
    simplifyBody used (ls.map statement) = ls.map simplified := by
  induction ls with
  | nil => rfl
  | cons l ls ih =>
    have hnothing : l.statement.isNothing = false := by cases l <;> rfl
    rw [List.map_cons, simplifyBody, hnothing, simplifyStatement_eq, ih]
    rfl

/-- A binding stays before statements that do not come down to a literal. -/
theorem results_bind_cons {x : String} {t : Term} {body : List Statement} (hne : body ≠ [])
    (hlast : ∀ last, body = [last] → last.isConstant = false) (hkept : results body = body) :
    results (.bind x t :: body) = .bind x t :: body := by
  rw [results, hkept]
  · split
    · exact absurd rfl hne
    · rename_i last
      simp [Statement.isPure, hlast last rfl]
    · rfl
  · exact hne

/-- Nothing of a unit is left out: its bindings stand before the result it gives. -/
theorem results_eq {ls : List Line} (h : ∀ l ∈ ls, l.isBind = true) (value : Phrase) :
    results ((ls ++ [give value]).map simplified) = (ls ++ [give value]).map simplified := by
  induction ls with
  | nil => simp [results, simplified, Statement.isIdle]
  | cons l ls ih =>
    rw [List.forall_mem_cons] at h
    obtain ⟨x, t, hl⟩ : ∃ x t, l.simplified = .bind x t := by
      cases l with
      | give value => cases h.1
      | _ => exact ⟨_, _, rfl⟩
    rw [List.cons_append, List.map_cons, hl]
    refine results_bind_cons (by simp) (fun last hlast => ?_) (ih h.2)
    have hgive := congrArg List.getLast? hlast
    simp only [List.map_append, List.map_cons, List.map_nil, List.getLast?_concat,
      List.getLast?_singleton, Option.some.injEq] at hgive
    rw [← hgive]
    rfl

end Line

/-- The simplified form of a function that holds the bindings of a unit and its result. -/
theorem Printed.simplify_definition {f : Printed} {ls : List Line} {value : Phrase}
    (hlines : f.lines = ls ++ [.give value]) (h : ∀ l ∈ ls, l.isBind = true) :
    f.definition.simplify = ⟨f.name, f.params, f.lines.map Line.simplified⟩ := by
  unfold Definition.simplify definition
  rw [Line.simplifyBody_eq, hlines, Line.results_eq h]

end Barrage
