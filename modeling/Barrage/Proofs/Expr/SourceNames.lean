import Mathlib.Data.List.TakeWhile
import Barrage.Proofs.Expr.Hoisting
import Barrage.Proofs.Expr.Readers

/-!
# Names in source

A name that source text binds is a word of the text, and two underscores follow each other neither in it nor
in the name of a variable. The readers take no name but from the tokens, so this holds at every place of a
tree, and what carries it through the readers is that all words which are left are spelled like words. So
parameters with other names do not count for the type of a tree.

## Main definitions

* `Identifier`, `SourceName` — words of a text, and those that can be bound
* `Expr.SourceNamed` — trees with names of source
* `Expr.Input.Spelled` — every word that is left is spelled like one

## Main results

* `Lexeme.identifier_of_mem` — the words of a text are spelled like words
* `Expr.sourceNamed_of_parse` — the names of a tree that source gives
* `Expr.SourceNamed.inferIn_filter` — its type over the names that source can use
-/

namespace Barrage

/-- What is spelled like a word. -/
structure Identifier (x : String) : Prop where
  opens : ∃ c cs, x.toList = c :: cs ∧ Scanned.opensName c = true
  continues : ∀ c ∈ x.toList, Scanned.continuesName c = true

/-- Names that source can bind. -/
structure SourceName (x : String) : Prop extends Identifier x where
  single : Expr.hasDoubleUnderscore x.toList = false

/-! ### Tokens -/

theorem Scanned.continuesName_of_opensName {c : Char} (h : opensName c = true) : continuesName c = true := by
  simp only [opensName, continuesName, Char.isAlphanum, Bool.or_eq_true] at h ⊢
  exact h.imp_left .inl

theorem Scanned.identifier_of_next {offset : Nat} {c : Char} {cs : List Char} {s : Scanned} {name : String}
    (h : next offset c cs = .ok s) (hname : s.token = .ident name) : Identifier name := by
  unfold next at h
  split at h
  · obtain ⟨token, htoken, h⟩ := Except.bind_eq_ok_iff.1 h
    cases h
    cases hname
    simp only [numberToken] at htoken
    split at htoken <;> split at htoken <;> cases htoken
  split at h
  · rename_i hopens
    cases h
    cases hname
    refine ⟨⟨c, _, by rw [String.toList_ofList], hopens⟩, ?_⟩
    rw [String.toList_ofList]
    exact List.forall_mem_cons.2 ⟨continuesName_of_opensName hopens,
      fun d hd => List.mem_takeWhile_imp hd⟩
  split at h
  · obtain ⟨r, -, h⟩ := Except.bind_eq_ok_iff.1 h
    cases h
    cases hname
  split at h
  · rename_i hsymbol
    cases h
    obtain ⟨symbol, -, hsymbol⟩ := List.exists_of_findSome?_eq_some hsymbol
    obtain ⟨rest, -, rfl⟩ := Option.map_eq_some_iff.1 hsymbol
    cases hname
  · cases h

/-- The words of a text are spelled like words. -/
theorem Lexeme.identifier_of_mem {offset : Nat} {cs : List Char} {tokens : List Lexeme} {l : Lexeme}
    {name : String} (h : ofChars offset cs = .ok tokens) (hl : l ∈ tokens) (hname : l.token = .ident name) :
    Identifier name := by
  fun_induction ofChars offset cs generalizing tokens with
  | case1 =>
    cases h
    cases hl
  | case2 offset c cs _ ih => exact ih h hl
  | case3 => cases h
  | case4 offset c cs _ s hs ih =>
    cases hmore : ofChars (offset + byteLength s.taken) s.rest with
    | error e =>
      rw [hmore] at h
      cases h
    | ok more =>
      rw [hmore] at h
      cases h
      rcases List.mem_cons.1 hl with rfl | hl
      · exact Scanned.identifier_of_next hs hname
      · exact ih hmore hl

namespace Expr

/-! ### What is left to be read -/

namespace Input

/-- Every word that is left is spelled like one. -/
def Spelled (i : Input) : Prop := ∀ l ∈ i.tokens, ∀ name, l.token = .ident name → Identifier name

variable {i i' : Input}

theorem Spelled.advance (h : i.Spelled) : i.advance.Spelled :=
  fun l hl => h l (List.mem_of_mem_tail hl)

theorem Spelled.identifier {name : String} (h : i.Spelled) (hname : i.token = .ident name) :
    Identifier name := by
  unfold token at hname
  cases hhead : i.tokens.head? with
  | none =>
    rw [hhead] at hname
    cases hname
  | some l =>
    rw [hhead] at hname
    exact h l (List.mem_of_head? hhead) name hname

theorem Spelled.eat? {s : Symbol} (h : i.Spelled) (heat : i.eat? s = some i') : i'.Spelled := by
  unfold Input.eat? at heat
  split at heat
  · split at heat <;> cases heat
    exact h.advance
  · cases heat

theorem Spelled.operator? {level : Nat} {op : Operator} (h : i.Spelled)
    (hop : i.operator? level = some (op, i')) : i'.Spelled := by
  unfold Input.operator? at hop
  split at hop
  · obtain ⟨op', -, heq⟩ := Option.map_eq_some_iff.1 hop
    cases heq
    exact h.advance
  · cases hop

theorem Spelled.expect (h : i.Spelled) (s : Symbol) : Parse.Satisfies Spelled (i.expect s) := by
  unfold Input.expect
  split
  · rename_i heat
    exact Parse.satisfies_pure (h.eat? heat)
  · exact Parse.satisfies_fail

end Input

theorem satisfies_checkedName (name : String) (offset : Nat) :
    Parse.Satisfies (fun x => x = name ∧ hasDoubleUnderscore name.toList = false) (checkedName name offset) := by
  unfold checkedName
  split
  · exact Parse.satisfies_throw
  · rename_i hsingle
    split
    · exact Parse.satisfies_throw
    · exact Parse.satisfies_pure ⟨rfl, by simpa using hsingle⟩

theorem satisfies_keyArgument {i : Input} (h : i.Spelled) :
    Parse.Satisfies (fun r => r.2.Spelled) (keyArgument i) := by
  unfold keyArgument
  refine (h.expect .opening).bind fun i hi => ?_
  split
  · exact (hi.advance.expect .closing).bind fun i hi => Parse.satisfies_pure hi
  · exact Parse.satisfies_fail

/-! ### Trees -/

/-- Trees that bind names of source, and whose variables have names without two underscores in a row. -/
structure SourceNamed (e : Expr) : Prop where
  bound : ∀ x ∈ e.boundNames, SourceName x
  vars : ∀ x ∈ e.vars, hasDoubleUnderscore x.toList = false

namespace SourceNamed

variable {left right cond yes no value body : Expr}

theorem const (value : Value) : SourceNamed (const value) := ⟨fun _ hx => (nomatch hx), fun _ hx => nomatch hx⟩

theorem var {name : String} (h : hasDoubleUnderscore name.toList = false) : SourceNamed (var name) :=
  ⟨fun _ hx => (nomatch hx), List.forall_mem_singleton.2 h⟩

theorem binary (op : BinOp) (hl : SourceNamed left) (hr : SourceNamed right) :
    SourceNamed (binary op left right) :=
  ⟨List.forall_mem_append.2 ⟨hl.bound, hr.bound⟩, List.forall_mem_append.2 ⟨hl.vars, hr.vars⟩⟩

theorem call (func : Func) {args : List Expr} (h : ∀ e ∈ args, SourceNamed e) : SourceNamed (call func args) := by
  have hall : (∀ x ∈ boundNamesList args, SourceName x) ∧
      ∀ x ∈ varsList args, hasDoubleUnderscore x.toList = false := by
    induction args with
    | nil => exact ⟨fun _ hx => (nomatch hx), fun _ hx => nomatch hx⟩
    | cons e es ih =>
      obtain ⟨he, hes⟩ := List.forall_mem_cons.1 h
      exact ⟨List.forall_mem_append.2 ⟨he.bound, (ih hes).1⟩, List.forall_mem_append.2 ⟨he.vars, (ih hes).2⟩⟩
  exact ⟨hall.1, hall.2⟩

theorem branch (hc : SourceNamed cond) (hy : SourceNamed yes) (hn : SourceNamed no) :
    SourceNamed (branch cond yes no) :=
  ⟨List.forall_mem_append.2 ⟨List.forall_mem_append.2 ⟨hc.bound, hy.bound⟩, hn.bound⟩,
    List.forall_mem_append.2 ⟨List.forall_mem_append.2 ⟨hc.vars, hy.vars⟩, hn.vars⟩⟩

theorem bind {name : String} (hname : SourceName name) (hv : SourceNamed value) (hb : SourceNamed body) :
    SourceNamed (bind name value body) :=
  ⟨List.forall_mem_cons.2 ⟨hname, List.forall_mem_append.2 ⟨hv.bound, hb.bound⟩⟩,
    List.forall_mem_append.2 ⟨hv.vars, hb.vars⟩⟩

theorem negated {inner : Expr} (h : SourceNamed inner) : SourceNamed (negated inner) := by
  unfold Expr.negated
  split
  · exact const _
  · exact const _
  · exact ⟨h.bound, h.vars⟩

theorem operator (op : Operator) (hl : SourceNamed left) (hr : SourceNamed right) :
    SourceNamed (op.apply left right) := by
  cases op with
  | op o => exact binary o hl hr
  | func f => exact call f (List.forall_mem_cons.2 ⟨hl, List.forall_mem_singleton.2 hr⟩)

end SourceNamed

/-! ### Readers -/

namespace Reading

open Parse

/-- What a reader hands over: a tree with names of source, and an input in which words are spelled. -/
def Named (r : Expr × Input) : Prop := r.1.SourceNamed ∧ r.2.Spelled

mutual

theorem nested_named (room : Nat) {i : Input} (hi : i.Spelled) : Satisfies Named (nested room i) := by
  unfold nested
  cases room with
  | zero => exact satisfies_fail
  | succ room =>
    intro hosts r h
    exact body_named room hi hosts r h
termination_by (room, 0, 0)

theorem body_named (room : Nat) {i : Input} (hi : i.Spelled) : Satisfies Named (body room i) := by
  unfold body
  dsimp only
  split
  · split
    · rename_i word hword
      refine (satisfies_checkedName word _).bind fun name ⟨hname, hsingle⟩ => ?_
      have hsource : SourceName name := by
        rw [hname]
        exact ⟨hi.advance.identifier hword, hsingle⟩
      refine (hi.advance.advance.expect .assign).bind fun i hi => ?_
      refine (nested_named room hi).bind fun value hvalue => ?_
      split
      · refine (nested_named room hvalue.2.advance).bind fun rest hrest => ?_
        exact satisfies_pure ⟨.bind hsource hvalue.1 hrest.1, hrest.2⟩
      · exact satisfies_fail
    · exact satisfies_fail
  · refine (level_named Operator.levels room hi).bind fun cond hcond => ?_
    split
    · exact satisfies_pure hcond
    · rename_i heat
      refine (nested_named room (hcond.2.eat? heat)).bind fun yes hyes => ?_
      refine (hyes.2.expect .colon).bind fun i hi => ?_
      refine (nested_named room hi).bind fun no hno => ?_
      exact satisfies_pure ⟨.branch hcond.1 hyes.1 hno.1, hno.2⟩
termination_by (room, Operator.levels + 6, 0)

theorem level_named (above room : Nat) {i : Input} (hi : i.Spelled) :
    Satisfies Named (level above room i) := by
  unfold level
  split
  · exact signed_named room hi
  · rename_i tight
    exact (level_named tight room hi).bind fun left hleft => chain_named tight room hleft
termination_by (room, above + 5, 0)

theorem chain_named (tight room : Nat) {left : Expr × Input} (hleft : Named left) :
    Satisfies Named (chain tight room left.1 left.2) := by
  unfold chain
  split
  · exact satisfies_pure hleft
  · rename_i op i hop
    cases room with
    | zero => exact satisfies_fail
    | succ room =>
      refine (level_named tight room (hleft.2.operator? hop)).bind fun right hright => ?_
      have hnode : Named (op.apply left.1 right.1, right.2) := ⟨hleft.1.operator op hright.1, hright.2⟩
      exact chain_named tight room hnode
termination_by (room, 0, 0)

theorem signed_named (room : Nat) {i : Input} (hi : i.Spelled) : Satisfies Named (signed room i) := by
  unfold signed
  split
  · rename_i heat
    cases room with
    | zero => exact satisfies_fail
    | succ room =>
      exact (signed_named room (hi.eat? heat)).bind fun inner hinner =>
        satisfies_pure ⟨hinner.1.negated, hinner.2⟩
  · split
    · rename_i heat
      cases room with
      | zero => exact satisfies_fail
      | succ room =>
        exact (signed_named room (hi.eat? heat)).bind fun inner hinner =>
          satisfies_pure ⟨⟨hinner.1.bound, hinner.1.vars⟩, hinner.2⟩
    · exact (primary_named room hi).bind fun inner hinner => members_named room hinner
termination_by (room, 4, 0)

theorem members_named (room : Nat) {inner : Expr × Input} (hinner : Named inner) :
    Satisfies Named (members room inner.1 inner.2) := by
  unfold members
  split
  · exact satisfies_pure hinner
  · rename_i after heat
    cases room with
    | zero => exact satisfies_fail
    | succ room =>
      simp only
      split
      · split
        · rename_i field _
          have hnode : Named (.member inner.1 field, after.advance) :=
            ⟨⟨hinner.1.bound, hinner.1.vars⟩, (hinner.2.eat? heat).advance⟩
          exact members_named room hnode
        · exact satisfies_fail
      · exact satisfies_fail
termination_by (room, 0, 0)

theorem primary_named (room : Nat) {i : Input} (hi : i.Spelled) : Satisfies Named (primary room i) := by
  have hafter := hi.advance
  unfold primary
  dsimp only
  split
  · exact satisfies_pure ⟨.const _, hafter⟩
  · exact satisfies_pure ⟨.const _, hafter⟩
  · refine (nested_named room hafter).bind fun inner hinner => ?_
    exact (hinner.2.expect .closing).bind fun after hafter => satisfies_pure ⟨hinner.1, hafter⟩
  · split
    · exact satisfies_pure ⟨.const _, hafter⟩
    split
    · exact satisfies_pure ⟨.const _, hafter⟩
    split
    · refine (satisfies_keyArgument hafter).bind fun key hkey => ?_
      refine Satisfies.bind (P := fun _ => True) satisfies_trivial fun handle _ => ?_
      exact satisfies_pure ⟨.const _, hkey⟩
    split
    · refine (satisfies_keyArgument hafter).bind fun key hkey => ?_
      refine Satisfies.bind (P := fun _ => True) satisfies_trivial fun hosts _ => ?_
      split
      · exact satisfies_pure ⟨.const _, hkey⟩
      · exact satisfies_fail
    split
    · rename_i hopening
      have hinner := hafter.eat? hopening
      split
      · exact satisfies_fail
      · split
        · rename_i hclosing
          exact satisfies_pure ⟨.call _ fun e he => (nomatch he), hinner.eat? hclosing⟩
        · exact (arguments_named room hinner).bind fun args hargs =>
            satisfies_pure ⟨.call _ hargs.1, hargs.2⟩
    · refine (satisfies_checkedName _ _).bind fun name ⟨hname, hsingle⟩ => ?_
      rw [← hname] at hsingle
      exact satisfies_pure ⟨.var hsingle, hafter⟩
  · exact satisfies_fail
termination_by (room, 2, 0)

theorem arguments_named (room : Nat) {i : Input} (hi : i.Spelled) :
    Satisfies (fun r => (∀ e ∈ r.1, e.SourceNamed) ∧ r.2.Spelled) (arguments room i) := by
  unfold arguments
  refine (nested_named room hi).bind fun arg harg => ?_
  dsimp only
  split
  · rename_i heat
    exact satisfies_pure ⟨List.forall_mem_singleton.2 harg.1, harg.2.eat? heat⟩
  · refine (harg.2.expect .comma).bind fun rest hrest => ?_
    split
    · refine (arguments_named room hrest).bind fun args hargs => ?_
      exact satisfies_pure ⟨List.forall_mem_cons.2 ⟨harg.1, hargs.1⟩, hargs.2⟩
    · exact satisfies_fail
termination_by (room, 1, i.tokens.length)

end

end Reading

/-- A tree that source gives has names of source. -/
theorem sourceNamed_of_parse {hosts : Hosts} {source : String} {e : Expr}
    (h : (parseIn hosts source).1 = .ok e) : e.SourceNamed := by
  have hparse : Parse.Satisfies SourceNamed (parse source) := by
    unfold parse
    split
    · exact Parse.satisfies_throw
    · rename_i tokens htokens
      have hspelled : Input.Spelled ⟨tokens, source.utf8ByteSize⟩ :=
        fun l hl name => Lexeme.identifier_of_mem htokens hl
      refine (Reading.nested_named maxNesting hspelled).bind fun r hr => ?_
      dsimp only
      split
      · exact Parse.satisfies_pure hr.1
      · exact Parse.satisfies_fail
  exact hparse hosts e h

/-! ### Types -/

/-- Names that a tree does not have do not count for its type. -/
theorem inferIn_filter {p : String → Bool} {e : Expr} {scope : Scope} {ty : ValueType}
    (h : inferIn scope e = .ok ty) (hbound : ∀ x ∈ e.boundNames, p x = true) (hvars : ∀ x ∈ e.vars, p x = true) :
    inferIn (scope.filter fun b => p b.1) e = .ok ty := by
  induction e using treeInduction generalizing scope ty with
  | const value => exact h
  | var name =>
    have hname : p name = true := hvars name (List.mem_singleton_self name)
    obtain ⟨before, behind, heq, hbefore⟩ := List.lookup_eq_some_iff.1 (inferIn_var.1 h)
    refine inferIn_var.2 (List.lookup_eq_some_iff.2 ⟨before.filter fun b => p b.1,
      behind.filter fun b => p b.1, ?_, fun b hb => hbefore b (List.mem_of_mem_filter hb)⟩)
    rw [heq, List.filter_append, List.filter_cons, if_pos hname]
  | member inner field ih =>
    obtain ⟨t, hinner, hfield⟩ := inferIn_member.1 h
    exact inferIn_member.2 ⟨t, ih hinner hbound hvars, hfield⟩
  | unary op inner ih =>
    obtain ⟨t, hinner, hop⟩ := inferIn_unary.1 h
    exact inferIn_unary.2 ⟨t, ih hinner hbound hvars, hop⟩
  | binary op left right ihl ihr =>
    obtain ⟨l, r, hl, hr, hop⟩ := inferIn_binary.1 h
    obtain ⟨hbl, hbr⟩ := List.forall_mem_append.1 hbound
    obtain ⟨hvl, hvr⟩ := List.forall_mem_append.1 hvars
    exact inferIn_binary.2 ⟨l, r, ihl hl hbl hvl, ihr hr hbr hvr, hop⟩
  | call func args ih =>
    obtain ⟨tys, hargs, htype⟩ := inferIn_call.1 h
    refine inferIn_call.2 ⟨tys, ?_, htype⟩
    change ∀ x ∈ boundNamesList args, p x = true at hbound
    change ∀ x ∈ varsList args, p x = true at hvars
    clear h htype
    induction hargs with
    | nil => exact .nil
    | @cons e ty es tys he hes ihes =>
      obtain ⟨hbe, hbes⟩ := List.forall_mem_append.1 hbound
      obtain ⟨hve, hves⟩ := List.forall_mem_append.1 hvars
      exact .cons (ih e (by simp) he hbe hve) (ihes (fun e' he' => ih e' (by simp [he'])) hbes hves)
  | branch cond yes no ihc ihy ihn =>
    obtain ⟨hc, hy, hn⟩ := inferIn_branch.1 h
    obtain ⟨hbcy, hbn⟩ := List.forall_mem_append.1 hbound
    obtain ⟨hbc, hby⟩ := List.forall_mem_append.1 hbcy
    obtain ⟨hvcy, hvn⟩ := List.forall_mem_append.1 hvars
    obtain ⟨hvc, hvy⟩ := List.forall_mem_append.1 hvcy
    exact inferIn_branch.2 ⟨ihc hc hbc hvc, ihy hy hby hvy, ihn hn hbn hvn⟩
  | bind name value body ihv ihb =>
    obtain ⟨t, hv, hb⟩ := inferIn_bind.1 h
    obtain ⟨hname, hbound⟩ := List.forall_mem_cons.1 hbound
    obtain ⟨hbv, hbb⟩ := List.forall_mem_append.1 hbound
    obtain ⟨hvv, hvb⟩ := List.forall_mem_append.1 hvars
    have hbody := ihb hb hbb hvb
    rw [List.filter_cons, if_pos hname] at hbody
    exact inferIn_bind.2 ⟨t, ihv hv hbv hvv, hbody⟩

/-- The type of a tree of source over the names that source can use. -/
theorem SourceNamed.inferIn_filter {e : Expr} (h : e.SourceNamed) {scope : Scope} {ty : ValueType}
    (htyped : inferIn scope e = .ok ty) :
    inferIn (scope.filter fun b => !hasDoubleUnderscore b.1.toList) e = .ok ty :=
  Expr.inferIn_filter (p := fun x => !hasDoubleUnderscore x.toList) htyped
    (fun x hx => by rw [(h.bound x hx).single]; rfl) fun x hx => by rw [h.vars x hx]; rfl

end Expr

end Barrage
