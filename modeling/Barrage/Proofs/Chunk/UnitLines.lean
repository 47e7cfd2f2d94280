import Barrage.Bake.Compile
import Barrage.Proofs.Chunk.RefusedNames
import Barrage.Proofs.Expr.LinearTypes

/-!
# Units of well-typed expressions

The linear form of a well-typed expression is printed as lines that can be read back: its calls have
arguments, and what stands where a truth value has to be is one. If its names are names of the serving
language, nothing but the depth of its lines can keep a recorded expression from being loaded; and names of
source that are none let its lines be read up to the first of them.

## Main definitions

* `PlainName` — names that can be printed and that no made name is equal to
* `Expr.linear`, `Expr.unitLines` — the linear form under which an expression is recorded, and its lines
* `Expr.Unambiguous`, `Expr.Recordable` — expressions without made names, and those whose names are printed

## Main results

* `Expr.Straight.readable` — the phrase of a well-typed expression can be read
* `Expr.Unambiguous.printUnit_eq` — an expression is recorded as its lines
* `Expr.Recordable.readable_unitLines` — if all names can be printed, all lines can be read
-/

namespace Barrage

open Chunk

/-- Names that can be printed and that no made name is equal to. -/
structure PlainName (x : String) : Prop where
  printed : isFunctionName x = true
  single : Expr.hasDoubleUnderscore x.toList = false

/-! ### Made names -/

theorem isFree_of_hasDoubleUnderscore {x : String} (h : Expr.hasDoubleUnderscore x.toList = true) :
    isFree x = true := by
  have hreserved : ∀ w ∈ reservedWords ++ builtInFunctions,
      Expr.hasDoubleUnderscore w.toList = false := by
    decide +kernel
  have hnot : ∀ w ∈ reservedWords ++ builtInFunctions, x ≠ w := by
    rintro w hw rfl
    rw [hreserved x hw] at h
    cases h
  obtain ⟨hword, hfunction⟩ := List.forall_mem_append.1 hnot
  have hword' : x ∉ reservedWords := fun hx => hword x hx rfl
  have hfunction' : x ∉ builtInFunctions := fun hx => hfunction x hx rfl
  simp [isFree, hword', hfunction']

theorem isWord_append {cs : List Char} (h : ChunkToken.isWord cs = true) (ds : List Char) :
    ChunkToken.isWord (cs ++ ds) = true := by
  unfold ChunkToken.isWord at h ⊢
  rw [List.dropWhile_append]
  cases hdrop : cs.dropWhile (· = '_') with
  | nil =>
    rw [hdrop] at h
    cases h
  | cons c rest =>
    rw [hdrop] at h
    simpa using h

theorem continuesName_of_mem_toDigits {n : Nat} {c : Char} (hc : c ∈ Nat.toDigits 10 n) :
    Scanned.continuesName c = true := by
  have hdigit := Nat.isDigit_of_mem_toDigits (by decide) (by decide) hc
  simp [Scanned.continuesName, Char.isAlphanum, hdigit]

/-- A name that goes on with two underscores. -/
theorem isFunctionName_made {x : String} {cs ds : List Char} (hx : x.toList = cs ++ '_' :: '_' :: ds)
    (hword : ChunkToken.isWord cs = true) (hcs : ∀ c ∈ cs, Scanned.continuesName c = true)
    (hds : ∀ c ∈ ds, Scanned.continuesName c = true) : isFunctionName x = true := by
  have hunder : Expr.hasDoubleUnderscore x.toList = true := by
    rw [hx]
    exact hasDoubleUnderscore_append _ _
  have hall : x.toList.all Scanned.continuesName = true := by
    rw [List.all_eq_true, hx]
    refine List.forall_mem_append.2 ⟨hcs, ?_⟩
    exact List.forall_mem_cons.2 ⟨by decide, List.forall_mem_cons.2 ⟨by decide, hds⟩⟩
  have hfirst : ChunkToken.isWord x.toList = true := by
    rw [hx]
    exact isWord_append hword _
  simp [isFunctionName, isFree_of_hasDoubleUnderscore hunder, hall, hfirst]

theorem isFunctionName_parts {x : String} (h : isFunctionName x = true) :
    ChunkToken.isWord x.toList = true ∧ ∀ c ∈ x.toList, Scanned.continuesName c = true := by
  simp only [isFunctionName, Bool.and_eq_true, List.all_eq_true] at h
  exact ⟨h.1.2, h.2⟩

theorem isFunctionName_letName {x : String} (n : Nat) (h : isFunctionName x = true) :
    isFunctionName (letName x n) = true := by
  obtain ⟨hword, hall⟩ := isFunctionName_parts h
  refine isFunctionName_made (by rw [toList_letName, List.append_assoc]; rfl) hword hall ?_
  exact List.forall_mem_cons.2 ⟨by decide, fun c hc => continuesName_of_mem_toDigits hc⟩

theorem isFunctionName_guardName (n : Nat) : isFunctionName (guardName n) = true := by
  refine isFunctionName_made (by rw [toList_guardName, List.append_assoc]; rfl) (by decide)
    (List.all_eq_true.1 (by decide)) ?_
  exact List.forall_mem_cons.2 ⟨by decide, fun c hc => continuesName_of_mem_toDigits hc⟩

/-- Names that are made for guards and bindings are spelled like words, and the language leaves them free. -/
theorem madeName_guardName (n : Nat) : Identifier (guardName n) ∧ isFree (guardName n) = true := by
  have hname := isFunctionName_guardName n
  refine ⟨⟨?_, (isFunctionName_parts hname).2⟩, isFree_of_isFunctionName hname⟩
  rw [toList_guardName]
  exact ⟨_, _, rfl, by decide⟩

theorem madeName_letName {x : String} (n : Nat) (hx : Identifier x) :
    Identifier (letName x n) ∧ isFree (letName x n) = true := by
  have hlist := toList_letName x n
  have hunder : Expr.hasDoubleUnderscore (letName x n).toList = true := by
    rw [hlist, List.append_assoc]
    exact hasDoubleUnderscore_append _ _
  refine ⟨⟨?_, ?_⟩, isFree_of_hasDoubleUnderscore hunder⟩
  · obtain ⟨c, cs, hcs, hopens⟩ := hx.opens
    exact ⟨c, _, by rw [hlist, hcs]; rfl, hopens⟩
  · rw [hlist]
    refine List.forall_mem_append.2 ⟨List.forall_mem_append.2 ⟨hx.continues,
      List.all_eq_true.1 (by decide)⟩, ?_⟩
    exact List.forall_mem_cons.2 ⟨by decide, fun c hc => continuesName_of_mem_toDigits hc⟩

theorem isFunctionName_hoistedName (object : HostRef) (n : Nat) :
    isFunctionName (hoistedName object n) = true := by
  have hkind : ChunkToken.isWord object.kind.toList = true ∧
      object.kind.toList.all Scanned.continuesName = true := by
    have hkinds : ∀ kind ∈ ["timer", "entity"], ChunkToken.isWord kind.toList = true ∧
        kind.toList.all Scanned.continuesName = true := by decide
    exact hkinds _ (by cases object <;> simp [HostRef.kind])
  refine isFunctionName_made (by rw [Expr.toList_hoistedName, List.append_assoc]; rfl) hkind.1
    (List.all_eq_true.1 hkind.2) ?_
  exact fun c hc => continuesName_of_mem_toDigits hc

/-! ### Phrases -/

theorem readable_floatPhrase (x : Float) : (floatPhrase x).Readable := by
  unfold floatPhrase
  have hnan : isFunctionName "float_nan" = true := by decide +kernel
  have hinf : isFunctionName "float_inf" = true := by decide +kernel
  have hneg : isFunctionName "neg" = true := by decide +kernel
  have hinfinity : (Phrase.call "float_inf" []).Readable := .call hinf fun p hp => nomatch hp
  cases hx : Binary.ofFloat x with
  | nan => exact .call hnan fun p hp => nomatch hp
  | infinite negative =>
    cases negative with
    | true => exact .call hneg (List.forall_mem_singleton.2 hinfinity)
    | false => exact hinfinity
  | finite negative mantissa exponent => exact .float ⟨_, _, _, hx⟩

/-- Constants can be read; objects are none. -/
theorem Value.readable_phrase {v : Value} (htimer : v.type ≠ .timer) (hentity : v.type ≠ .entity) :
    v.phrase.Readable := by
  cases v with
  | float x => exact readable_floatPhrase x
  | int n =>
    change (intPhrase n).Readable
    unfold intPhrase
    split
    · exact .least
    · exact .int n
  | bool b => exact .bool b
  | vec2 v =>
    refine .call (by decide +kernel) ?_
    exact List.forall_mem_cons.2 ⟨readable_floatPhrase v.x, List.forall_mem_singleton.2 (readable_floatPhrase v.y)⟩
  | timer handle => exact absurd rfl htimer
  | entity handle => exact absurd rfl hentity

/-- A chain of at least two operands is no literal. -/
theorem isConstant_foldl_binary (op : Operator) {p : Phrase} (ps : List Phrase) (left : Term) :
    ((Phrase.terms (p :: ps)).foldl (Term.binary op) left).isConstant = false := by
  have hbinary : ∀ (ts : List Term) (l r : Term),
      (ts.foldl (Term.binary op) (Term.binary op l r)).isConstant = false := by
    intro ts
    induction ts with
    | nil => exact fun _ _ => rfl
    | cons t ts ih => exact fun l r => ih _ t
  exact hbinary _ left p.term

theorem isConstant_foldl_call (function : String) {p : Phrase} (ps : List Phrase) (first : Phrase) :
    ((p :: ps).foldl (fun acc p => Phrase.call function [acc, p]) first).term.isConstant = false := by
  have hcall : ∀ (ps : List Phrase) (args : List Phrase),
      (ps.foldl (fun acc p => Phrase.call function [acc, p]) (Phrase.call function args)).term.isConstant =
        false := by
    intro ps
    induction ps with
    | nil => exact fun _ => rfl
    | cons p ps ih => exact fun args => ih _
  exact hcall ps [first, p]

theorem readable_foldl_call {function : String} (hfunction : isFunctionName function = true)
    {first : Phrase} (hfirst : first.Readable) {rest : List Phrase} (hrest : ∀ p ∈ rest, p.Readable) :
    (rest.foldl (fun acc p => Phrase.call function [acc, p]) first).Readable := by
  induction rest generalizing first with
  | nil => exact hfirst
  | cons p rest ih =>
    rw [List.forall_mem_cons] at hrest
    refine ih (.call hfunction ?_) hrest.2
    exact List.forall_mem_cons.2 ⟨hfirst, List.forall_mem_singleton.2 hrest.1⟩

namespace Func

theorem isFunctionName_name (func : Func) : isFunctionName func.name = true := by
  cases func <;> decide +kernel

/-- A call with a fitting number of arguments is no literal. -/
theorem isConstant_phrase {func : Func} {args : List Phrase} (h : func.takes args.length = true) :
    (func.phrase args).term.isConstant = false := by
  match args, h with
  | [], h => cases func <;> cases h
  | [first], h => cases func <;> first | rfl | cases h
  | first :: second :: rest, h =>
    cases func
    case add | mul | and | or => exact isConstant_foldl_binary _ _ _
    case min | max => exact isConstant_foldl_call _ _ _
    all_goals rfl

/-- A call with readable arguments can be read. -/
theorem readable_phrase {func : Func} {args : List Phrase} (h : func.takes args.length = true)
    (hargs : ∀ p ∈ args, p.Readable)
    (htruth : func = .and ∨ func = .or → ∀ p ∈ args, p.term.mayBeTruth = true) :
    (func.phrase args).Readable := by
  have hname := func.isFunctionName_name
  match args, h with
  | [], h => cases func <;> cases h
  | [first], h =>
    cases func
    case add | mul | and | or | min | max => cases h
    all_goals exact .call hname hargs
  | first :: second :: rest, h =>
    obtain ⟨hfirst, hrest⟩ := List.forall_mem_cons.1 hargs
    cases func
    case add | mul => exact .chain rfl (by simp) hfirst hrest fun h => by cases h
    case and => exact .chain rfl (by simp) hfirst hrest fun _ => htruth (.inl rfl)
    case or => exact .chain rfl (by simp) hfirst hrest fun _ => htruth (.inr rfl)
    case min | max => exact readable_foldl_call hname hfirst hrest
    all_goals exact .call hname hargs

end Func

namespace Expr

variable {scope scope' : Scope} {ty : ValueType}

theorem phrases_eq_map (es : List Expr) : phrases es = es.map phrase := by
  induction es with
  | nil => rfl
  | cons e es ih => exact congrArg (e.phrase :: ·) ih

theorem takes_phrases {func : Func} {args : List Expr} {tys : List ValueType}
    (hargs : List.Forall₂ (fun e ty => inferIn scope e = .ok ty) args tys)
    (htype : func.type tys = .ok ty) : func.takes (phrases args).length = true := by
  have hlength : (phrases args).length = tys.length := by
    rw [phrases_eq_map, List.length_map]
    exact hargs.length_eq
  rw [hlength]
  exact (Func.type_eq_ok_iff.1 htype).1

/-- What has the type of truth values may be one. -/
theorem mayBeTruth_phrase {e : Expr} (h : inferIn scope e = .ok .bool) (hprintable : e.Printable) :
    e.phrase.term.mayBeTruth = true := by
  have hof : ∀ {t : Term}, t.isConstant = false → t.mayBeTruth = true := by
    intro t ht
    cases t <;> first | rfl | cases ht
  cases hprintable with
  | @const value =>
    cases value with
    | bool b => rfl
    | _ => cases h
  | @call args func =>
    obtain ⟨tys, hargs, htype⟩ := inferIn_call.1 h
    exact hof (Func.isConstant_phrase (takes_phrases hargs htype))
  | _ => rfl

/-- The phrase of a well-typed expression can be read, if all names in scope can be. -/
theorem readable_phrase {e : Expr} (h : inferIn scope e = .ok ty) (hprintable : e.Printable)
    (hscope : ∀ b ∈ scope, isFunctionName b.1 = true) : e.phrase.Readable := by
  induction hprintable generalizing ty with
  | const htimer hentity => exact Value.readable_phrase htimer hentity
  | var name =>
    obtain ⟨before, behind, heq, -⟩ := List.lookup_eq_some_iff.1 (inferIn_var.1 h)
    exact .name (hscope (name, ty) (by rw [heq]; simp))
  | member field _ ih =>
    obtain ⟨t, hinner, -⟩ := inferIn_member.1 h
    exact .call (by cases field <;> decide +kernel) (List.forall_mem_singleton.2 (ih hinner))
  | unary op _ ih =>
    obtain ⟨t, hinner, -⟩ := inferIn_unary.1 h
    exact .call (by cases op <;> decide +kernel) (List.forall_mem_singleton.2 (ih hinner))
  | binary op _ _ ihl ihr =>
    obtain ⟨l, r, hl, hr, -⟩ := inferIn_binary.1 h
    exact .chain rfl (by simp) (ihl hl) (List.forall_mem_singleton.2 (ihr hr)) fun h => by cases h
  | @call args func _ hargs ih =>
    obtain ⟨tys, htyped, htype⟩ := inferIn_call.1 h
    refine Func.readable_phrase (takes_phrases htyped htype) ?_ fun hlogical => ?_
    · rw [phrases_eq_map, List.forall_mem_map]
      intro e he
      obtain ⟨t, -, hety⟩ := htyped.exists_of_mem_left he
      exact ih e he hety
    · have hbool : ∀ t ∈ tys, t = .bool := by
        rcases hlogical with rfl | rfl
        · exact (Func.type?_and.1 (Func.type_eq_ok_iff.1 htype).2).2
        · exact (Func.type?_or.1 (Func.type_eq_ok_iff.1 htype).2).2
      rw [phrases_eq_map, List.forall_mem_map]
      intro e he
      obtain ⟨t, ht, hety⟩ := htyped.exists_of_mem_left he
      rw [hbool t ht] at hety
      exact mayBeTruth_phrase hety (hargs e he)
  | branch hcond _ _ ihc ihy ihn =>
    obtain ⟨hc, hy, hn⟩ := inferIn_branch.1 h
    exact .choice (ihc hc) (ihy hy) (ihn hn) (mayBeTruth_phrase hc hcond)

end Expr

/-! ### Lines -/

namespace Binding.Straight

variable {scope scope' : Expr.Scope} {bs : List Binding}

theorem printable (h : Straight scope bs scope') : ∀ b ∈ bs, b.Printable := by
  induction h with
  | nil => exact fun b hb => nomatch hb
  | cons guard value _ ih =>
    exact List.forall_mem_cons.2 ⟨⟨fun cond hcond => (guard cond hcond).printable, value.printable⟩, ih⟩

/-- A binding whose name can be read is printed as a line that can be read. -/
theorem readable_line {b : Binding} {ty : ValueType}
    (guard : ∀ cond, b.guard = some cond → Expr.Straight scope cond .bool)
    (value : Expr.Straight scope b.value ty) (hscope : ∀ b ∈ scope, isFunctionName b.1 = true)
    (hname : isFunctionName b.name = true) : b.line.Readable := by
  have hvalue := Expr.readable_phrase value.typed value.printable hscope
  unfold Binding.line
  split
  · exact .bind hname hvalue
  · rename_i cond hcond
    have hguard := guard cond hcond
    exact .guarded hname (Expr.readable_phrase hguard.typed hguard.printable hscope) hvalue
      (Expr.mayBeTruth_phrase hguard.typed hguard.printable)

/-- Bindings whose names can be read are printed as lines that can be read, and leave such names. -/
theorem readable (h : Straight scope bs scope') (hscope : ∀ b ∈ scope, isFunctionName b.1 = true)
    (hnames : ∀ b ∈ bs, isFunctionName b.name = true) :
    (∀ b ∈ bs, b.line.Readable) ∧ ∀ b ∈ scope', isFunctionName b.1 = true := by
  induction h with
  | nil scope => exact ⟨fun b hb => (nomatch hb), hscope⟩
  | @cons scope scope' b bs ty guard value _ ih =>
    obtain ⟨hname, hnames⟩ := List.forall_mem_cons.1 hnames
    obtain ⟨hlines, hscope'⟩ := ih (List.forall_mem_cons.2 ⟨hname, hscope⟩) hnames
    exact ⟨List.forall_mem_cons.2 ⟨readable_line guard value hscope hname, hlines⟩, hscope'⟩

end Binding.Straight

/-- Lines that can be read before others. -/
theorem Line.ReadsOn.append {ls more : List Line} (hls : ∀ l ∈ ls, l.Readable) (hmore : ReadsOn more) :
    ReadsOn (ls ++ more) := by
  induction ls with
  | nil => exact hmore
  | cons l ls ih =>
    obtain ⟨hl, hls⟩ := List.forall_mem_cons.1 hls
    exact .cons hl (ih hls)

theorem Hoisted.readable_line {h : Hoisted} (hname : isFunctionName h.name = true) :
    h.line.Readable := by
  have hget : isFunctionName ("get_" ++ h.object.kind) = true := by
    have hkinds : ∀ kind ∈ ["timer", "entity"], isFunctionName ("get_" ++ kind) = true := by
      decide +kernel
    exact hkinds _ (by cases h.object <;> simp [HostRef.kind])
  exact .bind hname (.call hget (List.forall_mem_singleton.2 (.text _)))

namespace Expr

/-- The linear form under which an expression is recorded. -/
def linear (e : Expr) : Linear := e.hoist.1.flatten.linearize e.hoist.2

/-- The lines under which an expression is recorded. -/
def unitLines (e : Expr) : List Line := e.linear.lines

theorem linear_eq (e : Expr) :
    e.linear = (withNames e.lookups e.flatten).linearize e.lookups := by
  rw [linear, hoist_eq, flatten_withNames]

/-- An expression with a type in a scope, in which no name is like a made one. -/
structure Unambiguous (e : Expr) (scope : Scope) (ty : ValueType) : Prop where
  typed : inferIn scope e = .ok ty
  scope : ∀ b ∈ scope, hasDoubleUnderscore b.1.toList = false
  bound : ∀ x ∈ e.boundNames, hasDoubleUnderscore x.toList = false

/-- An expression with a type over some parameters, in which all names are plain ones. -/
structure Recordable (e : Expr) (params : List Param) (ty : ValueType) : Prop where
  typed : e.infer params = .ok ty
  params : ∀ p ∈ params, PlainName p.name
  bound : ∀ x ∈ e.boundNames, PlainName x

/-- What the names of a unit stand for before its bindings: lookups and arguments. -/
def unitNames {α : Type} (e : Expr) (f : HostRef → α) (names : List (String × α)) :
    List (String × α) :=
  named f e.lookups ++ names

section Units

variable {α : Type} {e : Expr} {names : List (String × α)}

/-- The objects of a tree are found under their names. -/
theorem finds_unitNames {f : HostRef → α} {g : Value → α}
    (h : ∀ v ∈ e.objects, ∀ object, v.object? = some object → f object = g v) :
    Finds e.lookups g (unitNames e f names) e.objects := by
  intro v hv object hobject
  have hlists : Lists e.lookups object := lists_declareAll [] hv hobject
  obtain ⟨known, hknown, -, hname⟩ := exists_nameIn hlists
  obtain ⟨index, hindex⟩ := (declares_lookups e).exists_name hknown
  refine ⟨by rw [hname, hindex]; exact hasDoubleUnderscore_hoistedName _ _, ?_⟩
  rw [unitNames, lookup_named (declares_lookups e) hlists, h v hv object hobject]

theorem forall_mem_unitNames {P : String → Prop} {f : HostRef → α}
    (hlookups : ∀ object index, P (hoistedName object index)) (hnames : ∀ b ∈ names, P b.1) :
    ∀ b ∈ unitNames e f names, P b.1 := by
  refine List.forall_mem_append.2 ⟨fun b hb => ?_, hnames⟩
  obtain ⟨known, hknown, rfl⟩ := List.mem_map.1 (List.mem_reverse.1 hb)
  obtain ⟨index, hindex⟩ := (declares_lookups e).exists_name hknown
  simpa only [hindex] using hlookups known.object index

end Units

variable {e : Expr} {params : List Param} {ty : ValueType}

theorem forall_mem_scope {P : String → Prop} (h : ∀ p ∈ params, P p.name) :
    ∀ b ∈ Scope.of params, P b.1 := by
  intro b hb
  obtain ⟨p, hp, rfl⟩ := List.mem_map.1 (List.mem_reverse.1 hb)
  exact h p hp

/-- The lookups of a unit are lines that can be read. -/
theorem readable_lookups (e : Expr) : ∀ l ∈ e.linear.hoisted.map Hoisted.line, l.Readable := by
  refine List.forall_mem_map.2 fun known hknown => ?_
  have hlookup : known ∈ e.lookups := by
    rw [linear_eq] at hknown
    exact hknown
  obtain ⟨index, hindex⟩ := (declares_lookups e).exists_name hlookup
  exact Hoisted.readable_line (by rw [hindex]; exact isFunctionName_hoistedName _ _)

namespace Unambiguous

variable {scope : Scope} (h : e.Unambiguous scope ty)

include h

/-- The tree that is linearized has the type of the expression. -/
theorem inferIn_unit :
    inferIn (unitNames e HostRef.type scope) (withNames e.lookups e.flatten) = .ok ty := by
  refine inferIn_withNames (inferIn_flatten h.typed) ?_ ?_ ?_
  · exact le_named_append (declares_lookups e) h.scope
  · rw [objects_flatten]
    refine finds_unitNames fun v _ object hobject => ?_
    cases v <;> cases hobject <;> rfl
  · rw [boundNames_flatten]
    exact h.bound

theorem nameKind?_scope : ∀ b ∈ unitNames e HostRef.type scope, nameKind? b.1 = none :=
  forall_mem_unitNames (P := fun x => nameKind? x = none) nameKind?_hoistedName
    fun b hb => nameKind?_of_source (h.scope b hb)

/-- No variable of the tree that is linearized has a name that linearizing makes. -/
theorem nameKind?_vars : ∀ x ∈ (withNames e.lookups e.flatten).vars, nameKind? x = none := by
  refine forall_mem_vars h.inferIn_unit h.nameKind?_scope ?_
  rw [boundNames_withNames, boundNames_flatten]
  exact fun x hx => nameKind?_of_source (h.bound x hx)

/-- The bindings and the result of the linear form have types, and the bindings have made names. -/
theorem straight_linear {P Q : String → Prop} (hguard : ∀ n, P (guardName n))
    (hlet : ∀ x n, Q x → P (letName x n)) (hbound : ∀ x ∈ e.boundNames, Q x) :
    ∃ scope', Binding.Straight (unitNames e HostRef.type scope) e.linear.bindings scope' ∧
      Straight scope' e.linear.result ty ∧ ∀ b ∈ e.linear.bindings, P b.name := by
  rw [linear_eq]
  refine straight_linearize (P := P) (Q := Q) hguard hlet ?_ e.lookups h.inferIn_unit
    (objects_withNames _ _) h.nameKind?_vars h.nameKind?_scope
  rw [boundNames_withNames, boundNames_flatten]
  exact hbound

/-- An expression is recorded as its lines. -/
theorem printUnit_eq : e.printUnit = .ok ("\n".intercalate (e.unitLines.map Line.toText)) := by
  obtain ⟨scope', hbindings, hresult, -⟩ :=
    h.straight_linear (P := fun _ => True) (Q := fun _ => True) (fun _ => trivial) (fun _ _ _ => trivial)
      fun _ _ => trivial
  exact Linear.print_lines ⟨hbindings.printable, hresult.printable⟩

/-- All lines of a unit can be read if all names that are made of bound ones can be. -/
theorem readable_unitLines (hscope : ∀ b ∈ scope, isFunctionName b.1 = true)
    (hbound : ∀ x ∈ e.boundNames, ∀ n, isFunctionName (letName x n) = true) : ∀ l ∈ e.unitLines, l.Readable := by
  obtain ⟨scope', hbindings, hresult, hnames⟩ :=
    h.straight_linear (P := fun x => isFunctionName x = true)
      (Q := fun x => ∀ n, isFunctionName (letName x n) = true) isFunctionName_guardName (fun _ n hx => hx n) hbound
  have hunit : ∀ b ∈ unitNames e HostRef.type scope, isFunctionName b.1 = true :=
    forall_mem_unitNames (P := fun x => isFunctionName x = true) isFunctionName_hoistedName hscope
  obtain ⟨hlines, hscope'⟩ := hbindings.readable hunit hnames
  refine List.forall_mem_append.2 ⟨List.forall_mem_append.2 ⟨readable_lookups e, ?_⟩, ?_⟩
  · exact List.forall_mem_map.2 hlines
  · rw [List.forall_mem_singleton]
    exact .give (readable_phrase hresult.typed hresult.printable hscope')

end Unambiguous

namespace Recordable

variable (h : e.Recordable params ty)

include h

theorem unambiguous : e.Unambiguous (Scope.of params) ty where
  typed := h.typed
  scope := forall_mem_scope (P := fun x => hasDoubleUnderscore x.toList = false)
    fun p hp => (h.params p hp).single
  bound x hx := (h.bound x hx).single

/-- The bindings and the result of the linear form can be read. -/
theorem straight_linear :
    ∃ scope', Binding.Straight (unitNames e HostRef.type (Scope.of params)) e.linear.bindings scope' ∧
      Straight scope' e.linear.result ty ∧
      ∀ b ∈ e.linear.bindings, isFunctionName b.name = true :=
  h.unambiguous.straight_linear (P := fun x => isFunctionName x = true)
    (Q := fun x => isFunctionName x = true) isFunctionName_guardName
    (fun _ n => isFunctionName_letName n) fun x hx => (h.bound x hx).printed

/-- All lines of a unit can be read. -/
theorem readable_unitLines : ∀ l ∈ e.unitLines, l.Readable :=
  h.unambiguous.readable_unitLines
    (forall_mem_scope (P := fun x => isFunctionName x = true) fun p hp => (h.params p hp).printed)
    fun x hx n => isFunctionName_letName n (h.bound x hx).printed

end Recordable

end Expr

end Barrage
