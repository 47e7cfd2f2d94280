import Barrage.Proofs.Bake.ServedSessions
import Barrage.Proofs.Chunk.KeptEntities
import Barrage.Proofs.Chunk.KeyLiterals

/-!
# What served units ask for

A unit finds the host objects of its expression by the keys in its text. Its function looks them up one after
another before anything else, and everything behind the lookups leaves the host objects alone. So a call of a
served unit asks for the objects that the recorded expression names, each of them once and no others, whatever
characters their names are made of: it creates the timers among them that do not exist, and fails at the first
entity that does not.

## Main definitions

* `HostRef.askAll` — looking objects up
* `Term.Quiet`, `Statement.Quiet` — terms and statements that look nothing up
* `BakedUnit.AsksFor` — units that look some objects up and then are quiet

## Main results

* `Term.quiet_ofExpr` — what an expression is printed as is quiet
* `BakedUnit.asksFor_of_loadedAs` — a loaded unit asks for the objects of its expression
* `keys_survive_printing` — keys between printing and serving
-/

namespace Barrage

open Chunk Barrage.Expr

/-! ### Looking objects up -/

namespace HostRef

/-- Looking objects up one after another, until there is none: whether there were all of them, and the host
objects afterwards. -/
def askAll (hosts : Hosts) : List HostRef → Bool × Hosts
  | [] => (true, hosts)
  | object :: objects =>
    if (object.ask hosts).1 then askAll (object.ask hosts).2 objects else object.ask hosts

end HostRef

/-- The objects that an expression names, each of them once. -/
structure Expr.Names (e : Expr) (objects : List HostRef) : Prop where
  nodup : objects.Nodup
  mem_iff : ∀ object, object ∈ objects ↔ ∃ v ∈ e.objects, v.object? = some object

theorem Expr.names_lookups (e : Expr) : e.Names (e.lookups.map (·.object)) where
  nodup := (declares_lookups e).distinct
  mem_iff object := by
    constructor
    · intro h
      obtain ⟨known, hknown, rfl⟩ := List.mem_map.1 h
      exact exists_object_of_mem_lookups hknown
    · rintro ⟨v, hv, hobject⟩
      obtain ⟨known, hknown, rfl⟩ := lists_declareAll [] hv hobject
      exact List.mem_map_of_mem hknown

/-! ### Quiet terms -/

namespace Term

/-- Terms that call nothing but what units print for the operators and functions of source. None of these
functions looks anything up. -/
inductive Quiet : Term → Prop
  | unit : Quiet unit
  | bool (b : Bool) : Quiet (bool b)
  | int (n : Int64) : Quiet (int n)
  | float (x : Float) : Quiet (float x)
  | text (s : String) : Quiet (text s)
  | name (x : String) : Quiet (name x)
  | binary {left right : Term} (op : Operator) (hleft : Quiet left) (hright : Quiet right) :
    Quiet (binary op left right)
  | call {function : String} {args : List Term} (hfunction : function ∈ printedFunctions)
    (hargs : ∀ t ∈ args, Quiet t) : Quiet (call function args)
  | choice {cond yes no : Term} (hcond : Quiet cond) (hyes : Quiet yes) (hno : Quiet no) :
    Quiet (choice cond [.eval yes] [.eval no])

variable {left right cond yes no : Term}

theorem Quiet.conjunction (hleft : left.Quiet) (hright : right.Quiet) : (conjunction left right).Quiet := by
  unfold Term.conjunction
  split
  · exact hright
  · exact .bool false
  · exact hleft
  · split
    · exact .bool false
    · exact .binary _ hleft hright
  · exact .binary _ hleft hright

theorem Quiet.disjunction (hleft : left.Quiet) (hright : right.Quiet) : (disjunction left right).Quiet := by
  unfold Term.disjunction
  split
  · exact hright
  · exact .bool true
  · exact hleft
  · split
    · exact .bool true
    · exact .binary _ hleft hright
  · exact .binary _ hleft hright

theorem quiet_of_literal? {d : Datum} {t : Term} (h : d.literal? = some t) : t.Quiet := by
  unfold Datum.literal? at h
  split at h <;> cases h <;> constructor

theorem Quiet.joined (op : Operator) (hleft : left.Quiet) (hright : right.Quiet) : (joined op left right).Quiet := by
  unfold Term.joined
  split
  · exact hleft.conjunction hright
  · exact hleft.disjunction hright
  · unfold ofOperator
    cases hcomputed : (do
        let a ← left.literal?
        let b ← right.literal?
        (← Datum.operate? op a b).literal?) with
    | none => exact .binary _ hleft hright
    | some t =>
      simp only [Option.bind_eq_bind, Option.bind_eq_some_iff] at hcomputed
      obtain ⟨a, -, b, -, d, -, hd⟩ := hcomputed
      exact quiet_of_literal? hd

theorem Quiet.ofDecided (hcond : cond.Quiet) (hyes : yes.Quiet) (hno : no.Quiet) :
    (ofDecided cond yes no).Quiet := by
  rcases ofDecided_cases cond yes no with ⟨-, h⟩ | ⟨-, h⟩ | ⟨-, -, h⟩
  · rwa [h]
  · rwa [h]
  · rw [h]
    exact .choice hcond hyes hno

end Term

namespace Phrase

/-- Phrases that call nothing but what units print for the operators and functions of source. -/
inductive Quiet : Phrase → Prop
  | unit : Quiet unit
  | bool (b : Bool) : Quiet (bool b)
  | int (n : Int64) : Quiet (int n)
  | least : Quiet least
  | float (x : Float) : Quiet (float x)
  | name (x : String) : Quiet (name x)
  | chain {first : Phrase} {rest : List Phrase} (op : Operator) (hfirst : Quiet first)
    (hrest : ∀ p ∈ rest, Quiet p) : Quiet (chain op first rest)
  | call {function : String} {args : List Phrase} (hfunction : function ∈ printedFunctions)
    (hargs : ∀ p ∈ args, Quiet p) : Quiet (call function args)
  | choice {cond yes no : Phrase} (hcond : Quiet cond) (hyes : Quiet yes) (hno : Quiet no) :
    Quiet (choice cond yes no)

/-- Quiet phrases are simplified to quiet terms. -/
theorem Quiet.simplify {p : Phrase} (h : p.Quiet) : p.term.simplify.Quiet := by
  induction h with
  | unit => exact .unit
  | bool b => exact .bool b
  | int n => exact .int n
  | least =>
    rw [term, Term.simplify_binary]
    exact Term.Quiet.joined _ (.int _) (.int _)
  | float x => exact .float x
  | name x => exact .name x
  | @chain first rest op _ _ ihfirst ihrest =>
    rw [simplify_chain]
    clear * - ihfirst ihrest
    generalize first.term.simplify = t at ihfirst
    induction rest generalizing t with
    | nil => exact ihfirst
    | cons p rest ih =>
      obtain ⟨hp, hrest⟩ := List.forall_mem_cons.1 ihrest
      exact ih hrest _ (ihfirst.joined op hp)
  | call hfunction _ ih =>
    rw [term, Term.simplify, Term.ofCall_printed hfunction, Term.simplifyAll_eq_map, terms_eq_map, List.map_map]
    exact .call hfunction (List.forall_mem_map.2 ih)
  | choice _ _ _ ihcond ihyes ihno =>
    rw [simplify_choice _ (simplifies _) (simplifies _)]
    exact ihcond.ofDecided ihyes ihno

theorem quiet_float (x : Float) : (floatPhrase x).Quiet := by
  unfold floatPhrase
  split
  · exact .call (by decide) (List.forall_mem_nil _)
  · split
    · exact .call (by decide) (List.forall_mem_singleton.2 (.call (by decide) (List.forall_mem_nil _)))
    · exact .call (by decide) (List.forall_mem_nil _)
  · exact .float x

theorem quiet_value (v : Value) : v.phrase.Quiet := by
  cases v with
  | float x => exact quiet_float x
  | int n =>
    rw [Value.phrase, intPhrase]
    split
    · exact .least
    · exact .int n
  | bool b => exact .bool b
  | vec2 v =>
    refine .call (by decide) (List.forall_mem_cons.2 ⟨quiet_float v.x, ?_⟩)
    exact List.forall_mem_singleton.2 (quiet_float v.y)
  | timer | entity => exact .unit

theorem mem_printedFunctions (func : Func) : func.name ∈ printedFunctions := by
  cases func <;> decide

theorem quiet_foldl_call {function : String} (hfunction : function ∈ printedFunctions) {rest : List Phrase}
    (hrest : ∀ p ∈ rest, p.Quiet) {first : Phrase} (hfirst : first.Quiet) :
    (rest.foldl (fun acc p => call function [acc, p]) first).Quiet := by
  induction rest generalizing first with
  | nil => exact hfirst
  | cons p rest ih =>
    obtain ⟨hp, hrest⟩ := List.forall_mem_cons.1 hrest
    exact ih hrest (.call hfunction (List.forall_mem_cons.2 ⟨hfirst, List.forall_mem_singleton.2 hp⟩))

theorem quiet_func (func : Func) {args : List Phrase} (hargs : ∀ p ∈ args, p.Quiet) : (func.phrase args).Quiet := by
  unfold Func.phrase
  split
  case h_5 | h_6 =>
    obtain ⟨hfirst, hrest⟩ := List.forall_mem_cons.1 hargs
    exact quiet_foldl_call (mem_printedFunctions _) hrest hfirst
  case h_7 => exact .call (mem_printedFunctions func) hargs
  all_goals
    obtain ⟨hfirst, hrest⟩ := List.forall_mem_cons.1 hargs
    exact .chain _ hfirst hrest

end Phrase

namespace Expr

/-- An expression is printed without a lookup. Its objects have been replaced by names before. -/
theorem quiet_phrase (e : Expr) : e.phrase.Quiet := by
  induction e using treeInduction with
  | const value => exact Phrase.quiet_value value
  | var name => exact .name name
  | member inner field ih =>
    exact .call (by cases field <;> decide) (List.forall_mem_singleton.2 ih)
  | unary op inner ih =>
    exact .call (by cases op <;> decide) (List.forall_mem_singleton.2 ih)
  | binary op left right ihl ihr => exact .chain _ ihl (List.forall_mem_singleton.2 ihr)
  | branch cond yes no ihc ihy ihn => exact .choice ihc ihy ihn
  | bind name value body _ _ => exact .unit
  | call func args ih =>
    refine Phrase.quiet_func func ?_
    rw [phrases_eq_map]
    exact List.forall_mem_map.2 ih

end Expr

/-- Statements that bind a name or give a value, and look nothing up. -/
inductive Statement.Quiet : Statement → Prop
  | bind (x : String) {value : Term} (h : value.Quiet) : Quiet (bind x value)
  | give {value : Term} (h : value.Quiet) : Quiet (give value)

namespace Term

theorem quiet_ofExpr (e : Expr) : (ofExpr e).Quiet := e.quiet_phrase.simplify

theorem quiet_line (b : Binding) : b.line.simplified.Quiet := by
  rw [simplified_line]
  refine .bind b.name ?_
  unfold ofBinding
  split
  · exact quiet_ofExpr _
  · exact (quiet_ofExpr _).ofDecided (quiet_ofExpr _) .unit

/-! ### Running quiet terms -/

variable {chunk : Chunk} {calls : Calls} {env : Env}

/-- Functions of source do nothing to the host objects. -/
theorem preserves_printed (hcalls : calls.Plain) {function : String} (hfunction : function ∈ printedFunctions)
    (args : List Datum) : Preserves id (invoke chunk calls env function args) := by
  rw [invoke_printed hfunction, hcalls function hfunction]
  unfold native
  split
  case h_1 | h_2 | h_3 | h_4 | h_5 | h_6 => exact absurd hfunction (by decide)
  · exact (preserves_ofOption _).bind fun _ => preserves_get.bind fun _ => (preserves_ofOption _).bind fun _ =>
      (preserves_ofExcept _).bind fun _ => preserves_pure _

theorem preserves_evalList {ts : List Term} (h : ∀ t ∈ ts, Preserves id (eval chunk calls env t)) :
    Preserves id (evalList chunk calls env ts) := by
  induction ts with
  | nil =>
    rw [evalList]
    exact preserves_pure _
  | cons t ts ih =>
    obtain ⟨ht, hts⟩ := List.forall_mem_cons.1 h
    rw [evalList]
    exact ht.bind fun _ => (ih hts).bind fun _ => preserves_pure _

/-- Quiet terms leave the host objects as they are, however they end. -/
theorem Quiet.preserves (hcalls : calls.Plain) {t : Term} (h : t.Quiet) : Preserves id (eval chunk calls env t) := by
  induction h with
  | unit | bool | int | float | text =>
    rw [eval]
    exact preserves_pure _
  | name x =>
    rw [eval]
    exact preserves_lookup chunk env x
  | binary op _ _ ihleft ihright => exact preserves_binary op ihleft ihright
  | call hfunction _ ih =>
    rw [eval]
    exact (preserves_evalList ih).bind fun _ => preserves_printed hcalls hfunction _
  | choice _ _ _ ihcond ihyes ihno =>
    rw [eval]
    refine ihcond.bind fun d => (preserves_truth d).bind fun b => ?_
    split
    · rwa [evalBody]
    · rwa [evalBody]

theorem preserves_evalBody (hcalls : calls.Plain) {body : List Statement} (h : ∀ s ∈ body, s.Quiet) :
    Preserves id (evalBody chunk calls env body) := by
  induction body generalizing env with
  | nil =>
    rw [evalBody]
    exact preserves_pure _
  | cons s body ih =>
    obtain ⟨hs, hbody⟩ := List.forall_mem_cons.1 h
    cases hs with
    | bind x hvalue =>
      rw [evalBody]
      exact (hvalue.preserves hcalls).bind fun _ => ih hbody
    | give hvalue =>
      rw [evalBody]
      exact (hvalue.preserves hcalls).bind fun _ => preserves_throw _

/-! ### Running lookups -/

/-- Lookups of some objects, each under a name that depends on its place. -/
def lookupsOf (name : Nat → HostRef → String) (objects : List HostRef) : List Statement :=
  objects.mapIdx fun i object => .bind (name i object) (.call ("get_" ++ object.kind) [.text object.key])

theorem lookupsOf_cons (name : Nat → HostRef → String) (object : HostRef) (objects : List HostRef) :
    lookupsOf name (object :: objects) =
      .bind (name 0 object) (.call ("get_" ++ object.kind) [.text object.key]) ::
        lookupsOf (fun i => name (i + 1)) objects :=
  List.mapIdx_cons

/-- Lookups with something quiet behind them do to the host objects what looking the objects up does, and end in
a fault if one of them is missing. -/
theorem run_askAll (hcalls : calls.Native) {rest : List Statement} (hrest : ∀ s ∈ rest, s.Quiet)
    (name : Nat → HostRef → String) (objects : List HostRef) (hosts : Hosts) :
    let run := (evalBody chunk calls env (lookupsOf name objects ++ rest)).run.run hosts
    run.2 = (HostRef.askAll hosts objects).2 ∧
      ((HostRef.askAll hosts objects).1 = false → run.1 = .error .fault) := by
  induction objects generalizing env name hosts with
  | nil => exact ⟨preserves_evalBody hcalls.plain hrest hosts, fun h => nomatch h⟩
  | cons object objects ih =>
    have hask : (eval chunk calls env _).run.run hosts = _ := run_ask hcalls object hosts
    rw [lookupsOf_cons, List.cons_append, evalBody, HostRef.askAll]
    by_cases hfound : (object.ask hosts).1 = true
    · rw [if_pos hfound] at hask
      rw [if_pos hfound, run_bind_of_ok hask]
      exact ih _ _
    · rw [if_neg hfound] at hask
      rw [if_neg hfound, run_bind_of_error hask]
      exact ⟨rfl, fun _ => rfl⟩

end Term

/-! ### Served units -/

/-- Units that look some objects up, one after another, and then are quiet. -/
structure BakedUnit.AsksFor (unit : BakedUnit) (arity : Nat) (objects : List HostRef) : Prop where
  body : ∃ f rest, unit.chunk.find? unit.name arity = some f ∧
    f.body = Term.lookupsOf (fun i object => hoistedName object i) objects ++ rest ∧ ∀ s ∈ rest, s.Quiet
  hosts : ∀ (args : List Value) (hosts : Hosts), args.length = arity →
    (unit.call args hosts).2 = (HostRef.askAll hosts objects).2
  missing : ∀ (args : List Value) (hosts : Hosts), args.length = arity → (HostRef.askAll hosts objects).1 = false →
    (unit.call args hosts).1 = .error (.baked unit.name)

/-- What a call of a unit leaves of the host objects is what the run of its function leaves. -/
theorem BakedUnit.hosts_call (unit : BakedUnit) (args : List Value) (hosts : Hosts) :
    (unit.call args hosts).2 = ((unit.chunk.call unit.name args).run.run hosts).2 := by
  unfold call
  split <;> simp_all

/-- The lookups of an expression are loaded as lookups of the objects that it names. -/
theorem Expr.map_simplified_lookups (e : Expr) :
    (e.lookups.map fun h => h.line.simplified) =
      Term.lookupsOf (fun i object => hoistedName object i) (e.lookups.map (·.object)) := by
  refine List.ext_getElem? fun i => ?_
  rw [Term.lookupsOf, List.getElem?_map, List.getElem?_mapIdx, List.getElem?_map]
  cases hi : e.lookups[i]? with
  | none => rfl
  | some h =>
    simp only [Option.map_some]
    rw [Term.simplified_lookup, Term.ofCall_lookup, (declares_lookups e).named i h hi]

/-- A unit that was loaded asks for the objects of its expression. -/
theorem BakedUnit.asksFor_of_loadedAs {u : RecordedUnit} {e : Expr} {unit : BakedUnit}
    (h : RecordedUnit.LoadedAs (u, e.unitLines) unit) :
    unit.AsksFor u.params.length (e.lookups.map (·.object)) := by
  obtain ⟨rest, hrest⟩ : ∃ rest, rest =
      e.linear.bindings.map (fun b => b.line.simplified) ++ [(Line.give e.linear.result.phrase).simplified] := ⟨_, rfl⟩
  have hquiet : ∀ s ∈ rest, s.Quiet := by
    rw [hrest]
    refine List.forall_mem_append.2 ⟨List.forall_mem_map.2 fun b _ => Term.quiet_line b, ?_⟩
    exact List.forall_mem_singleton.2 (.give (Term.quiet_ofExpr _))
  have hbody : (u.function e.unitLines).body =
      Term.lookupsOf (fun i object => hoistedName object i) (e.lookups.map (·.object)) ++ rest := by
    have hlookups : e.linear.hoisted = e.lookups := by rw [linear_eq]; rfl
    rw [← e.map_simplified_lookups, hrest, ← hlookups]
    simp [RecordedUnit.function, unitLines, Linear.lines, Function.comp_def]
  have hfind : unit.chunk.find? unit.name u.params.length = some (u.function e.unitLines) := by
    rw [h.name]
    exact h.found
  have hnative : (unit.chunk.callsWithin maxCalls).Native := h.keeps.native 63
  -- A call runs the lookups over the arguments, and then what is behind them.
  have hrun (args : List Value) (hosts : Hosts) (hargs : args.length = u.params.length) : ∃ run : Run Datum,
      (unit.chunk.call unit.name args).run.run hosts = (settled run).run.run hosts ∧
        (run.run.run hosts).2 = (HostRef.askAll hosts (e.lookups.map (·.object))).2 ∧
        ((HostRef.askAll hosts (e.lookups.map (·.object))).1 = false → (run.run.run hosts).1 = .error .fault) := by
    have hcall := h.keeps.run_call (by rw [hargs]; exact hfind) hosts
    rw [hbody] at hcall
    exact ⟨_, hcall, Term.run_askAll hnative hquiet _ _ hosts⟩
  refine ⟨⟨_, rest, hfind, hbody, hquiet⟩, fun args hosts hargs => ?_, fun args hosts hargs hmissing => ?_⟩
  · obtain ⟨run, hcall, hhosts, -⟩ := hrun args hosts hargs
    rw [unit.hosts_call, hcall, hosts_settled, hhosts]
  · obtain ⟨run, hcall, -, hfault⟩ := hrun args hosts hargs
    unfold BakedUnit.call
    rw [hcall, run_settled_of_fault (Prod.ext (hfault hmissing) rfl)]

theorem forall₂_of_mapIdx {α β γ : Type} {f : Nat → α → γ} {R : γ → β → Prop} {S : α → β → Prop} {as : List α}
    {bs : List β} (hrel : ∀ i a b, R (f i a) b → S a b) (h : List.Forall₂ R (as.mapIdx f) bs) :
    List.Forall₂ S as bs := by
  induction as generalizing f bs with
  | nil =>
    cases h
    exact .nil
  | cons a as ih =>
    rw [List.mapIdx_cons] at h
    cases h with
    | cons hfirst hrest => exact .cons (hrel 0 a _ hfirst) (ih (fun i => hrel (i + 1)) hrest)

open Exchange Session

/-- Keys survive printing. The literal of a key holds no line break and no quote that is not escaped, and wherever a
token can stand it is read as the key; distinct keys have distinct literals. The lookups of a unit come through the
indentation of its lines as they were printed, and each is cut into the same tokens whatever its key. So, if what a
recording session exports is loaded, and the names of sources, parameters and bindings are spelled like words, the
units of a source ask for the objects that the recorded expressions name. -/
theorem keys_survive_printing :
    (∀ key : String, ∃ content, (Text.literal key).toList = '"' :: content ++ ['"'] ∧ Text.Contained content ∧
      ∀ (whole : List Char) (before : Bool) (next : Char) (rest : List Char), next ≠ '"' →
        ChunkToken.Cuts whole before ((Text.literal key).toList ++ next :: rest) [.text key] true (next :: rest)) ∧
    Function.Injective Text.literal ∧
    (∀ (e : Expr), ∀ known ∈ e.lookups, ∀ (whole : List Char) (before : Bool) (rest : List Char),
      ChunkToken.Cuts whole before (known.print.toList ++ rest)
        [.word "let", .word known.name, .symbol .assign, .word ("get_" ++ known.object.kind), .symbol .opening,
          .text known.object.key, .symbol .closing, .semicolon] false rest) ∧
    (∀ (e : Expr) (unit : RecordedUnit), e.printUnit = .ok unit.body →
      ∃ tail, unit.body = String.join (e.lookups.map Hoisted.print) ++ tail ∧
        unit.definition = "// " ++ unit.signature.text ++ "\nfn " ++ unit.name ++ "(" ++
          ", ".intercalate (unit.params.map (·.name)) ++ ") \x7b\n" ++
            String.join (e.lookups.map fun known => "    " ++ known.print) ++
              String.join ((Text.lines tail).map fun line => "    " ++ line ++ "\n") ++ "\x7d") ∧
    ∀ acts : List Act, (∀ act ∈ acts, act.Named) → ∀ artifacts ∈ exports (recording.history acts), ∀ store,
      Store.ofArtifacts artifacts = .ok store → ∀ file ∈ artifacts.registry.files.map Prod.fst,
        ∃ id units, opener? (recording.history acts) file = some id ∧ store.unitsFor file = .ok units ∧
          List.Forall₂ (fun call unit => ∃ objects, call.1.Names objects ∧
            unit.AsksFor call.2.fullParams.length objects) (calls (recording.history acts) id) units := by
  refine ⟨fun key => ⟨_, Text.toList_literal key, Text.contained_content _, ?_⟩, Text.literal_injective, ?_, ?_, ?_⟩
  · exact fun _ _ _ rest hnext => ChunkToken.cuts_quoted key hnext rest
  · exact fun e known hknown whole before => Hoisted.cuts_print (readable_of_mem_lookups hknown) whole before
  · exact fun e unit => RecordedUnit.definition_lookups
  · intro acts hnamed artifacts hartifacts store hstore file hfile
    have hfound := unitsFor_exported hnamed hartifacts hstore file
    rw [if_pos hfile] at hfound
    obtain ⟨id, units, hopener, -, -, hunits, hloaded⟩ := hfound
    refine ⟨id, units, hopener, hunits, forall₂_of_mapIdx (fun i call unit hunit => ?_) hloaded⟩
    exact ⟨_, call.1.names_lookups, BakedUnit.asksFor_of_loadedAs hunit⟩

/-- A name of a timer that would end its literal and look another timer up. -/
def hostileKey : String := "\"); get_timer(\"\n\\\x01"

/-- The time of the timer with this name. -/
def hostile : Expr := .member (.const (.timer ⟨0, hostileKey⟩)) .elapsed

/-- A session in which it is compiled for a source. -/
def hostileActs : List Act := [.push ⟨"A"⟩, .compile hostile ⟨[], .float, []⟩, .pop 0]

/-- The source. -/
def hostileSource : RecordedFile :=
  ⟨⟨"A"⟩, [(RecordedUnit.ofCall ⟨"A"⟩ 0 (hostile, ⟨[], .float, []⟩), hostile.unitLines)]⟩

theorem valid_hostileSource : hostileSource.Valid where
  named i u hu := by
    cases i with
    | zero =>
      cases hu
      rfl
    | succ i => cases hu
  lines := by
    have hrecordable : hostile.Recordable [] .float := ⟨rfl, List.forall_mem_nil _, List.forall_mem_nil _⟩
    have hcall : RecordedCall (hostile, ⟨[], .float, []⟩) := ⟨rfl, List.forall_mem_nil _, List.forall_mem_nil _⟩
    refine List.forall_mem_singleton.2 ⟨by simp [unitLines, Linear.lines], hcall.body _ _, ?_⟩
    exact ⟨by decide +kernel, List.forall_mem_nil _, List.nodup_nil, hrecordable.readable_unitLines⟩
  body := List.forall_mem_singleton.2 hostile.isBody_unitLines

theorem exports_hostile :
    exports (recording.history (hostileActs ++ [.export])) = [RecordedFile.artifacts [hostileSource]] :=
  Artifacts.exports_concat_export rfl (by decide +kernel) (by decide +kernel)

/-- A unit with a hostile key is served, and creates the one timer that was recorded. -/
theorem keys_survive_printing_hostile :
    ∃ store unit, Store.ofArtifacts (RecordedFile.artifacts [hostileSource]) = .ok store ∧
      store.unitsFor ⟨"A"⟩ = .ok [unit] ∧
      (unit.call [] Hosts.empty).2.timers.map (·.name) = [hostileKey] := by
  obtain ⟨store, hstore⟩ := (RecordedFile.exists_load_iff (List.forall_mem_singleton.2 valid_hostileSource)
    (List.nodup_singleton _)).2 (List.forall_mem_singleton.2 (List.forall_mem_singleton.2 (by decide +kernel)))
  have hnamed : ∀ act ∈ hostileActs ++ [.export], act.Named := by
    refine List.forall_mem_cons.2 ⟨⟨⟨'A', [], rfl, by decide⟩, List.forall_mem_singleton.2 (by decide)⟩, ?_⟩
    refine List.forall_mem_cons.2 ⟨⟨List.forall_mem_nil _, List.forall_mem_nil _⟩, ?_⟩
    exact List.forall_mem_cons.2 ⟨trivial, List.forall_mem_singleton.2 trivial⟩
  obtain ⟨id, units, hopener, hunits, hasks⟩ := keys_survive_printing.2.2.2.2 _ hnamed _
    (by rw [exports_hostile]; exact List.mem_singleton_self _) _ hstore ⟨"A"⟩ (List.mem_singleton_self _)
  obtain rfl : (0 : Nat) = id := Option.some.inj (Eq.trans (by decide +kernel) hopener)
  have hcalls : calls (recording.history (hostileActs ++ [.export])) 0 = [(hostile, ⟨[], .float, []⟩)] := rfl
  rw [hcalls] at hasks
  cases hasks with
  | cons hunit hrest =>
    cases hrest
    obtain ⟨objects, hobjects, hunit⟩ := hunit
    have honly : objects = [.timer hostileKey] := by
      refine List.perm_singleton.1 ((List.perm_ext_iff_of_nodup hobjects.nodup (List.nodup_singleton _)).2 ?_)
      intro object
      rw [hobjects.mem_iff]
      simp [hostile, Expr.objects, Value.object?, eq_comm]
    refine ⟨store, _, hstore, hunits, ?_⟩
    rw [hunit.hosts [] Hosts.empty rfl, honly]
    rfl

end Barrage
