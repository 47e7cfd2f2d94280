import Barrage.Proofs.Bake.Loading
import Barrage.Proofs.Bake.Sessions
import Barrage.Proofs.Chunk.LegibleUnits

/-!
# Recording and serving a source

While a source is open, the texts that are compiled in it become its units, one after the other. If the
artifacts can be loaded, all names of the units are names of the serving language, so each unit is what it
was recorded as. Serving the same source hands out the units by their places, and succeeds as long as each
has the signature that is asked for.

## Main definitions

* `Request.callable` — the callable of a request over code or a unit
* `Request.recordedUnit` — the unit that an expression is recorded as
* `Request.Plain` — accepted expressions whose names can be printed
* `Request.Accepts` — the trees of source that are accepted for a request
* `RecordedFile.Worded` — sources whose units can be read up to the first name that is refused
* `RecordedFile.ofExprs` — the source in which some expressions are compiled
* `Session.recorded` — a recording session after a source
* `BuildM.Compiles` — the trees and callables of some texts

## Main results

* `RecordedFile.valid_of_load` — artifacts that can be loaded have no name that is refused
* `RecordedFile.unitsFor_recorded` — the units of a source are loaded as they were recorded
* `BuildM.gives_record_source` — when a source is recorded
* `BuildM.serve_source` — a source is served by units of the right signatures
-/

namespace Barrage

open Chunk Barrage.Expr

/-! ### Names of sources -/

namespace FileId

/-- The name of a source, as its kind and a number. -/
theorem toList_identify (kind : SiteKind) (key : SiteKey) :
    ∃ n, (identify kind key).text.toList = kind.tag.toList ++ Nat.toDigits 10 n := by
  have hlow : (-0x8000000000000000 : Int) ≤ key.hash.toInt := Int64.le_toInt key.hash
  obtain ⟨n, hn⟩ : ∃ n : Nat, key.hash.toInt + 0x8000000000000000 = n :=
    ⟨(key.hash.toInt + 0x8000000000000000).toNat, by omega⟩
  refine ⟨n, ?_⟩
  have hdigits : (toString (key.hash.toInt + 0x8000000000000000)).toList = Nat.toDigits 10 n := by
    rw [hn]
    exact Nat.toList_repr
  rw [identify, String.toList_append, hdigits]

end FileId

/-- No word that the serving language keeps for itself is named like a unit. -/
theorem isFree_unitName (file : FileId) (index : Nat) : isFree (Recording.unitName file index) = true := by
  have hkept : ∀ w ∈ reservedWords ++ builtInFunctions,
      (w.toList.reverse.dropWhile Char.isDigit).head? ≠ some '_' := by
    decide +kernel
  have hnot : ∀ w ∈ reservedWords ++ builtInFunctions, Recording.unitName file index ≠ w := by
    rintro w hw rfl
    have hhead := hkept _ hw
    rw [Recording.toList_unitName, dropWhile_reverse_append_toDigits (by decide)] at hhead
    exact hhead rfl
  obtain ⟨hword, hfunction⟩ := List.forall_mem_append.1 hnot
  have hword' : Recording.unitName file index ∉ reservedWords := fun h => hword _ h rfl
  have hfunction' : Recording.unitName file index ∉ builtInFunctions := fun h => hfunction _ h rfl
  simp [isFree, hword', hfunction']

/-- The units of a source with a key have names that can be printed. -/
theorem isFunctionName_unitName (kind : SiteKind) (key : SiteKey) (index : Nat) :
    isFunctionName (Recording.unitName (FileId.identify kind key) index) = true := by
  obtain ⟨n, hn⟩ := FileId.toList_identify kind key
  have hlist := Recording.toList_unitName (FileId.identify kind key) index
  rw [hn, List.append_assoc] at hlist
  have htag : ChunkToken.isWord kind.tag.toList = true ∧
      ∀ c ∈ kind.tag.toList, Scanned.continuesName c = true := by
    cases kind <;> exact ⟨by decide, List.all_eq_true.1 (by decide)⟩
  have hall : (Recording.unitName (FileId.identify kind key) index).toList.all Scanned.continuesName =
      true := by
    rw [List.all_eq_true, hlist]
    refine List.forall_mem_append.2 ⟨htag.2, List.forall_mem_append.2 ⟨?_, ?_⟩⟩
    · exact fun c hc => continuesName_of_mem_toDigits hc
    · exact List.forall_mem_cons.2 ⟨by decide, fun c hc => continuesName_of_mem_toDigits hc⟩
  have hword : ChunkToken.isWord (Recording.unitName (FileId.identify kind key) index).toList = true := by
    rw [hlist]
    exact isWord_append htag.1 _
  simp [isFunctionName, isFree_unitName, hall, hword]

/-! ### Units of expressions -/

namespace Request

/-- The callable of a request over code or a unit. -/
def callable (r : Request) (body : Callable.Body) : Callable :=
  ⟨⟨r.params.map (·.type), r.returns⟩, r.proxyValues, body⟩

/-- The unit that an expression is recorded as. -/
def recordedUnit (r : Request) (e : Expr) (file : FileId) (index : Nat) : RecordedUnit :=
  ⟨Recording.unitName file index, r.fullParams, Signature.of r.fullParams r.returns,
    "\n".intercalate (e.unitLines.map Line.toText)⟩

/-- A tree of source that is accepted for a request. -/
structure Accepts (r : Request) (e : Expr) : Prop where
  check : e.check r.fullParams r.returns = .ok ()
  source : e.SourceNamed

namespace Accepts

variable {r : Request} {e : Expr} (h : r.Accepts e)

include h

/-- Parameters that source cannot name do not count. -/
theorem unambiguous :
    e.Unambiguous ((Scope.of r.fullParams).filter fun b => !hasDoubleUnderscore b.1.toList) r.returns where
  typed := h.source.inferIn_filter (infer_of_check h.check)
  scope b hb := by simpa using (List.mem_filter.1 hb).2
  bound x hx := (h.source.bound x hx).single

/-- The unit of an accepted tree can be read up to the first name that is refused. -/
theorem spelled (hparams : ∀ p ∈ r.fullParams, Identifier p.name) (kind : SiteKind) (key : SiteKey)
    (index : Nat) : (r.recordedUnit e (FileId.identify kind key) index).Spelled e.unitLines where
  nonempty := by simp [unitLines, Linear.lines]
  body := rfl
  name := isFunctionName_unitName kind key index
  params := hparams
  lines hnames := readsOn_unitLines (infer_of_check h.check) (fun x hx => (h.source.bound x hx).toIdentifier)
    (forall_mem_scope (P := fun x => isFunctionName x = true) hnames)

end Accepts

end Request

/-- The lines of a unit end by giving its result. -/
theorem Expr.isBody_unitLines (e : Expr) : RecordedFile.IsBody e.unitLines := by
  refine ⟨e.linear.hoisted.map Hoisted.line ++ e.linear.bindings.map Binding.line, e.linear.result.phrase,
    rfl, ?_⟩
  refine List.forall_mem_append.2 ⟨?_, ?_⟩
  · exact List.forall_mem_map.2 fun h _ => rfl
  · refine List.forall_mem_map.2 fun b _ => ?_
    unfold Binding.line
    cases b.guard <;> rfl

namespace Request

variable {r : Request} {e : Expr}

/-- An accepted request whose names can be printed. -/
structure Plain (r : Request) (e : Expr) : Prop where
  check : e.check r.fullParams r.returns = .ok ()
  distinct : (r.fullParams.map (·.name)).Nodup
  params : ∀ p ∈ r.fullParams, PlainName p.name
  bound : ∀ x ∈ e.boundNames, PlainName x

theorem Plain.recordable (h : r.Plain e) : e.Recordable r.fullParams r.returns :=
  ⟨infer_of_check h.check, h.params, h.bound⟩

/-- The body of a recorded unit is made of its lines. -/
theorem Plain.hasLines (h : r.Plain e) (kind : SiteKind) (key : SiteKey) (index : Nat) :
    (r.recordedUnit e (FileId.identify kind key) index).HasLines e.unitLines := by
  refine ⟨?_, rfl, ?_⟩
  · simp [unitLines, Linear.lines]
  · refine ⟨isFunctionName_unitName kind key index, ?_, h.distinct, h.recordable.readable_unitLines⟩
    exact List.forall_mem_map.2 fun p hp => (h.params p hp).printed

end Request

/-! ### Sources -/

namespace Recording

/-- A recording after an expression was compiled in it. -/
def record (recording : Recording) (x : Request × Expr) : Recording :=
  (recording.add ("\n".intercalate (x.2.unitLines.map Line.toText)) x.1.fullParams x.1.returns).2

theorem units_foldl_record (recording : Recording) (xs : List (Request × Expr)) :
    xs.foldl record recording = { recording with
      units := recording.units ++
        xs.mapIdx fun i x => x.1.recordedUnit x.2 recording.file (recording.units.length + i) } := by
  induction xs generalizing recording with
  | nil => simp
  | cons x xs ih =>
    rw [List.foldl_cons, ih, List.mapIdx_cons]
    simp [record, add, Request.recordedUnit, Nat.add_assoc, Nat.add_comm 1]

end Recording

namespace RecordedFile

/-- The source in which some expressions are compiled. -/
def ofExprs (file : FileId) (xs : List (Request × Expr)) : RecordedFile :=
  ⟨file, xs.mapIdx fun i x => (x.1.recordedUnit x.2 file i, x.2.unitLines)⟩

theorem map_units_ofExprs (file : FileId) (xs : List (Request × Expr)) :
    (ofExprs file xs).units.map Prod.fst = xs.mapIdx fun i x => x.1.recordedUnit x.2 file i := by
  refine List.ext_getElem? fun i => ?_
  simp only [ofExprs, List.getElem?_map, List.getElem?_mapIdx, Option.map_map]
  rfl

/-- A recording in which some expressions were compiled is exported as their source. -/
theorem export?_record (file : FileId) (xs : List (Request × Expr)) :
    (xs.foldl Recording.record { file }).export? = if xs.isEmpty then none else some (ofExprs file xs).batch := by
  have hbatch : (ofExprs file xs).batch = ⟨file, ((ofExprs file xs).units.map Prod.fst).map (·.definition),
      ((ofExprs file xs).units.map Prod.fst).map fun u => ⟨u.name, u.signature⟩⟩ := by
    rw [List.map_map, List.map_map]
    rfl
  rw [Recording.units_foldl_record, hbatch, map_units_ofExprs]
  cases xs with
  | nil => rfl
  | cons x xs => simp [Recording.export?]

theorem named_ofExprs {file : FileId} {xs : List (Request × Expr)} {i : Nat} {u : RecordedUnit × List Line}
    (hu : (ofExprs file xs).units[i]? = some u) : u.1.name = Recording.unitName file i := by
  rw [ofExprs, List.getElem?_mapIdx] at hu
  obtain ⟨x, -, rfl⟩ := Option.map_eq_some_iff.1 hu
  rfl

/-- What holds of all units that are recorded for some expressions. -/
theorem forall_mem_ofExprs {file : FileId} {xs : List (Request × Expr)}
    {P : RecordedUnit × List Line → Prop}
    (h : ∀ x ∈ xs, ∀ index, P (x.1.recordedUnit x.2 file index, x.2.unitLines)) :
    ∀ u ∈ (ofExprs file xs).units, P u := by
  intro u hu
  obtain ⟨i, hi, rfl⟩ := List.mem_mapIdx.1 hu
  exact h _ (List.getElem_mem hi) i

/-- The source of accepted expressions whose names can be printed. -/
theorem valid_ofExprs (kind : SiteKind) (key : SiteKey) {xs : List (Request × Expr)}
    (h : ∀ x ∈ xs, x.1.Plain x.2) : (ofExprs (FileId.identify kind key) xs).Valid where
  named _ _ hu := named_ofExprs hu
  lines := forall_mem_ofExprs fun x hx index => (h x hx).hasLines kind key index
  body := forall_mem_ofExprs fun x _ _ => x.2.isBody_unitLines

/-- A source whose units can be read up to the first name that is refused. -/
structure Spelled (f : RecordedFile) : Prop where
  named : ∀ i u, f.units[i]? = some u → u.1.name = Recording.unitName f.file i
  lines : ∀ u ∈ f.units, u.1.Spelled u.2
  body : ∀ u ∈ f.units, IsBody u.2

theorem spelled_ofExprs (kind : SiteKind) (key : SiteKey) {xs : List (Request × Expr)}
    (h : ∀ x ∈ xs, x.1.Accepts x.2 ∧ ∀ p ∈ x.1.fullParams, Identifier p.name) :
    (ofExprs (FileId.identify kind key) xs).Spelled where
  named _ _ hu := named_ofExprs hu
  lines := forall_mem_ofExprs fun x hx index => (h x hx).1.spelled (h x hx).2 kind key index
  body := forall_mem_ofExprs fun x _ _ => x.2.isBody_unitLines

variable {fs : List RecordedFile}

/-- A source whose units have names that are spelled like words. -/
structure Worded (f : RecordedFile) : Prop where
  named : ∀ i u, f.units[i]? = some u → u.1.name = Recording.unitName f.file i
  lines : ∀ u ∈ f.units, u.1.Worded u.2
  body : ∀ u ∈ f.units, IsBody u.2

theorem Spelled.worded {f : RecordedFile} (h : f.Spelled) : f.Worded := ⟨h.named, fun u hu => (h.lines u hu).worded, h.body⟩

/-- If artifacts can be loaded, no name in them is refused. -/
theorem valid_of_load (hworded : ∀ f ∈ fs, f.Worded) {store : Store}
    (hstore : Store.ofArtifacts (artifacts fs) = .ok store) : ∀ f ∈ fs, f.Valid := by
  obtain ⟨-, hchunks⟩ := Artifacts.ofArtifacts_eq_ok_iff.1 hstore
  have hall : ∀ u ∈ allUnits fs, u.1.Worded u.2 := by
    intro u hu
    obtain ⟨f, hf, hu⟩ := List.mem_flatMap.1 hu
    exact (hworded f hf).lines u hu
  intro f hf
  refine ⟨(hworded f hf).named, fun u hu => ?_, (hworded f hf).body⟩
  obtain ⟨n, hn⟩ := List.mem_iff_getElem?.1 (List.mem_flatMap.2 ⟨f, hf, hu⟩ : u ∈ allUnits fs)
  obtain ⟨us, hus, huus⟩ := Artifacts.exists_piece (by decide : 0 < Artifacts.chunkSize) hn
  have hload := Store.exists_readChunks_iff.1 ⟨_, hchunks⟩ _ (mem_sources_iff.2 ⟨_, us, hus, rfl⟩)
  obtain ⟨chunk, hload⟩ := Option.isSome_iff_exists.1 hload
  obtain ⟨parsed, hparse, -⟩ := Option.map_eq_some_iff.1 hload
  have hsub := Artifacts.mem_of_mem_pieces (by decide : 0 < Artifacts.chunkSize) (List.mem_of_getElem? hus)
  exact RecordedUnit.hasLines_of_parse? (fun v hv => hall v (hsub.subset hv)) hparse u huus

/-- The sources that have units. -/
def recorded (fs : List RecordedFile) : List RecordedFile := fs.filter fun f => !f.units.isEmpty

/-- What a recording leaves behind is the source with its units, if there are any and if it is not
suppressed. -/
theorem toList_export?_record (file : FileId) (suppressed : Bool) (xs : List (Request × Expr)) :
    (xs.foldl Recording.record { file, suppressed }).export?.toList =
      if suppressed then [] else (recorded [ofExprs file xs]).map batch := by
  cases suppressed with
  | true =>
    rw [Recording.units_foldl_record]
    rfl
  | false =>
    rw [export?_record]
    cases xs with
    | nil => rfl
    | cons x xs =>
      have hunits : (ofExprs file (x :: xs)).units.isEmpty = false := by simp [ofExprs]
      rw [recorded, List.filter_singleton, hunits]
      rfl

theorem recorded_append (fs gs : List RecordedFile) : recorded (fs ++ gs) = recorded fs ++ recorded gs :=
  List.filter_append fs gs

/-- The units of a source are loaded as they were recorded, also if there are none. -/
theorem unitsFor_recorded (hspelled : ∀ f ∈ fs, f.Spelled) (hfiles : (fs.map (·.file)).Nodup) {store : Store}
    (hstore : Store.ofArtifacts (artifacts (recorded fs)) = .ok store) {f : RecordedFile} (hf : f ∈ fs) :
    ∃ units, store.unitsFor f.file = .ok units ∧ List.Forall₂ RecordedUnit.LoadedAs f.units units := by
  have hvalid : ∀ f ∈ recorded fs, f.Valid :=
    valid_of_load (fun f hf => (hspelled f (List.mem_of_mem_filter hf)).worded) hstore
  have hnodup : ((recorded fs).map (·.file)).Nodup := hfiles.sublist (List.filter_sublist.map _)
  cases hunits : f.units with
  | nil =>
    refine ⟨[], unitsFor_of_notMem hstore fun g hg heq => ?_, .nil⟩
    -- Sources of one name are the same source, which has no units.
    obtain ⟨hg, hsome⟩ := List.mem_filter.1 hg
    obtain rfl : g = f := List.inj_on_of_nodup_map hfiles hg hf heq
    simp [hunits] at hsome
  | cons u us =>
    rw [← hunits]
    exact unitsFor_load hvalid hnodup hstore (List.mem_filter.2 ⟨hf, by simp [hunits]⟩)

/-- The units of a source have the names of their places, and the signatures that were asked for. -/
theorem loaded_ofExprs {file : FileId} {xs : List (Request × Expr)} {units : List BakedUnit}
    (h : List.Forall₂ RecordedUnit.LoadedAs (ofExprs file xs).units units) :
    units.length = xs.length ∧ ∀ i x unit, xs[i]? = some x → units[i]? = some unit →
      unit.name = Recording.unitName file i ∧ unit.signature = Signature.of x.1.fullParams x.1.returns := by
  have hlength : (ofExprs file xs).units.length = xs.length := by simp [ofExprs]
  refine ⟨h.length_eq.symm.trans hlength, fun i x unit hx hunit => ?_⟩
  obtain ⟨hi, rfl⟩ := List.getElem?_eq_some_iff.1 hx
  obtain ⟨hi', rfl⟩ := List.getElem?_eq_some_iff.1 hunit
  have hloaded := h.get (hlength ▸ hi) hi'
  simp only [ofExprs, List.get_eq_getElem, List.getElem_mapIdx] at hloaded
  exact ⟨hloaded.name, hloaded.signature⟩

end RecordedFile

/-- A recording session after a source in which some expressions were compiled. What is recorded for a
source that was opened before is not kept. -/
def Session.recorded (s : Session) (file : FileId) (xs : List (Request × Expr)) : Session := { s with
  opened := if file ∈ s.opened then s.opened else file :: s.opened
  nextId := s.nextId + 1
  batches := s.batches ++
    if file ∈ s.opened then [] else (RecordedFile.recorded [RecordedFile.ofExprs file xs]).map RecordedFile.batch }

theorem Session.recorded_of_notMem {s : Session} {file : FileId} (h : file ∉ s.opened)
    (xs : List (Request × Expr)) : s.recorded file xs = { s with
      opened := file :: s.opened
      nextId := s.nextId + 1
      batches := s.batches ++
        (RecordedFile.recorded [RecordedFile.ofExprs file xs]).map RecordedFile.batch } := by
  simp only [recorded, if_neg h]

/-! ### Texts in an open source -/

theorem Request.check_of_compileDirect {r : Request} {e : Expr} {c : Callable}
    (h : r.compileDirect e = .ok c) : e.check r.fullParams r.returns = .ok () := by
  obtain ⟨_, hcheck, -⟩ := Except.bind_eq_ok_iff.1 h
  cases hresult : e.check r.fullParams r.returns with
  | ok _ => rfl
  | error err =>
    rw [hresult] at hcheck
    cases hcheck

namespace BuildM

variable {ε α : Type} {state after : BuildState} {id : Nat} {rest : List OpenSource}

/-- A text becomes the next unit of a recording exactly if its tree is accepted. -/
theorem gives_record_text {recording : Recording} (hmode : state.session.mode = .record)
    (hstack : state.session.stack = ⟨id, .recording recording⟩ :: rest) {source : String} {r : Request}
    {c : Callable} :
    Gives (compileSource source r) state c after ↔
      ∃ e code, (Expr.parseIn state.hosts source).1 = .ok e ∧ r.Accepts e ∧
        e.flatten.compile (r.fullParams.map (·.name)).reverse = .ok code ∧ c = r.callable (.code code) ∧
        after = ⟨{ state.session with stack := ⟨id, .recording (recording.record (r, e))⟩ :: rest },
          (Expr.parseIn state.hosts source).2⟩ := by
  rw [gives_iff, run_compileSource, if_neg (by rw [hmode]; decide), run_bind, run_parse]
  cases hparse : (Expr.parseIn state.hosts source).1 with
  | error err =>
    constructor
    · rintro ⟨hresult, -⟩
      cases hresult
    · rintro ⟨_, _, hparse', -⟩
      cases hparse'
  | ok e =>
    simp only [Except.mapError, run_compile]
    constructor
    · rintro ⟨hresult, rfl⟩
      cases hdirect : r.compileDirect e with
      | error err =>
        have hcompile : (state.session.compile e r).1 = .error err := by
          unfold Session.compile Session.compileRecorded
          simp only [hmode, hdirect]
          rfl
        rw [hcompile] at hresult
        cases hresult
      | ok c' =>
        have haccepts : r.Accepts e := ⟨Request.check_of_compileDirect hdirect, sourceNamed_of_parse hparse⟩
        obtain ⟨code, hcode, hdirect'⟩ := Request.exists_compileDirect haccepts.check
        have hcompile := Session.compile_recording hmode hstack hdirect' haccepts.unambiguous.printUnit_eq
        rw [hcompile] at hresult ⊢
        cases hresult
        exact ⟨e, code, rfl, haccepts, hcode, rfl, rfl⟩
    · rintro ⟨_, code, hparse', haccepts, hcode, rfl, rfl⟩
      cases hparse'
      obtain ⟨code', hcode', hdirect⟩ := Request.exists_compileDirect haccepts.check
      cases hcode.symm.trans hcode'
      rw [Session.compile_recording hmode hstack hdirect haccepts.unambiguous.printUnit_eq]
      exact ⟨rfl, rfl⟩

/-- A text that is compiled in a source that is served is given the next unit. -/
theorem serve_text {serving : Serving} {unit : BakedUnit} (hmode : state.session.mode = .serve)
    (hstack : state.session.stack = ⟨id, .serving serving⟩ :: rest)
    (hunit : serving.units[serving.cursor]? = some unit) (source : String) {r : Request}
    (hsignature : unit.signature = Signature.of r.fullParams r.returns) :
    Gives (compileSource source r) state (r.callable (.unit unit)) ⟨{ state.session with
      stack := ⟨id, .serving { serving with cursor := serving.cursor + 1 }⟩ :: rest }, state.hosts⟩ := by
  refine gives_iff.2 ?_
  rw [run_compileSource, if_pos hmode, Session.serve_next hstack hunit hsignature]
  exact ⟨rfl, rfl⟩

/-- Texts are read one after the other over host objects, and their trees are accepted. -/
inductive Compiles (source : α → String) (request : α → Request) :
    Hosts → List α → List Expr → List Callable → Hosts → Prop
  | nil {hosts : Hosts} : Compiles source request hosts [] [] [] hosts
  | cons {hosts last : Hosts} {a : α} {as : List α} {e : Expr} {es : List Expr} {code : Code}
      {cs : List Callable} (hparse : (Expr.parseIn hosts (source a)).1 = .ok e)
      (haccepts : (request a).Accepts e)
      (hcode : e.flatten.compile ((request a).fullParams.map (·.name)).reverse = .ok code)
      (hrest : Compiles source request (Expr.parseIn hosts (source a)).2 as es cs last) :
      Compiles source request hosts (a :: as) (e :: es) ((request a).callable (.code code) :: cs) last

section Compiles

variable {source : α → String} {request : α → Request} {hosts last : Hosts} {as : List α} {es : List Expr}
  {cs : List Callable}

theorem Compiles.accepts (h : Compiles source request hosts as es cs last) :
    List.Forall₂ (fun a e => (request a).Accepts e) as es := by
  induction h with
  | nil => exact .nil
  | cons _ haccepts _ _ ih => exact .cons haccepts ih

theorem Compiles.callables (h : Compiles source request hosts as es cs last) :
    List.Forall₂ (fun a c => ∃ code, c = (request a).callable (.code code)) as cs := by
  induction h with
  | nil => exact .nil
  | cons _ _ _ _ ih => exact .cons ⟨_, rfl⟩ ih

end Compiles

variable {f : α → BuildM ε Callable} {source : α → String} {request : α → Request}
  (hf : ∀ a state c after, Gives (f a) state c after ↔ Gives (compileSource (source a) (request a)) state c after)

include hf

/-- Texts become the next units of a recording exactly if their trees are accepted. -/
theorem gives_record_texts {recording : Recording} (hmode : state.session.mode = .record)
    (hstack : state.session.stack = ⟨id, .recording recording⟩ :: rest) {as : List α} {cs : List Callable} :
    Gives (as.mapM f) state cs after ↔ ∃ es hosts, Compiles source request state.hosts as es cs hosts ∧
      after = ⟨{ state.session with
        stack := ⟨id, .recording (((as.map request).zip es).foldl Recording.record recording)⟩ :: rest },
        hosts⟩ := by
  induction as generalizing state recording cs with
  | nil =>
    have hsame : ({ state.session with stack := ⟨id, .recording recording⟩ :: rest } : Session) =
        state.session := by
      rw [← hstack]
    rw [gives_mapM_nil]
    constructor
    · rintro ⟨rfl, rfl⟩
      refine ⟨[], state.hosts, .nil, ?_⟩
      rw [List.map_nil, List.zip_nil_left, List.foldl_nil, hsame]
    · rintro ⟨es, hosts, hcompiles, rfl⟩
      cases hcompiles
      rw [List.map_nil, List.zip_nil_left, List.foldl_nil, hsame]
      exact ⟨rfl, rfl⟩
  | cons a as ih =>
    rw [gives_mapM_cons]
    constructor
    · rintro ⟨c, mid, cs', hc, hcs, rfl⟩
      obtain ⟨e, code, hparse, haccepts, hcode, rfl, rfl⟩ := (gives_record_text hmode hstack).1 ((hf a _ _ _).1 hc)
      obtain ⟨es, hosts, hcompiles, rfl⟩ := (ih (by exact hmode) rfl).1 hcs
      exact ⟨e :: es, hosts, .cons hparse haccepts hcode hcompiles, rfl⟩
    · rintro ⟨es, hosts, hcompiles, rfl⟩
      cases hcompiles with
      | cons hparse haccepts hcode hcompiles =>
        exact ⟨_, _, _, (hf a _ _ _).2 ((gives_record_text hmode hstack).2 ⟨_, _, hparse, haccepts, hcode, rfl, rfl⟩),
          (ih (by exact hmode) rfl).2 ⟨_, _, hcompiles, rfl⟩, rfl⟩

/-- A source succeeds in a recording session exactly if the trees of its texts are accepted. -/
theorem gives_record_source {δ β : Type} {ofBake : BakeError → δ} {kind : SiteKind} {key : SiteKey}
    {keepFailed : Bool} {act : BuildM δ β} {b : β} {as : List α} {Q : List Callable → β → Prop}
    (hact : ∀ state b after, Gives act state b after ↔ ∃ cs, Gives (as.mapM f) state cs after ∧ Q cs b)
    (hmode : state.session.mode = .record) :
    Gives (within ofBake kind key keepFailed act) state b after ↔
      ∃ es cs hosts, Compiles source request state.hosts as es cs hosts ∧ Q cs b ∧
        after = ⟨state.session.recorded (FileId.identify kind key) ((as.map request).zip es), hosts⟩ := by
  have hclose (es : List Expr) : Session.close
      { state.session.opening (FileId.identify kind key) with
        stack := ⟨state.session.nextId, .recording (((as.map request).zip es).foldl Recording.record
          ⟨FileId.identify kind key, [], decide (FileId.identify kind key ∈ state.session.opened)⟩)⟩ ::
            state.session.stack }
      (some state.session.nextId) true =
        .ok (state.session.recorded (FileId.identify kind key) ((as.map request).zip es)) := by
    rw [Session.close_top rfl, Session.remainder?, if_pos rfl, RecordedFile.toList_export?_record]
    simp only [decide_eq_true_eq]
    rfl
  rw [gives_within_opened (Session.openKeyed_recording hmode)]
  simp only [hact]
  constructor
  · rintro ⟨mid, closed, ⟨cs, hcs, hQ⟩, hclosed, rfl⟩
    obtain ⟨es, hosts, hcompiles, rfl⟩ := (gives_record_texts hf (by exact hmode) rfl).1 hcs
    cases (hclose es).symm.trans hclosed
    exact ⟨es, cs, hosts, hcompiles, hQ, rfl⟩
  · rintro ⟨es, cs, hosts, hcompiles, hQ, rfl⟩
    exact ⟨_, _, ⟨cs, (gives_record_texts hf (by exact hmode) rfl).2 ⟨es, hosts, hcompiles, rfl⟩, hQ⟩,
      hclose es, rfl⟩

/-- Texts that are compiled in a source that is served are given its next units. -/
theorem serve_texts {serving : Serving} (hmode : state.session.mode = .serve)
    (hstack : state.session.stack = ⟨id, .serving serving⟩ :: rest) {as : List α} {units more : List BakedUnit}
    (hunits : serving.units.drop serving.cursor = units ++ more)
    (hsignatures : List.Forall₂ (fun a unit =>
      unit.signature = Signature.of (request a).fullParams (request a).returns) as units) :
    Gives (as.mapM f) state (List.zipWith (fun a unit => (request a).callable (.unit unit)) as units)
      ⟨{ state.session with
        stack := ⟨id, .serving { serving with cursor := serving.cursor + as.length }⟩ :: rest },
        state.hosts⟩ := by
  induction hsignatures generalizing state serving with
  | nil =>
    refine gives_mapM_nil.2 ⟨rfl, ?_⟩
    obtain ⟨session, hosts⟩ := state
    simp only [List.length_nil, Nat.add_zero, ← hstack]
  | @cons a unit as units hsignature _ ih =>
    have hunit : serving.units[serving.cursor]? = some unit := by
      rw [← List.head?_drop, hunits]
      rfl
    have hmore : serving.units.drop (serving.cursor + 1) = units ++ more := by
      rw [← List.drop_drop, hunits]
      rfl
    have hlength : serving.cursor + (a :: as).length = serving.cursor + 1 + as.length := by
      rw [List.length_cons]
      omega
    rw [hlength]
    have hrest := @ih ⟨{ state.session with
      stack := ⟨id, .serving { serving with cursor := serving.cursor + 1 }⟩ :: rest }, state.hosts⟩
      { serving with cursor := serving.cursor + 1 } hmode rfl hmore
    exact gives_mapM_cons.2 ⟨_, _, _, (hf a _ _ _).2 (serve_text hmode hstack hunit (source a) hsignature),
      hrest, rfl⟩

/-- A source of as many texts as units is served from its opening to its close. -/
theorem serve_source {kind : SiteKind} {key : SiteKey} {units : List BakedUnit} {as : List α}
    (hmode : state.session.mode = .serve)
    (hunits : state.session.store.unitsFor (FileId.identify kind key) = .ok units)
    (hsignatures : List.Forall₂ (fun a unit =>
      unit.signature = Signature.of (request a).fullParams (request a).returns) as units) :
    ∃ id opened mid, state.session.openKeyed kind key = .ok (some id, opened) ∧
      Gives (as.mapM f) { state with session := opened }
        (List.zipWith (fun a unit => (request a).callable (.unit unit)) as units) mid ∧
      mid.session.serving? = .ok (some ⟨FileId.identify kind key, units, units.length⟩) ∧
      mid.session.close (some id) true = .ok { state.session with nextId := state.session.nextId + 1 } ∧
      mid.hosts = state.hosts := by
  let opened : Session := { state.session with
    stack := ⟨state.session.nextId, .serving ⟨FileId.identify kind key, units, 0⟩⟩ :: state.session.stack
    nextId := state.session.nextId + 1 }
  have hserve := @serve_texts _ _ ⟨opened, state.hosts⟩ _ _ _ _ _ hf ⟨FileId.identify kind key, units, 0⟩
    hmode rfl as units [] (List.append_nil units).symm hsignatures
  rw [hsignatures.length_eq] at hserve
  refine ⟨_, opened, _, Session.openKeyed_serving hmode hunits, hserve, ?_, ?_, rfl⟩
  · simp only [Session.serving?, Nat.zero_add]
  · rw [Session.close_top rfl, Session.remainder?, Option.toList_none, List.append_nil]

omit hf

theorem gives_compileRequest (x : String × Request) (state : BuildState) (c : Callable) (after : BuildState) :
    Gives (compileSource x.1 x.2) state c after ↔ Gives (compileSource x.1 x.2) state c after :=
  Iff.rfl

/-- When a recording session compiles a text as a source of its own. -/
theorem gives_record_keyed {kind : SiteKind} {key : SiteKey} {text : String} {r : Request} {c : Callable}
    (hmode : state.session.mode = .record) :
    Gives (compileKeyed kind key text r) state c after ↔
      ∃ e code, (parseIn state.hosts text).1 = .ok e ∧ r.Accepts e ∧
        e.flatten.compile (r.fullParams.map (·.name)).reverse = .ok code ∧ c = r.callable (.code code) ∧
        after = ⟨state.session.recorded (FileId.identify kind key) [(r, e)], (parseIn state.hosts text).2⟩ := by
  have hone (state : BuildState) (c : Callable) (after : BuildState) : Gives (compileSource text r) state c after ↔
      ∃ cs, Gives ([(text, r)].mapM fun x => compileSource x.1 x.2) state cs after ∧ cs = [c] := by
    simp only [gives_mapM_cons, gives_mapM_nil]
    constructor
    · intro h
      exact ⟨[c], ⟨c, after, [], h, ⟨rfl, rfl⟩, rfl⟩, rfl⟩
    · rintro ⟨_, ⟨_, _, _, h, ⟨rfl, rfl⟩, rfl⟩, heq⟩
      cases heq
      exact h
  unfold compileKeyed
  rw [gives_record_source gives_compileRequest hone hmode]
  constructor
  · rintro ⟨es, cs, hosts, hcompiles, rfl, rfl⟩
    cases hcompiles with
    | cons hparse haccepts hcode hrest =>
      cases hrest
      exact ⟨_, _, hparse, haccepts, hcode, rfl, rfl⟩
  · rintro ⟨e, code, hparse, haccepts, hcode, rfl, rfl⟩
    exact ⟨[e], _, _, .cons hparse haccepts hcode .nil, rfl, rfl⟩

end BuildM

end Barrage
