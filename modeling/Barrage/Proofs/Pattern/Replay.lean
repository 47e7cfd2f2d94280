import Mathlib
import Barrage.Proofs.Bake.RecordedSources
import Barrage.Proofs.Pattern.Places

/-!
# Replay of pattern documents

A document is loaded in a source of its own, and its expressions are compiled in their order. A recording
session therefore leaves one source for every document that has expressions, with its units in the order of
the document. If the artifacts can be loaded, a serving session opens the units of the document by the same
key and hands them out to the expressions in the same order. Nothing of one document is seen by another, so
the documents can be loaded in any order, and each uses up its units.

## Main definitions

* `BuildM.ServesAll` — doing something in a source that is served, with no unit left at the close
* `BuildM.Records` — what a recording session keeps of a document
* `BuildM.Replays` — the pattern that is served in place of the recorded one

## Main results

* `BuildM.record_patterns` — the sources that a recording session leaves
* `BuildM.serve_pattern` — one document in a serving session
* `BuildM.replay_patterns` — documents are served as they were recorded, in any order
-/

namespace Barrage

open Chunk Barrage.Expr

/-- What an expression of a pattern is compiled for. -/
def Leaf.request (x : ValueType × String) : Request := { params := Leaf.params, returns := x.1 }

theorem Leaf.identifier_params : ∀ p ∈ Leaf.params, Identifier p.name := by
  have hspelled : ∀ x ∈ Leaf.params.map (·.name), (∃ c cs, x.toList = c :: cs ∧ Scanned.opensName c = true) ∧
      ∀ c ∈ x.toList, Scanned.continuesName c = true := by
    refine List.forall_mem_cons.2 ⟨⟨⟨_, _, rfl, by decide⟩, List.all_eq_true.1 (by decide)⟩, ?_⟩
    exact List.forall_mem_singleton.2 ⟨⟨_, _, rfl, by decide⟩, List.all_eq_true.1 (by decide)⟩
  intro p hp
  obtain ⟨hopens, hcontinues⟩ := hspelled p.name (List.mem_map_of_mem hp)
  exact ⟨hopens, hcontinues⟩

namespace BuildM

variable {ε α : Type}

/-- The source of a pattern with a path for its key. -/
abbrev patternFile (key : String) : FileId := FileId.identify .scriptDump (.path key)

/-- Compiling an expression of a pattern, as far as it succeeds. -/
theorem gives_compileLeaf (x : ValueType × String) (state : BuildState) (c : Callable) (after : BuildState) :
    Gives (compileAt compileLeaf x) state c after ↔ Gives (compileSource x.2 (Leaf.request x)) state c after :=
  gives_adapt

/-- A pattern is loaded by compiling its document in a source of its own. -/
theorem gives_loadPattern {key text : String} {state after : BuildState} {pattern : Pattern Callable} :
    Gives (loadPattern key text) state pattern after ↔
      ∃ doc, PatternDocument.parse? text = some doc ∧
        Gives (within Failure.ofBake .scriptDump (.path key) false doc.compile) state pattern after := by
  unfold loadPattern
  cases PatternDocument.parse? text with
  | none => exact ⟨fun h => (nomatch h), fun ⟨_, h, _⟩ => (nomatch h)⟩
  | some doc => exact ⟨fun h => ⟨doc, rfl, h⟩, fun ⟨_, h, hgives⟩ => by cases h; exact hgives⟩

/-! ### Recording -/

/-- What a recording session keeps of a document: its pattern, and the source with its units. -/
structure Records (document : String × String) (kept : Pattern Callable × RecordedFile) : Prop where
  file : kept.2.file = patternFile document.1
  spelled : kept.2.Spelled
  compiled : ∃ doc numbered es codes, PatternDocument.parse? document.2 = some doc ∧
    doc.numbered = .ok numbered ∧
    kept.2 = RecordedFile.ofExprs (patternFile document.1) ((doc.expressions.map Leaf.request).zip es) ∧
    es.length = doc.expressions.length ∧
    List.Forall₂ (fun x c => ∃ code, c = (Leaf.request x).callable (.code code)) doc.expressions codes ∧
    ∀ g, PlacedFrom 0 codes g → kept.1 = numbered.map g

/-- When a recording session loads a document. -/
theorem gives_record_pattern {document : String × String} {state after : BuildState} {pattern : Pattern Callable}
    (hmode : state.session.mode = .record) :
    Gives (loadPattern document.1 document.2) state pattern after ↔
      ∃ doc numbered es cs hosts, PatternDocument.parse? document.2 = some doc ∧ doc.numbered = .ok numbered ∧
        Compiles Prod.snd Leaf.request state.hosts doc.expressions es cs hosts ∧
        (∀ g, PlacedFrom 0 cs g → pattern = numbered.map g) ∧
        after = ⟨state.session.recorded (patternFile document.1) ((doc.expressions.map Leaf.request).zip es),
          hosts⟩ := by
  have hiff (doc : PatternDocument) :
      Gives (within Failure.ofBake .scriptDump (.path document.1) false doc.compile) state pattern after ↔ _ :=
    gives_record_source gives_compileLeaf
      (fun state pattern after => @PatternDocument.gives_compile_iff doc state after pattern) hmode
  rw [gives_loadPattern]
  constructor
  · rintro ⟨doc, hdoc, h⟩
    obtain ⟨es, cs, hosts, hcompiles, ⟨numbered, hnumbered, hpattern⟩, rfl⟩ := (hiff doc).1 h
    exact ⟨doc, numbered, es, cs, hosts, hdoc, hnumbered, hcompiles, hpattern, rfl⟩
  · rintro ⟨doc, numbered, es, cs, hosts, hdoc, hnumbered, hcompiles, hpattern, rfl⟩
    exact ⟨doc, hdoc, (hiff doc).2 ⟨es, cs, hosts, hcompiles, ⟨numbered, hnumbered, hpattern⟩, rfl⟩⟩

/-- Recording one document. -/
theorem record_pattern {document : String × String} {state after : BuildState} {pattern : Pattern Callable}
    (hmode : state.session.mode = .record) (hnew : patternFile document.1 ∉ state.session.opened)
    (h : Gives (loadPattern document.1 document.2) state pattern after) :
    ∃ f hosts, Records document (pattern, f) ∧ after = ⟨{ state.session with
      opened := patternFile document.1 :: state.session.opened
      nextId := state.session.nextId + 1
      batches := state.session.batches ++ (RecordedFile.recorded [f]).map RecordedFile.batch }, hosts⟩ := by
  obtain ⟨doc, numbered, es, cs, hosts, hdoc, hnumbered, hcompiles, hpattern, rfl⟩ :=
    (gives_record_pattern hmode).1 h
  have haccepts : ∀ x ∈ (doc.expressions.map Leaf.request).zip es,
      x.1.Accepts x.2 ∧ ∀ p ∈ x.1.fullParams, Identifier p.name := by
    rintro ⟨r, e⟩ hx
    rw [List.zip_map_left, List.mem_map] at hx
    obtain ⟨⟨x, e'⟩, hx, heq⟩ := hx
    cases heq
    exact ⟨List.forall₂_zip hcompiles.accepts hx, Leaf.identifier_params⟩
  refine ⟨RecordedFile.ofExprs (patternFile document.1) ((doc.expressions.map Leaf.request).zip es), hosts,
    ⟨rfl, RecordedFile.spelled_ofExprs _ _ haccepts, ⟨doc, numbered, es, cs, hdoc, hnumbered, rfl,
      hcompiles.accepts.length_eq.symm, hcompiles.callables, hpattern⟩⟩, ?_⟩
  rw [Session.recorded_of_notMem hnew]

/-- Recording documents one after the other. -/
theorem record_patterns {documents : List (String × String)} {state after : BuildState}
    {patterns : List (Pattern Callable)} (hmode : state.session.mode = .record)
    (hstack : state.session.stack = []) (hnew : ∀ d ∈ documents, patternFile d.1 ∉ state.session.opened)
    (hnodup : (documents.map fun d => patternFile d.1).Nodup)
    (h : Gives (documents.mapM fun d => loadPattern d.1 d.2) state patterns after) :
    ∃ kept, kept.map Prod.fst = patterns ∧ List.Forall₂ Records documents kept ∧
      after.session.mode = .record ∧ after.session.stack = [] ∧ after.session.batches =
        state.session.batches ++ (RecordedFile.recorded (kept.map Prod.snd)).map RecordedFile.batch := by
  induction documents generalizing state patterns with
  | nil =>
    obtain ⟨rfl, rfl⟩ := gives_mapM_nil.1 h
    exact ⟨[], rfl, .nil, hmode, hstack, (List.append_nil _).symm⟩
  | cons d documents ih =>
    obtain ⟨pattern, mid, patterns', hpattern, hpatterns, rfl⟩ := gives_mapM_cons.1 h
    obtain ⟨hfirst, hrest⟩ := List.forall_mem_cons.1 hnew
    rw [List.map_cons, List.nodup_cons] at hnodup
    obtain ⟨f, hosts, hrecords, rfl⟩ := record_pattern hmode hfirst hpattern
    have hnew' : ∀ d' ∈ documents, patternFile d'.1 ∉ patternFile d.1 :: state.session.opened := by
      intro d' hd' hmem
      rcases List.mem_cons.1 hmem with heq | hmem
      · exact hnodup.1 (List.mem_map.2 ⟨d', hd', heq⟩)
      · exact hrest d' hd' hmem
    obtain ⟨kept, rfl, hkept, hmode', hstack', hbatches⟩ :=
      ih (by exact hmode) (by exact hstack) hnew' hnodup.2 hpatterns
    refine ⟨(pattern, f) :: kept, rfl, .cons hrecords hkept, hmode', hstack', ?_⟩
    have happend : RecordedFile.recorded (f :: kept.map Prod.snd) =
        RecordedFile.recorded [f] ++ RecordedFile.recorded (kept.map Prod.snd) :=
      RecordedFile.recorded_append [f] _
    rw [hbatches, List.map_cons, happend, List.map_append, List.append_assoc]

/-- The sources of documents have the names of the documents. -/
theorem map_file_of_records {documents : List (String × String)} {kept : List (Pattern Callable × RecordedFile)}
    (h : List.Forall₂ Records documents kept) :
    (kept.map Prod.snd).map (·.file) = documents.map fun d => patternFile d.1 := by
  induction h with
  | nil => rfl
  | cons hrecords _ ih => rw [List.map_cons, List.map_cons, List.map_cons, hrecords.file, ih]

/-! ### Serving -/

/-- What a document is served as in place of what was recorded: the same pattern with units for its
expressions, where the unit of an expression is named by its place and has the signature of the expression. -/
def Replays (document : String × String) (recorded served : Pattern Callable) : Prop :=
  ∃ doc numbered, ∃ compiled : Nat → Callable, ∃ units : Nat → BakedUnit,
    PatternDocument.parse? document.2 = some doc ∧ doc.numbered = .ok numbered ∧
    recorded = numbered.map compiled ∧ served = numbered.map (fun k => Callable.ofUnit (units k)) ∧
    ∀ k < doc.expressions.length, (units k).name = Recording.unitName (patternFile document.1) k ∧
      (units k).signature = (compiled k).signature

/-- Right before the source of a document is closed, it is on top of the stack and has no unit left. -/
def ServesAll (document : String × String) (state : BuildState) : Prop :=
  ∀ doc, PatternDocument.parse? document.2 = some doc → ∃ id opened pattern mid serving,
    state.session.openKeyed .scriptDump (.path document.1) = .ok (some id, opened) ∧
    Gives doc.compile { state with session := opened } pattern mid ∧
    mid.session.serving? = .ok (some serving) ∧ serving.file = patternFile document.1 ∧
    serving.remaining = 0

/-- The units of a document are its callables, as far as their signatures are those of its expressions. -/
theorem placedFrom_units {xs : List (ValueType × String)} {units : List BakedUnit} {g : Nat → BakedUnit}
    (hsignature : ∀ (i : Nat) (x : ValueType × String) (unit : BakedUnit), xs[i]? = some x →
      units[i]? = some unit → unit.signature = Signature.of Leaf.params x.1)
    (hg : PlacedFrom 0 units g) :
    PlacedFrom 0 (List.zipWith (fun x unit => (Leaf.request x).callable (.unit unit)) xs units)
      fun k => Callable.ofUnit (g k) := by
  intro i c hc
  obtain ⟨x, unit, hx, hunit, rfl⟩ := List.getElem?_zipWith_eq_some.1 hc
  change Callable.ofUnit (g (0 + i)) = ⟨Signature.of Leaf.params x.1, [], .unit unit⟩
  rw [hg i unit hunit, Callable.ofUnit, hsignature i x unit hx hunit]

/-- Serving one document. -/
theorem serve_pattern {document : String × String} {kept : Pattern Callable × RecordedFile}
    {fs : List RecordedFile} {state : BuildState} (hrecords : Records document kept) (hkept : kept.2 ∈ fs)
    (hspelled : ∀ f ∈ fs, f.Spelled) (hfiles : (fs.map (·.file)).Nodup)
    (hstore : Store.ofArtifacts (RecordedFile.artifacts (RecordedFile.recorded fs)) = .ok state.session.store)
    (hmode : state.session.mode = .serve) :
    ∃ served, Replays document kept.1 served ∧ ServesAll document state ∧
      Gives (loadPattern document.1 document.2) state served
        ⟨{ state.session with nextId := state.session.nextId + 1 }, state.hosts⟩ := by
  obtain ⟨hfile, -, doc, numbered, es, codes, hdoc, hnumbered, hunitsOf, hlength, hcodes, hpattern⟩ := hrecords
  obtain ⟨units, hunits, hloaded⟩ := RecordedFile.unitsFor_recorded hspelled hfiles hstore hkept
  rw [hfile] at hunits
  rw [hunitsOf] at hloaded
  obtain ⟨hcount, hplaces⟩ := RecordedFile.loaded_ofExprs hloaded
  rw [List.length_zip, List.length_map, hlength, Nat.min_self] at hcount
  -- The unit at a place is the one that the expression there was recorded as.
  have hunit : ∀ (i : Nat) (x : ValueType × String) (unit : BakedUnit), doc.expressions[i]? = some x →
      units[i]? = some unit → unit.name = Recording.unitName (patternFile document.1) i ∧
        unit.signature = Signature.of Leaf.params x.1 := by
    intro i x unit hx hunit
    obtain ⟨hi, -⟩ := List.getElem?_eq_some_iff.1 hx
    have he : es[i]? = some es[i] := List.getElem?_eq_getElem (hlength ▸ hi)
    refine hplaces i (Leaf.request x, es[i]) unit ?_ hunit
    rw [List.getElem?_zip_eq_some, List.getElem?_map, hx]
    exact ⟨rfl, he⟩
  have hsignatures : List.Forall₂ (fun x unit =>
      unit.signature = Signature.of (Leaf.request x).fullParams (Leaf.request x).returns) doc.expressions units :=
    List.forall₂_iff_get.2 ⟨hcount.symm, fun i hi hi' =>
      (hunit i _ _ (List.getElem?_eq_getElem hi) (List.getElem?_eq_getElem hi')).2⟩
  obtain ⟨unitAt, hunitAt⟩ := exists_placedFrom 0 units
  obtain ⟨codeAt, hcodeAt⟩ := exists_placedFrom 0 codes
  obtain ⟨id, opened, mid, hopen, hserve, htop, hclose, hhosts⟩ :=
    serve_source gives_compileLeaf hmode hunits hsignatures
  have hcompile := PatternDocument.gives_compile hserve hnumbered
    (placedFrom_units (fun i x unit hx hu => (hunit i x unit hx hu).2) hunitAt)
  refine ⟨_, ⟨doc, numbered, codeAt, unitAt, hdoc, hnumbered, hpattern _ hcodeAt, rfl, fun k hk => ?_⟩,
    fun doc' hdoc' => ?_, ?_⟩
  · have hcode := List.getElem?_eq_getElem (hcodes.length_eq ▸ hk : k < codes.length)
    have hunitHere := List.getElem?_eq_getElem (hcount.symm ▸ hk : k < units.length)
    obtain ⟨hname, hsignature⟩ := hunit k _ _ (List.getElem?_eq_getElem hk) hunitHere
    obtain ⟨code, hcallable⟩ := hcodes.get hk (hcodes.length_eq ▸ hk)
    rw [List.get_eq_getElem, List.get_eq_getElem] at hcallable
    rw [← Nat.zero_add k, hunitAt k _ hunitHere, hcodeAt k _ hcode, Nat.zero_add, hcallable]
    exact ⟨hname, hsignature⟩
  · obtain rfl : doc = doc' := Option.some.inj (hdoc.symm.trans hdoc')
    exact ⟨id, opened, _, mid, _, hopen, hcompile, htop, rfl, Nat.sub_self _⟩
  · refine gives_loadPattern.2 ⟨doc, hdoc, gives_within.2 ⟨_, _, _, _, hopen, hcompile, hclose, ?_⟩⟩
    rw [hhosts]

/-- Serving documents one after the other. -/
theorem serve_patterns {fs : List RecordedFile} (hspelled : ∀ f ∈ fs, f.Spelled)
    (hfiles : (fs.map (·.file)).Nodup) {P : String × String → Pattern Callable → Prop}
    {order : List (String × String)} {state : BuildState}
    (hkept : ∀ d ∈ order, ∃ kept, Records d kept ∧ kept.2 ∈ fs ∧ P d kept.1)
    (hstore : Store.ofArtifacts (RecordedFile.artifacts (RecordedFile.recorded fs)) = .ok state.session.store)
    (hmode : state.session.mode = .serve) :
    ∃ served, List.Forall₂ (fun d q => ∃ p, P d p ∧ Replays d p q) order served ∧
      Gives (order.mapM fun d => loadPattern d.1 d.2) state served
        ⟨{ state.session with nextId := state.session.nextId + order.length }, state.hosts⟩ := by
  induction order generalizing state with
  | nil => exact ⟨[], .nil, gives_mapM_nil.2 ⟨rfl, rfl⟩⟩
  | cons d order ih =>
    obtain ⟨⟨kept, hrecords, hmem, hP⟩, hrest⟩ := List.forall_mem_cons.1 hkept
    obtain ⟨q, hreplays, -, hq⟩ := serve_pattern hrecords hmem hspelled hfiles hstore hmode
    obtain ⟨served, hserved, hgives⟩ :=
      @ih ⟨{ state.session with nextId := state.session.nextId + 1 }, state.hosts⟩ hrest hstore hmode
    refine ⟨q :: served, .cons ⟨kept.1, hP, hreplays⟩ hserved,
      gives_mapM_cons.2 ⟨q, _, served, hq, ?_, rfl⟩⟩
    rw [List.length_cons, Nat.add_comm order.length, ← Nat.add_assoc]
    exact hgives

/-- Documents that were recorded in one session are served in any order, if the artifacts can be loaded. Each
gives the pattern that was recorded with units in place of its expressions, and uses up its units. -/
theorem replay_patterns {documents : List (String × String)} {patterns : List (Pattern Callable)}
    {hosts : Hosts} {after : BuildState} (hnodup : (documents.map fun d => patternFile d.1).Nodup)
    (hrecord : Gives (documents.mapM fun d => loadPattern d.1 d.2) ⟨Session.recording, hosts⟩ patterns after) :
    ∃ artifacts, after.session.export = .ok (some artifacts, { after.session with batches := [] }) ∧
      ∀ store, Store.ofArtifacts artifacts = .ok store → ∀ order, order.Perm documents → ∀ hosts',
        (∃ served last, Gives (order.mapM fun d => loadPattern d.1 d.2) ⟨Session.serving store, hosts'⟩ served last ∧
          last.session.stack = [] ∧ List.Forall₂ (fun d q =>
            ∃ p, (d, p) ∈ documents.zip patterns ∧ Replays d p q) order served) ∧
        ∀ before d rest, order = before ++ d :: rest → ∃ served mid,
          Gives (before.mapM fun d => loadPattern d.1 d.2) ⟨Session.serving store, hosts'⟩ served mid ∧
            ServesAll d mid := by
  obtain ⟨kept, rfl, hkept, hmode, hstack, hbatches⟩ :=
    record_patterns rfl rfl (fun _ _ => List.not_mem_nil) hnodup hrecord
  have hlength := hkept.length_eq
  have hdocument : ∀ d ∈ documents, ∃ k, Records d k ∧ k.2 ∈ kept.map Prod.snd ∧
      (d, k.1) ∈ documents.zip (kept.map Prod.fst) := by
    intro d hd
    obtain ⟨i, hi, rfl⟩ := List.getElem_of_mem hd
    have hmem : (documents[i], kept[i]) ∈ documents.zip kept :=
      List.mem_iff_getElem?.2 ⟨i, by
        rw [List.getElem?_zip_eq_some]
        exact ⟨List.getElem?_eq_getElem hi, List.getElem?_eq_getElem (hlength ▸ hi)⟩⟩
    refine ⟨kept[i], List.forall₂_zip hkept hmem, List.mem_map_of_mem (List.getElem_mem _), ?_⟩
    rw [List.zip_map_right]
    exact List.mem_map_of_mem hmem
  have hspelled : ∀ f ∈ kept.map Prod.snd, f.Spelled := by
    intro f hf
    obtain ⟨k, hk, rfl⟩ := List.mem_map.1 hf
    obtain ⟨i, hi, rfl⟩ := List.getElem_of_mem hk
    exact (hkept.get (hlength ▸ hi) hi).spelled
  have hfiles : ((kept.map Prod.snd).map (·.file)).Nodup := by
    rw [map_file_of_records hkept]
    exact hnodup
  refine ⟨RecordedFile.artifacts (RecordedFile.recorded (kept.map Prod.snd)), ?_, ?_⟩
  · rw [Session.export_recording hmode hstack, hbatches]
    rfl
  intro store hstore order horder hosts'
  have hordered := fun d hd => hdocument d (horder.subset hd)
  refine ⟨?_, ?_⟩
  · obtain ⟨served, hserved, hgives⟩ := @serve_patterns _ hspelled hfiles
      (fun d p => (d, p) ∈ documents.zip (kept.map Prod.fst)) order ⟨Session.serving store, hosts'⟩
      hordered hstore rfl
    exact ⟨served, _, hgives, rfl, hserved⟩
  · rintro before d rest rfl
    obtain ⟨hbefore, hd⟩ := List.forall_mem_append.1 hordered
    obtain ⟨served, -, hgives⟩ := @serve_patterns _ hspelled hfiles
      (fun d p => (d, p) ∈ documents.zip (kept.map Prod.fst)) before ⟨Session.serving store, hosts'⟩
      hbefore hstore rfl
    obtain ⟨k, hrecords, hmem, -⟩ := hd d List.mem_cons_self
    obtain ⟨-, -, hall, -⟩ := @serve_pattern d k _
      ⟨{ Session.serving store with nextId := 0 + before.length }, hosts'⟩ hrecords hmem hspelled hfiles
      hstore rfl
    exact ⟨served, _, hgives, hall⟩

/-! ### A document with one expression -/

/-- A document with one expression, the seconds that have passed. -/
def pausing : String := "[\x7b\x7d,[[\x7b\x7d,[[\"wait\",\"t\"]]]]]"

theorem parse?_pausing :
    PatternDocument.parse? pausing = some ⟨{}, [⟨{}, [.leaf (.wait "t")]⟩]⟩ := by
  have hjson : Json.parse? pausing = some (.array [.object [], .array [.array [.object [],
      .array [.array [.text "wait", .text "t"]]]]]) := by
    cbv
  unfold PatternDocument.parse? Json.readDocument?
  rw [hjson]
  rfl

/-- The only expression of the document. -/
def passed : Request × Expr := (Leaf.request (.float, "t"), .var "t")

theorem plain_passed : passed.1.Plain passed.2 := by
  have hprinted : ∀ x ∈ ["t", "hp"], isFunctionName x = true ∧ hasDoubleUnderscore x.toList = false := by
    decide +kernel
  refine ⟨rfl, by decide, fun p hp => ?_, List.forall_mem_nil _⟩
  obtain ⟨hname, hscore⟩ := hprinted p.name (List.mem_map_of_mem (f := Param.name) hp)
  exact ⟨hname, hscore⟩

theorem parseIn_passed (hosts : Hosts) : parseIn hosts "t" = (.ok (.var "t"), hosts) := by
  cbv

/-- Recording the document. -/
theorem record_pausing (key : String) {state : BuildState} (hmode : state.session.mode = .record) :
    ∃ pattern, Gives (loadPattern key pausing) state pattern
      ⟨state.session.recorded (patternFile key) [passed], state.hosts⟩ := by
  have hparse : (parseIn state.hosts "t").1 = .ok (.var "t") := by rw [parseIn_passed]
  have haccepts : passed.1.Accepts passed.2 := ⟨plain_passed.check, sourceNamed_of_parse hparse⟩
  obtain ⟨code, hcode, -⟩ := Request.exists_compileDirect haccepts.check
  have hcompiles : Compiles Prod.snd Leaf.request state.hosts [(.float, "t")] [.var "t"]
      [passed.1.callable (.code code)] (parseIn state.hosts "t").2 := .cons hparse haccepts hcode .nil
  rw [parseIn_passed] at hcompiles
  refine ⟨Pattern.ofPhases {} [.mk {} [.leaf (.wait (passed.1.callable (.code code)))] none none],
    (@gives_record_pattern (key, pausing) _ _ _ hmode).2
      ⟨_, _, _, _, _, parse?_pausing, rfl, hcompiles, fun g hg => ?_, rfl⟩⟩
  rw [← hg 0 _ rfl]
  rfl

/-- Two copies of a document are recorded, their artifacts can be loaded, and the copies are served in the
other order. -/
theorem replay_patterns_swapped :
    ([("a", pausing), ("b", pausing)].map fun d => patternFile d.1).Nodup ∧
      ∃ patterns after artifacts store served last,
      Gives ([("a", pausing), ("b", pausing)].mapM fun d => loadPattern d.1 d.2)
        ⟨Session.recording, Hosts.empty⟩ patterns after ∧
      after.session.export = .ok (some artifacts, { after.session with batches := [] }) ∧
      Store.ofArtifacts artifacts = .ok store ∧
      Gives ([("b", pausing), ("a", pausing)].mapM fun d => loadPattern d.1 d.2)
        ⟨Session.serving store, Hosts.empty⟩ served last ∧
      last.session.stack = [] ∧ List.Forall₂ (fun d q =>
        ∃ p, (d, p) ∈ [("a", pausing), ("b", pausing)].zip patterns ∧ Replays d p q)
          [("b", pausing), ("a", pausing)] served := by
  have hnodup : ([("a", pausing), ("b", pausing)].map fun d => patternFile d.1).Nodup := by decide +kernel
  have hother : patternFile "b" ∉ [patternFile "a"] := by decide +kernel
  obtain ⟨first, hfirst⟩ := @record_pausing "a" ⟨Session.recording, Hosts.empty⟩ rfl
  obtain ⟨second, hsecond⟩ :=
    @record_pausing "b" ⟨Session.recording.recorded (patternFile "a") [passed], Hosts.empty⟩ rfl
  have hrecord : Gives ([("a", pausing), ("b", pausing)].mapM fun d => loadPattern d.1 d.2)
      ⟨Session.recording, Hosts.empty⟩ [first, second] _ :=
    gives_mapM_cons.2 ⟨_, _, _, hfirst, gives_mapM_cons.2 ⟨_, _, _, hsecond, gives_mapM_nil.2 ⟨rfl, rfl⟩, rfl⟩,
      rfl⟩
  obtain ⟨artifacts, hexport, hserves⟩ := replay_patterns hnodup hrecord
  have hfiles : ([RecordedFile.ofExprs (patternFile "a") [passed],
      RecordedFile.ofExprs (patternFile "b") [passed]].map (·.file)).Nodup := hnodup
  have hloads : ∃ store, Store.ofArtifacts artifacts = .ok store := by
    have hartifacts : artifacts = RecordedFile.artifacts [RecordedFile.ofExprs (patternFile "a") [passed],
        RecordedFile.ofExprs (patternFile "b") [passed]] := by
      cases (Session.export_recording (by exact rfl) rfl).symm.trans hexport
      have hopened : Session.recording.recorded (patternFile "a") [passed] = _ :=
        Session.recorded_of_notMem List.not_mem_nil _
      simp only [hopened]
      rw [Session.recorded_of_notMem hother]
      rfl
    rw [hartifacts, RecordedFile.exists_load_iff _ hfiles]
    · decide +kernel
    · have hvalid : ∀ key, (RecordedFile.ofExprs (patternFile key) [passed]).Valid := fun key =>
        RecordedFile.valid_ofExprs _ _ (List.forall_mem_singleton.2 plain_passed)
      exact List.forall_mem_cons.2 ⟨hvalid "a", List.forall_mem_singleton.2 (hvalid "b")⟩
  obtain ⟨store, hstore⟩ := hloads
  obtain ⟨⟨served, last, hgives, hstack, hserved⟩, -⟩ :=
    hserves store hstore [("b", pausing), ("a", pausing)] (List.Perm.swap _ _ []) Hosts.empty
  exact ⟨hnodup, _, _, artifacts, store, served, last, hrecord, hexport, hstore, hgives, hstack, hserved⟩

end BuildM

end Barrage
