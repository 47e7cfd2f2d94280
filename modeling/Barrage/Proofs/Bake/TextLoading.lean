import Barrage.Proofs.Bake.RoundTrip
import Barrage.Proofs.Chunk.UnitLevels
import Barrage.Proofs.Source.Reading

/-!
# Loading what was recorded for a text

A text that is accepted is recorded as the only unit of its source. Two things can keep the artifacts from
being loaded: a line of the unit that nests too deeply, and a name that the text binds and that the serving
language refuses. Nothing in a text of few parts nests too deeply. But what bounds the nesting of a text
does not bound the nesting of its unit: a call may have any number of arguments, and some calls of many
arguments are printed as calls that stand in each other.

## Main results

* `Store.ofArtifacts_cases` — artifacts can be loaded, or some chunk cannot be read
* `RecordedFile.exists_load_iff_of_spelled` — when the artifacts of one source can be loaded
* `BuildM.compileKeyed_loads` — when what was recorded for a text can be loaded
* `BuildM.crowded_text_not_loaded` — a text whose unit nests too deeply
-/

namespace Barrage

open Chunk Barrage.Expr

/-- Artifacts can be loaded, or some chunk cannot be read. -/
theorem Store.ofArtifacts_cases (artifacts : Artifacts) :
    (∃ store, ofArtifacts artifacts = .ok store) ∨ ∃ name, ofArtifacts artifacts = .error (.chunk name) := by
  have hread (sources : List (String × String)) : (∃ chunks, readChunks sources = .ok chunks) ∨
      ∃ name, readChunks sources = .error (.chunk name) := by
    unfold readChunks
    induction sortSources sources with
    | nil => exact .inl ⟨[], rfl⟩
    | cons source rest ih =>
      obtain ⟨file, text⟩ := source
      rw [List.mapM_cons]
      cases hload : Chunk.load? text with
      | none => exact .inr ⟨file, by simp only [hload]; rfl⟩
      | some chunk =>
        rcases ih with ⟨chunks, h⟩ | ⟨name, h⟩
        · exact .inl ⟨(file, chunk) :: chunks, by simp only [hload, h]; rfl⟩
        · exact .inr ⟨name, by simp only [hload, h]; rfl⟩
  unfold ofArtifacts
  rcases hread (artifacts.chunks.mapIdx fun index text => (Artifacts.chunkFile index, text)) with
    ⟨chunks, h⟩ | ⟨name, h⟩
  · exact .inl ⟨⟨artifacts.registry, chunks⟩, by simp only [h]; rfl⟩
  · exact .inr ⟨name, by simp only [h]; rfl⟩

theorem PlainName.identifier {x : String} (h : PlainName x) : Identifier x := by
  obtain ⟨hword, hall⟩ := isFunctionName_parts h.printed
  refine ⟨?_, hall⟩
  cases hx : x.toList with
  | nil =>
    rw [hx] at hword
    cases hword
  | cons c cs =>
    refine ⟨c, cs, rfl, ?_⟩
    rw [hx] at hword
    -- Both languages let a word begin with an underscore, but what follows it is judged by one of them only.
    by_cases hbar : c = '_'
    · subst hbar
      decide
    · have halpha : c.isAlpha = true := by simpa [ChunkToken.isWord, hbar] using hword
      simp [Scanned.opensName, halpha]

namespace RecordedFile

/-- The artifacts of a source can be loaded exactly if no name of its units is refused and no line nests too
deeply. -/
theorem exists_load_iff_of_spelled {f : RecordedFile} (h : f.Spelled) :
    (∃ store, Store.ofArtifacts (artifacts [f]) = .ok store) ↔
      ∀ u ∈ f.units, u.1.HasLines u.2 ∧ (u.1.printed u.2).Fits := by
  have hfiles : ([f].map (·.file)).Nodup := List.nodup_singleton _
  constructor
  · rintro ⟨store, hstore⟩ u hu
    have hvalid := valid_of_load (List.forall_mem_singleton.2 h.worded) hstore
    exact ⟨(hvalid f (List.mem_singleton_self f)).lines u hu,
      (exists_load_iff hvalid hfiles).1 ⟨store, hstore⟩ f (List.mem_singleton_self f) u hu⟩
  · intro hunits
    have hvalid : ∀ g ∈ [f], g.Valid :=
      List.forall_mem_singleton.2 ⟨h.named, fun u hu => (hunits u hu).1, h.body⟩
    exact (exists_load_iff hvalid hfiles).2 (List.forall_mem_singleton.2 fun u hu => (hunits u hu).2)

end RecordedFile

/-- The unit of an accepted tree with plain parameters can be read exactly if no bound name opens with
underscores and a digit. -/
theorem Request.Accepts.hasLines_iff {r : Request} {e : Expr} (h : r.Accepts e)
    (hdistinct : (r.fullParams.map (·.name)).Nodup) (hparams : ∀ p ∈ r.fullParams, PlainName p.name)
    (kind : SiteKind) (key : SiteKey) (index : Nat) :
    (r.recordedUnit e (FileId.identify kind key) index).HasLines e.unitLines ↔
      ∀ x ∈ e.boundNames, opensDigit x = false := by
  have hspelled := h.spelled (fun p hp => (hparams p hp).identifier) kind key index
  have hscope : ∀ b ∈ (Scope.of r.fullParams).filter (fun b => !hasDoubleUnderscore b.1.toList),
      isFunctionName b.1 = true := fun b hb =>
    forall_mem_scope (P := fun x => isFunctionName x = true) (fun p hp => (hparams p hp).printed) b
      (List.mem_of_mem_filter hb)
  rw [← h.unambiguous.readable_unitLines_iff hscope h.source.bound]
  refine ⟨fun hlines => hlines.readable.lines, fun hlines => ?_⟩
  exact hspelled.hasLines (fun p hp => (isFunctionName_parts (hparams p hp).printed).1)
    (fun p hp => isFree_of_isFunctionName (hparams p hp).printed) hdistinct hlines

namespace BuildM

section Texts

variable {text : String} {r : Request} {e : Expr} {hosts : Hosts}

/-- Recording a text that is accepted. -/
theorem exists_record_text (hparse : (parseIn hosts text).1 = .ok e)
    (hcheck : e.check r.fullParams r.returns = .ok ()) (kind : SiteKind) (key : SiteKey) :
    ∃ callable session later,
      (compileKeyed kind key text r).run.run ⟨Session.recording, hosts⟩ = (.ok callable, ⟨session, later⟩) ∧
      session.export = .ok (some (RecordedFile.artifacts [RecordedFile.ofExprs (FileId.identify kind key) [(r, e)]]),
        { session with batches := [] }) := by
  have haccepts : r.Accepts e := ⟨hcheck, sourceNamed_of_parse hparse⟩
  obtain ⟨code, hcode, -⟩ := Request.exists_compileDirect hcheck
  have hrecord : Gives (compileKeyed kind key text r) ⟨Session.recording, hosts⟩ (r.callable (.code code))
      ⟨Session.recording.recorded (FileId.identify kind key) [(r, e)], (parseIn hosts text).2⟩ :=
    (gives_record_keyed rfl).2 ⟨e, code, hparse, haccepts, hcode, rfl, rfl⟩
  exact ⟨_, _, _, hrecord, rfl⟩

/-- When the only unit of a source can be loaded. -/
theorem loads_recorded_iff (haccepts : r.Accepts e) (hdistinct : (r.fullParams.map (·.name)).Nodup)
    (hparams : ∀ p ∈ r.fullParams, PlainName p.name) (kind : SiteKind) (key : SiteKey) :
    (∃ store, Store.ofArtifacts
      (RecordedFile.artifacts [RecordedFile.ofExprs (FileId.identify kind key) [(r, e)]]) = .ok store) ↔
        (∀ x ∈ e.boundNames, opensDigit x = false) ∧ ∀ l ∈ e.unitLines, l.levels ≤ maxLevels - 2 := by
  have hspelled := @RecordedFile.spelled_ofExprs kind key [(r, e)]
    (List.forall_mem_singleton.2 ⟨haccepts, fun p hp => (hparams p hp).identifier⟩)
  rw [RecordedFile.exists_load_iff_of_spelled hspelled]
  refine List.forall_mem_singleton.trans (and_congr_left fun _ => ?_)
  exact haccepts.hasLines_iff hdistinct hparams kind key 0

/-- Recording a text that is accepted, with distinct and plain parameters, succeeds and leaves artifacts. They
can be loaded, or a chunk cannot be read; and they can be exactly if the text binds no name that opens with
underscores and a digit and no line of the unit needs more levels than a function leaves it. The lines of a
tree of two hundred nodes or fewer never do. -/
theorem compileKeyed_loads (hparse : (parseIn hosts text).1 = .ok e)
    (hcheck : e.check r.fullParams r.returns = .ok ()) (hdistinct : (r.fullParams.map (·.name)).Nodup)
    (hparams : ∀ p ∈ r.fullParams, PlainName p.name) (kind : SiteKind) (key : SiteKey) :
    ∃ callable session later artifacts,
      (compileKeyed kind key text r).run.run ⟨Session.recording, hosts⟩ = (.ok callable, ⟨session, later⟩) ∧
      session.export = .ok (some artifacts, { session with batches := [] }) ∧
      ((∃ store, Store.ofArtifacts artifacts = .ok store) ∨
        ∃ chunk, Store.ofArtifacts artifacts = .error (.chunk chunk)) ∧
      ((∃ store, Store.ofArtifacts artifacts = .ok store) ↔
        (∀ x ∈ e.boundNames, opensDigit x = false) ∧ ∀ l ∈ e.unitLines, l.levels ≤ maxLevels - 2) ∧
      (e.nodes ≤ 200 → (∀ x ∈ e.boundNames, opensDigit x = false) →
        ∃ store, Store.ofArtifacts artifacts = .ok store) := by
  obtain ⟨callable, session, later, hrecord, hexport⟩ := exists_record_text hparse hcheck kind key
  have hloads := loads_recorded_iff ⟨hcheck, sourceNamed_of_parse hparse⟩ hdistinct hparams kind key
  exact ⟨callable, session, later, _, hrecord, hexport, Store.ofArtifacts_cases _, hloads,
    fun hnodes hnames => hloads.2 ⟨hnames, levels_of_nodes_le hnodes⟩⟩

end Texts

/-- The greatest of three numbers, one of which is bound to a name without letters. -/
theorem compileKeyed_loads_greatest :
    let r : Request := ⟨[⟨"n", .int⟩], .int, []⟩
    ∃ callable session later artifacts store,
      (compileKeyed .manualReflection (.text "unit") "let _ = n + n in max(_, n, 3)" r).run.run
        ⟨Session.recording, Hosts.empty⟩ = (.ok callable, ⟨session, later⟩) ∧
      session.export = .ok (some artifacts, { session with batches := [] }) ∧
      Store.ofArtifacts artifacts = .ok store := by
  intro r
  let e : Expr := .bind "_" (.call .add [.var "n", .var "n"]) (.call .max [.var "_", .var "n", .const (.int 3)])
  have hparse : (parseIn Hosts.empty "let _ = n + n in max(_, n, 3)").1 = .ok e := by cbv
  have hplain : PlainName "n" := ⟨by decide +kernel, by decide⟩
  obtain ⟨callable, session, later, artifacts, hrecord, hexport, -, -, hloads⟩ :=
    compileKeyed_loads hparse (r := r) rfl (by decide) (List.forall_mem_singleton.2 hplain) .manualReflection
      (.text "unit")
  obtain ⟨store, hstore⟩ := hloads (by decide) (by decide)
  exact ⟨callable, session, later, artifacts, store, hrecord, hexport, hstore⟩

/-- The greatest of many ones. -/
def crowdedText : String := "max ( " ++ " , ".intercalate (List.replicate 256 "1") ++ " )"

/-- The text has a call with many arguments, none of which nests. -/
theorem parseIn_crowdedText (hosts : Hosts) : parseIn hosts crowdedText = (.ok Request.crowded, hosts) := by
  let s : Surface := .call .max (List.replicate 256 (.number ['1']))
  have hone : (Surface.number ['1']).WellFormed hosts :=
    .number (.int (n := 1) (by simp) (List.forall_mem_singleton.2 rfl) (by cbv))
  have hwell : s.WellFormed hosts := .call rfl fun arg harg => by
    rw [List.eq_of_mem_replicate harg]
    exact hone
  have hexpr : s.expr = Request.crowded := by
    change Expr.call .max (Surface.exprs _) = _
    rw [Surface.exprs_eq_map, List.map_replicate]
    rfl
  -- The text is long, so it is read through its parts and not evaluated.
  have htext : s.text = crowdedText := by decide +kernel
  rw [← hexpr, ← htext]
  exact hwell.parse_text.1 (by decide +kernel)

set_option maxRecDepth 10000 in
/-- The text is accepted and recorded, but what is recorded cannot be loaded: the calls of the unit stand in
each other, and its chunk cannot be read. -/
theorem crowded_text_not_loaded :
    let r : Request := ⟨[], .int, []⟩
    (parseIn Hosts.empty crowdedText).1 = .ok Request.crowded ∧
      Request.crowded.check r.fullParams r.returns = .ok () ∧
      ∃ callable session later artifacts chunk,
        (compileKeyed .manualReflection (.text "unit") crowdedText r).run.run
          ⟨Session.recording, Hosts.empty⟩ = (.ok callable, ⟨session, later⟩) ∧
        session.export = .ok (some artifacts, { session with batches := [] }) ∧
        Store.ofArtifacts artifacts = .error (.chunk chunk) := by
  intro r
  have hparse : (parseIn Hosts.empty crowdedText).1 = .ok Request.crowded := by rw [parseIn_crowdedText]
  have hcheck : Request.crowded.check r.fullParams r.returns = .ok () := by
    have haccepted : (Request.crowded.check r.fullParams r.returns).toBool = true := by decide +kernel
    cases hcheck : Request.crowded.check r.fullParams r.returns with
    | ok _ => rfl
    | error err =>
      rw [hcheck] at haccepted
      cases haccepted
  have hdeep : ∃ l ∈ Request.crowded.unitLines, maxLevels - 2 < l.levels := by decide +kernel
  obtain ⟨callable, session, later, hrecord, hexport⟩ :=
    exists_record_text hparse hcheck .manualReflection (.text "unit")
  have hloads := loads_recorded_iff ⟨hcheck, sourceNamed_of_parse hparse⟩ List.nodup_nil (List.forall_mem_nil _)
    .manualReflection (.text "unit")
  have hnot : ¬ ∃ store, Store.ofArtifacts (RecordedFile.artifacts [RecordedFile.ofExprs
      (FileId.identify .manualReflection (.text "unit")) [(r, Request.crowded)]]) = .ok store := by
    intro hstore
    obtain ⟨l, hl, hlevels⟩ := hdeep
    have hshallow := (hloads.1 hstore).2 l hl
    omega
  obtain ⟨chunk, hchunk⟩ := (Store.ofArtifacts_cases _).resolve_left hnot
  exact ⟨hparse, hcheck, callable, session, later, _, chunk, hrecord, hexport, hchunk⟩

end BuildM

end Barrage
