import Mathlib
import Barrage.Proofs.Bake.Histories
import Barrage.Proofs.Bake.ReadObjects
import Barrage.Proofs.Pattern.Replay

/-!
# What compiling preserves, and what it depends on

A pattern is compiled by compiling its expressions one after the other, so what compiling an expression preserves,
compiling a pattern preserves. Outside serving sessions this holds of the mode, and the host objects only get more
timers, whether the pattern can be compiled or not.

Of the host objects only the entities matter for what is recorded. Over others with the same entities the trees hold
other handles for the same names, and such trees are checked and printed alike.

## Main definitions

* `BuildM.Preserves`: what holds before a computation holds after it
* `BuildState.Compiles`: a state in which texts are compiled, with at least some given host objects
* `AlikeRequests`: the same requests for alike trees

## Main results

* `Node.preserves_compileWith`: what compiling an expression preserves, compiling a tree preserves
* `BuildM.preserves_loadPattern`: loading a document, whether it fails or not
* `BuildM.Compiles.alike`: texts over other host objects with the same entities
-/

namespace Barrage

open Chunk Barrage.Expr

variable {α β δ ε : Type} {base : Hosts}

/-! ### What computations preserve -/

namespace BuildM

/-- What holds before a computation holds after it, also if it fails. -/
def Preserves (P : BuildState → Prop) (x : BuildM ε α) : Prop :=
  ∀ state, P state → P (x.run.run state).2

variable {P : BuildState → Prop}

theorem preserves_pure (a : α) : Preserves P (pure a : BuildM ε α) := fun _ h => h

theorem preserves_bind {x : BuildM ε α} {f : α → BuildM ε β} (hx : Preserves P x)
    (hf : ∀ a, Preserves P (f a)) : Preserves P (x >>= f) := by
  intro state h
  rw [run_bind]
  have hmid := hx state h
  generalize x.run.run state = r at hmid
  obtain ⟨e | a, mid⟩ := r
  · exact hmid
  · exact hf a mid hmid

theorem preserves_adapt {f : ε → δ} {x : BuildM ε α} (hx : Preserves P x) : Preserves P (x.adapt f) := by
  intro state h
  rw [run_adapt]
  exact hx state h

theorem preserves_ofExcept (r : Except ε α) : Preserves P (MonadExcept.ofExcept r : BuildM ε α) := by
  cases r with
  | error e => exact fun _ h => h
  | ok a => exact fun _ h => h

theorem preserves_mapM {P : BuildState → Prop} {f : α → BuildM ε β} (h : ∀ a, Preserves P (f a)) (as : List α) :
    Preserves P (as.mapM f) := by
  induction as with
  | nil => exact preserves_pure _
  | cons a as ih =>
    rw [List.mapM_cons]
    exact preserves_bind (h a) fun _ => preserves_bind ih fun _ => preserves_pure _

end BuildM

open BuildM

section Compile

variable {P : BuildState → Prop} {f : ValueType → α → BuildM ε β}

theorem Leaf.preserves_compileWith (hf : ∀ ty a, Preserves P (f ty a)) (leaf : Leaf α) :
    Preserves P (leaf.compileWith f) := by
  cases leaf with
  | wait | waitUntil | emit => exact preserves_bind (hf _ _) fun _ => preserves_pure _
  | shiftPhase => exact preserves_pure _

mutual

/-- What compiling an expression preserves, compiling a tree preserves. -/
theorem Node.preserves_compileWith (hf : ∀ ty a, Preserves P (f ty a)) (node : Node α) :
    Preserves P (node.compileWith f) :=
  match node with
  | .pattern _ phases => preserves_bind (Phase.preserves_compileList hf phases) fun _ => preserves_pure _
  | .phase phase => preserves_bind (Phase.preserves_compileWith hf phase) fun _ => preserves_pure _
  | .action _ _ children | .sequence _ children | .endBlock _ _ children =>
    preserves_bind (Node.preserves_compileList hf children) fun _ => preserves_pure _
  | .finish child => preserves_bind (Node.preserves_compileWith hf child) fun _ => preserves_pure _
  | .leaf leaf => preserves_bind (leaf.preserves_compileWith hf) fun _ => preserves_pure _

theorem Node.preserves_compileList (hf : ∀ ty a, Preserves P (f ty a)) (nodes : List (Node α)) :
    Preserves P (Node.compileList f nodes) :=
  match nodes with
  | [] => preserves_pure _
  | node :: rest => preserves_bind (Node.preserves_compileWith hf node) fun _ =>
      preserves_bind (Node.preserves_compileList hf rest) fun _ => preserves_pure _

theorem Node.preserves_compileOption (hf : ∀ ty a, Preserves P (f ty a)) (block : Option (Node α)) :
    Preserves P (Node.compileOption f block) :=
  match block with
  | none => preserves_pure _
  | some node => preserves_bind (Node.preserves_compileWith hf node) fun _ => preserves_pure _

theorem Phase.preserves_compileWith (hf : ∀ ty a, Preserves P (f ty a)) (phase : Phase α) :
    Preserves P (phase.compileWith f) :=
  match phase with
  | .mk _ children atEnd atCut => preserves_bind (Node.preserves_compileList hf children) fun _ =>
      preserves_bind (Node.preserves_compileOption hf atEnd) fun _ =>
        preserves_bind (Node.preserves_compileOption hf atCut) fun _ => preserves_pure _

theorem Phase.preserves_compileList (hf : ∀ ty a, Preserves P (f ty a)) (phases : List (Phase α)) :
    Preserves P (Phase.compileList f phases) :=
  match phases with
  | [] => preserves_pure _
  | phase :: rest => preserves_bind (Phase.preserves_compileWith hf phase) fun _ =>
      preserves_bind (Phase.preserves_compileList hf rest) fun _ => preserves_pure _

end

end Compile

section Documents

variable {P : BuildState → Prop} (hleaf : ∀ returns source, Preserves P (compileLeaf returns source))

include hleaf

theorem PhaseDocument.preserves_compile (doc : PhaseDocument) : Preserves P doc.compile :=
  preserves_bind (Node.preserves_compileList hleaf doc.children) fun _ => preserves_ofExcept _

theorem PhaseDocument.preserves_compileFrom (index : Nat) (docs : List PhaseDocument) :
    Preserves P (PhaseDocument.compileFrom index docs) := by
  induction docs generalizing index with
  | nil => exact preserves_pure _
  | cons doc docs ih =>
    exact preserves_bind (preserves_adapt (doc.preserves_compile hleaf)) fun _ =>
      preserves_bind (ih _) fun _ => preserves_pure _

theorem PatternDocument.preserves_compile (doc : PatternDocument) : Preserves P doc.compile :=
  preserves_bind (PhaseDocument.preserves_compileFrom hleaf 0 doc.phases) fun _ => preserves_pure _

end Documents

/-! ### Sessions that do not serve -/

namespace Session

variable {s t : Session} {id : Option Nat}

/-- No call changes the mode of a session. -/
theorem mode_perform (s : Session) (act : Act) : (s.perform act).2.mode = s.mode :=
  (s.moves_perform act).labels_cases.1

theorem mode_of_openKeyed {kind : SiteKind} {key : SiteKey} (h : s.openKeyed kind key = .ok (id, t)) :
    t.mode = s.mode := by
  have hperform := s.mode_perform (.open kind key)
  rwa [perform, h] at hperform

theorem mode_of_close {keep : Bool} (h : s.close id keep = .ok t) : t.mode = s.mode := by
  cases keep with
  | true =>
    have hperform := s.mode_perform (.finish .close id)
    rwa [perform, Ending.keeps, h] at hperform
  | false =>
    have hperform := s.mode_perform (.finish .discard id)
    rwa [perform, Ending.keeps, h] at hperform

theorem mode_compile (s : Session) (e : Expr) (r : Request) : (s.compile e r).2.mode = s.mode :=
  s.mode_perform (.compile e r)

end Session

/-- A state in which texts are compiled, with at least some given host objects. -/
structure BuildState.Compiles (base : Hosts) (state : BuildState) : Prop where
  mode : state.session.mode ≠ .serve
  grows : base.Grows state.hosts

namespace BuildM

theorem preserves_compileSource (source : String) (r : Request) :
    Preserves (BuildState.Compiles base) (compileSource source r) := by
  intro state h
  rw [run_compileSource, if_neg h.mode, run_bind, run_parse]
  have hgrows := h.grows.trans (Expr.grows_parseIn state.hosts source)
  cases (Expr.parseIn state.hosts source).1 with
  | error err => exact ⟨h.mode, hgrows⟩
  | ok e =>
    simp only [Except.mapError, run_compile]
    exact ⟨by rw [Session.mode_compile]; exact h.mode, hgrows⟩

/-- What is done inside a source may be compiling. -/
theorem preserves_within {ofBake : BakeError → ε} {kind : SiteKind} {key : SiteKey} {keepFailed : Bool}
    {act : BuildM ε α} (hact : Preserves (BuildState.Compiles base) act) :
    Preserves (BuildState.Compiles base) (within ofBake kind key keepFailed act) := by
  intro state h
  rw [run_within]
  cases hopen : state.session.openKeyed kind key with
  | error e => exact h
  | ok opened =>
    obtain ⟨id, session⟩ := opened
    have hmid := hact { state with session } ⟨by rw [Session.mode_of_openKeyed hopen]; exact h.mode, h.grows⟩
    dsimp only
    generalize act.run.run { state with session } = r at hmid
    obtain ⟨err | a, mid⟩ := r
    · dsimp only at hmid ⊢
      unfold closed
      cases hclose : mid.session.close id keepFailed with
      | error e => exact hmid
      | ok last => exact ⟨by rw [Session.mode_of_close hclose]; exact hmid.mode, hmid.grows⟩
    · dsimp only at hmid ⊢
      cases hclose : mid.session.close id true with
      | error e => exact hmid
      | ok last => exact ⟨by rw [Session.mode_of_close hclose]; exact hmid.mode, hmid.grows⟩

/-- Loading a document, whether it fails or not. -/
theorem preserves_loadPattern (key text : String) :
    Preserves (BuildState.Compiles base) (loadPattern key text) := by
  unfold loadPattern
  cases PatternDocument.parse? text with
  | none => exact preserves_ofExcept (.error _)
  | some doc =>
    refine preserves_within (doc.preserves_compile fun returns source => ?_)
    exact preserves_adapt (preserves_compileSource source _)

end BuildM

/-! ### Host objects with other timers -/

/-- The same requests for trees that may hold different handles for the same names. -/
abbrev AlikeRequests : List (Request × Expr) → List (Request × Expr) → Prop :=
  List.Forall₂ fun x y => x.1 = y.1 ∧ x.2.Alike y.2

theorem alikeRequests_zip {es es' : List Expr} (h : List.Forall₂ Expr.Alike es es') (rs : List Request) :
    AlikeRequests (rs.zip es) (rs.zip es') := by
  induction h generalizing rs with
  | nil => rw [List.zip_nil_right]; exact .nil
  | cons he _ ih =>
    cases rs with
    | nil => exact .nil
    | cons r rs => exact .cons ⟨rfl, he⟩ (ih rs)

/-- Alike trees are recorded as the same units. -/
theorem RecordedFile.ofExprs_eq_of_alike {xs ys : List (Request × Expr)} (h : AlikeRequests xs ys) (file : FileId) :
    RecordedFile.ofExprs file xs = RecordedFile.ofExprs file ys := by
  refine congrArg (RecordedFile.mk file) (List.ext_getElem (by simp [h.length_eq]) fun i hi hi' => ?_)
  rw [List.length_mapIdx] at hi hi'
  obtain ⟨hrequest, halike⟩ := h.get hi hi'
  simp only [List.get_eq_getElem] at hrequest halike
  rw [List.getElem_mapIdx, List.getElem_mapIdx, Request.recordedUnit, Request.recordedUnit, hrequest,
    halike.unitLines_eq]

theorem Session.recorded_eq_of_alike {xs ys : List (Request × Expr)} (h : AlikeRequests xs ys) (s : Session)
    (file : FileId) : s.recorded file xs = s.recorded file ys := by
  rw [Session.recorded, Session.recorded, RecordedFile.ofExprs_eq_of_alike h]

namespace BuildM

section

variable {source : α → String} {request : α → Request} {hosts hosts' last : Hosts} {as : List α} {es : List Expr}
  {cs : List Callable}

/-- A text that is accepted over some host objects is accepted over others with the same entities, and its trees are
alike. -/
theorem exists_alike {text : String} {r : Request} {e : Expr} (hentities : hosts'.entities = hosts.entities)
    (hparse : (parseIn hosts text).1 = .ok e) (haccepts : r.Accepts e) :
    ∃ e' code, (parseIn hosts' text).1 = .ok e' ∧ r.Accepts e' ∧
      e'.flatten.compile (r.fullParams.map (·.name)).reverse = .ok code ∧ e.Alike e' ∧
      (parseIn hosts' text).2.entities = (parseIn hosts text).2.entities := by
  obtain ⟨later, later', -, hlater, ⟨e, e', hread, hread', halike, -⟩ | ⟨fault, hread, -⟩⟩ :=
    parseIn_read hentities text
  · rw [hread] at hparse
    cases hparse
    have hparse' : (parseIn hosts' text).1 = .ok e' := by rw [hread']
    have haccepts' : r.Accepts e' := ⟨(halike.check_eq _ _).symm.trans haccepts.check, sourceNamed_of_parse hparse'⟩
    obtain ⟨code, hcode, -⟩ := Request.exists_compileDirect haccepts'.check
    exact ⟨e', code, hparse', haccepts', hcode, halike, by rw [hread, hread', hlater]⟩
  · rw [hread] at hparse
    cases hparse

/-- The same for texts that are read one after the other. -/
theorem Compiles.alike (h : Compiles source request hosts as es cs last) (hentities : hosts'.entities = hosts.entities) :
    ∃ es' cs' last', Compiles source request hosts' as es' cs' last' ∧ last'.entities = last.entities ∧
      List.Forall₂ Expr.Alike es es' := by
  induction h generalizing hosts' with
  | nil => exact ⟨[], [], hosts', .nil, hentities, .nil⟩
  | cons hparse haccepts _ _ ih =>
    obtain ⟨e', code, hparse', haccepts', hcode, halike, hlater⟩ := exists_alike hentities hparse haccepts
    obtain ⟨es', cs', last', hcompiles, hlast, hes⟩ := ih hlater
    exact ⟨e' :: es', _, last', .cons hparse' haccepts' hcode hcompiles, hlast, .cons halike hes⟩

/-- The results of all texts of a document make up a pattern. -/
theorem exists_pattern {doc : PatternDocument} {numbered : Pattern Nat} (hnumbered : doc.numbered = .ok numbered)
    (h : Compiles Prod.snd Leaf.request hosts doc.expressions es cs last) :
    ∃ pattern : Pattern Callable, ∀ g, PlacedFrom 0 cs g → pattern = numbered.map g := by
  let start : BuildState := ⟨Session.recording.opening (patternFile ""), hosts⟩
  have htexts : Gives (doc.expressions.mapM (compileAt compileLeaf)) start cs _ :=
    (gives_record_texts gives_compileLeaf rfl rfl).2 ⟨es, last, h, rfl⟩
  obtain ⟨g, hg⟩ := PhaseDocument.exists_placedFrom 0 cs
  obtain ⟨cs', hcs', numbered', hnumbered', hpattern⟩ :=
    PatternDocument.gives_compile_iff.1 (PatternDocument.gives_compile htexts hnumbered hg)
  cases htexts.symm.trans hcs'
  cases hnumbered.symm.trans hnumbered'
  exact ⟨_, hpattern⟩

end

end BuildM

end Barrage
