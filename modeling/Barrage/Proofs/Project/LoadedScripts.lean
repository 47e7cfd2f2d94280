import Mathlib
import Barrage.Project.Run
import Barrage.Proofs.Bake.AskedObjects
import Barrage.Proofs.Machine.PhaseTimers
import Barrage.Proofs.Pattern.Compiling

/-!
# What loading scripts leaves

A run that does not serve compiles every text that it reads, in one mode as in the other. So the patterns that it
loads consist of code, and the host objects have all the timers that any of their texts names, also those that only a
later script or one that fails in the end asks for. Timers are only added while scripts are loaded: a timer that was
found once keeps its place.

## Main definitions

* `Project.NamesTimer`: a script that names a timer

## Main results

* `preserves_loadFile`: loading a script, whether it fails or not
* `gives_loadFile`: what is loaded of a script
* `Project.loadScripts_spec`: the same for all scripts of a run
-/

namespace Barrage

open BuildM

variable {α β ε : Type} {base : Hosts} {state after : BuildState}

/-! ### Sessions that do not serve -/

namespace Session

variable {s t : Session} {id : Option Nat}

/-- Unless a session serves, what it compiles is the code of the tree. -/
theorem compileDirect_of_compile {e : Expr} {r : Request} {c : Callable} (hmode : s.mode ≠ .serve)
    (h : (s.compile e r).1 = .ok c) : r.compileDirect e = .ok c := by
  cases hs : s.mode with
  | direct => simpa [compile, hs] using h
  | serve => exact absurd hs hmode
  | record =>
    cases hrecorded : s.compileRecorded e r with
    | error err => simp [compile, hs, hrecorded] at h
    | ok recorded =>
      obtain ⟨c', hc', hrest⟩ := Except.bind_eq_ok_iff.1 hrecorded
      obtain ⟨body, -, hrest⟩ := Except.bind_eq_ok_iff.1 hrest
      obtain ⟨t, -, hrest⟩ := Except.bind_eq_ok_iff.1 hrest
      cases hrest
      obtain rfl : c' = c := by simpa [compile, hs, hrecorded] using h
      exact hc'

end Session

/-- What is compiled directly is code. -/
theorem Request.code_of_compileDirect {r : Request} {e : Expr} {c : Callable} (h : r.compileDirect e = .ok c) :
    ∃ code, c.body = .code code := by
  obtain ⟨_, hcheck, -⟩ := Except.bind_eq_ok_iff.1 h
  have haccepts : e.check r.fullParams r.returns = .ok () := by
    cases hresult : e.check r.fullParams r.returns with
    | ok => rfl
    | error err => rw [hresult] at hcheck; cases hcheck
  obtain ⟨code, -, hcompile⟩ := r.exists_compileDirect haccepts
  rw [h] at hcompile
  exact ⟨code, by rw [Except.ok.inj hcompile]⟩

/-! ### States -/

/-- A timer that is there is there later. -/
theorem Hosts.Grows.isSome_timerSlot? {hosts later : Hosts} {name : String} (h : hosts.Grows later)
    (hname : (hosts.timerSlot? name).isSome) : (later.timerSlot? name).isSome := by
  obtain ⟨slot, hslot⟩ := Option.isSome_iff_exists.1 hname
  rw [h.timerSlot? hslot]
  rfl

namespace BuildM

/-- Loading a script, whether it fails or not. -/
theorem preserves_loadFile (disk : Disk) (root path : String) :
    Preserves (BuildState.Compiles base) (loadFile disk root path) := by
  unfold loadFile
  cases disk.readText path with
  | error e => exact preserves_ofExcept (.error _)
  | ok text => exact preserves_adapt (preserves_loadPattern _ text)

end BuildM

/-! ### What is loaded -/

/-- A text names a timer: it is read as a tree that holds a timer of that name. -/
def Expr.NamesTimer (source name : String) : Prop :=
  ∃ e handle, (Expr.parseIn Project.hosts.2 source).1 = .ok e ∧ Value.timer handle ∈ e.objects ∧ handle.name = name

namespace Expr

/-- Alike trees hold timers of the same names. -/
theorem Alike.exists_timer {e e' : Expr} (h : e.Alike e') {handle : TimerHandle}
    (hmem : Value.timer handle ∈ e'.objects) : ∃ own, Value.timer own ∈ e.objects ∧ own.name = handle.name := by
  have hlookups : e'.lookups = e.lookups := by
    have hhoist : e'.hoist = e.hoist := (h.hoist []).symm
    rw [hoist_eq, hoist_eq] at hhoist
    exact congrArg Prod.snd hhoist
  have hnamed := (e'.names_lookups.mem_iff (.timer handle.name)).2 ⟨_, hmem, rfl⟩
  rw [hlookups, e.names_lookups.mem_iff] at hnamed
  obtain ⟨v, hv, hobject⟩ := hnamed
  cases v with
  | timer own => exact ⟨own, hv, HostRef.timer.inj (Option.some.inj hobject)⟩
  | entity own => cases hobject
  | _ => cases hobject

end Expr

namespace BuildM

theorem gives_preserves {P : BuildState → Prop} {x : BuildM ε α} (hx : Preserves P x) {a : α}
    (h : Gives x state a after) (hstate : P state) : P after := by
  have := hx state hstate
  rwa [(gives_iff.1 h).2] at this

/-- The expression of a leaf becomes code, and the timers that it names are there afterwards. -/
theorem code_of_gives {x : ValueType × String} {c : Callable}
    (hentities : state.hosts.entities = Project.hosts.2.entities) (hmode : state.session.mode ≠ .serve)
    (h : Gives (compileAt compileLeaf x) state c after) :
    (∃ code, c.body = .code code) ∧
      ∀ name, Expr.NamesTimer x.2 name → (after.hosts.timerSlot? name).isSome := by
  have hrun := gives_iff.1 ((gives_compileLeaf x state c after).1 h)
  rw [run_compileSource, if_neg hmode, run_bind, run_parse] at hrun
  obtain ⟨later, later', -, -, hread⟩ := @Expr.parseIn_read state.hosts Project.hosts.2 hentities.symm x.2
  obtain ⟨e, e', hparse, hparse', halike, hheld⟩ | ⟨fault, hparse, -⟩ := hread
  · rw [hparse] at hrun
    simp only [Except.mapError, run_compile] at hrun
    obtain ⟨hcompile, rfl⟩ := hrun
    refine ⟨Request.code_of_compileDirect (Session.compileDirect_of_compile hmode hcompile), ?_⟩
    rintro name ⟨e'', handle, hnamed, hmem, rfl⟩
    rw [hparse'] at hnamed
    cases hnamed
    obtain ⟨own, hown, hname⟩ := halike.exists_timer hmem
    rw [← hname, show later.timerSlot? own.name = some own.slot from hheld _ hown]
    rfl
  · rw [hparse] at hrun
    cases hrun.1

/-- The same for the expressions of a document. -/
theorem code_of_gives_mapM {xs : List (ValueType × String)} {cs : List Callable}
    (hentities : state.hosts.entities = Project.hosts.2.entities) (hmode : state.session.mode ≠ .serve)
    (h : Gives (xs.mapM (compileAt compileLeaf)) state cs after) :
    (∀ c ∈ cs, ∃ code, c.body = .code code) ∧
      ∀ x ∈ xs, ∀ name, Expr.NamesTimer x.2 name → (after.hosts.timerSlot? name).isSome := by
  have hleaf (base : Hosts) (x : ValueType × String) :
      Preserves (BuildState.Compiles base) (compileAt compileLeaf x) := preserves_adapt (preserves_compileSource x.2 _)
  induction xs generalizing state cs with
  | nil =>
    obtain ⟨rfl, -⟩ := gives_mapM_nil.1 h
    exact ⟨List.forall_mem_nil _, List.forall_mem_nil _⟩
  | cons x xs ih =>
    obtain ⟨c, mid, cs, hfirst, hrest, rfl⟩ := gives_mapM_cons.1 h
    have hmid := gives_preserves (hleaf state.hosts x) hfirst ⟨hmode, .refl _⟩
    have hafter := gives_preserves (preserves_mapM (hleaf mid.hosts) xs) hrest ⟨hmid.mode, .refl _⟩
    obtain ⟨hcode, hnamed⟩ := code_of_gives hentities hmode hfirst
    obtain ⟨hcodes, hothers⟩ := ih (hmid.grows.entities.trans hentities) hmid.mode hrest
    exact ⟨List.forall_mem_cons.2 ⟨hcode, hcodes⟩, List.forall_mem_cons.2
      ⟨fun name hname => hafter.grows.isSome_timerSlot? (hnamed name hname), hothers⟩⟩

/-- A document becomes a pattern of code, and the timers that it names are there afterwards. -/
theorem coded_of_gives_compile {doc : PatternDocument} {pattern : Pattern Callable}
    (h : Gives doc.compile state pattern after) (hentities : state.hosts.entities = Project.hosts.2.entities)
    (hmode : state.session.mode ≠ .serve) : Coded pattern.toNode.expressions ∧
      ∀ x ∈ doc.expressions, ∀ name, Expr.NamesTimer x.2 name → (after.hosts.timerSlot? name).isSome := by
  obtain ⟨cs, numbered, hcs, -, hpattern⟩ := PatternDocument.exists_of_compile h
  obtain ⟨hcodes, hnamed⟩ := code_of_gives_mapM hentities hmode hcs
  refine ⟨?_, hnamed⟩
  -- Beyond the last place any code will do.
  let g (place : Nat) : Callable := cs[place]?.getD ⟨⟨[], .bool⟩, [], .code (.const (.bool true))⟩
  have hplaced : PlacedFrom 0 cs g := fun place c hc => by
    rw [Nat.zero_add]
    exact congrArg (Option.getD · _) hc
  have hcoded : ∀ place, ∃ code, (g place).body = .code code := by
    intro place
    dsimp only [g]
    cases hc : cs[place]? with
    | none => exact ⟨_, rfl⟩
    | some c => exact hcodes c (List.mem_of_getElem? hc)
  rw [hpattern g hplaced]
  change Coded (Phase.expressionsList (Phase.mapList g numbered.phases))
  rw [Phase.expressionsList_map]
  exact List.forall_mem_map.2 fun x _ => hcoded x.2

end BuildM

namespace Project

/-- A script names a timer: one of its expressions does. -/
def NamesTimer (disk : Disk) (path name : String) : Prop :=
  ∃ text doc, disk.readText path = .ok text ∧ PatternDocument.parse? text = some doc ∧
    ∃ x ∈ doc.expressions, Expr.NamesTimer x.2 name

variable {disk : Disk} {root path : String}

/-- What is loaded of a script. -/
theorem gives_loadFile {pattern : Pattern Callable} (h : Gives (loadFile disk root path) state pattern after)
    (hentities : state.hosts.entities = hosts.2.entities) (hmode : state.session.mode ≠ .serve) :
    Coded pattern.toNode.expressions ∧
      ∀ name, NamesTimer disk path name → (after.hosts.timerSlot? name).isSome := by
  unfold loadFile at h
  cases htext : disk.readText path with
  | error e =>
    rw [htext] at h
    cases (gives_iff.1 h).1
  | ok text =>
    rw [htext] at h
    obtain ⟨doc, hdoc, hwithin⟩ := gives_loadPattern.1 (gives_adapt.1 h)
    obtain ⟨id, opened, mid, closed, hopen, hcompile, -, rfl⟩ := gives_within.1 hwithin
    have hopened : opened.mode ≠ .serve := by
      rw [Session.mode_of_openKeyed hopen]
      exact hmode
    obtain ⟨hcoded, hnamed⟩ := coded_of_gives_compile hcompile hentities hopened
    refine ⟨hcoded, ?_⟩
    rintro name ⟨text', doc', htext', hdoc', x, hx, hname⟩
    cases htext.symm.trans htext'
    cases hdoc.symm.trans hdoc'
    exact hnamed x hx name hname

/-- What is loaded of all scripts of a run. Timers are only added, and those that some loaded script names are there
in the end. -/
theorem loadScripts_spec {paths failed : List String} {loaded : List (String × Pattern Callable)}
    (h : loadScripts disk root paths state = .ok ((loaded, failed), after))
    (hentities : state.hosts.entities = hosts.2.entities) (hmode : state.session.mode ≠ .serve) :
    state.hosts.Grows after.hosts ∧ ∀ x ∈ loaded, Coded x.2.toNode.expressions ∧
      ∀ name, NamesTimer disk x.1 name → (after.hosts.timerSlot? name).isSome := by
  induction paths generalizing state loaded failed with
  | nil =>
    cases h
    exact ⟨.refl _, List.forall_mem_nil _⟩
  | cons path paths ih =>
    unfold loadScripts at h
    have hmid := preserves_loadFile disk root path state ⟨hmode, .refl state.hosts⟩
    rcases hload : (loadFile disk root path).run.run state with ⟨failure | pattern, mid⟩
    · simp only [hload] at h hmid
      split at h
      · cases h
      · obtain ⟨⟨⟨loaded', failed'⟩, last⟩, hrest, hresult⟩ := Except.bind_eq_ok_iff.1 h
        cases hresult
        obtain ⟨hgrows, hloaded⟩ := ih hrest (hmid.grows.entities.trans hentities) hmid.mode
        exact ⟨hmid.grows.trans hgrows, hloaded⟩
    · simp only [hload] at h hmid
      obtain ⟨⟨⟨loaded', failed'⟩, last⟩, hrest, hresult⟩ := Except.bind_eq_ok_iff.1 h
      cases hresult
      obtain ⟨hgrows, hloaded⟩ := ih hrest (hmid.grows.entities.trans hentities) hmid.mode
      obtain ⟨hcoded, hnamed⟩ := gives_loadFile hload hentities hmode
      exact ⟨hmid.grows.trans hgrows, List.forall_mem_cons.2
        ⟨⟨hcoded, fun name hname => hgrows.isSome_timerSlot? (hnamed name hname)⟩, hloaded⟩⟩

end Project

end Barrage
