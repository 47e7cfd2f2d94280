import Barrage.Proofs.Bake.Histories
import Barrage.Proofs.Bake.Loading

/-!
# What a recording session exports

Sources are opened inside and after each other, some of them more than once, some are discarded, and a session
is exported any number of times. Whatever the order, a source is exported with the units that were compiled
while its first opening was on top of the stack, if that opening was closed with a unit in it, and it is
exported once. What happens under its later openings is lost.

## Main definitions

* `Exchange.opener?`, `Exchange.closings`, `Exchange.calls`, `Exchange.exports` — what a history says about
  openings, units and exports
* `Session.Tracks` — a session is in the state that its history accounts for
* `Artifacts.Places` — where artifacts hold a unit

## Main results

* `Session.tracks_history` — every recording session is in the state that its history accounts for
* `Session.exportsOnce` — what is exported
-/

namespace Barrage

namespace Exchange

/-- The number of a source that was closed so that its units are kept. -/
def kept? (step : Exchange) : Option Nat :=
  match step.act.closing?, step.answer with
  | some (id, true), .ok .closed => some id
  | _, _ => none

/-- What was compiled, with the number of the source on top of the stack. -/
def call? (step : Exchange) : Option (Nat × Expr × Request) :=
  match step.act, step.answer, step.before.stack with
  | .compile e r, .ok (.compiled _), source :: _ => some (source.id, e, r)
  | _, _, _ => none

/-- The artifacts that were exported. -/
def exported? (step : Exchange) : Option Artifacts :=
  match step.answer with
  | .ok (.exported artifacts) => artifacts
  | _ => none

/-- The number of the first opening of a source. -/
def opener? (steps : List Exchange) (file : FileId) : Option Nat :=
  ((openings steps).find? fun o => o.2 = file).map Prod.fst

/-- The source that was opened under a number. -/
def fileOf? (steps : List Exchange) (id : Nat) : Option FileId :=
  ((openings steps).find? fun o => o.1 = id).map Prod.snd

/-- The numbers of the sources that were closed so that their units are kept. -/
def closings (steps : List Exchange) : List Nat := steps.filterMap kept?

/-- What was compiled while a source was on top of the stack. -/
def calls (steps : List Exchange) (id : Nat) : List (Expr × Request) :=
  ((steps.filterMap call?).filter fun call => call.1 = id).map Prod.snd

/-- The artifacts that were exported, one export after the other. -/
def exports (steps : List Exchange) : List Artifacts := steps.filterMap exported?

end Exchange

/-- The unit that a call records at a place. -/
def RecordedUnit.ofCall (file : FileId) (index : Nat) (call : Expr × Request) : RecordedUnit :=
  ⟨Recording.unitName file index, call.2.fullParams, Signature.of call.2.fullParams call.2.returns,
    match call.1.printUnit with
    | .ok body => body
    | .error _ => ""⟩

/-- The recording that a history accounts for. What is recorded in a later opening is suppressed. -/
def Exchange.recordingOf? (steps : List Exchange) (id : Nat) : Option Recording :=
  (fileOf? steps id).map fun file =>
    ⟨file, (calls steps id).mapIdx (RecordedUnit.ofCall file), decide (opener? steps file ≠ some id)⟩

/-- The batch of a source that was closed. -/
def Exchange.batchOf? (steps : List Exchange) (id : Nat) : Option Batch :=
  (recordingOf? steps id).bind Recording.export?

namespace Exchange

variable {steps : List Exchange} {step : Exchange} {id : Nat} {file : FileId}

theorem closings_concat (steps : List Exchange) (step : Exchange) :
    closings (steps ++ [step]) = closings steps ++ step.kept?.toList := by
  rw [closings, List.filterMap_append]
  cases h : step.kept? <;> simp [closings, h]

theorem exports_concat (steps : List Exchange) (step : Exchange) :
    exports (steps ++ [step]) = exports steps ++ step.exported?.toList := by
  rw [exports, List.filterMap_append]
  cases h : step.exported? <;> simp [exports, h]

theorem calls_concat_of_none (h : step.call? = none) (id : Nat) : calls (steps ++ [step]) id = calls steps id := by
  simp [calls, h]

theorem calls_concat_self {call : Expr × Request} (h : step.call? = some (id, call)) :
    calls (steps ++ [step]) id = calls steps id ++ [call] := by
  simp [calls, h]

theorem calls_concat_of_ne {other : Nat} {call : Expr × Request} (h : step.call? = some (other, call))
    (hne : other ≠ id) : calls (steps ++ [step]) id = calls steps id := by
  simp [calls, h, hne]

theorem openings_concat_of_none (h : step.opened? = none) : openings (steps ++ [step]) = openings steps := by
  rw [openings_concat, h]
  exact List.append_nil _

theorem recordingOf?_congr {steps' : List Exchange} (hopenings : openings steps' = openings steps)
    (hcalls : calls steps' id = calls steps id) : recordingOf? steps' id = recordingOf? steps id := by
  unfold recordingOf? fileOf? opener?
  rw [hopenings, hcalls]

/-- The batches of sources whose recordings stay the same. -/
theorem filterMap_batchOf?_congr {steps' : List Exchange} {ids : List Nat}
    (h : ∀ id ∈ ids, recordingOf? steps id = recordingOf? steps' id) :
    ids.filterMap (batchOf? steps) = ids.filterMap (batchOf? steps') := by
  refine List.filterMap_congr fun id hid => ?_
  rw [batchOf?, h id hid, batchOf?]

theorem fileOf?_concat (h : step.opened? = some (id, file)) (other : Nat) :
    fileOf? (steps ++ [step]) other = (fileOf? steps other).or (if id = other then some file else none) := by
  unfold fileOf?
  rw [openings_concat, h, List.find?_append]
  cases (openings steps).find? fun o => o.1 = other with
  | some o => rfl
  | none => by_cases heq : id = other <;> simp [heq]

theorem opener?_concat (h : step.opened? = some (id, file)) (other : FileId) :
    opener? (steps ++ [step]) other = (opener? steps other).or (if file = other then some id else none) := by
  unfold opener?
  rw [openings_concat, h, List.find?_append]
  cases (openings steps).find? fun o => o.2 = other with
  | some o => rfl
  | none => by_cases heq : file = other <;> simp [heq]

theorem mem_openings_of_fileOf? (h : fileOf? steps id = some file) : (id, file) ∈ openings steps := by
  obtain ⟨o, ho, rfl⟩ := Option.map_eq_some_iff.1 h
  have hid : o.1 = id := by simpa using List.find?_some ho
  exact hid ▸ List.mem_of_find?_eq_some ho

theorem mem_openings_of_opener? (h : opener? steps file = some id) : (id, file) ∈ openings steps := by
  obtain ⟨o, ho, rfl⟩ := Option.map_eq_some_iff.1 h
  have hfile : o.2 = file := by simpa using List.find?_some ho
  exact hfile ▸ List.mem_of_find?_eq_some ho

theorem exists_opener? (h : (id, file) ∈ openings steps) : ∃ first, opener? steps file = some first := by
  have hsome : ((openings steps).find? fun o => o.2 = file).isSome := List.find?_isSome.2 ⟨_, h, by simp⟩
  obtain ⟨o, ho⟩ := Option.isSome_iff_exists.1 hsome
  exact ⟨o.1, by rw [opener?, ho]; rfl⟩

/-- A source that is opened later leaves the earlier recordings as they are. -/
theorem recordingOf?_concat_of_opened {r : Recording} (hopened : step.opened? = some (id, file))
    (hcall : step.call? = none) {other : Nat} (h : recordingOf? steps other = some r) :
    recordingOf? (steps ++ [step]) other = some r := by
  obtain ⟨file', hfile', rfl⟩ := Option.map_eq_some_iff.1 h
  obtain ⟨first, hfirst⟩ := exists_opener? (mem_openings_of_fileOf? hfile')
  unfold recordingOf?
  rw [fileOf?_concat hopened, hfile', Option.some_or, Option.map_some, calls_concat_of_none hcall,
    opener?_concat hopened, hfirst, Option.some_or]

/-- What is compiled on top of a source is added to its recording. -/
theorem recordingOf?_concat_of_compiled {recording : Recording} {e : Expr} {r : Request} {body : String}
    (hopened : step.opened? = none) (hcall : step.call? = some (id, e, r)) (hbody : e.printUnit = .ok body)
    (h : recordingOf? steps id = some recording) :
    recordingOf? (steps ++ [step]) id = some (recording.add body r.fullParams r.returns).2 := by
  have hopenings : openings (steps ++ [step]) = openings steps := openings_concat_of_none hopened
  obtain ⟨file, hfile, rfl⟩ := Option.map_eq_some_iff.1 h
  have hopeners : opener? (steps ++ [step]) file = opener? steps file := by rw [opener?, hopenings, opener?]
  rw [recordingOf?, fileOf?, hopenings, ← fileOf?, hfile, Option.map_some, calls_concat_self hcall,
    List.mapIdx_concat, hopeners]
  simp [Recording.add, RecordedUnit.ofCall, hbody]

end Exchange

namespace Session

open Exchange

variable {s t : Session} {act : Act} {answer : Except Fault Answer} {steps : List Exchange} {step : Exchange}
variable {id : Nat} {file : FileId} {rest : List OpenSource}

/-- A recording session is in the state that its history accounts for. -/
structure Tracks (steps : List Exchange) (s : Session) : Prop where
  mode : s.mode = .record
  disciplined : s.Disciplined
  opening_lt : ∀ o ∈ openings steps, o.1 < s.nextId
  call_lt : ∀ call ∈ steps.filterMap call?, call.1 < s.nextId
  opened : ∀ file, file ∈ s.opened ↔ ∃ id, opener? steps file = some id
  stack : ∀ source ∈ s.stack, ∃ r, recordingOf? steps source.id = some r ∧ source.context = .recording r
  closed : ∀ id ∈ closings steps, id ∉ s.stack.map (·.id) ∧ ∃ r, recordingOf? steps id = some r
  nodup : (closings steps).Nodup
  printed : ∀ call ∈ steps.filterMap call?, ∃ body, call.2.1.printUnit = .ok body
  /-- The batches that were exported and those that are kept are the batches of what was closed, in order. -/
  batches : ∃ drained : List (List Batch), exports steps = drained.map Artifacts.ofBatches ∧
    drained.flatten ++ s.batches = (closings steps).filterMap (batchOf? steps)

theorem Tracks.start : Tracks [] Session.recording where
  mode := rfl
  disciplined := disciplined_start .record Store.empty
  opening_lt := List.forall_mem_nil _
  call_lt := List.forall_mem_nil _
  opened := by simp [Session.recording, opener?, openings]
  stack := List.forall_mem_nil _
  closed := List.forall_mem_nil _
  nodup := .nil
  printed := List.forall_mem_nil _
  batches := ⟨[], rfl, rfl⟩

theorem Tracks.lt_of_recordingOf? {r : Recording} (h : Tracks steps s) (hr : recordingOf? steps id = some r) :
    id < s.nextId := by
  obtain ⟨file, hfile, -⟩ := Option.map_eq_some_iff.1 hr
  exact h.opening_lt _ (mem_openings_of_fileOf? hfile)

theorem Tracks.notMem_closings (h : Tracks steps s) {source : OpenSource} (hsource : source ∈ s.stack) :
    source.id ∉ closings steps :=
  fun hmem => (h.closed _ hmem).1 (List.mem_map_of_mem hsource)

/-- The recording of a source that is opened. -/
theorem Tracks.recordingOf?_opening (h : Tracks steps s) (hopened : step.opened? = some (s.nextId, file))
    (hcall : step.call? = none) :
    recordingOf? (steps ++ [step]) s.nextId = some { file, suppressed := decide (file ∈ s.opened) } := by
  -- The number is new, so nothing was opened under it and nothing was compiled there.
  have hnew : fileOf? steps s.nextId = none := by
    refine Option.eq_none_iff_forall_ne_some.2 fun file' hfile' => ?_
    exact Nat.lt_irrefl _ (h.opening_lt _ (mem_openings_of_fileOf? hfile'))
  have hcalls : calls steps s.nextId = [] := by
    refine List.map_eq_nil_iff.2 (List.filter_eq_nil_iff.2 fun call hmem => ?_)
    have := h.call_lt call hmem
    simp only [decide_eq_true_eq]
    omega
  have hopener : opener? (steps ++ [step]) file ≠ some s.nextId ↔ file ∈ s.opened := by
    rw [opener?_concat hopened, if_pos rfl, h.opened]
    cases hfirst : opener? steps file with
    | none => simp
    | some first =>
      have hlt := h.opening_lt _ (mem_openings_of_opener? hfirst)
      have hne : first ≠ s.nextId := Nat.ne_of_lt hlt
      simp [hne]
  unfold recordingOf?
  rw [fileOf?_concat hopened, hnew, if_pos rfl, Option.none_or, Option.map_some, calls_concat_of_none hcall,
    hcalls]
  simp only [List.mapIdx_nil, hopener]

theorem mem_opened_opening {other : FileId} : other ∈ (s.opening file).opened ↔ other ∈ s.opened ∨ file = other := by
  by_cases hknown : file ∈ s.opened
  · simp only [opening, hknown, if_true]
    exact ⟨.inl, fun h => h.elim id fun heq => heq ▸ hknown⟩
  · simp only [opening, hknown, if_false, List.mem_cons]
    exact ⟨fun h => h.symm.imp id Eq.symm, fun h => h.symm.imp Eq.symm id⟩

/-- A source is opened for recording. -/
theorem Tracks.opens (h : Tracks steps s) (hopened : step.opened? = some (s.nextId, file))
    (hkept : step.kept? = none) (hcall : step.call? = none) (hexported : step.exported? = none)
    (hdisciplined : (s.opening file).Disciplined) : Tracks (steps ++ [step]) (s.opening file) where
  mode := h.mode
  disciplined := hdisciplined
  opening_lt := by
    rw [openings_concat, hopened]
    intro o ho
    obtain ho | ho := List.mem_append.1 ho
    · exact Nat.lt_succ_of_lt (h.opening_lt o ho)
    · obtain rfl : o = (s.nextId, file) := by simpa using ho
      exact Nat.lt_succ_self _
  call_lt := by
    intro call hmem
    have hmem : call ∈ steps.filterMap call? := by simpa [hcall] using hmem
    exact Nat.lt_succ_of_lt (h.call_lt call hmem)
  opened := by
    intro file'
    rw [opener?_concat hopened, mem_opened_opening, h.opened]
    by_cases heq : file = file'
    · cases opener? steps file' <;> simp [heq]
    · simp [heq]
  stack := by
    intro source hsource
    obtain rfl | hsource := List.mem_cons.1 hsource
    · exact ⟨_, h.recordingOf?_opening hopened hcall, rfl⟩
    · obtain ⟨r, hr, hcontext⟩ := h.stack source hsource
      exact ⟨r, recordingOf?_concat_of_opened hopened hcall hr, hcontext⟩
  closed := by
    rw [closings_concat, hkept]
    intro id hid
    obtain ⟨hnotMem, r, hr⟩ := h.closed id (by simpa using hid)
    refine ⟨?_, r, recordingOf?_concat_of_opened hopened hcall hr⟩
    have hne : id ≠ s.nextId := Nat.ne_of_lt (h.lt_of_recordingOf? hr)
    simpa [opening, hne] using hnotMem
  nodup := by
    rw [closings_concat, hkept]
    simpa using h.nodup
  printed := by
    intro call hmem
    exact h.printed call (by simpa [hcall] using hmem)
  batches := by
    obtain ⟨drained, hdrained, hbatches⟩ := h.batches
    refine ⟨drained, by rw [exports_concat, hexported, hdrained]; simp, ?_⟩
    rw [closings_concat, hkept]
    refine hbatches.trans ?_
    rw [Option.toList_none, List.append_nil]
    refine filterMap_batchOf?_congr fun id hid => ?_
    obtain ⟨-, r, hr⟩ := h.closed id hid
    rw [hr, recordingOf?_concat_of_opened hopened hcall hr]

/-- A call that opens and compiles nothing. It may close the source on top of the stack, and it may export. -/
theorem Tracks.settles (h : Tracks steps s) (hopened : step.opened? = none) (hcall : step.call? = none)
    (hmode : t.mode = .record) (hdisciplined : t.Disciplined) (hnext : t.nextId = s.nextId)
    (hknown : t.opened = s.opened) (hstack : t.stack <:+ s.stack)
    (hkept : ∀ id, step.kept? = some id → id ∈ s.stack.map (·.id) ∧ id ∉ t.stack.map (·.id))
    (hbatches : ∃ drained : List (List Batch), step.exported?.toList = drained.map Artifacts.ofBatches ∧
      drained.flatten ++ t.batches = s.batches ++ step.kept?.toList.filterMap (batchOf? steps)) :
    Tracks (steps ++ [step]) t := by
  have hopenings : openings (steps ++ [step]) = openings steps := openings_concat_of_none hopened
  have hrecording (id : Nat) : recordingOf? (steps ++ [step]) id = recordingOf? steps id :=
    recordingOf?_congr hopenings (calls_concat_of_none hcall id)
  have hcalls : (steps ++ [step]).filterMap call? = steps.filterMap call? := by simp [hcall]
  constructor
  case mode => exact hmode
  case disciplined => exact hdisciplined
  case opening_lt => exact hopenings ▸ hnext ▸ h.opening_lt
  case call_lt => exact hcalls ▸ hnext ▸ h.call_lt
  case opened => simpa only [hknown, opener?, hopenings] using h.opened
  case stack =>
    intro source hsource
    rw [hrecording]
    exact h.stack source (hstack.subset hsource)
  case closed =>
    intro id hid
    rw [hrecording]
    rw [closings_concat, List.mem_append, Option.mem_toList] at hid
    obtain hid | hid := hid
    · exact ⟨fun hmem => (h.closed id hid).1 ((hstack.map _).subset hmem), (h.closed id hid).2⟩
    -- What is closed was on the stack until now, so its recording is known.
    · obtain ⟨hmem, hnotMem⟩ := hkept id hid
      obtain ⟨source, hsource, rfl⟩ := List.mem_map.1 hmem
      obtain ⟨r, hr, -⟩ := h.stack source hsource
      exact ⟨hnotMem, r, hr⟩
  case nodup =>
    rw [closings_concat, List.nodup_append]
    refine ⟨h.nodup, by cases step.kept? <;> simp, fun id hid id' hid' heq => ?_⟩
    have hmem := (hkept id' (Option.mem_toList.1 hid')).1
    exact (h.closed id hid).1 (heq ▸ hmem)
  case printed => exact hcalls ▸ h.printed
  case batches =>
    obtain ⟨drained, hdrained, hflatten⟩ := h.batches
    obtain ⟨last, hlast, hrest⟩ := hbatches
    refine ⟨drained ++ last, by rw [exports_concat, hdrained, hlast, List.map_append], ?_⟩
    rw [closings_concat, filterMap_batchOf?_congr fun id _ => hrecording id, List.filterMap_append, ← hflatten,
      List.flatten_append, List.append_assoc, hrest, List.append_assoc]

/-- A unit is recorded in the source on top of the stack. -/
theorem Tracks.records {recording : Recording} {e : Expr} {r : Request} {body : String} (h : Tracks steps s)
    (hstack : s.stack = ⟨id, .recording recording⟩ :: rest) (hbody : e.printUnit = .ok body)
    (hopened : step.opened? = none) (hkept : step.kept? = none) (hcall : step.call? = some (id, e, r))
    (hexported : step.exported? = none)
    (hdisciplined : Disciplined { s with
      stack := ⟨id, .recording (recording.add body r.fullParams r.returns).2⟩ :: rest }) :
    Tracks (steps ++ [step])
      { s with stack := ⟨id, .recording (recording.add body r.fullParams r.returns).2⟩ :: rest } := by
  have hopenings : openings (steps ++ [step]) = openings steps := openings_concat_of_none hopened
  have hclosings : closings (steps ++ [step]) = closings steps := by rw [closings_concat, hkept]; simp
  have htop : ⟨id, .recording recording⟩ ∈ s.stack := hstack ▸ List.mem_cons_self
  have hsub : ∀ source ∈ rest, source ∈ s.stack := fun _ hsource => hstack ▸ List.mem_cons_of_mem _ hsource
  have hcalls : ∀ call ∈ (steps ++ [step]).filterMap call?, call ∈ steps.filterMap call? ∨ call = (id, e, r) := by
    intro call hmem
    rw [List.filterMap_append, List.mem_append] at hmem
    exact hmem.imp_right fun hmem => by simpa [hcall, eq_comm] using hmem
  have hother {other : Nat} (hne : id ≠ other) : recordingOf? (steps ++ [step]) other = recordingOf? steps other :=
    recordingOf?_congr hopenings (calls_concat_of_ne hcall hne)
  have hself : recordingOf? (steps ++ [step]) id = some (recording.add body r.fullParams r.returns).2 := by
    obtain ⟨recording', hrecording, hcontext⟩ := h.stack _ htop
    obtain rfl : recording = recording' := SourceContext.recording.inj hcontext
    exact recordingOf?_concat_of_compiled hopened hcall hbody hrecording
  constructor
  case mode => exact h.mode
  case disciplined => exact hdisciplined
  case opening_lt => exact hopenings ▸ h.opening_lt
  case call_lt =>
    intro call hmem
    obtain hmem | rfl := hcalls call hmem
    · exact h.call_lt call hmem
    · exact h.disciplined.below _ htop
  case opened => simpa only [opener?, hopenings] using h.opened
  case stack =>
    intro source hsource
    obtain rfl | hsource := List.mem_cons.1 hsource
    · exact ⟨_, hself, rfl⟩
    · have hdescending := h.disciplined.descending
      rw [hstack] at hdescending
      -- What lies below the top has a lower number, so nothing is recorded in it.
      have hlt := (List.pairwise_cons.1 hdescending).1 _ (List.mem_map_of_mem hsource)
      rw [hother (Nat.ne_of_gt hlt)]
      exact h.stack source (hsub source hsource)
  case closed =>
    intro id' hid'
    rw [hclosings] at hid'
    have hne : id ≠ id' := fun heq => h.notMem_closings htop (heq ▸ hid')
    rw [hother hne]
    have hclosed := h.closed id' hid'
    rw [hstack] at hclosed
    exact hclosed
  case nodup => exact hclosings ▸ h.nodup
  case printed =>
    intro call hmem
    obtain hmem | rfl := hcalls call hmem
    · exact h.printed call hmem
    · exact ⟨body, hbody⟩
  case batches =>
    obtain ⟨drained, hdrained, hflatten⟩ := h.batches
    refine ⟨drained, by rw [exports_concat, hexported, hdrained]; simp, ?_⟩
    rw [hclosings]
    refine hflatten.trans (filterMap_batchOf?_congr fun id' hid' => (hother fun heq => ?_).symm)
    exact h.notMem_closings htop (heq ▸ hid')

/-- A session stays in the state that its history accounts for. -/
theorem Tracks.moves (h : Tracks steps s) (hmoves : s.Moves act answer t) :
    Tracks (steps ++ [⟨s, act, answer, t⟩]) t := by
  have hdisciplined := hmoves.disciplined h.disciplined
  cases hmoves with
  | @opens _ file hmode hfile =>
    exact h.opens (by simp [opened?, hfile]) (by simp [kept?]) (by simp [call?]) rfl hdisciplined
  | loads hmode => exact absurd (h.mode.symm.trans hmode) (by decide)
  -- The source on top is closed; it is on the stack no more, and its batch is kept if it has one.
  | @leaves _ id context rest keep hstack hclosing =>
    have htop : ⟨id, context⟩ ∈ s.stack := hstack ▸ List.mem_cons_self
    obtain ⟨r, hr, hcontext⟩ := h.stack _ htop
    obtain rfl : context = .recording r := hcontext
    have hcompile : ∀ e r, act ≠ .compile e r := by
      rintro e r rfl
      cases hclosing
    have hdescending := h.disciplined.descending
    rw [hstack] at hdescending
    refine h.settles (by simp [opened?]) (by simp [call?]) h.mode hdisciplined rfl rfl (hstack ▸ List.suffix_cons _ _)
      (fun id' hid' => ?_) ⟨[], rfl, ?_⟩
    · cases keep with
      | false => simp [kept?, hclosing] at hid'
      | true =>
        obtain rfl : id = id' := by simpa [kept?, hclosing] using hid'
        exact ⟨List.mem_map_of_mem htop, fun hmem => Nat.lt_irrefl _ ((List.pairwise_cons.1 hdescending).1 _ hmem)⟩
    · cases keep with
      | false => simp [kept?, hclosing, remainder?]
      | true =>
        have hbatch : batchOf? steps id = r.export? := by
          replace hr : recordingOf? steps id = some r := hr
          rw [batchOf?, hr]
          rfl
        cases hexport : r.export? <;> simp [kept?, hclosing, remainder?, hbatch, hexport]
  | records hmode hstack hbody => exact h.records hstack hbody rfl rfl (by simp [call?, hstack]) rfl hdisciplined
  | handsOut hmode => exact absurd (h.mode.symm.trans hmode) (by decide)
  | exports hmode hstack =>
    refine h.settles rfl rfl h.mode hdisciplined rfl rfl (List.suffix_refl _) (fun id hid => ?_)
      ⟨[s.batches], rfl, ?_⟩
    · cases hid
    · simp [kept?, Act.closing?]
  | stays hopened hrecord hkind =>
    -- Nothing happens while recording only if the call fails or ends a guard that opened nothing.
    have hanswer : (∃ fault, answer = .error fault) ∨ answer = .ok .closed ∧ ∃ ending, act = .finish ending none := by
      cases answer with
      | error fault => exact .inl ⟨fault, rfl⟩
      | ok a => exact .inr ((hrecord a rfl h.mode).imp_left (congrArg _))
    have hprojections : kept? ⟨s, act, answer, s⟩ = none ∧ call? ⟨s, act, answer, s⟩ = none ∧
        exported? ⟨s, act, answer, s⟩ = none := by
      obtain ⟨fault, rfl⟩ | ⟨rfl, ending, rfl⟩ := hanswer
      · simp [kept?, call?, exported?]
      · simp [kept?, call?, exported?, Act.closing?]
    obtain ⟨hkept, hcall, hexported⟩ := hprojections
    refine h.settles (opened?_eq_none hopened) hcall h.mode hdisciplined rfl rfl (List.suffix_refl _)
      (by simp [hkept]) ⟨[], by simp [hexported], by simp [hkept]⟩

/-- Every recording session is in the state that its history accounts for. -/
theorem tracks_history (acts : List Act) :
    Tracks (Session.recording.history acts) (Session.recording.after acts) := by
  induction acts using List.reverseRecOn with
  | nil => exact .start
  | append_singleton acts act ih =>
    rw [history_concat, after_concat]
    exact ih.moves (moves_perform _ _)

end Session

/-! ### Artifacts of batches -/

theorem Recording.export?_eq_some_iff {recording : Recording} {batch : Batch} :
    recording.export? = some batch ↔ recording.suppressed = false ∧ recording.units ≠ [] ∧
      batch = ⟨recording.file, recording.units.map (·.definition),
        recording.units.map fun u => ⟨u.name, u.signature⟩⟩ := by
  unfold export?
  cases recording.suppressed <;> cases recording.units <;> simp [eq_comm]

/-- A source that is not registered gets an entry of its own. -/
theorem Registry.perm_alter {file : FileId} {f : List UnitRef → List UnitRef} {files : List (FileId × List UnitRef)}
    (h : file ∉ files.map Prod.fst) : ((alter file f files).map Prod.fst).Perm (file :: files.map Prod.fst) := by
  induction files with
  | nil => exact .refl _
  | cons entry files ih =>
    obtain ⟨known, refs⟩ := entry
    rw [List.map_cons, List.mem_cons, not_or] at h
    rw [alter, if_neg h.1]
    split
    · exact .refl _
    · exact ((ih h.2).cons known).trans (.swap _ _ _)

theorem Recording.exists_export? (recording : Recording) (hkept : recording.suppressed = false)
    (hunits : recording.units ≠ []) : ∃ batch, recording.export? = some batch ∧ batch.file = recording.file :=
  ⟨_, export?_eq_some_iff.2 ⟨hkept, hunits, rfl⟩, rfl⟩

namespace Artifacts

variable {batches : List Batch} {batch : Batch}

theorem perm_register {files : List (FileId × List UnitRef)} {written : Nat}
    (h : (files.map Prod.fst ++ batches.map (·.file)).Nodup) :
    ((register written batches files).map Prod.fst).Perm (files.map Prod.fst ++ batches.map (·.file)) := by
  -- The entries that are there already and the files to come stay apart in every round.
  induction batches generalizing files written with
  | nil => simp [register]
  | cons b batches ih =>
    have hnew : b.file ∉ files.map Prod.fst := by
      intro hmem
      exact (List.nodup_append.1 h).2.2 _ hmem _ List.mem_cons_self rfl
    have hperm (f : List UnitRef → List UnitRef) :
        ((Registry.alter b.file f files).map Prod.fst ++ batches.map (·.file)).Perm
          (files.map Prod.fst ++ (b :: batches).map (·.file)) :=
      ((Registry.perm_alter hnew).append_right _).trans List.perm_middle.symm
    rw [register]
    exact (ih ((hperm _).nodup_iff.2 h)).trans (hperm _)

/-- If every source has one batch, it has one entry. -/
theorem perm_files_ofBatches (h : (batches.map (·.file)).Nodup) :
    ((ofBatches batches).registry.files.map Prod.fst).Perm (batches.map (·.file)) := perm_register h

/-- Artifacts hold a unit where a reference says. -/
def Places (artifacts : Artifacts) (ref : UnitRef) (unit : RecordedUnit) : Prop :=
  ref.name = unit.name ∧ ref.signature = unit.signature ∧ ∃ index definitions, ref.chunk = chunkFile index ∧
    artifacts.chunks[index]? = some (chunkText definitions) ∧ unit.definition ∈ definitions

theorem map_name_of_places {artifacts : Artifacts} {refs : List UnitRef} {units : List RecordedUnit}
    (h : List.Forall₂ artifacts.Places refs units) : refs.map (·.name) = units.map (·.name) := by
  induction h with
  | nil => rfl
  | cons hplaces _ ih => rw [List.map_cons, List.map_cons, hplaces.1, ih]

theorem paired_of_export? {recording : Recording} (h : recording.export? = some batch) :
    paired batch = recording.units.map fun u => (u.definition, ⟨u.name, u.signature⟩) := by
  obtain ⟨-, -, rfl⟩ := Recording.export?_eq_some_iff.1 h
  exact List.zip_map'

/-- The entry of a source places its units one after the other. -/
theorem forall₂_places {recording : Recording} (hnodup : (batches.map (·.file)).Nodup)
    (hbatch : recording.export? = some batch) (hmem : batch ∈ batches) {refs : List UnitRef}
    (hrefs : (batch.file, refs) ∈ (ofBatches batches).registry.files) :
    List.Forall₂ (ofBatches batches).Places refs recording.units := by
  have hkeys := (perm_files_ofBatches hnodup).nodup_iff.2 hnodup
  obtain ⟨before, after, rfl⟩ := List.append_of_mem hmem
  have hentry : (ofBatches (before ++ batch :: after)).registry.files.lookup batch.file =
      some ((paired batch).mapIdx fun i p => placed (0 + (before.flatMap paired).length + i) p.2) :=
    lookup_register hnodup rfl
  obtain ⟨files, files', hfiles, -⟩ := List.lookup_eq_some_iff.1 hentry
  have hfound : (batch.file, (paired batch).mapIdx fun i p => placed (0 + (before.flatMap paired).length + i) p.2) ∈
      (ofBatches (before ++ batch :: after)).registry.files := by
    rw [hfiles]
    exact List.mem_append_right _ List.mem_cons_self
  obtain rfl : refs = _ := congrArg Prod.snd (List.inj_on_of_nodup_map hkeys hrefs hfound rfl)
  rw [paired_of_export? hbatch, List.forall₂_iff_get]
  refine ⟨by simp, fun i hi hi' => ?_⟩
  -- The unit is found among all functions behind those of the batches before its own.
  have hplace : ((before ++ batch :: after).flatMap fun b =>
      (paired b).map (·.1))[(before.flatMap paired).length + i]? = some recording.units[i].definition := by
    have hlength : (before.flatMap fun b => (paired b).map (·.1)).length = (before.flatMap paired).length := by
      simp [List.length_flatMap]
    rw [List.flatMap_append, List.flatMap_cons, ← hlength, List.getElem?_append_right (Nat.le_add_right _ _),
      Nat.add_sub_cancel_left, paired_of_export? hbatch, List.getElem?_append_left (by simpa using hi')]
    simp [List.getElem?_eq_getElem hi']
  obtain ⟨piece, hpiece, hdefinition⟩ := exists_piece (by decide : 0 < chunkSize) hplace
  refine ⟨by simp [placed], by simp [placed], ((before.flatMap paired).length + i) / chunkSize, piece, ?_, ?_,
    hdefinition⟩
  · simp only [List.get_eq_getElem, List.getElem_mapIdx, placed, Nat.zero_add]
  · change ((pieces chunkSize _).map chunkText)[_]? = _
    rw [List.getElem?_map, hpiece]
    rfl

end Artifacts

namespace Exchange

variable {steps : List Exchange} {id : Nat} {file : FileId} {batch : Batch}

/-- The entries of the registries that were exported. -/
def entries (steps : List Exchange) : List (FileId × List UnitRef) := (exports steps).flatMap (·.registry.files)

/-- A batch comes from the first opening of its source, and something was compiled in it. -/
theorem batchOf?_eq_some (h : batchOf? steps id = some batch) :
    opener? steps batch.file = some id ∧ calls steps id ≠ [] ∧ ∃ recording : Recording,
      recording.units = (calls steps id).mapIdx (RecordedUnit.ofCall batch.file) ∧
        recording.export? = some batch := by
  obtain ⟨recording, hrecording, hexport⟩ := Option.bind_eq_some_iff.1 h
  obtain ⟨file, hfile, rfl⟩ := Option.map_eq_some_iff.1 hrecording
  obtain ⟨hkept, hunits, rfl⟩ := Recording.export?_eq_some_iff.1 hexport
  exact ⟨by simpa using hkept, by simpa using hunits, _, rfl, hexport⟩

/-- A first opening in which something was compiled leaves a batch. -/
theorem exists_batchOf? (hfile : fileOf? steps id = some file) (hopener : opener? steps file = some id)
    (hcalls : calls steps id ≠ []) : ∃ batch, batchOf? steps id = some batch ∧ batch.file = file := by
  have hrecording : recordingOf? steps id =
      some ⟨file, (calls steps id).mapIdx (RecordedUnit.ofCall file), false⟩ := by
    rw [recordingOf?, hfile]
    simp [hopener]
  have hunits : (calls steps id).mapIdx (RecordedUnit.ofCall file) ≠ [] := by simpa using hcalls
  obtain ⟨batch, hbatch, hfile⟩ := Recording.exists_export? ⟨file, _, false⟩ rfl hunits
  exact ⟨batch, by rw [batchOf?, hrecording]; exact hbatch, hfile⟩

end Exchange

namespace Session

open Exchange

variable {s : Session} {steps : List Exchange}

/-- No source leaves two batches. -/
theorem Tracks.nodup_batches (h : Tracks steps s) :
    (((closings steps).filterMap (batchOf? steps)).map (·.file)).Nodup := by
  rw [List.Nodup, List.pairwise_map, List.pairwise_filterMap]
  -- Two batches of one file come from its first opening, and nothing is closed twice.
  refine h.nodup.imp fun hne batch hbatch batch' hbatch' heq => hne ?_
  have hopener := (batchOf?_eq_some hbatch).1
  have hopener' := (batchOf?_eq_some hbatch').1
  rw [heq, hopener'] at hopener
  exact (Option.some.inj hopener).symm

/-- The entries that were exported are those of the batches that are no longer kept. -/
theorem Tracks.exists_drained (h : Tracks steps s) :
    ∃ drained : List (List Batch), exports steps = drained.map Artifacts.ofBatches ∧
      drained.flatten ++ s.batches = (closings steps).filterMap (batchOf? steps) ∧
      (∀ batches ∈ drained, (batches.map (·.file)).Nodup) ∧
      ((entries steps).map Prod.fst).Perm (drained.flatten.map (·.file)) := by
  obtain ⟨drained, hexports, hbatches⟩ := h.batches
  have hnodup : ∀ batches ∈ drained, (batches.map (·.file)).Nodup := by
    intro batches hmem
    have hsub : List.Sublist batches (drained.flatten ++ s.batches) :=
      (List.sublist_flatten_of_mem hmem).trans (List.sublist_append_left _ _)
    exact h.nodup_batches.sublist ((hbatches ▸ hsub).map _)
  refine ⟨drained, hexports, hbatches, hnodup, ?_⟩
  rw [entries, hexports, List.flatMap_map, List.map_flatMap, List.map_flatten, ← List.flatMap_def]
  exact List.Perm.flatMap_left _ fun batches hmem => Artifacts.perm_files_ofBatches (hnodup batches hmem)

theorem Tracks.nodup_entries (h : Tracks steps s) : ((entries steps).map Prod.fst).Nodup := by
  obtain ⟨drained, -, hbatches, -, hperm⟩ := h.exists_drained
  have hsub : List.Sublist drained.flatten (drained.flatten ++ s.batches) := List.sublist_append_left _ _
  exact hperm.nodup_iff.2 (h.nodup_batches.sublist ((hbatches ▸ hsub).map _))

/-- The entry of a source holds what was compiled in its first opening. -/
theorem Tracks.exists_places (h : Tracks steps s) {artifacts : Artifacts} (hartifacts : artifacts ∈ exports steps)
    {entry : FileId × List UnitRef} (hentry : entry ∈ artifacts.registry.files) :
    ∃ id, opener? steps entry.1 = some id ∧
      List.Forall₂ artifacts.Places entry.2 ((calls steps id).mapIdx (RecordedUnit.ofCall entry.1)) := by
  obtain ⟨drained, hexports, hbatches, hnodup, -⟩ := h.exists_drained
  rw [hexports] at hartifacts
  obtain ⟨batches, hmem, rfl⟩ := List.mem_map.1 hartifacts
  have hkey := ((Artifacts.perm_files_ofBatches (hnodup batches hmem)).mem_iff).1 (List.mem_map_of_mem hentry)
  obtain ⟨batch, hbatch, hfile⟩ := List.mem_map.1 hkey
  have hleft : batch ∈ (closings steps).filterMap (batchOf? steps) := by
    rw [← hbatches]
    exact List.mem_append_left _ (List.mem_flatten_of_mem hmem hbatch)
  obtain ⟨id, -, hid⟩ := List.mem_filterMap.1 hleft
  obtain ⟨hopener, -, recording, hunits, hexport⟩ := batchOf?_eq_some hid
  obtain ⟨file, refs⟩ := entry
  obtain rfl : batch.file = file := hfile
  exact ⟨id, hopener, hunits ▸ Artifacts.forall₂_places (hnodup batches hmem) hexport hbatch hentry⟩

/-- The units of an entry are named by its source and their places. -/
theorem Tracks.names_entries (h : Tracks steps s) {entry : FileId × List UnitRef} (hentry : entry ∈ entries steps) :
    ∃ n, entry.2.map (·.name) = (List.range n).map (Recording.unitName entry.1) := by
  obtain ⟨artifacts, hartifacts, hmem⟩ := List.mem_flatMap.1 hentry
  obtain ⟨id, -, hplaces⟩ := h.exists_places hartifacts hmem
  have hnames : ((calls steps id).mapIdx (RecordedUnit.ofCall entry.1)).map (·.name) =
      (List.range (calls steps id).length).map (Recording.unitName entry.1) := by
    refine List.ext_getElem (by simp) fun i hi hi' => ?_
    simp [RecordedUnit.ofCall]
  exact ⟨_, (Artifacts.map_name_of_places hplaces).trans hnames⟩

theorem Tracks.nodup_names (h : Tracks steps s) :
    ((entries steps).flatMap fun entry => entry.2.map (·.name)).Nodup := by
  rw [List.nodup_flatMap]
  constructor
  · intro entry hentry
    obtain ⟨n, hn⟩ := h.names_entries hentry
    rw [hn]
    exact List.nodup_range.map fun i j hij => (Recording.unitName_injective hij).2
  -- A unit name determines its file, so names of two entries differ as their files do.
  · have hfiles := List.pairwise_map.1 h.nodup_entries
    refine hfiles.imp_of_mem fun {entry entry'} hentry hentry' hne => ?_
    obtain ⟨n, hn⟩ := h.names_entries hentry
    obtain ⟨n', hn'⟩ := h.names_entries hentry'
    simp only [Function.onFun, hn, hn']
    intro name hname hname'
    obtain ⟨i, -, rfl⟩ := List.mem_map.1 hname
    obtain ⟨j, -, hj⟩ := List.mem_map.1 hname'
    exact hne (Recording.unitName_injective hj).1.symm

/-- What the exports of a recording session contain. -/
structure ExportsOnce (acts : List Act) : Prop where
  /-- No source is exported twice. -/
  files : ((entries (recording.history acts)).map Prod.fst).Nodup
  /-- No two units have the same name. -/
  names : ((entries (recording.history acts)).flatMap fun entry => entry.2.map (·.name)).Nodup
  /-- The units of a source are what was compiled while its first opening was on top of the stack. -/
  units : ∀ artifacts ∈ exports (recording.history acts), ∀ entry ∈ artifacts.registry.files,
    ∃ id, opener? (recording.history acts) entry.1 = some id ∧
      List.Forall₂ artifacts.Places entry.2 ((calls (recording.history acts) id).mapIdx (RecordedUnit.ofCall entry.1))
  /-- All of it was printed. -/
  printed : ∀ id, ∀ call ∈ calls (recording.history acts) id, ∃ body, call.1.printUnit = .ok body
  /-- An export succeeds when no source is open. -/
  exports_iff : (∃ artifacts, ((recording.after acts).perform .export).1 = .ok (.exported (some artifacts))) ↔
    (recording.after acts).stack = []
  /-- What has been exported after an export are the sources whose first opening was closed with a unit. -/
  exported_iff : (recording.after acts).stack = [] → ∀ file,
    file ∈ (entries (recording.history (acts ++ [.export]))).map Prod.fst ↔
      ∃ id, opener? (recording.history acts) file = some id ∧ id ∈ closings (recording.history acts) ∧
        calls (recording.history acts) id ≠ []

theorem perform_export (hmode : s.mode = .record) (hstack : s.stack = []) :
    s.perform .export = (.ok (.exported (some (Artifacts.ofBatches s.batches))), { s with batches := [] }) := by
  rw [perform, export_recording hmode hstack]
  rfl

theorem exists_perform_export_iff (hmode : s.mode = .record) :
    (∃ artifacts, (s.perform .export).1 = .ok (.exported (some artifacts))) ↔ s.stack = [] := by
  constructor
  · rintro ⟨artifacts, h⟩
    by_contra hstack
    have hexport : s.export = .error (.contextsStillOpen s.depth) := by simp [«export», hmode, hstack]
    rw [perform, hexport] at h
    cases h
  · intro hstack
    exact ⟨_, congrArg Prod.fst (perform_export hmode hstack)⟩

/-- The source of a number is the one that was opened under it. -/
theorem fileOf?_of_opener? {acts : List Act} {id : Nat} {file : FileId}
    (h : opener? (recording.history acts) file = some id) : fileOf? (recording.history acts) id = some file := by
  have hmem := mem_openings_of_opener? h
  have hnodup : ((openings (recording.history acts)).map Prod.fst).Nodup := by
    rw [openings_history rfl]
    exact List.nodup_range
  have hsome : ((openings (recording.history acts)).find? fun o => o.1 = id).isSome :=
    List.find?_isSome.2 ⟨_, hmem, by simp⟩
  obtain ⟨o, ho⟩ := Option.isSome_iff_exists.1 hsome
  have hid : o.1 = id := by simpa using List.find?_some ho
  obtain rfl := List.inj_on_of_nodup_map hnodup (List.mem_of_find?_eq_some ho) hmem hid
  rw [fileOf?, ho]
  rfl

/-- Every source is exported once, with what its first opening holds, whatever is done with a session. -/
theorem exportsOnce (acts : List Act) : ExportsOnce acts := by
  have htracks := tracks_history acts
  constructor
  case files => exact htracks.nodup_entries
  case names => exact htracks.nodup_names
  case units => exact fun artifacts hartifacts entry hentry => htracks.exists_places hartifacts hentry
  case printed =>
    intro id call hmem
    obtain ⟨⟨id', call'⟩, hmem', rfl⟩ := List.mem_map.1 hmem
    exact htracks.printed _ (List.mem_of_mem_filter hmem')
  case exports_iff => exact exists_perform_export_iff htracks.mode
  case exported_iff =>
    intro hstack file
    have hexport := perform_export htracks.mode hstack
    obtain ⟨step, hsteps, hopened, hkept, hcall⟩ : ∃ step : Exchange,
        recording.history (acts ++ [.export]) = recording.history acts ++ [step] ∧ step.opened? = none ∧
          step.kept? = none ∧ step.call? = none :=
      ⟨_, history_concat recording acts .export, by rw [Session.step, hexport]; exact ⟨rfl, rfl, rfl⟩⟩
    -- After one more export nothing is kept back, so the batches that were drained are all there are.
    have htracks' := tracks_history (acts ++ [.export])
    rw [hsteps, after_concat, hexport] at htracks'
    rw [hsteps]
    obtain ⟨drained, -, hbatches, -, hperm⟩ := htracks'.exists_drained
    rw [List.append_nil] at hbatches
    have hopenings : openings (recording.history acts ++ [step]) = openings (recording.history acts) :=
      openings_concat_of_none hopened
    have hclosings : closings (recording.history acts ++ [step]) = closings (recording.history acts) := by
      rw [closings_concat, hkept]
      exact List.append_nil _
    have hrecording (id : Nat) :
        recordingOf? (recording.history acts ++ [step]) id = recordingOf? (recording.history acts) id :=
      recordingOf?_congr hopenings (calls_concat_of_none hcall id)
    rw [hperm.mem_iff, hbatches, hclosings, filterMap_batchOf?_congr fun id _ => hrecording id, List.mem_map]
    constructor
    · rintro ⟨batch, hmem, rfl⟩
      obtain ⟨id, hid, hbatch⟩ := List.mem_filterMap.1 hmem
      obtain ⟨hopener, hcalls, -⟩ := batchOf?_eq_some hbatch
      exact ⟨id, hopener, hid, hcalls⟩
    · rintro ⟨id, hopener, hid, hcalls⟩
      obtain ⟨batch, hbatch, hfile⟩ := exists_batchOf? (fileOf?_of_opener? hopener) hopener hcalls
      exact ⟨batch, List.mem_filterMap.2 ⟨id, hid, hbatch⟩, hfile⟩

/-- A source is opened inside another one, and again later. Both are exported once, with the units of their first
openings; what is compiled in a later opening is lost, and so is what is discarded. -/
example :
    let unit : Act := .compile (.const (.int 1)) ⟨[], .int, []⟩
    let steps := recording.history [.push ⟨"a"⟩, unit, .push ⟨"b"⟩, unit, .pop 1, unit, .pop 0, .push ⟨"b"⟩, unit,
      .finish .close (some 2), .export, .push ⟨"c"⟩, unit, .finish .discard (some 3), .export]
    (exports steps).map (fun artifacts => artifacts.registry.files.map fun entry => (entry.1.text, entry.2.map (·.name))) =
      [[("a", ["a_0", "a_1"]), ("b", ["b_0"])], []] := by
  decide +kernel

end Session

end Barrage
