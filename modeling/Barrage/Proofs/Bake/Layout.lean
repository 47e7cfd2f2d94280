import Mathlib.Data.String.Basic
import Mathlib.Order.Basic
import Barrage.Proofs.Bake.Loading

/-!
# The layout of artifacts

Artifacts are written in one pass over the batches. It counts the units that have been written, starts a chunk
whenever the count has reached a multiple of three hundred, appends the function of a unit to the chunk of its
place, and adds a reference to that chunk to the entry of the source. A batch may end in the middle of a chunk, span
several of them or be empty, and a source may come in several batches.

Whatever the batches are, their units lie in the chunks as they lie in one long list. The chunks are the pieces of
that list, and the entry of a source is what the list holds for it.

## Main definitions

* `Artifacts.Writing` — the state of the pass, with one step for a unit and one for a batch
* `Artifacts.units` — the units of some batches in one list
* `Artifacts.LaidOut` — artifacts in which each unit is where its place in that list says

## Main results

* `Artifacts.pieces_concat` — one more entry is added to the last piece, or starts one
* `Artifacts.ofBatches_eq_foldl` — the artifacts of some batches are what the pass writes
* `Artifacts.laidOut_ofBatches` — they are laid out
-/

namespace Barrage

/-! ### Pieces -/

namespace Artifacts

variable {α : Type} {size : Nat} (hsize : 0 < size)

include hsize

theorem lt_length_pieces_iff (l : List α) (k : Nat) : k < (pieces size l).length ↔ k * size < l.length := by
  rw [← not_iff_not, Nat.not_lt, ← List.getElem?_eq_none_iff, getElem?_pieces hsize]
  split <;> simp_all

/-- There are as many pieces as are needed. -/
theorem length_pieces (l : List α) : (pieces size l).length = (l.length + (size - 1)) / size := by
  -- There is a piece behind `k` others exactly if they do not hold the whole list.
  refine eq_of_forall_lt_iff fun k => ?_
  have hcount : k < (l.length + (size - 1)) / size ↔ (k + 1) * size ≤ l.length + (size - 1) :=
    Nat.le_div_iff_mul_le hsize
  rw [lt_length_pieces_iff hsize, hcount, Nat.succ_mul]
  omega

/-- The pieces hold the list, in order. -/
theorem flatten_pieces (l : List α) : (pieces size l).flatten = l := by
  fun_induction pieces size l with
  | case1 l hempty =>
    obtain hnil | hzero := hempty
    · rw [List.isEmpty_iff.1 hnil, List.flatten_nil]
    · omega
  | case2 l hne ih => rw [List.flatten_cons, ih, List.take_append_drop]

theorem length_piece {l piece : List α} {k : Nat} (h : (pieces size l)[k]? = some piece) :
    k * size < l.length ∧ piece.length = min size (l.length - k * size) := by
  rw [getElem?_pieces hsize] at h
  split at h
  · rename_i hk
    cases h
    exact ⟨hk, by rw [List.length_take, List.length_drop]⟩
  · cases h

/-- The entries of a list are found by their pieces and their places in these. -/
theorem getElem?_piece (l : List α) (n : Nat) : (pieces size l)[n / size]?.bind (·[n % size]?) = l[n]? := by
  have hdiv : n / size * size + n % size = n := Nat.div_add_mod' n size
  have hmod : n % size < size := Nat.mod_lt n hsize
  rw [getElem?_pieces hsize]
  split
  · rw [Option.bind_some, List.getElem?_take_of_lt hmod, List.getElem?_drop, hdiv]
  · exact (List.getElem?_eq_none (by omega)).symm

/-- One more entry is added to the last piece, or starts one if that is full. -/
theorem pieces_concat (l : List α) (a : α) :
    pieces size (l ++ [a]) = (if (pieces size l).length = l.length / size then pieces size l ++ [[]]
      else pieces size l).modify (l.length / size) (· ++ [a]) := by
  fun_induction pieces size l with
  | case1 l hempty =>
    obtain rfl : l = [] := hempty.elim List.isEmpty_iff.1 fun hzero => absurd hzero (Nat.ne_of_gt hsize)
    rw [List.nil_append, pieces_of_length_le (List.cons_ne_nil a []) hsize]
    simp
  | case2 l hne ih =>
    obtain hlt | hle := Nat.lt_or_ge l.length size
    · -- The list is one piece, which has room for the entry.
      have hlength : (l ++ [a]).length ≤ size := by
        rw [List.length_append]
        exact hlt
      rw [pieces_of_length_le (by simp) hlength, List.take_of_length_le hlt.le, List.drop_of_length_le hlt.le,
        Nat.div_eq_of_lt hlt]
      simp [pieces]
    · have hdiv : l.length / size = (l.drop size).length / size + 1 := by
        rw [List.length_drop, ← Nat.sub_add_cancel hle, Nat.add_div_right _ hsize, Nat.add_sub_cancel]
      rw [hdiv, pieces, dif_neg (by simp [Nat.ne_of_gt hsize]), List.take_append_of_le_length hle,
        List.drop_append_of_le_length hle, ih, List.length_cons]
      simp only [Nat.add_right_cancel_iff]
      split
      · rw [List.cons_append, List.modify_succ_cons]
      · rw [List.modify_succ_cons]

end Artifacts

/-! ### Sorted entries -/

namespace Registry

variable {file other : FileId} {files : List (FileId × List UnitRef)} (f g : List UnitRef → List UnitRef)

/-- Entries in the order of their ids, one for each. -/
def Sorted (files : List (FileId × List UnitRef)) : Prop := files.Pairwise fun a b => a.1.text < b.1.text

theorem mem_alter_iff : other ∈ (alter file f files).map Prod.fst ↔ other = file ∨ other ∈ files.map Prod.fst := by
  induction files with
  | nil => simp [alter]
  | cons entry files ih =>
    obtain ⟨known, refs⟩ := entry
    rw [alter]
    split
    · rename_i heq
      simp [heq]
    · split
      · simp
      · rw [List.map_cons, List.mem_cons, ih, List.map_cons, List.mem_cons]
        tauto

theorem Sorted.alter (h : Sorted files) : Sorted (alter file f files) := by
  induction files with
  | nil => exact List.pairwise_singleton _ _
  | cons entry files ih =>
    obtain ⟨known, refs⟩ := entry
    obtain ⟨hknown, hfiles⟩ := List.pairwise_cons.1 h
    rw [Registry.alter]
    split
    · rename_i heq
      exact List.pairwise_cons.2 ⟨heq ▸ hknown, hfiles⟩
    · rename_i hne
      split
      · rename_i hlt
        exact List.pairwise_cons.2 ⟨List.forall_mem_cons.2 ⟨hlt, fun e he => hlt.trans (hknown e he)⟩, h⟩
      · rename_i hge
        have htext : known.text < file.text := by
          refine lt_of_le_of_ne (not_lt.1 hge) fun heq => hne ?_
          exact congrArg FileId.mk heq.symm
        refine List.pairwise_cons.2 ⟨fun e he => ?_, ih hfiles⟩
        rcases (mem_alter_iff f).1 (List.mem_map_of_mem he) with heq | hmem
        · exact heq ▸ htext
        · obtain ⟨e', he', heq⟩ := List.mem_map.1 hmem
          exact heq ▸ hknown e' he'

/-- The entry of a source after it was changed. -/
theorem Sorted.lookup_alter (h : Sorted files) :
    (Registry.alter file f files).lookup file = some (f ((files.lookup file).getD [])) := by
  induction files with
  | nil => simp [Registry.alter]
  | cons entry files ih =>
    obtain ⟨known, refs⟩ := entry
    obtain ⟨hknown, hfiles⟩ := List.pairwise_cons.1 h
    by_cases heq : file = known
    · subst heq
      simp [Registry.alter]
    · have hself : (file == known) = false := by simpa using heq
      by_cases hlt : file.text < known.text
      · -- All entries stand behind the source, so it has none.
        have hnone : files.lookup file = none := by
          refine List.lookup_eq_none_iff.2 fun e he => ?_
          have hne : file ≠ e.1 := fun hfile => absurd (hlt.trans (hknown e he)) (by rw [← hfile]; exact lt_irrefl _)
          simpa using hne
        simp [Registry.alter, heq, hlt, List.lookup_cons, hself, hnone]
      · simp only [Registry.alter, if_neg heq, if_neg hlt, List.lookup_cons, hself, ih hfiles]

theorem alter_alter : alter file f (alter file g files) = alter file (fun refs => f (g refs)) files := by
  induction files with
  | nil => simp [alter]
  | cons entry files ih =>
    obtain ⟨known, refs⟩ := entry
    by_cases heq : file = known
    · simp [alter, heq]
    · by_cases hlt : file.text < known.text
      · simp [alter, heq, hlt]
      · simp [alter, heq, hlt, ih]

theorem unitCount_eq_sum (r : Registry) : r.unitCount = (r.files.map fun entry => entry.2.length).sum := by
  have hfold : ∀ (files : List (FileId × List UnitRef)) (n : Nat),
      files.foldl (fun n entry => n + entry.2.length) n = n + (files.map fun entry => entry.2.length).sum := by
    intro files
    induction files with
    | nil => exact fun n => rfl
    | cons entry files ih => exact fun n => by rw [List.foldl_cons, ih, List.map_cons, List.sum_cons, Nat.add_assoc]
  rw [unitCount, hfold, Nat.zero_add]

/-- References that are added to an entry are counted. -/
theorem sum_alter (refs : List UnitRef) :
    ((alter file (· ++ refs) files).map fun entry => entry.2.length).sum =
      (files.map fun entry => entry.2.length).sum + refs.length := by
  induction files with
  | nil => simp [alter]
  | cons entry files ih =>
    rw [alter]
    split
    · simp only [List.map_cons, List.sum_cons, List.length_append]
      omega
    · split
      · simp only [List.map_cons, List.sum_cons, List.nil_append]
        omega
      · simp only [List.map_cons, List.sum_cons, ih]
        omega

end Registry

/-! ### The registry of some batches -/

namespace Artifacts

open Registry

/-- The units of some batches in one list, each with the source it belongs to. -/
def units (batches : List Batch) : List (FileId × String × TypedRef) :=
  batches.flatMap fun batch => (paired batch).map fun p => (batch.file, p)

/-- The references to the units of a source, given how many units stand before the list. -/
def references (written : Nat) (file : FileId) (us : List (FileId × String × TypedRef)) : List UnitRef :=
  ((us.mapIdx fun j u => (u.1, placed (written + j) u.2.2)).filter fun entry => entry.1 = file).map Prod.snd

variable {batches : List Batch} {file : FileId} {files : List (FileId × List UnitRef)} {written : Nat}

theorem references_append (us vs : List (FileId × String × TypedRef)) :
    references written file (us ++ vs) = references written file us ++ references (written + us.length) file vs := by
  simp only [references, List.mapIdx_append, List.filter_append, List.map_append, Nat.add_assoc, Nat.add_comm us.length]

theorem references_batch (written : Nat) (file other : FileId) (ps : List (String × TypedRef)) :
    references written file (ps.map fun p => (other, p)) =
      if other = file then ps.mapIdx fun i p => placed (written + i) p.2 else [] := by
  have hpairs : ((ps.map fun p => (other, p)).mapIdx fun j u => (u.1, placed (written + j) u.2.2)) =
      (ps.mapIdx fun i p => placed (written + i) p.2).map fun ref => (other, ref) := by
    refine List.ext_getElem? fun i => ?_
    simp only [List.getElem?_mapIdx, List.getElem?_map, Option.map_map]
    rfl
  rw [references, hpairs]
  split
  · rename_i heq
    rw [List.filter_eq_self.2 (List.forall_mem_map.2 fun _ _ => by simpa using heq), List.map_map]
    exact List.map_id _
  · rename_i hne
    rw [List.filter_eq_nil_iff.2 (List.forall_mem_map.2 fun _ _ => by simpa using hne), List.map_nil]

/-- A source that no batch is of has no references. -/
theorem references_of_notMem (written : Nat) (h : file ∉ batches.map (·.file)) :
    references written file (units batches) = [] := by
  have hother : ∀ u ∈ units batches, u.1 ≠ file := by
    intro u hu
    obtain ⟨batch, hbatch, hu⟩ := List.mem_flatMap.1 hu
    obtain ⟨p, -, rfl⟩ := List.mem_map.1 hu
    exact fun heq => h (heq ▸ List.mem_map_of_mem hbatch)
  rw [references, List.filter_eq_nil_iff.2, List.map_nil]
  intro entry hentry
  obtain ⟨j, hj, rfl⟩ := List.mem_mapIdx.1 hentry
  simpa using hother _ (List.getElem_mem hj)

theorem sorted_register (h : Sorted files) : Sorted (register written batches files) := by
  induction batches generalizing files written with
  | nil => exact h
  | cons batch batches ih => exact ih (h.alter _)

theorem mem_register_iff : file ∈ (register written batches files).map Prod.fst ↔
    file ∈ files.map Prod.fst ∨ file ∈ batches.map (·.file) := by
  induction batches generalizing files written with
  | nil => simp [register]
  | cons batch batches ih =>
    rw [register, ih, mem_alter_iff, List.map_cons, List.mem_cons]
    tauto

theorem sum_register : ((register written batches files).map fun entry => entry.2.length).sum =
    (files.map fun entry => entry.2.length).sum + (units batches).length := by
  induction batches generalizing files written with
  | nil => rfl
  | cons batch batches ih =>
    have hunits : units (batch :: batches) = (paired batch).map (fun p => (batch.file, p)) ++ units batches := rfl
    rw [register, ih, sum_alter, hunits, List.length_append, List.length_map, List.length_mapIdx, Nat.add_assoc]

/-- The entry of a source lists its units over all batches, behind those it listed before. -/
theorem lookup_register_sorted (h : Sorted files) : (register written batches files).lookup file =
    if file ∈ batches.map (·.file) then
      some ((files.lookup file).getD [] ++ references written file (units batches))
    else files.lookup file := by
  induction batches generalizing files written with
  | nil => rfl
  | cons batch batches ih =>
    have hunits : units (batch :: batches) = (paired batch).map (fun p => (batch.file, p)) ++ units batches := rfl
    rw [register, ih (h.alter _), hunits, references_append, references_batch, List.length_map, List.length_mapIdx,
      List.map_cons]
    by_cases heq : batch.file = file
    · subst heq
      -- Later batches of the source add to the entry that this one has changed.
      rw [if_pos rfl, if_pos List.mem_cons_self, h.lookup_alter, Option.getD_some, List.append_assoc]
      split
      · rfl
      · rename_i hlater
        rw [references_of_notMem _ hlater, List.append_nil]
    · rw [if_neg heq, List.nil_append, lookup_alter_of_ne _ (Ne.symm heq)]
      simp [Ne.symm heq]

/-! ### One pass -/

/-- What has been written so far: the texts of the chunks, the entries of the sources, and the number of units. -/
structure Writing where
  chunks : List String := []
  files : List (FileId × List UnitRef) := []
  written : Nat := 0

namespace Writing

/-- Writes a unit of a source. It goes to the chunk of its place, which is started if it does not exist yet. -/
def addUnit (file : FileId) (w : Writing) (unit : String × TypedRef) : Writing :=
  let index := w.written / chunkSize
  let chunks := if w.chunks.length = index then w.chunks ++ [chunkHeader] else w.chunks
  { chunks := chunks.modify index fun text => text ++ "\n" ++ unit.1 ++ "\n"
    files := alter file (· ++ [placed w.written unit.2]) w.files
    written := w.written + 1 }

/-- Writes a batch. Its source has an entry even if there are no units. -/
def addBatch (w : Writing) (batch : Batch) : Writing :=
  (paired batch).foldl (addUnit batch.file) { w with files := alter batch.file (fun refs => refs) w.files }

/-- The chunks that have been written hold some functions. -/
structure Holds (w : Writing) (definitions : List String) : Prop where
  chunks : w.chunks = (pieces chunkSize definitions).map chunkText
  written : w.written = definitions.length

variable {w : Writing} {definitions : List String}

theorem chunkText_concat (definitions : List String) (d : String) :
    chunkText (definitions ++ [d]) = chunkText definitions ++ "\n" ++ d ++ "\n" := by
  simp [chunkText, String.append_assoc]

/-- The function of a unit goes to the end of the chunks. -/
theorem Holds.addUnit (h : w.Holds definitions) (file : FileId) (unit : String × TypedRef) :
    (w.addUnit file unit).Holds (definitions ++ [unit.1]) where
  chunks := by
    have hmodify : ∀ (ps : List (List String)) (k : Nat), (ps.modify k (· ++ [unit.1])).map chunkText =
        (ps.map chunkText).modify k fun text => text ++ "\n" ++ unit.1 ++ "\n" := by
      intro ps k
      refine List.ext_getElem? fun i => ?_
      simp only [List.getElem?_map, List.getElem?_modify]
      cases ps[i]? with
      | none => rfl
      | some definitions => by_cases hi : k = i <;> simp [hi, chunkText_concat]
    -- The chunk of the next place is the last one, or a new one if that is full.
    rw [pieces_concat (by decide), hmodify]
    simp only [Writing.addUnit, h.chunks, h.written, List.length_map]
    split
    · rw [List.map_append]
      rfl
    · rfl
  written := by rw [Writing.addUnit, h.written, List.length_append, List.length_singleton]

theorem Holds.addUnits (h : w.Holds definitions) (file : FileId) (ps : List (String × TypedRef)) :
    (ps.foldl (Writing.addUnit file) w).Holds (definitions ++ ps.map Prod.fst) := by
  induction ps generalizing w definitions with
  | nil => simpa using h
  | cons p ps ih => simpa using ih (h.addUnit file p)

/-- The references to the units of a batch are added one after the other. -/
theorem files_addUnits {files : List (FileId × List UnitRef)} {f : List UnitRef → List UnitRef} (file : FileId)
    (ps : List (String × TypedRef)) (hw : w.files = alter file f files) :
    (ps.foldl (addUnit file) w).files =
      alter file (fun refs => f refs ++ ps.mapIdx fun i p => placed (w.written + i) p.2) files := by
  induction ps generalizing w f with
  | nil => simpa using hw
  | cons p ps ih =>
    have hfiles : (w.addUnit file p).files = alter file (fun refs => f refs ++ [placed w.written p.2]) files := by
      rw [addUnit, hw, alter_alter]
    rw [List.foldl_cons, ih hfiles, List.mapIdx_cons]
    simp [addUnit, Nat.add_assoc, Nat.add_comm 1]

/-- What is written of a batch is what is registered of it, and its functions go to the end of the chunks. -/
theorem Holds.addBatch (h : w.Holds definitions) (batch : Batch) :
    (w.addBatch batch).Holds (definitions ++ (paired batch).map Prod.fst) ∧
      (w.addBatch batch).files = alter batch.file
        (· ++ (paired batch).mapIdx fun i p => placed (w.written + i) p.2) w.files := by
  -- The entry of the source is made before its first unit, which leaves the chunks alone.
  have hentered : Holds { w with files := alter batch.file (fun refs => refs) w.files } definitions :=
    ⟨h.chunks, h.written⟩
  exact ⟨hentered.addUnits _ _, files_addUnits _ _ rfl⟩

/-- Writing some batches is registering them and filling chunks with their functions. -/
theorem Holds.addBatches (h : w.Holds definitions) (batches : List Batch) :
    (batches.foldl Writing.addBatch w).Holds (definitions ++ batches.flatMap fun b => (paired b).map Prod.fst) ∧
      (batches.foldl Writing.addBatch w).files = register w.written batches w.files := by
  induction batches generalizing w definitions with
  | nil => exact ⟨by simpa using h, rfl⟩
  | cons batch batches ih =>
    obtain ⟨hchunks, hfiles⟩ := h.addBatch batch
    obtain ⟨hchunks', hfiles'⟩ := ih hchunks
    refine ⟨by simpa using hchunks', ?_⟩
    have hwritten : (w.addBatch batch).written = w.written + (paired batch).length := by
      rw [hchunks.written, h.written, List.length_append, List.length_map]
    rw [List.foldl_cons, hfiles', hfiles, hwritten, register, List.length_mapIdx]

end Writing

/-- The artifacts of some batches are what is written in one pass. -/
theorem ofBatches_eq_foldl (batches : List Batch) : ofBatches batches =
    ⟨(batches.foldl Writing.addBatch {}).chunks, ⟨currentVersion, (batches.foldl Writing.addBatch {}).files⟩⟩ := by
  have hstart : Writing.Holds {} [] := ⟨by simp [pieces], rfl⟩
  obtain ⟨hchunks, hfiles⟩ := hstart.addBatches batches
  rw [hchunks.chunks, hfiles]
  rfl

/-! ### The layout -/

/-- Artifacts in which the units of some batches lie as in one list: each in the chunk that its place in the list
leads to, and with a reference to that chunk in the entry of its source. -/
structure LaidOut (batches : List Batch) (artifacts : Artifacts) : Prop where
  /-- There are as many chunks as are needed for three hundred functions each. -/
  count : artifacts.chunks.length = ((units batches).length + 299) / 300
  /-- The chunks hold the functions in order. All are full except for the last, and none is empty. -/
  chunks : ∃ groups : List (List String), artifacts.chunks = groups.map chunkText ∧
    groups.flatten = (units batches).map (fun u => u.2.1) ∧
    (∀ k group, groups[k]? = some group → group ≠ [] ∧ group.length ≤ 300 ∧
      (k + 1 < groups.length → group.length = 300)) ∧
    ∀ j u, (units batches)[j]? = some u → groups[j / 300]?.bind (·[j % 300]?) = some u.2.1
  /-- The entry of a source lists its units over all batches in order, each with the chunk of its place. -/
  entries : ∀ file, artifacts.registry.units? file =
    if file ∈ batches.map (·.file) then
      some ((((units batches).mapIdx fun j u =>
        (u.1, (⟨u.2.2.name, chunkFile (j / 300), u.2.2.signature⟩ : UnitRef))).filter
          fun entry => entry.1 = file).map Prod.snd)
    else none
  /-- The sources of the batches have an entry each, in the order of their ids, and no other source has one. -/
  keys : artifacts.registry.files.Pairwise (fun a b => a.1.text < b.1.text) ∧
    ∀ file, file ∈ artifacts.registry.files.map Prod.fst ↔ file ∈ batches.map (·.file)
  unitCount : artifacts.registry.unitCount = (units batches).length

/-- The artifacts of some batches are laid out. -/
theorem laidOut_ofBatches (batches : List Batch) : LaidOut batches (ofBatches batches) := by
  have hsize : 0 < chunkSize := by decide
  have hdefinitions : (batches.flatMap fun b => (paired b).map (·.1)) = (units batches).map fun u => u.2.1 := by
    rw [units, List.map_flatMap]
    simp only [List.map_map, Function.comp_def]
  have hchunks : (ofBatches batches).chunks =
      (pieces chunkSize ((units batches).map fun u => u.2.1)).map chunkText := by
    rw [ofBatches, hdefinitions]
  have hfiles : (ofBatches batches).registry.files = register 0 batches [] := rfl
  constructor
  case count =>
    rw [hchunks, List.length_map, length_pieces hsize, List.length_map]
    rfl
  case chunks =>
    refine ⟨_, hchunks, flatten_pieces hsize _, fun k group hgroup => ?_, fun j u hu => ?_⟩
    -- A piece that another one follows has all of its places filled.
    · obtain ⟨hk, hlength⟩ := length_piece hsize hgroup
      have hmore := lt_length_pieces_iff hsize ((units batches).map fun u => u.2.1) (k + 1)
      simp only [chunkSize] at hk hlength hmore
      refine ⟨fun hnil => ?_, ?_, fun hlast => ?_⟩
      · rw [hnil, List.length_nil] at hlength
        omega
      · omega
      · have := hmore.1 hlast
        omega
    · have hplace := getElem?_piece hsize ((units batches).map fun u => u.2.1) j
      rw [List.getElem?_map, hu] at hplace
      exact hplace
  case entries =>
    intro file
    rw [units?, hfiles, lookup_register_sorted .nil]
    split
    · simp only [List.lookup_nil, Option.getD_none, List.nil_append, references, Nat.zero_add]
      rfl
    · rfl
  case keys =>
    rw [hfiles]
    exact ⟨sorted_register .nil, fun file => by rw [mem_register_iff]; simp⟩
  case unitCount =>
    rw [unitCount_eq_sum, hfiles, sum_register]
    simp

end Artifacts

end Barrage
