import Barrage.Project.Run
import Barrage.Proofs.Bake.WrittenArtifacts
import Barrage.Proofs.Disk.SparedFiles

/-!
# Scripts beside artifacts

Artifacts may be written into the directory of the scripts, above it or below it. The names of pattern files end
otherwise than those of chunks and of the registry, so that a pattern file is neither removed nor written over, and no
file is taken for a script that was none before. A run afterwards finds the same scripts, in the same order, and reads
the same texts.

## Main definitions

* `Artifacts.IsOwnName` — the names under which artifacts are written and removed
* `Project.listsAt` — places that are listed as scripts of a directory

## Main results

* `Path.fileName?_of_names`, `Disk.getLast?_of_resolve` — the name of a file, and the place where its path leads
* `Artifacts.spares_write` — writing artifacts spares files with other names
* `Project.scripts_of_write` — the scripts are as they were
-/

namespace Barrage

/-! ### Names of files -/

namespace Path

variable {path name : String}

theorem IsName.names_concat (hname : IsName name) (front : String) : names (front ++ "/" ++ name) = names front ++ [name] := by
  have hsplit : (front.toList ++ '/' :: name.toList).splitOn '/' = front.toList.splitOn '/' ++ name.toList.splitOn '/' :=
    List.splitOn_append_cons_self _ _
  have hnames : names (front ++ "/" ++ name) = names front ++ names name := by
    simp [names, splitOn_slash, hsplit]
  rw [hnames, hname.names_eq]

/-- The components of a path are its names but for dots, after a dot or a slash in front. -/
theorem exists_components (path : String) :
    ∃ front, components path = front ++ (names path).filter (· != ".") ∧ ∀ x ∈ front, x = "." ∨ x = "/" := by
  have hone (b : Bool) (y : String) : ∀ x ∈ (if b then [y] else []), x = y := by
    cases b <;> simp
  rw [components]
  rw [← names]
  split
  · rename_i rest hnames
    refine ⟨_, by rw [hnames, List.filter_cons_of_neg (by simp)], fun x hx => ?_⟩
    exact (List.mem_append.1 hx).elim (fun hx => .inr (hone _ _ x hx)) fun hx => .inl (hone _ _ x hx)
  · exact ⟨_, rfl, fun x hx => .inr (hone _ _ x hx)⟩

/-- The name of a file is the last name that is no dot. -/
theorem fileName?_eq_some_iff : fileName? path = some name ↔
    ((names path).filter (· != ".")).getLast? = some name ∧ name ≠ ".." ∧ name ≠ "/" := by
  obtain ⟨front, hcomponents, hfront⟩ := exists_components path
  have hdot : ∀ x ∈ (names path).filter (· != "."), x ≠ "." := fun x hx => by simpa using (List.mem_filter.1 hx).2
  rw [fileName?, hcomponents, List.getLast?_append]
  cases hlast : ((names path).filter (· != ".")).getLast? with
  | some last =>
    have hne := hdot last (List.mem_of_getLast? hlast)
    simp only [Option.some_or, Option.some.injEq, Bool.or_eq_true, decide_eq_true_eq]
    constructor
    · intro h
      split at h
      · cases h
      · rename_i hnot
        cases h
        simp only [not_or] at hnot
        exact ⟨rfl, hnot.1.2, hnot.2⟩
    · rintro ⟨rfl, hdots, hslash⟩
      rw [if_neg (by simp [hne, hdots, hslash])]
  | none =>
    simp only [Option.none_or, reduceCtorEq, false_and, iff_false]
    cases htop : front.getLast? with
    | none => simp
    | some x =>
      have hx := hfront x (List.mem_of_getLast? htop)
      rcases hx with rfl | rfl <;> simp

/-- A path whose last name is that of a file. -/
theorem fileName?_of_names {front : List String} (hname : IsName name) (h : names path = front ++ [name]) :
    fileName? path = some name := by
  have hslash : name ≠ "/" := by
    rintro rfl
    exact hname.noSlash (by decide)
  refine fileName?_eq_some_iff.2 ⟨?_, hname.ne_dots, hslash⟩
  rw [h, List.filter_append, List.filter_cons_of_pos (by simpa using hname.ne_dot), List.filter_nil,
    List.getLast?_concat]

/-- Names joined with slashes end in the last of them. -/
theorem exists_intercalate (front : List String) (name : String) : "/".intercalate (front ++ [name]) = name ∨
    ∃ above, "/".intercalate (front ++ [name]) = above ++ "/" ++ name := by
  induction front with
  | nil => exact .inl (by simp)
  | cons first rest ih =>
    have hne : rest ++ [name] ≠ [] := by simp
    rw [List.cons_append, String.intercalate_cons_of_ne_nil hne]
    rcases ih with heq | ⟨above, heq⟩
    · exact .inr ⟨first, by rw [heq]⟩
    · exact .inr ⟨first ++ "/" ++ above, by simp only [heq, String.append_assoc]⟩

/-- The path of a file below a directory ends in its name. -/
theorem fileName?_join (hname : IsName name) (root : String) (front : List String) :
    fileName? (join root ("/".intercalate (front ++ [name]))) = some name := by
  have hends : ∀ whole : String, (whole = name ∨ ∃ above, whole = above ++ "/" ++ name) → fileName? whole = some name := by
    rintro whole (rfl | ⟨above, rfl⟩)
    · exact @fileName?_of_names _ _ [] hname hname.names_eq
    · exact fileName?_of_names hname (hname.names_concat above)
  refine hends _ ?_
  rw [join]
  split
  · exact exists_intercalate front name
  split
  · rename_i hroot
    obtain ⟨start, hstart⟩ := (endsWith_slash_iff root).1 hroot
    obtain rfl : root = String.ofList start ++ "/" := String.toList_inj.1 (by simp [← hstart])
    rcases exists_intercalate front name with heq | ⟨above, heq⟩
    · exact .inr ⟨String.ofList start, by rw [heq]⟩
    · exact .inr ⟨String.ofList start ++ "/" ++ above, by simp only [heq, String.append_assoc]⟩
  · rcases exists_intercalate front name with heq | ⟨above, heq⟩
    · exact .inr ⟨root, by rw [heq]⟩
    · exact .inr ⟨root ++ "/" ++ above, by simp only [heq, String.append_assoc]⟩

end Path

namespace Disk

variable {disk disk' : Disk} {here place names : List String} {name path root text : String}

theorem follow_dots (hdots : ∀ x ∈ names, x = ".") (h : disk.follow here names = .ok place) : place = here := by
  induction names generalizing here with
  | nil => simpa [follow, eq_comm] using h
  | cons x names ih =>
    obtain ⟨rfl, hrest⟩ := List.forall_mem_cons.1 hdots
    exact ih hrest (by simpa [follow] using h)

/-- Names lead to where the last of them that is no dot is the last name. -/
theorem getLast?_of_follow {front dots : List String} (hdot : name ≠ ".") (hup : name ≠ "..")
    (hdots : ∀ x ∈ dots, x = ".") (h : disk.follow here (front ++ name :: dots) = .ok place) :
    place.getLast? = some name := by
  induction front generalizing here with
  | nil =>
    rcases follow_cons_iff.1 h with ⟨heq, -⟩ | ⟨heq, -⟩ | ⟨-, -, -, ⟨-, rfl⟩ | ⟨-, -, h⟩⟩
    · exact absurd heq hdot
    · exact absurd heq hup
    · exact List.getLast?_concat
    · rw [follow_dots hdots h, List.getLast?_concat]
  | cons first rest ih =>
    rcases follow_cons_iff.1 h with ⟨-, h⟩ | ⟨-, h⟩ | ⟨-, -, -, ⟨hnil, -⟩ | ⟨-, -, h⟩⟩
    · exact ih h
    · exact ih h
    · exact absurd hnil (by simp)
    · exact ih h

/-- The path of a file leads to a place with the name of the file. -/
theorem getLast?_of_resolve (hname : Path.fileName? path = some name) (h : disk.resolve path = .ok place) :
    place.getLast? = some name := by
  obtain ⟨hlast, hup, -⟩ := Path.fileName?_eq_some_iff.1 hname
  obtain ⟨front, hfront⟩ := List.getLast?_eq_some_iff.1 hlast
  obtain ⟨before, after, hnames, -, hafter⟩ := List.filter_eq_append_iff.1 hfront
  obtain ⟨dots, more, rfl, hdots, hdot, hmore⟩ := List.filter_eq_cons_iff.1 hafter
  have hmore : ∀ x ∈ more, x = "." := by simpa using List.filter_eq_nil_iff.1 hmore
  obtain ⟨-, -, -, hfollow⟩ := resolve_eq_ok_iff.1 h
  -- After the name of the file there are only dots, one of which may stand for a slash at the end.
  have hsteps : ∃ more', Path.steps path = (before ++ dots) ++ name :: more' ∧ ∀ x ∈ more', x = "." := by
    have hpath : (path.splitOn "/").filter (· != "") = (before ++ dots) ++ name :: more :=
      hnames.trans (List.append_assoc ..).symm
    rw [Path.steps, hpath]
    split
    · exact ⟨more ++ ["."], by simp, List.forall_mem_append.2 ⟨hmore, List.forall_mem_singleton.2 rfl⟩⟩
    · exact ⟨more, rfl, hmore⟩
  obtain ⟨more', hsteps, hmore'⟩ := hsteps
  rw [hsteps] at hfollow
  exact getLast?_of_follow (by simpa using hdot) hup hmore' hfollow

theorem find_eq_ok_iff {entry : Entry} :
    disk.find path = .ok entry ↔ ∃ place, disk.resolve path = .ok place ∧ disk.entry? place = some entry := by
  rw [find, Except.bind_eq_ok_iff]
  refine exists_congr fun place => and_congr_right fun _ => ?_
  cases disk.entry? place <;> simp

/-- A text is read if there is a file where the path leads. -/
theorem readText_eq_ok_iff :
    disk.readText path = .ok text ↔ ∃ place, disk.resolve path = .ok place ∧ disk.textAt? place = some text := by
  have htext (place : List String) : disk.textAt? place = some text ↔ disk.entry? place = some (.file text) := by
    rw [textAt?]
    split <;> simp_all
  simp only [htext, ← find_eq_ok_iff, readText, Except.bind_eq_ok_iff]
  constructor
  · rintro ⟨entry, hfind, hentry⟩
    cases entry with
    | directory => cases hentry
    | file read =>
      cases hentry
      exact hfind
  · exact fun hfind => ⟨_, hfind, rfl⟩

theorem isDirectory_iff :
    disk.isDirectory path = true ↔ ∃ place, disk.resolve path = .ok place ∧ disk.entry? place = some .directory := by
  rw [← find_eq_ok_iff, isDirectory]
  cases disk.find path with
  | error e => simp
  | ok entry => cases entry <;> simp

end Disk

/-! ### Writing artifacts -/

namespace Artifacts

open DiskM

variable {mine : List String → Bool} {disk disk' : Disk} {dir : String} {place : List String} {artifacts : Artifacts}

/-- A name under which artifacts are written and removed. -/
def IsOwnName (name : String) : Prop := isChunkFile name = true ∨ name = registryFile

/-- No file of some kind has such a name in a directory. -/
def SpareIn (mine : List String → Bool) (disk : Disk) (place : List String) : Prop :=
  ∀ name, Path.IsName name → IsOwnName name → disk.entry? (place ++ [name]) ≠ some .directory →
    mine (place ++ [name]) = false

theorem SpareIn.mono (h : SpareIn mine disk place) (hin : disk.DirectoriesIn disk') : SpareIn mine disk' place :=
  fun name hname hown hentry => h name hname hown fun hdirectory => hentry (hin _ hdirectory)

theorem spares_removeChunks {names : List String} (h : disk.Holds dir place) (hmine : SpareIn mine disk place)
    (hnames : ∀ name ∈ names, Path.IsName name) (hrun : Ends (removeChunks dir names) disk () disk') :
    disk.Spares mine disk' := by
  induction names generalizing disk with
  | nil =>
    obtain ⟨-, rfl⟩ := ends_pure.1 hrun
    exact .refl mine _
  | cons name names ih =>
    obtain ⟨hname, hnames⟩ := List.forall_mem_cons.1 hnames
    rw [removeChunks_cons] at hrun
    split at hrun
    · rename_i hchunk
      obtain ⟨⟨⟩, between, hremove, hrun⟩ := ends_bind.1 hrun
      obtain ⟨hbetween, hin, -⟩ := h.removeFile hname (ends_update.1 hremove)
      exact (h.spares_removeFile hname (hmine name hname (.inl hchunk)) (ends_update.1 hremove)).trans
        (ih hbetween (hmine.mono hin) hnames hrun)
    · exact ih h hmine hnames hrun

theorem spares_writeChunks {texts : List String} {index : Nat} (h : disk.Holds dir place)
    (hmine : SpareIn mine disk place) (hrun : Ends (writeChunks dir index texts) disk () disk') :
    disk.Spares mine disk' := by
  induction texts generalizing disk index with
  | nil =>
    obtain ⟨-, rfl⟩ := ends_pure.1 hrun
    exact .refl mine _
  | cons text texts ih =>
    obtain ⟨⟨⟩, between, hwrite, hrun⟩ := ends_bind.1 hrun
    have hname := isName_chunkFile index
    obtain ⟨hbetween, -, hin, -⟩ := h.writeText hname (ends_update.1 hwrite)
    exact (h.spares_writeText hname (hmine _ hname (.inl (isChunkFile_chunkFile index))) (ends_update.1 hwrite)).trans
      (ih hbetween (hmine.mono hin) hrun)

/-- Writing artifacts spares files with other names. -/
theorem spares_write (hdisk : disk.IsTree) (hmine : ∀ place, SpareIn mine disk place)
    (hwrite : Ends (artifacts.write dir) disk () disk') : disk.Spares mine disk' := by
  obtain ⟨⟨⟩, found, hcreate, hwrite⟩ := ends_bind.1 hwrite
  obtain ⟨names, listed, hquery, hwrite⟩ := ends_bind.1 hwrite
  obtain ⟨⟨⟩, cleared, hremove, hwrite⟩ := ends_bind.1 hwrite
  obtain ⟨⟨⟩, filled, hchunks, hregistry⟩ := ends_bind.1 hwrite
  obtain ⟨hlist, rfl⟩ := ends_query.1 hquery
  have hcreated : disk.Spares mine (disk.createAll dir).2 := disk.spares_createAll dir
  obtain ⟨htree, -⟩ := hdisk.createAll dir
  rw [ends_createAll.1 hcreate] at htree hcreated
  obtain ⟨place, hlisted⟩ := htree.holds_of_list hlist
  have hown := (hmine place).mono hcreated.directories
  obtain ⟨hnames, -⟩ := hlisted.list hlist
  obtain ⟨hcleared, -⟩ := removeChunks_ends hlisted hnames hremove
  have hremoved := spares_removeChunks hlisted hown hnames hremove
  obtain ⟨hfilled, hin, -⟩ := writeChunks_ends hcleared hchunks
  have hown := hown.mono hremoved.directories
  have hwritten := spares_writeChunks hcleared hown hchunks
  have hlast := hfilled.spares_writeText isName_registryFile
    ((hown.mono hin) _ isName_registryFile (.inr rfl)) (ends_update.1 hregistry)
  exact hcreated.trans (hremoved.trans (hwritten.trans hlast))

end Artifacts

/-! ### Scripts -/

namespace Project

open Artifacts DiskM

variable {disk disk' : Disk} {place : List String} {root path text name : String} {artifacts : Artifacts} {dir : String}

/-- Whether a place below another is listed as a script of the directory whose path leads to that. -/
def listsAt (root : String) (place : List String) (below : List String) : Bool :=
  match Place.below? place below with
  | some names => isPattern (Path.join root ("/".intercalate names))
  | none => false

theorem exists_fileName_of_isPattern (h : isPattern path = true) :
    ∃ name, Path.fileName? path = some name ∧ name.endsWith patternExtension = true := by
  unfold isPattern at h
  split at h
  · exact ⟨_, ‹_›, h⟩
  · cases h

/-- Names of pattern files are none under which artifacts are written. -/
theorem not_isOwnName (h : name.endsWith patternExtension = true) : ¬IsOwnName name := by
  have hends : patternExtension.toList <:+ name.toList := by
    have heq : name.endsWith patternExtension = name.toSlice.endsWith patternExtension := rfl
    rwa [heq, String.Slice.endsWith_string_iff, String.copy_toSlice] at h
  rintro (hchunk | rfl)
  · obtain ⟨-, hrhai⟩ := isChunkFile_iff.1 hchunk
    have hlast := hrhai.getLast (by decide)
    rw [← hends.getLast (by decide)] at hlast
    exact absurd hlast (by decide)
  · exact absurd hends (by decide)

/-- No artifact is listed as a script, and none is written or removed where a directory is. -/
theorem spareIn_listsAt (root : String) (hplace : disk.entry? place = some .directory) (other : List String) :
    SpareIn (listsAt root place) disk other := by
  intro name hname hown hentry
  rw [listsAt]
  cases hbelow : Place.below? place (other ++ [name]) with
  | none => rfl
  | some names =>
    obtain ⟨heq, -⟩ := Place.below?_eq_some_iff.1 hbelow
    -- An artifact is not the directory itself, so what leads from there to it ends in its name.
    rcases List.eq_nil_or_concat names with rfl | ⟨front, last, rfl⟩
    · rw [List.append_nil] at heq
      exact absurd (heq ▸ hplace) hentry
    · rw [List.concat_eq_append, ← List.append_assoc] at heq
      obtain ⟨-, hlast⟩ := List.append_inj' heq rfl
      obtain rfl := (List.cons.inj hlast).1
      rw [List.concat_eq_append]
      simp only [isPattern, Path.fileName?_join hname]
      exact Bool.eq_false_iff.2 fun hpattern => not_isOwnName hpattern hown

/-- The scripts of a directory are its files that are listed. -/
theorem scripts_eq (hresolve : disk.resolve root = .ok place) (hplace : disk.entry? place = some .directory) :
    scripts root disk = .ok (((disk.filesAt (listsAt root place)).filterMap fun e =>
      (Place.below? place e.1).map fun names => Path.join root ("/".intercalate names)).mergeSort Path.notAfter) := by
  have hfile : disk.isFile root = false := by
    simp [Disk.isFile, Disk.find, hresolve, hplace, bind, Except.bind]
  simp only [scripts, hfile, Bool.false_eq_true, if_false, Disk.filesBelow, hresolve, Except.ok_bind, hplace]
  refine congrArg (fun paths => Except.ok (List.mergeSort paths Path.notAfter)) ?_
  rw [Disk.filesAt]
  induction disk.entries with
  | nil => rfl
  | cons e entries ih =>
    obtain ⟨p, entry⟩ := e
    cases entry with
    | directory => simpa [List.filterMap_cons] using ih
    | file text =>
      cases hbelow : Place.below? place p with
      | none => simpa [List.filterMap_cons, hbelow, listsAt] using ih
      | some names =>
        cases hpattern : isPattern (Path.join root ("/".intercalate names)) <;>
          simpa [List.filterMap_cons, hbelow, listsAt, hpattern] using ih

/-- Writing artifacts leaves the scripts of a directory as they were, and what is read of them. -/
theorem scripts_of_write (hdisk : disk.IsTree) (hroot : disk.isDirectory root = true)
    (hwrite : Ends (artifacts.write dir) disk () disk') :
    scripts root disk' = scripts root disk ∧
      ∀ path text, isPattern path = true → disk.readText path = .ok text → disk'.readText path = .ok text := by
  obtain ⟨place, hresolve, hplace⟩ := Disk.isDirectory_iff.1 hroot
  have hspares := spares_write hdisk (spareIn_listsAt root hplace) hwrite
  refine ⟨?_, fun path text hpattern htext => ?_⟩
  · rw [scripts_eq (hspares.directories.resolve hresolve) (hspares.directories _ hplace), hspares.files,
      scripts_eq hresolve hplace]
  · obtain ⟨found, hfound, hold⟩ := Disk.readText_eq_ok_iff.1 htext
    obtain ⟨name, hname, hends⟩ := exists_fileName_of_isPattern hpattern
    have hlast := Disk.getLast?_of_resolve hname hfound
    obtain ⟨dirPlace, hwritten⟩ := writtenTo_of_write hdisk hwrite
    have hkept := hwritten.other found fun own heq => by
      rw [heq, List.getLast?_concat] at hlast
      obtain rfl := Option.some.inj hlast
      exact not_or.1 (not_isOwnName hends)
    exact Disk.readText_eq_ok_iff.2 ⟨found, hspares.directories.resolve hfound, hkept.trans hold⟩

end Project

end Barrage
