import Mathlib.Data.String.Basic
import Barrage.Disk

/-!
# Paths of files in a directory

A file in a directory is addressed by the path of the directory and the name of the file. The path of a directory may
be written in many ways, with dots, double dots and slashes that do not count. However it is written, the joined path
leads to the name below the place that the directory is at: only the last step is new, and the steps before it
have to lead to a directory in either case.

## Main definitions

* `Path.IsName` — names that files can have
* `Path.names` — the names between the slashes of a path
* `Disk.DirectoriesIn` — all directories of a disk are directories of another one

## Main results

* `Path.IsName.steps_join` — joining a name to a path adds a step
* `Disk.resolve_join`, `Disk.resolve_join_eq` — a joined path leads to the name below the directory
* `Disk.DirectoriesIn.resolve` — a path leads to where it led before if all directories are still there
-/

namespace Barrage

namespace Path

/-! ### Splitting at slashes -/

open String in
theorem splitOnAux_slash (before piece rest : List Char) (done : List String) :
    splitOnAux (ofList (before ++ piece ++ rest)) "/" ⟨utf8Len before⟩ ⟨utf8Len before + utf8Len piece⟩ 0 done =
      done.reverse ++ (List.splitOnPPrepend (· == '/') rest piece.reverse).map ofList := by
  induction rest generalizing before piece done with
  | nil =>
    rw [splitOnAux, if_pos]
    · simpa using extract_of_valid before piece []
    · simpa using atEnd_of_valid (before ++ piece) []
  | cons c rest ih =>
    have hmore : ¬ Pos.Raw.atEnd (ofList (before ++ piece ++ c :: rest)) ⟨utf8Len before + utf8Len piece⟩ = true := by
      have hend := atEnd_of_valid (before ++ piece) (c :: rest)
      rw [utf8Len_append] at hend
      rw [hend]
      exact List.cons_ne_nil c rest
    have hget : Pos.Raw.get (ofList (before ++ piece ++ c :: rest)) ⟨utf8Len before + utf8Len piece⟩ = c := by
      have hget := get_of_valid (before ++ piece) (c :: rest)
      rwa [utf8Len_append] at hget
    have hnext : Pos.Raw.next (ofList (before ++ piece ++ c :: rest)) ⟨utf8Len before + utf8Len piece⟩ =
        ⟨utf8Len before + utf8Len piece + c.utf8Size⟩ := by
      have hnext := next_of_valid (before ++ piece) c rest
      rwa [utf8Len_append] at hnext
    have hslash : Pos.Raw.get "/" 0 = '/' := rfl
    have hone : Pos.Raw.next "/" 0 = ⟨1⟩ := rfl
    rw [splitOnAux, if_neg hmore, hget, hslash, List.splitOnPPrepend_cons_eq_if]
    by_cases hc : c = '/'
    · subst hc
      have hstart : (⟨utf8Len before + utf8Len piece + '/'.utf8Size⟩ : Pos.Raw).unoffsetBy ⟨1⟩ =
          ⟨utf8Len before + utf8Len piece⟩ := rfl
      have hsplit := ih (before ++ piece ++ ['/']) [] (ofList piece :: done)
      have hextract := extract_of_valid before piece ('/' :: rest)
      simp only [List.append_nil, utf8Len_append, utf8Len_cons, utf8Len_nil, Nat.zero_add, Nat.add_zero,
        List.append_assoc, List.cons_append, List.nil_append] at hsplit hextract ⊢
      simp only [List.append_assoc] at hnext
      simp only [beq_self_eq_true, if_true, hnext, hone, hstart, hextract]
      have hlast : Pos.Raw.atEnd "/" ⟨1⟩ = true := rfl
      rw [if_pos hlast]
      simp only [Nat.add_assoc] at hsplit ⊢
      rw [hsplit]
      simp
    · have hsplit := ih before (piece ++ [c]) done
      have hzero : (⟨utf8Len before + utf8Len piece⟩ : Pos.Raw).unoffsetBy 0 = ⟨utf8Len before + utf8Len piece⟩ := rfl
      rw [if_neg (by simpa using hc), if_neg (by simpa using hc), hzero, hnext]
      simpa [Nat.add_assoc] using hsplit

/-- Splitting at slashes, character by character. -/
theorem splitOn_slash (path : String) : path.splitOn "/" = (path.toList.splitOn '/').map String.ofList := by
  have hsplit := splitOnAux_slash [] [] path.toList []
  simpa [String.splitOn, List.splitOn] using hsplit

/-- The pieces of a split hold no separator. -/
theorem notMem_of_mem_splitOn {c : Char} {cs piece : List Char} (h : piece ∈ cs.splitOn c) : c ∉ piece := by
  induction cs generalizing piece with
  | nil =>
    rw [List.splitOn_nil, List.mem_singleton] at h
    exact h ▸ List.not_mem_nil
  | cons d cs ih =>
    obtain ⟨first, rest, hsplit⟩ := List.exists_cons_of_ne_nil (List.splitOn_ne_nil c cs)
    rw [List.splitOn_cons_eq_if_modifyHead, hsplit] at h
    rw [hsplit] at ih
    split at h
    · rcases List.mem_cons.1 h with rfl | hmem
      · exact List.not_mem_nil
      · exact ih hmem
    · rename_i hd
      rcases List.mem_cons.1 h with rfl | hmem
      · have hne : c ≠ d := fun heq => hd (beq_iff_eq.2 heq.symm)
        exact List.not_mem_cons_of_ne_of_not_mem hne (ih List.mem_cons_self)
      · exact ih (List.mem_cons_of_mem first hmem)

/-! ### Names and joined paths -/

/-- Names that files can have: they hold no slash, and lead neither nowhere nor to where they start nor up. -/
structure IsName (name : String) : Prop where
  nonempty : name ≠ ""
  noSlash : '/' ∉ name.toList
  ne_dot : name ≠ "."
  ne_dots : name ≠ ".."

/-- The names between the slashes of a path. -/
def names (path : String) : List String := (path.splitOn "/").filter (· != "")

theorem noSlash_of_mem_names {path name : String} (h : name ∈ names path) : '/' ∉ name.toList := by
  obtain ⟨hsplit, -⟩ := List.mem_filter.1 h
  rw [splitOn_slash] at hsplit
  obtain ⟨piece, hpiece, rfl⟩ := List.mem_map.1 hsplit
  rw [String.toList_ofList]
  exact notMem_of_mem_splitOn hpiece

theorem nonempty_of_mem_names {path name : String} (h : name ∈ names path) : name ≠ "" := by
  simpa using (List.mem_filter.1 h).2

theorem endsWith_slash_iff (path : String) : path.endsWith "/" = true ↔ ['/'] <:+ path.toList := by
  have hends : path.endsWith "/" = path.toSlice.endsWith "/" := rfl
  rw [hends, String.Slice.endsWith_string_iff, String.copy_toSlice]
  rfl

theorem startsWith_slash_iff (path : String) : path.startsWith "/" = true ↔ ['/'] <+: path.toList := by
  rw [String.startsWith_string_iff]
  rfl

variable {dir name : String} (hname : IsName name)

include hname

theorem IsName.names_eq : names name = [name] := by
  rw [names, splitOn_slash, List.splitOn_eq_singleton hname.noSlash]
  simpa using hname.nonempty

theorem IsName.not_endsWith (front : String) : ¬(front ++ name).endsWith "/" = true := by
  rw [endsWith_slash_iff, String.toList_append]
  intro hends
  have hne : name.toList ≠ [] := fun hnil => hname.nonempty (String.toList_eq_nil_iff.1 hnil)
  have hlast := List.IsSuffix.getLast hends (List.cons_ne_nil _ _)
  rw [List.getLast_append_of_ne_nil _ hne] at hlast
  have hslash : '/' = name.toList.getLast hne := hlast
  exact hname.noSlash (hslash ▸ List.getLast_mem hne)

theorem IsName.not_startsWith : ¬name.startsWith "/" = true := by
  rw [startsWith_slash_iff]
  exact fun hstarts => hname.noSlash (hstarts.subset (List.mem_singleton_self _))

theorem IsName.join_of_not_endsWith (hdir : dir ≠ "") (hends : ¬dir.endsWith "/" = true) :
    join dir name = dir ++ "/" ++ name := by
  have hempty : dir.isEmpty = false := by simpa using hdir
  have hstarts : name.startsWith "/" = false := Bool.eq_false_iff.2 hname.not_startsWith
  rw [join, hstarts, hempty, Bool.or_self, if_neg Bool.false_ne_true, if_neg hends]

theorem IsName.join_of_endsWith (front : String) : join (front ++ "/") name = front ++ "/" ++ name := by
  have hempty : (front ++ "/").isEmpty = false := by simp
  have hstarts : name.startsWith "/" = false := Bool.eq_false_iff.2 hname.not_startsWith
  have hends : (front ++ "/").endsWith "/" = true := by
    rw [endsWith_slash_iff, String.toList_append]
    exact List.suffix_append _ _
  rw [join, hstarts, hempty, Bool.or_self, if_neg Bool.false_ne_true, if_pos hends]

/-- The path of a name below a directory has one slash between them, which may be the last of the directory's. -/
theorem IsName.join_eq (hdir : dir ≠ "") :
    ∃ front, (dir = front ++ "/" ∨ dir = front) ∧ join dir name = front ++ "/" ++ name := by
  by_cases hends : dir.endsWith "/" = true
  · obtain ⟨front, hfront⟩ := (endsWith_slash_iff dir).1 hends
    obtain rfl : dir = String.ofList front ++ "/" := String.toList_inj.1 (by simp [← hfront])
    exact ⟨String.ofList front, .inl rfl, hname.join_of_endsWith _⟩
  · exact ⟨dir, .inr rfl, hname.join_of_not_endsWith hdir hends⟩

/-- Joining a name to a path adds a step, however the path is written. -/
theorem IsName.names_join (hdir : dir ≠ "") : names (join dir name) = names dir ++ [name] := by
  obtain ⟨front, hfront, hjoin⟩ := hname.join_eq hdir
  have hsplit (rest : List Char) : (front.toList ++ '/' :: rest).splitOn '/' =
      front.toList.splitOn '/' ++ rest.splitOn '/' := List.splitOn_append_cons_self _ _
  have hnames : names (front ++ "/" ++ name) = names front ++ names name := by
    simp [names, splitOn_slash, hsplit]
  rw [hjoin, hnames, hname.names_eq]
  rcases hfront with rfl | rfl
  · simp [names, splitOn_slash, hsplit]
  · rfl

/-- A joined path starts where the path of the directory starts. -/
theorem IsName.startsWith_join (hdir : dir ≠ "") : (join dir name).startsWith "/" = dir.startsWith "/" := by
  obtain ⟨front, hfront, hjoin⟩ := hname.join_eq hdir
  obtain ⟨rest, hrest⟩ : ∃ rest, (join dir name).toList = dir.toList ++ rest := by
    rcases hfront with rfl | rfl <;> simp [hjoin]
  obtain ⟨c, cs, hcs⟩ := List.exists_cons_of_ne_nil (mt String.toList_eq_nil_iff.1 hdir)
  rw [Bool.eq_iff_iff, startsWith_slash_iff, startsWith_slash_iff, hrest, hcs]
  simp

theorem IsName.steps_join (hdir : dir ≠ "") : steps (join dir name) = names dir ++ [name] := by
  obtain ⟨front, -, hjoin⟩ := hname.join_eq hdir
  have hends : ¬(join dir name).endsWith "/" = true := hjoin ▸ hname.not_endsWith (front ++ "/")
  rw [← hname.names_join hdir, steps, if_neg hends, names]

end Path

namespace Disk

/-! ### Following names -/

variable {disk disk' : Disk} {here place : List String} {name : String} {names : List String}

/-- Where a name and then others lead. -/
theorem follow_cons_iff : disk.follow here (name :: names) = .ok place ↔
    name = "." ∧ disk.follow here names = .ok place ∨
    name = ".." ∧ disk.follow (Place.up here) names = .ok place ∨
    name ≠ "." ∧ name ≠ ".." ∧ name.utf8ByteSize ≤ maxName ∧
      (names = [] ∧ place = here ++ [name] ∨
        names ≠ [] ∧ disk.entry? (here ++ [name]) = some .directory ∧
          disk.follow (here ++ [name]) names = .ok place) := by
  by_cases hdot : name = "."
  · subst hdot
    simp [follow]
  by_cases hdots : name = ".."
  · subst hdots
    simp [follow]
  have hfollow := follow.eq_4 disk here name names hdot hdots
  rw [hfollow]
  simp only [hdot, hdots, false_and, false_or, not_false_eq_true, ne_eq, true_and, List.isEmpty_iff]
  split
  · rename_i hlong
    simp [Nat.not_le.2 hlong]
  rename_i hshort
  split
  · rename_i hnil
    simp [hnil, Nat.not_lt.1 hshort, eq_comm]
  rename_i hmore
  split <;> simp_all

/-- A dot at the end of a path asks for a directory and leads nowhere else. -/
theorem follow_of_follow_dot (h : disk.follow here (names ++ ["."]) = .ok place) :
    disk.follow here names = .ok place := by
  induction names generalizing here with
  | nil => simpa [follow] using h
  | cons name names ih =>
    rcases follow_cons_iff.1 h with ⟨hdot, h⟩ | ⟨hdots, h⟩ | ⟨hdot, hdots, hshort, ⟨hnil, -⟩ | ⟨-, hentry, h⟩⟩
    · exact follow_cons_iff.2 (.inl ⟨hdot, ih h⟩)
    · exact follow_cons_iff.2 (.inr (.inl ⟨hdots, ih h⟩))
    · exact absurd hnil (by simp)
    · refine follow_cons_iff.2 (.inr (.inr ⟨hdot, hdots, hshort, ?_⟩))
      by_cases hlast : names = []
      · subst hlast
        exact .inl ⟨rfl, by simpa [follow, eq_comm] using h⟩
      · exact .inr ⟨hlast, hentry, ih h⟩

/-- One more name leads below the directory that the names before it lead to. -/
theorem follow_concat (hname : Path.IsName name) {below : List String} (h : disk.follow here names = .ok place)
    (hplace : disk.entry? place = some .directory) (hbelow : disk.follow here (names ++ [name]) = .ok below) :
    below = place ++ [name] := by
  induction names generalizing here with
  | nil =>
    obtain rfl : here = place := by simpa [follow] using h
    rcases follow_cons_iff.1 hbelow with ⟨hdot, -⟩ | ⟨hdots, -⟩ | ⟨-, -, -, ⟨-, heq⟩ | ⟨hmore, -⟩⟩
    · exact absurd hdot hname.ne_dot
    · exact absurd hdots hname.ne_dots
    · exact heq
    · exact absurd rfl hmore
  | cons first names ih =>
    rcases follow_cons_iff.1 h with ⟨rfl, h⟩ | ⟨rfl, h⟩ | ⟨hdot, hdots, -, hlast⟩
    · exact ih h hbelow
    · exact ih h hbelow
    · rcases follow_cons_iff.1 hbelow with ⟨rfl, -⟩ | ⟨rfl, -⟩ | ⟨-, -, -, ⟨hnil, -⟩ | ⟨-, -, hbelow⟩⟩
      · exact absurd rfl hdot
      · exact absurd rfl hdots
      · exact absurd hnil (by simp)
      · rcases hlast with ⟨rfl, rfl⟩ | ⟨-, -, h⟩
        · exact ih (by rw [follow]) hbelow
        · exact ih h hbelow

/-- One more name leads below a directory unless it is too long. -/
theorem follow_concat_eq (hname : Path.IsName name) (hshort : name.utf8ByteSize ≤ maxName)
    (h : disk.follow here names = .ok place) (hplace : disk.entry? place = some .directory) :
    disk.follow here (names ++ [name]) = .ok (place ++ [name]) := by
  induction names generalizing here with
  | nil =>
    obtain rfl : here = place := by simpa [follow] using h
    exact follow_cons_iff.2 (.inr (.inr ⟨hname.ne_dot, hname.ne_dots, hshort, .inl ⟨rfl, rfl⟩⟩))
  | cons first names ih =>
    rcases follow_cons_iff.1 h with ⟨hdot, h⟩ | ⟨hdots, h⟩ | ⟨hdot, hdots, hfirst, ⟨rfl, rfl⟩ | ⟨-, hentry, h⟩⟩
    · exact follow_cons_iff.2 (.inl ⟨hdot, ih h⟩)
    · exact follow_cons_iff.2 (.inr (.inl ⟨hdots, ih h⟩))
    · exact follow_cons_iff.2 (.inr (.inr ⟨hdot, hdots, hfirst, .inr ⟨by simp, hplace, ih (by rw [follow])⟩⟩))
    · exact follow_cons_iff.2 (.inr (.inr ⟨hdot, hdots, hfirst, .inr ⟨by simp, hentry, ih h⟩⟩))

/-- Where the names of a path start. -/
def start (path : String) : List String := if path.startsWith "/" then ["/"] else []

theorem resolve_eq_ok_iff {path : String} : disk.resolve path = .ok place ↔
    ¬path.contains '\x00' ∧ path ≠ "" ∧ path.utf8ByteSize ≤ maxPath ∧
      disk.follow (start path) (Path.steps path) = .ok place := by
  rw [resolve]
  split
  · simp_all
  split
  · simp_all
  split
  · rename_i hlong
    simp [Nat.not_le.2 hlong]
  · rename_i hnul hempty hshort
    have hpath : path ≠ "" := fun heq => hempty (by rw [heq]; rfl)
    exact (and_iff_right hnul).trans ((and_iff_right hpath).trans (and_iff_right (Nat.not_lt.1 hshort))) |>.symm

/-- The names of a path lead where its steps lead. -/
theorem follow_names {path : String} (h : disk.follow (start path) (Path.steps path) = .ok place) :
    disk.follow (start path) (Path.names path) = .ok place := by
  rw [Path.steps] at h
  split at h
  · exact follow_of_follow_dot h
  · exact h

/-- A joined path leads to the name below the directory, however the path of that is written. -/
theorem resolve_join {dir : String} (hname : Path.IsName name) {below : List String} (h : disk.resolve dir = .ok place)
    (hplace : disk.entry? place = some .directory) (hbelow : disk.resolve (Path.join dir name) = .ok below) :
    below = place ++ [name] := by
  obtain ⟨-, hdir, -, hfollow⟩ := resolve_eq_ok_iff.1 h
  obtain ⟨-, -, -, hfollow'⟩ := resolve_eq_ok_iff.1 hbelow
  rw [hname.steps_join hdir, start, hname.startsWith_join hdir] at hfollow'
  exact follow_concat hname (follow_names hfollow) hplace hfollow'

/-- It leads there unless it is too long. -/
theorem resolve_join_eq {dir : String} (hname : Path.IsName name) (hnul : '\x00' ∉ name.toList)
    (hshort : name.utf8ByteSize ≤ maxName) (hfits : (Path.join dir name).utf8ByteSize ≤ maxPath)
    (h : disk.resolve dir = .ok place) (hplace : disk.entry? place = some .directory) :
    disk.resolve (Path.join dir name) = .ok (place ++ [name]) := by
  obtain ⟨hdirNul, hdir, -, hfollow⟩ := resolve_eq_ok_iff.1 h
  obtain ⟨front, hfront, hjoin⟩ := hname.join_eq hdir
  have hstart : start (Path.join dir name) = start dir := by rw [start, hname.startsWith_join hdir, start]
  refine resolve_eq_ok_iff.2 ⟨?_, ?_, hfits, ?_⟩
  · rw [String.contains_char_eq] at hdirNul ⊢
    rcases hfront with rfl | rfl <;> simpa [hjoin, hnul] using hdirNul
  · rw [hjoin]
    simp
  · rw [hstart, hname.steps_join hdir]
    exact follow_concat_eq hname hshort (follow_names hfollow) hplace

/-! ### Directories that stay -/

/-- All directories of a disk are directories of another one. -/
def DirectoriesIn (disk disk' : Disk) : Prop := ∀ place, disk.entry? place = some .directory →
  disk'.entry? place = some .directory

theorem DirectoriesIn.refl (disk : Disk) : disk.DirectoriesIn disk := fun _ h => h

theorem DirectoriesIn.trans {disk'' : Disk} (h : disk.DirectoriesIn disk') (h' : disk'.DirectoriesIn disk'') :
    disk.DirectoriesIn disk'' := fun place hplace => h' place (h place hplace)

theorem DirectoriesIn.follow (hin : disk.DirectoriesIn disk') (h : disk.follow here names = .ok place) :
    disk'.follow here names = .ok place := by
  induction names generalizing here with
  | nil => exact h
  | cons name names ih =>
    rcases follow_cons_iff.1 h with ⟨hdot, h⟩ | ⟨hdots, h⟩ | ⟨hdot, hdots, hshort, hlast | ⟨hmore, hentry, h⟩⟩
    · exact follow_cons_iff.2 (.inl ⟨hdot, ih h⟩)
    · exact follow_cons_iff.2 (.inr (.inl ⟨hdots, ih h⟩))
    · exact follow_cons_iff.2 (.inr (.inr ⟨hdot, hdots, hshort, .inl hlast⟩))
    · exact follow_cons_iff.2 (.inr (.inr ⟨hdot, hdots, hshort, .inr ⟨hmore, hin _ hentry, ih h⟩⟩))

/-- A path leads to where it led while all directories are still there. -/
theorem DirectoriesIn.resolve (hin : disk.DirectoriesIn disk') {path : String} (h : disk.resolve path = .ok place) :
    disk'.resolve path = .ok place := by
  obtain ⟨hnul, hpath, hshort, hfollow⟩ := resolve_eq_ok_iff.1 h
  exact resolve_eq_ok_iff.2 ⟨hnul, hpath, hshort, hin.follow hfollow⟩

end Disk

end Barrage
