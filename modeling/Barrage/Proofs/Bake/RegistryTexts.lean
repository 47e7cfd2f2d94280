import Barrage.Bake.Store
import Barrage.Proofs.Bake.Layout
import Barrage.Proofs.Document.Written

/-!
# Registries as texts

A registry is written as an object with a version and the entries of the sources, and each entry lists the units with
their chunks and signatures. Names are written as texts, so they may hold any character. The entries are written in the
order of their ids, so that reading them one after another puts each behind the ones before it.

## Main results

* `Registry.readDocument?_pretty` — the text of a registry is read as the registry
-/

namespace Barrage

namespace Numeral

/-- Further digits make a number no smaller. -/
theorem le_ofDigitChars (cs : List Char) (start : Nat) : start ≤ Nat.ofDigitChars 10 cs start := by
  induction cs generalizing start with
  | nil => simp
  | cons c cs ih =>
    rw [Nat.ofDigitChars_cons]
    have hrest := ih (10 * start + (c.toNat - '0'.toNat))
    omega

/-- Digits are gathered as the number they denote if that fits in a word. -/
theorem gather_eq (cs : List Char) (start : Nat) (h : Nat.ofDigitChars 10 cs start ≤ Binary.greatestWord) :
    gather start cs = (Nat.ofDigitChars 10 cs start, 0) := by
  induction cs generalizing start with
  | nil => simp [gather]
  | cons c cs ih =>
    rw [Nat.ofDigitChars_cons] at h ⊢
    have hnext := (le_ofDigitChars cs _).trans h
    rw [gather, Nat.mul_comm start, if_pos hnext]
    exact ih _ h

theorem value?_toDigits {n : Nat} (h : n ≤ Binary.greatestWord) :
    value? ⟨false, Nat.toDigits 10 n, [], none⟩ = some (.word n) := by
  have hdigits : Nat.ofDigitChars 10 (Nat.toDigits 10 n) 0 = n := Nat.ofDigitChars_ten_toDigits
  have hgather := gather_eq (Nat.toDigits 10 n) 0 (hdigits.symm ▸ h)
  rw [hdigits] at hgather
  simp [value?, hgather]

end Numeral

theorem ValueType.ofKey?_key (type : ValueType) : ofKey? type.key = some type := by
  cases type <;> decide

namespace Json

variable {α : Type}

/-- What is written entry by entry is read entry by entry. -/
theorem mapM_map_eq_some {β γ : Type} (readEntry : β → Option γ) (write : α → β) (f : α → γ) (items : List α)
    (h : ∀ item ∈ items, readEntry (write item) = some (f item)) :
    (items.map write).mapM readEntry = some (items.map f) := by
  induction items with
  | nil => rfl
  | cons item items ih =>
    obtain ⟨hitem, hitems⟩ := List.forall_mem_cons.1 h
    simp [hitem, ih hitems]

/-- Of fields with distinct keys, one has a given key. -/
theorem filter_key {fields : List (String × Json)} (hnodup : (fields.map Prod.fst).Nodup) {field : String × Json}
    (h : field ∈ fields) : (fields.filter fun other => other.1 == field.1) = [field] := by
  induction fields with
  | nil => exact absurd h List.not_mem_nil
  | cons first fields ih =>
    rw [List.map_cons, List.nodup_cons] at hnodup
    obtain ⟨hnew, hnodup⟩ := hnodup
    rcases List.mem_cons.1 h with rfl | hmem
    · have hnone : (fields.filter fun other => other.1 == field.1) = [] :=
        List.filter_eq_nil_iff.2 fun other hother heq => hnew (List.mem_map.2 ⟨other, hother, beq_iff_eq.1 heq⟩)
      rw [List.filter_cons_of_pos (by simp), hnone]
    · have hne : first.1 ≠ field.1 := fun heq => hnew (List.mem_map.2 ⟨field, hmem, heq.symm⟩)
      rw [List.filter_cons_of_neg (by simpa using hne), ih hnodup hmem]

theorem enter?_of_lt {depth : Nat} (h : 1 < depth) : enter? depth = some (depth - 1) := by
  rw [enter?, if_neg (by omega)]

/-- A list of written values is read as the list. -/
theorem readList_map (read : Reader α) (write : α → Json) (items : List α) (depth : Nat) (h : 1 < depth)
    (hread : ∀ item ∈ items, read (depth - 1) (write item) = some item) :
    readList read depth (.array (items.map write)) = some items := by
  simp only [readList, enter?_of_lt h, Option.bind_eq_bind, Option.bind_some]
  exact (mapM_map_eq_some _ _ id items hread).trans (congrArg some (List.map_id items))

/-- The fields of a record that was written with its fields in order are these. -/
theorem record?_ofFields (fields : List (String × Json)) (depth : Nat) (h : 1 < depth)
    (hnodup : (fields.map Prod.fst).Nodup) :
    record? (fields.map Prod.fst) depth (ofFields fields) = some (depth - 1, fields.map fun field => some field.2) := by
  have hpick : pick? (fields.map Prod.fst) (fields.map fun field => (some field.1, field.2)) =
      some (fields.map fun field => some field.2) := by
    have hkeys : (fields.map fun field => (some field.1, field.2)).mapM (fun field : Option String × Json =>
        field.1.map (·, field.2)) = some (fields.map id) := mapM_map_eq_some _ _ id fields fun _ _ => rfl
    rw [List.map_id] at hkeys
    change ((fields.map fun field => (some field.1, field.2)).mapM fun field : Option String × Json =>
      field.1.map (·, field.2)).bind _ = _
    rw [hkeys]
    refine mapM_map_eq_some _ _ _ _ fun field hfield => ?_
    rw [filter_key hnodup hfield]
  have hrecord : record? (fields.map Prod.fst) depth (ofFields fields) =
      (pick? (fields.map Prod.fst) (fields.map fun field => (some field.1, field.2))).bind fun picked =>
        some (depth - 1, picked) := by
    simp only [record?, ofFields, enter?_of_lt h]
    rfl
  rw [hrecord, hpick, Option.bind_some]

theorem readText_ofText (depth : Nat) (s : String) : readText depth (ofText s) = some s := rfl

theorem readNat_ofNat {n : Nat} (bound depth : Nat) (hword : n ≤ Binary.greatestWord) (hbound : n < bound) :
    readNat bound depth (ofNat n) = some n := by
  simp [readNat, ofNat, Numeral.value?_toDigits hword, hbound]

end Json

open Json

/-! ### Signatures and references -/

theorem Signature.ofJson_toJson (signature : Signature) (depth : Nat) (h : 2 < depth) :
    ofJson depth signature.toJson = some signature := by
  have hrecord := record?_ofFields [("params", .array (signature.params.map fun ty => .ofText ty.key)),
    ("returns", .ofText signature.returns.key)] depth (by omega) (by simp)
  have hparams := readList_map (readName ValueType.ofKey?) (fun ty => Json.ofText ty.key) signature.params (depth - 1)
    (by omega) fun ty _ => by simp [readName, ofText, ValueType.ofKey?_key]
  have hreturns : readName ValueType.ofKey? (depth - 1) (.ofText signature.returns.key) = some signature.returns := by
    simp [readName, ofText, ValueType.ofKey?_key]
  simp only [List.map_cons, List.map_nil] at hrecord
  simp only [ofJson, toJson, hrecord, Option.bind_eq_bind, Option.bind_some, required, hparams, hreturns]

theorem UnitRef.ofJson_toJson (unit : UnitRef) (depth : Nat) (h : 3 < depth) :
    ofJson depth unit.toJson = some unit := by
  have hrecord := record?_ofFields [("name", .ofText unit.name), ("chunk", .ofText unit.chunk),
    ("signature", unit.signature.toJson)] depth (by omega) (by simp)
  have hsignature := unit.signature.ofJson_toJson (depth - 1) (by omega)
  simp only [List.map_cons, List.map_nil] at hrecord
  simp only [ofJson, toJson, hrecord, Option.bind_eq_bind, Option.bind_some, required, readText_ofText, hsignature]

/-! ### Entries -/

namespace Registry

variable {files : List (FileId × List UnitRef)}

/-- An entry behind all others is put behind them. -/
theorem alter_concat (f : List UnitRef → List UnitRef) {file : FileId} (h : ∀ e ∈ files, e.1.text < file.text) :
    alter file f files = files ++ [(file, f [])] := by
  induction files with
  | nil => rfl
  | cons entry files ih =>
    obtain ⟨known, refs⟩ := entry
    obtain ⟨hknown, hfiles⟩ := List.forall_mem_cons.1 h
    have hne : file ≠ known := fun heq => absurd hknown (by rw [heq]; exact lt_irrefl _)
    have hlt : ¬file.text < known.text := not_lt.2 hknown.le
    rw [alter, if_neg hne, if_neg hlt, ih hfiles, List.cons_append]

/-- Written entries are read one behind the other. -/
theorem foldlM_alter (files before : List (FileId × List UnitRef)) (depth : Nat) (h : 4 < depth)
    (hsorted : Sorted (before ++ files)) :
    (files.map fun (file, refs) => (some file.text, Json.array (refs.map UnitRef.toJson))).foldlM
      (fun files (key, value) => do
        let file : FileId := ⟨← key⟩
        let refs ← Json.readList UnitRef.ofJson depth value
        some (alter file (fun _ => refs) files)) before = some (before ++ files) := by
  induction files generalizing before with
  | nil => simp
  | cons entry files ih =>
    obtain ⟨file, refs⟩ := entry
    have hbefore : ∀ e ∈ before, e.1.text < file.text := fun e he =>
      (List.pairwise_append.1 hsorted).2.2 e he _ List.mem_cons_self
    have hrefs := readList_map UnitRef.ofJson UnitRef.toJson refs depth (by omega) fun unit _ =>
      unit.ofJson_toJson (depth - 1) (by omega)
    have hrest := ih (before ++ [(file, refs)]) (by simpa using hsorted)
    simp only [List.map_cons, List.foldlM_cons, Option.bind_eq_bind, Option.bind_some, hrefs, alter_concat _ hbefore]
    simpa using hrest

theorem plain_toJson (registry : Registry) : Plain registry.toJson := by
  have hsignature (signature : Signature) : Plain signature.toJson := by
    refine .object _ (List.forall_mem_cons.2 ⟨.array _ ?_, List.forall_mem_singleton.2 (.text _)⟩)
    exact List.forall_mem_map.2 fun type _ => .text _
  have hunit (unit : UnitRef) : Plain unit.toJson :=
    .object _ (List.forall_mem_cons.2 ⟨.text _, List.forall_mem_cons.2 ⟨.text _,
      List.forall_mem_singleton.2 (hsignature _)⟩⟩)
  refine .object _ (List.forall_mem_cons.2 ⟨.number _, List.forall_mem_singleton.2 (.object _ ?_)⟩)
  exact List.forall_mem_map.2 fun entry _ => .array _ (List.forall_mem_map.2 fun unit _ => hunit unit)

/-- The text of a registry is read as the registry. -/
theorem readDocument?_pretty (registry : Registry) (hversion : registry.version < 2 ^ 32)
    (hsorted : Sorted registry.files) (depth : Nat) :
    readDocument? ofJson (registry.toJson.pretty depth) = some registry := by
  have hrecord := record?_ofFields [("version", .ofNat registry.version),
    ("files", .ofFields (registry.files.map fun (file, refs) => (file.text, .array (refs.map UnitRef.toJson))))]
    maxDepth (by decide) (by simp)
  have hword : registry.version ≤ Binary.greatestWord := hversion.le.trans (by decide)
  have hread := readNat_ofNat (Nat.pow 2 32) (maxDepth - 1) hword hversion
  have hfiles := foldlM_alter registry.files [] (maxDepth - 1 - 1) (by decide) (by simpa using hsorted)
  simp only [List.map_cons, List.map_nil] at hrecord
  rw [readDocument?, (plain_toJson registry).parse?_pretty]
  simp only [Option.bind_eq_bind, Option.bind_some, ofJson, toJson, hrecord, field, hread]
  have hentries : readFiles (maxDepth - 1) (.ofFields (registry.files.map fun (file, refs) =>
      (file.text, .array (refs.map UnitRef.toJson)))) = some registry.files := by
    simp only [ofFields, readFiles, enter?_of_lt (show 1 < maxDepth - 1 by decide), Option.bind_eq_bind,
      Option.bind_some, List.map_map]
    exact hfiles
  rw [hentries]
  rfl

end Registry

end Barrage
