import Barrage.Document.Json
import Barrage.Proofs.Number.Words
import Barrage.Proofs.Text.Literals

/-!
# Written documents

A document is written with every text escaped, every item on a line of its own and blanks in front of it. Reading goes
back over all of that: an escape stands for the character it was written for, the blanks do not count, and a numeral
ends where its digits end. So a tree that has nothing but what can be written is read as itself.

## Main definitions

* `Json.Plain` — trees made of texts, whole numbers and what holds them
* `Json.Delimited` — what may follow a written value

## Main results

* `Json.text?_written` — a written text is read as itself
* `Json.Plain.reads` — a written value is read as itself, and reading goes on behind it
* `Json.Plain.parse?_pretty` — a written document is read as itself
-/

namespace Barrage.Json

variable {rest : List Char} {c : Char} {depth : Nat}

/-! ### Texts -/

/-- A character that stands for itself is read as itself. -/
theorem text?_cons (hquote : c ≠ '"') (hslash : c ≠ '\\') (hcontrol : ¬c.toNat < 0x20) :
    text? (c :: rest) = (text? rest).map fun (xs, rest) => (xs.map (c :: ·), rest) := by
  rw [text?, if_neg hquote, if_neg hslash, if_neg hcontrol]

/-- An escape is read as the character it stands for. -/
theorem text?_escape {escaped : List Char} (h : escape? (escaped ++ rest) = some (some c, rest)) :
    text? ('\\' :: (escaped ++ rest)) = (text? rest).map fun (xs, rest) => (xs.map (c :: ·), rest) := by
  rw [text?, if_neg (by decide), if_pos rfl]
  split
  · rename_i hnone
    rw [h] at hnone
    cases hnone
  · rename_i x after hsome
    rw [h] at hsome
    cases hsome
    rfl

/-- The escape of a control character by its number. -/
theorem escape?_fourHex (hcontrol : c.toNat < 0x20) :
    escape? (('u' :: Text.fourHex c.toNat) ++ rest) = some (some c, rest) := by
  have hread := Text.fourHex?_fourHex (show c.toNat < 256 by omega) []
  have hhigh : ¬(0xd800 ≤ c.toNat ∧ c.toNat < 0xdc00) := by omega
  have hlow : ¬(0xdc00 ≤ c.toNat ∧ c.toNat < 0xe000) := by omega
  rw [Text.fourHex_eq (by omega)] at hread ⊢
  rw [List.append_nil] at hread
  simp [escape?, hread, hhigh, hlow]

/-- A written character is read as itself. -/
theorem text?_writtenChar (c : Char) (rest : List Char) :
    text? (writtenChar c ++ rest) = (text? rest).map fun (xs, rest) => (xs.map (c :: ·), rest) := by
  unfold writtenChar
  split
  case h_8 => 
    split
    · rename_i hcontrol
      exact text?_escape (escape?_fourHex hcontrol)
    · rename_i hquote hslash _ _ _ _ _ hcontrol
      exact text?_cons hquote hslash hcontrol
  all_goals exact text?_escape rfl

/-- The characters of a written text are read up to the closing quote. -/
theorem text?_written (cs rest : List Char) :
    text? (cs.flatMap writtenChar ++ '"' :: rest) = some (some cs, rest) := by
  induction cs with
  | nil => rw [List.flatMap_nil, List.nil_append, text?, if_pos rfl]
  | cons c cs ih => rw [List.flatMap_cons, List.append_assoc, text?_writtenChar, ih]; rfl

theorem toList_written (s : String) : (written s).toList = '"' :: (s.toList.flatMap writtenChar ++ ['"']) := by
  simp [written]

/-! ### Blanks and numerals -/

theorem skip_cons (h : isJsonBlank c = false) : skip (c :: rest) = c :: rest := by
  rw [skip, List.dropWhile_cons_of_neg (by simp [h])]

theorem skip_blank (h : isJsonBlank c = true) : skip (c :: rest) = skip rest := by
  rw [skip, List.dropWhile_cons_of_pos h, skip]

theorem skip_indentation (depth : Nat) (rest : List Char) : skip ((indentation depth).toList ++ rest) = skip rest := by
  rw [indentation, String.toList_ofList]
  induction 2 * depth with
  | zero => rfl
  | succ n ih => rw [List.replicate_succ, List.cons_append, skip_blank (by decide), ih]

/-- What may follow a written value: nothing, a comma or the end of the line. -/
def Delimited (rest : List Char) : Prop := ∀ c ∈ rest.head?, c = ',' ∨ c = '\n'

/-- Only zero is written with a zero in front. -/
theorem eq_zero_of_head?_toDigits (n : Nat) (h : (Nat.toDigits 10 n).head? = some '0') : n = 0 := by
  induction n using Nat.strongRecOn with
  | ind n ih =>
    obtain hlt | hge := Nat.lt_or_ge n 10
    · have hall : ∀ m < 10, (Nat.toDigits 10 m).head? = some '0' → m = 0 := by decide
      exact hall n hlt h
    · have hsome : (Nat.toDigits 10 (n / 10)).head?.isSome = true := by simp [Nat.toDigits_ne_nil]
      rw [Nat.toDigits_of_base_le (by decide) hge, List.head?_append, Option.or_of_isSome hsome] at h
      have hzero := ih (n / 10) (Nat.div_lt_self (by omega) (by decide)) h
      omega

/-- The digits of a whole number are read up to what follows the value. -/
theorem unsigned?_toDigits (n : Nat) (h : Delimited rest) :
    unsigned? false (Nat.toDigits 10 n ++ rest) = some (⟨false, Nat.toDigits 10 n, [], none⟩, rest) := by
  have hdigits : ∀ c ∈ Nat.toDigits 10 n, c.isDigit = true := fun _ hc => Checked.isDigit_of_mem_toDigits hc
  have hend : ∀ c ∈ rest.head?, c.isDigit = false := by
    intro c hc
    rcases h c hc with rfl | rfl <;> rfl
  have htake : (Nat.toDigits 10 n ++ rest).takeWhile Char.isDigit = Nat.toDigits 10 n := by
    rw [List.takeWhile_append_of_pos hdigits]
    cases rest with
    | nil => simp
    | cons c rest => simp [hend c rfl]
  have hdrop : (Nat.toDigits 10 n ++ rest).dropWhile Char.isDigit = rest := by
    rw [List.dropWhile_append_of_pos hdigits]
    cases rest with
    | nil => rfl
    | cons c rest => simp [hend c rfl]
  have hempty : (Nat.toDigits 10 n).isEmpty = false := by simp [Nat.toDigits_ne_nil]
  have hzero : ¬((Nat.toDigits 10 n).head? = some '0' ∧ 1 < (Nat.toDigits 10 n).length) := by
    rintro ⟨hhead, hlength⟩
    rw [eq_zero_of_head?_toDigits n hhead] at hlength
    exact absurd hlength (by decide)
  unfold unsigned?
  simp only [htake, hdrop, hempty, Bool.false_or, Bool.and_eq_true, decide_eq_true_eq, if_neg hzero]
  cases rest with
  | nil => rfl
  | cons c rest =>
    rcases h c rfl with rfl | rfl <;> rfl

/-! ### Values -/

theorem value?_quote (rest : List Char) :
    value? ('"' :: rest) = (text? rest).map fun (s, rest) => (text (s.map String.ofList), rest) := by
  rw [value?.eq_def]
  rfl

/-- An array in which items can be read. -/
theorem value?_bracket {items : List Json} {after : List Char} (h : items? (skip rest) = some (items, after)) :
    value? ('[' :: rest) = some (array items, after) := by
  rw [value?.eq_def]
  dsimp only
  rw [if_neg (by decide), if_pos rfl]
  split
  · rename_i close heq
    have hnone : items? (']' :: close) = none := by
      rw [items?.eq_def, value?.eq_def]
      rfl
    rw [heq, hnone] at h
    cases h
  · rw [h]
    rfl

/-- An object in which fields can be read. -/
theorem value?_brace {fields : List (Option String × Json)} {after : List Char}
    (h : fields? (skip rest) = some (fields, after)) : value? ('\x7b' :: rest) = some (object fields, after) := by
  rw [value?.eq_def]
  dsimp only
  rw [if_neg (by decide), if_neg (by decide), if_pos rfl]
  split
  · rename_i close heq
    have hnone : fields? ('\x7d' :: close) = none := by
      rw [fields?.eq_def]
      rfl
    rw [heq, hnone] at h
    cases h
  · rw [h]
    rfl

/-- A value that starts with a digit is a number. -/
theorem value?_digit (h : c.isDigit = true) :
    value? (c :: rest) = (unsigned? false (c :: rest)).map fun (n, rest) => (number n, rest) := by
  obtain ⟨hquote, hbracket, hbrace, hminus⟩ :=
    Checked.forall_digits (fun c => c ≠ '"' ∧ c ≠ '[' ∧ c ≠ '\x7b' ∧ c ≠ '-') (by decide) h
  rw [value?.eq_def]
  dsimp only
  rw [if_neg hquote, if_neg hbracket, if_neg hbrace, if_neg hminus, if_pos h]

/-- A value that is written is read as itself at any depth, whatever follows it. It does not start with a blank. -/
structure Reads (json : Json) : Prop where
  starts : ∀ depth, ∃ c cs, (pretty depth json).toList = c :: cs ∧ isJsonBlank c = false
  value? : ∀ depth rest, Delimited rest → value? ((pretty depth json).toList ++ rest) = some (json, rest)

theorem reads_null : Reads null := by
  have hpretty (depth : Nat) : (pretty depth null).toList = ['n', 'u', 'l', 'l'] := by
    rw [pretty]
    rfl
  refine ⟨fun depth => ⟨_, _, hpretty depth, rfl⟩, fun depth rest _ => ?_⟩
  rw [hpretty, Json.value?.eq_def]
  rfl

theorem reads_bool (b : Bool) : Reads (bool b) := by
  have hpretty (depth : Nat) : (pretty depth (bool b)).toList =
      if b then ['t', 'r', 'u', 'e'] else ['f', 'a', 'l', 's', 'e'] := by
    rw [pretty]
    cases b <;> rfl
  cases b
  · refine ⟨fun depth => ⟨_, _, hpretty depth, rfl⟩, fun depth rest _ => ?_⟩
    rw [hpretty, Json.value?.eq_def]
    rfl
  · refine ⟨fun depth => ⟨_, _, hpretty depth, rfl⟩, fun depth rest _ => ?_⟩
    rw [hpretty, Json.value?.eq_def]
    rfl

theorem reads_text (s : String) : Reads (ofText s) := by
  have hpretty (depth : Nat) : (pretty depth (ofText s)).toList = '"' :: (s.toList.flatMap writtenChar ++ ['"']) := by
    rw [ofText, pretty]
    exact toList_written s
  refine ⟨fun depth => ⟨_, _, hpretty depth, rfl⟩, fun depth rest _ => ?_⟩
  rw [hpretty, List.cons_append, List.append_assoc, List.singleton_append, value?_quote, text?_written]
  simp [ofText]

theorem reads_number (n : Nat) : Reads (ofNat n) := by
  have hpretty (depth : Nat) : (pretty depth (ofNat n)).toList = Nat.toDigits 10 n := by
    rw [ofNat, pretty]
    exact String.toList_ofList
  obtain ⟨c, cs, hcs⟩ := List.exists_cons_of_ne_nil (Nat.toDigits_ne_nil (b := 10) (n := n))
  have hdigit : c.isDigit = true := Checked.isDigit_of_mem_toDigits (hcs ▸ List.mem_cons_self)
  have hstart := Checked.forall_digits (fun c => isJsonBlank c = false) (by decide) hdigit
  refine ⟨fun depth => ⟨c, cs, (hpretty depth).trans hcs, hstart⟩, fun depth rest hrest => ?_⟩
  have hread := unsigned?_toDigits n hrest
  rw [hpretty, hcs, List.cons_append, value?_digit hdigit]
  rw [hcs, List.cons_append] at hread
  rw [hread, ofNat, hcs]
  rfl

/-! ### Arrays and objects -/

theorem delimited_comma (rest : List Char) : Delimited (',' :: rest) := by
  simp [Delimited]

theorem delimited_newline (rest : List Char) : Delimited ('\n' :: rest) := by
  simp [Delimited]

/-- The end of an array or object, on a line of its own. -/
theorem skip_close (depth : Nat) (h : isJsonBlank c = false) :
    skip ('\n' :: ((indentation depth).toList ++ c :: rest)) = c :: rest := by
  rw [skip_blank (by decide), skip_indentation, skip_cons h]

/-- The blanks before a written value are skipped. -/
theorem Reads.skip_pretty {json : Json} (h : Reads json) (depth : Nat) (rest : List Char) :
    skip ((indentation depth).toList ++ ((pretty depth json).toList ++ rest)) = (pretty depth json).toList ++ rest := by
  obtain ⟨c, cs, hcs, hblank⟩ := h.starts depth
  rw [skip_indentation, hcs, List.cons_append, skip_cons hblank]

/-- One or more items are read up to the bracket after them. -/
theorem items?_pretty {items : List Json} (hne : items ≠ []) (h : ∀ item ∈ items, Reads item) (depth closing : Nat)
    (rest : List Char) :
    items? (skip ((prettyItems depth items).toList ++ '\n' :: ((indentation closing).toList ++ ']' :: rest))) =
      some (items, rest) := by
  induction items with
  | nil => exact absurd rfl hne
  | cons item items ih =>
    have hitem := h item List.mem_cons_self
    cases items with
    | nil =>
      have hvalue := hitem.value? depth _ (delimited_newline ((indentation closing).toList ++ ']' :: rest))
      rw [prettyItems, String.toList_append, List.append_assoc, hitem.skip_pretty, items?.eq_def, hvalue]
      simp [skip_close closing (show isJsonBlank ']' = false by rfl)]
    | cons next items =>
      have hrest := ih (List.cons_ne_nil next items) fun i hi => h i (List.mem_cons_of_mem item hi)
      have hvalue := hitem.value? depth _ (delimited_comma ('\n' :: ((prettyItems depth (next :: items)).toList ++
        '\n' :: ((indentation closing).toList ++ ']' :: rest))))
      have htext : (prettyItems depth (item :: next :: items)).toList = (indentation depth).toList ++
          ((pretty depth item).toList ++ ',' :: '\n' :: (prettyItems depth (next :: items)).toList) := by
        rw [prettyItems]
        · simp
        · simp
      rw [htext, List.append_assoc, List.append_assoc, hitem.skip_pretty, items?.eq_def]
      simp only [List.cons_append, hvalue, Option.bind_eq_bind, Option.bind_some]
      rw [skip_cons (show isJsonBlank ',' = false by rfl)]
      simp only [skip_blank (show isJsonBlank '\n' = true by rfl)]
      rw [if_pos, hrest]
      · rfl
      · refine Nat.lt_of_le_of_lt (length_skip _) ?_
        simp
        omega

/-- A written key is read up to the value after it. -/
theorem Reads.key?_written {json : Json} (h : Reads json) (key : String) (depth : Nat) (rest : List Char) :
    key? ((written key).toList ++ ':' :: ' ' :: ((pretty depth json).toList ++ rest)) =
      some (some key, (pretty depth json).toList ++ rest) := by
  obtain ⟨c, cs, hcs, hblank⟩ := h.starts depth
  rw [toList_written, List.cons_append, List.append_assoc, List.singleton_append, key?, text?_written, hcs]
  simp only [Option.bind_eq_bind, Option.bind_some, skip_cons (show isJsonBlank ':' = false by rfl), Option.map_some,
    String.ofList_toList, List.cons_append, skip_blank (show isJsonBlank ' ' = true by rfl), skip_cons hblank]

/-- The blanks before a written key are skipped. -/
theorem skip_written (key : String) (depth : Nat) (rest : List Char) :
    skip ((indentation depth).toList ++ ((written key).toList ++ rest)) = (written key).toList ++ rest := by
  rw [skip_indentation, toList_written, List.cons_append, skip_cons (show isJsonBlank '"' = false by rfl)]

/-- One or more fields are read up to the brace after them. -/
theorem fields?_pretty {fields : List (String × Json)} (hne : fields ≠ []) (h : ∀ field ∈ fields, Reads field.2)
    (depth closing : Nat) (rest : List Char) :
    fields? (skip ((prettyFields depth (fields.map fun (k, v) => (some k, v))).toList ++
      '\n' :: ((indentation closing).toList ++ '\x7d' :: rest))) =
      some (fields.map fun (k, v) => (some k, v), rest) := by
  induction fields with
  | nil => exact absurd rfl hne
  | cons field fields ih =>
    obtain ⟨key, value⟩ := field
    have hfield : Reads value := h (key, value) List.mem_cons_self
    cases fields with
    | nil =>
      have hvalue := hfield.value? depth _ (delimited_newline ((indentation closing).toList ++ '\x7d' :: rest))
      have hkey := hfield.key?_written key depth ('\n' :: ((indentation closing).toList ++ '\x7d' :: rest))
      have htext : (prettyFields depth [(some key, value)]).toList = (indentation depth).toList ++
          ((written key).toList ++ ':' :: ' ' :: (pretty depth value).toList) := by
        rw [prettyFields]
        simp
      simp only [List.map_cons, List.map_nil]
      rw [htext]
      simp only [List.append_assoc, List.cons_append]
      rw [skip_written, fields?.eq_def, hkey]
      simp only [Option.bind_eq_bind, Option.bind_some]
      rw [if_pos, hvalue]
      · simp [skip_close closing (show isJsonBlank '\x7d' = false by rfl)]
      · simp
        omega
    | cons next fields =>
      have hrest := ih (List.cons_ne_nil next fields) fun f hf => h f (List.mem_cons_of_mem _ hf)
      generalize htail : (next :: fields).map (fun (k, v) => (some k, v)) = tail at hrest ⊢
      have hvalue := hfield.value? depth _ (delimited_comma ('\n' :: ((prettyFields depth tail).toList ++
        '\n' :: ((indentation closing).toList ++ '\x7d' :: rest))))
      have hkey := hfield.key?_written key depth (',' :: '\n' :: ((prettyFields depth tail).toList ++
        '\n' :: ((indentation closing).toList ++ '\x7d' :: rest)))
      have htext : (prettyFields depth ((some key, value) :: tail)).toList = (indentation depth).toList ++
          ((written key).toList ++ ':' :: ' ' :: ((pretty depth value).toList ++
            ',' :: '\n' :: (prettyFields depth tail).toList)) := by
        rw [prettyFields]
        · simp
        · rw [← htail]
          simp
      rw [List.map_cons, htail, htext]
      simp only [List.append_assoc, List.cons_append]
      rw [skip_written, fields?.eq_def, hkey]
      simp only [Option.bind_eq_bind, Option.bind_some]
      rw [if_pos, hvalue]
      · simp only [Option.bind_some, skip_cons (show isJsonBlank ',' = false by rfl),
          skip_blank (show isJsonBlank '\n' = true by rfl)]
        rw [if_pos, hrest]
        · rfl
        · refine Nat.lt_of_le_of_lt (length_skip _) ?_
          simp
          omega
      · simp
        omega

theorem reads_array {items : List Json} (h : ∀ item ∈ items, Reads item) : Reads (array items) := by
  cases items with
  | nil =>
    have hpretty (depth : Nat) : (pretty depth (array [])).toList = ['[', ']'] := by
      rw [pretty]
      rfl
    refine ⟨fun depth => ⟨_, _, hpretty depth, rfl⟩, fun depth rest _ => ?_⟩
    rw [hpretty, Json.value?.eq_def]
    rfl
  | cons item items =>
    have hpretty (depth : Nat) : (pretty depth (array (item :: items))).toList =
        '[' :: '\n' :: ((prettyItems (depth + 1) (item :: items)).toList ++
          '\n' :: ((indentation depth).toList ++ [']'])) := by
      rw [pretty]
      simp
    refine ⟨fun depth => ⟨_, _, hpretty depth, rfl⟩, fun depth rest _ => ?_⟩
    have hitems := items?_pretty (List.cons_ne_nil item items) h (depth + 1) depth rest
    rw [hpretty]
    simp only [List.cons_append, List.append_assoc, List.nil_append]
    exact value?_bracket ((congrArg items? (skip_blank (by decide))).trans hitems)

theorem reads_object {fields : List (String × Json)} (h : ∀ field ∈ fields, Reads field.2) :
    Reads (ofFields fields) := by
  cases fields with
  | nil =>
    have hpretty (depth : Nat) : (pretty depth (ofFields [])).toList = ['\x7b', '\x7d'] := by
      rw [ofFields, List.map_nil, pretty]
      rfl
    refine ⟨fun depth => ⟨_, _, hpretty depth, rfl⟩, fun depth rest _ => ?_⟩
    rw [hpretty, Json.value?.eq_def]
    rfl
  | cons field fields =>
    have hpretty (depth : Nat) : (pretty depth (ofFields (field :: fields))).toList =
        '\x7b' :: '\n' :: ((prettyFields (depth + 1) ((field :: fields).map fun (k, v) => (some k, v))).toList ++
          '\n' :: ((indentation depth).toList ++ ['\x7d'])) := by
      rw [ofFields, List.map_cons, pretty]
      simp
    refine ⟨fun depth => ⟨_, _, hpretty depth, rfl⟩, fun depth rest _ => ?_⟩
    have hfields := fields?_pretty (List.cons_ne_nil field fields) h (depth + 1) depth rest
    rw [hpretty]
    simp only [List.cons_append, List.append_assoc, List.nil_append]
    exact value?_brace ((congrArg fields? (skip_blank (by decide))).trans hfields)

/-- Trees made of texts, whole numbers, truth values and nulls, and of what holds them under texts as keys. -/
inductive Plain : Json → Prop where
  | null : Plain null
  | bool (b : Bool) : Plain (bool b)
  | number (n : Nat) : Plain (ofNat n)
  | text (s : String) : Plain (ofText s)
  | array (items : List Json) (h : ∀ item ∈ items, Plain item) : Plain (array items)
  | object (fields : List (String × Json)) (h : ∀ field ∈ fields, Plain field.2) : Plain (ofFields fields)

/-- A written value is read as itself, and reading goes on behind it. -/
theorem Plain.reads {json : Json} (h : Plain json) : Reads json := by
  induction h with
  | null => exact reads_null
  | bool b => exact reads_bool b
  | number n => exact reads_number n
  | text s => exact reads_text s
  | array items _ ih => exact reads_array ih
  | object fields _ ih => exact reads_object ih

/-- A written document is read as itself. -/
theorem Plain.parse?_pretty {json : Json} (h : Plain json) (depth : Nat) : parse? (pretty depth json) = some json := by
  obtain ⟨c, cs, hcs, hblank⟩ := h.reads.starts depth
  have hvalue := h.reads.value? depth [] (fun c hc => by simp at hc)
  rw [List.append_nil] at hvalue
  have hskip : skip (pretty depth json).toList = (pretty depth json).toList := by rw [hcs, skip_cons hblank]
  rw [parse?, hskip, hvalue]
  rfl

end Barrage.Json
