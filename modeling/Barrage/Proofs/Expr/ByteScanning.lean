import Barrage.Proofs.Expr.SourceNames
import Barrage.Proofs.Number.Words
import Barrage.Proofs.Text.Positions

/-!
# Scanning by bytes

The scanner can be run on the bytes of a text, with a position and one byte of lookahead. It steps over the bytes
that it has recognized as ASCII one by one, over an exponent mark with what follows it and over an escape two by
two, and over any other character of a key by the size of that character. So it stays at positions between
characters: it gives the tokens that the scanner of characters gives, and is never stuck.

## Main definitions

* `ByteScan.lexemes` — the tokens of a text from a position on
* `Lexeme.Placed` — tokens that start between characters of a text, and of which the numbers have no sign

## Main results

* `ByteScan.lexemes_eq` — the tokens by bytes are the tokens by characters
* `Lexeme.placed_of_mem`, `Lexeme.isValid_of_error` — where tokens and faults are
-/

namespace Barrage

open Text (charAt charAt? slice lead Leaves)

/-! ### The scanner -/

namespace ByteScan

/-- Whether the number that goes on at a position is a float, and where it ends. -/
def number (src : String) (isFloat : Bool) (pos : Nat) : Guarded (Bool × Nat) :=
  if pos < src.utf8ByteSize then do
    let c ← charAt src pos
    if c.isDigit || c = '_' then number src isFloat (pos + 1)
    else if c = '.' && !isFloat && (charAt? src (pos + 1)).any Char.isDigit then number src true (pos + 1)
    else if (c = 'e' || c = 'E') && (charAt? src (pos + 1)).any (fun d => d.isDigit || d = '-' || d = '+') then
      number src true (pos + 2)
    else .ok (isFloat, pos)
  else .ok (isFloat, pos)
termination_by src.utf8ByteSize - pos

/-- Where the word that goes on at a position ends. -/
def word (src : String) (pos : Nat) : Guarded Nat :=
  if pos < src.utf8ByteSize then do
    let c ← charAt src pos
    if Scanned.continuesName c then word src (pos + 1) else .ok pos
  else .ok pos
termination_by src.utf8ByteSize - pos

theorem lt_of_charAt? {src : String} {pos : Nat} {c : Char} (h : charAt? src pos = some c) :
    pos < src.utf8ByteSize := by
  obtain ⟨b, hb, -⟩ := Option.map_eq_some_iff.1 h
  obtain ⟨hpos, -⟩ := Array.getElem?_eq_some_iff.1 hb
  exact hpos

/-- The content of the key that goes on at a position, and where it ends. -/
def key (src : String) (start pos : Nat) : Guarded (List Char × Nat) :=
  match h : charAt? src pos with
  | none => .error (.refused ⟨start, .unterminatedKey⟩)
  | some c =>
    have := lt_of_charAt? h
    if c = '"' then .ok ([], pos + 1)
    else if c = '\\' then
      let escaped := (charAt? src (pos + 1)).getD '\x00'
      if escaped = '"' || escaped = '\\' then do
        let (content, stop) ← key src start (pos + 2)
        .ok (escaped :: content, stop)
      else .error (.refused ⟨pos, .unsupportedEscape⟩)
    else do
      let rest ← slice src pos src.utf8ByteSize
      let c := rest.toList.head?.getD '\x00'
      let (content, stop) ← key src start (pos + c.utf8Size)
      .ok (c :: content, stop)
termination_by src.utf8ByteSize - pos
decreasing_by
  · omega
  · have := (rest.toList.head?.getD '\x00').utf8Size_pos
    omega

/-- The first symbol that opens the text at a position, and where it ends. -/
def symbol (src : String) (pos : Nat) (c : Char) : Guarded (Token × Nat) := do
  let rest ← slice src pos src.utf8ByteSize
  match Symbol.all.find? fun s => s.chars.isPrefixOf rest.toList with
  | some s => .ok (.symbol s, pos + byteLength s.chars)
  | none => .error (.refused ⟨pos, .unexpectedCharacter c⟩)

/-- The token that a byte which is not blank opens at a position, and where it ends. -/
def token (src : String) (pos : Nat) (c : Char) : Guarded (Token × Nat) :=
  if c.isDigit then do
    let (isFloat, stop) ← number src false pos
    let text ← slice src pos stop
    let token ← (Scanned.numberToken pos text.toList isFloat).mapError .refused
    .ok (token, stop)
  else if Scanned.opensName c then do
    let stop ← word src pos
    let text ← slice src pos stop
    .ok (.ident text, stop)
  else if c = '"' then do
    let (content, stop) ← key src pos (pos + 1)
    .ok (.key (String.ofList content), stop)
  else symbol src pos c

/-- The tokens of a text from a position on. A token that does not end behind its start would be read for
ever, so the scan is stuck at it. -/
def lexemes (src : String) (pos : Nat) : Guarded (List Lexeme) :=
  if pos < src.utf8ByteSize then do
    let c ← charAt src pos
    if Text.isSourceBlank c then lexemes src (pos + 1)
    else
      let (token, stop) ← token src pos c
      if pos < stop then (lexemes src stop).map (⟨pos, token⟩ :: ·) else .error .stuck
  else .ok []
termination_by src.utf8ByteSize - pos

/-! ### Classes of bytes -/

theorem isDigit_lt {c : Char} (h : c.isDigit = true) : c.toNat < 0x80 :=
  Nat.lt_of_le_of_lt (Char.isDigit_iff_toNat.1 h).2 (by decide)

theorem isAlpha_lt {c : Char} (h : c.isAlpha = true) : c.toNat < 0x80 := by
  rcases Bool.or_eq_true_iff.1 h with h | h
  · have hle : c.val ≤ 'Z'.val := (of_decide_eq_true h).2
    exact Nat.lt_of_le_of_lt (UInt32.le_iff_toNat_le.1 hle) (by decide)
  · have hle : c.val ≤ 'z'.val := of_decide_eq_true ((Bool.and_eq_true _ _).mp h).2
    exact Nat.lt_of_le_of_lt (UInt32.le_iff_toNat_le.1 hle) (by decide)

theorem opensName_lt {c : Char} (h : Scanned.opensName c = true) : c.toNat < 0x80 := by
  simp only [Scanned.opensName, Bool.or_eq_true, decide_eq_true_eq] at h
  obtain h | rfl := h
  · exact isAlpha_lt h
  · decide

theorem continuesName_lt {c : Char} (h : Scanned.continuesName c = true) : c.toNat < 0x80 := by
  simp only [Scanned.continuesName, Char.isAlphanum, Bool.or_eq_true, decide_eq_true_eq] at h
  obtain (h | h) | rfl := h
  · exact isAlpha_lt h
  · exact isDigit_lt h
  · decide

theorem isSourceBlank_lt {c : Char} (h : Text.isSourceBlank c = true) : c.toNat < 0x80 := by
  simp only [Text.isSourceBlank, Bool.or_eq_true, decide_eq_true_eq] at h
  obtain (((rfl | rfl) | rfl) | rfl) | rfl := h <;> decide

@[simp] theorem isDigit_lead (c : Char) : (lead c).isDigit = c.isDigit := Text.apply_lead (fun _ => isDigit_lt) c

@[simp] theorem opensName_lead (c : Char) : Scanned.opensName (lead c) = Scanned.opensName c :=
  Text.apply_lead (fun _ => opensName_lt) c

@[simp] theorem continuesName_lead (c : Char) : Scanned.continuesName (lead c) = Scanned.continuesName c :=
  Text.apply_lead (fun _ => continuesName_lt) c

@[simp] theorem isSourceBlank_lead (c : Char) : Text.isSourceBlank (lead c) = Text.isSourceBlank c :=
  Text.apply_lead (fun _ => isSourceBlank_lt) c

theorem continuesDigits_lt {c : Char} (h : (c.isDigit || c = '_') = true) : c.toNat < 0x80 := by
  simp only [Bool.or_eq_true, decide_eq_true_eq] at h
  obtain h | rfl := h
  · exact isDigit_lt h
  · decide

/-- Digits and signs can stand behind an exponent mark. -/
theorem exponent_lt {d : Char} (h : (d.isDigit || d = '-' || d = '+') = true) : d.toNat < 0x80 := by
  simp only [Bool.or_eq_true, decide_eq_true_eq] at h
  obtain (h | rfl) | rfl := h
  · exact isDigit_lt h
  · decide
  · decide

/-! ### Numbers and words -/

variable {src : String} {pos : Nat} {c : Char} {cs : List Char}

/-- What is looked up behind an ASCII character is the first byte of the next one. -/
theorem charAt?_succ {p : Char → Bool} (hp : ∀ d, p d = true → d.toNat < 0x80) (h : Leaves src pos (c :: cs))
    (hc : c.toNat < 0x80) : (charAt? src (pos + 1)).any p = cs.head?.any p := by
  rw [(h.succ hc).charAt?_eq]
  cases cs with
  | nil => rfl
  | cons d ds => exact Text.apply_lead hp d

/-- One step through a number. -/
theorem number_cons (h : Leaves src pos (c :: cs)) (isFloat : Bool) :
    number src isFloat pos =
      if c.isDigit || c = '_' then number src isFloat (pos + 1)
      else if c = '.' && !isFloat && cs.head?.any Char.isDigit then number src true (pos + 1)
      else if (c = 'e' || c = 'E') && cs.head?.any (fun d => d.isDigit || d = '-' || d = '+') then
        number src true (pos + 2)
      else .ok (isFloat, pos) := by
  have hpoint : (decide (c = '.') && !isFloat && (charAt? src (pos + 1)).any Char.isDigit) =
      (decide (c = '.') && !isFloat && cs.head?.any Char.isDigit) := by
    rcases eq_or_ne c '.' with hc | hc
    · rw [charAt?_succ (fun _ => isDigit_lt) h (by rw [hc]; decide)]
    · simp [hc]
  have hmark : ((decide (c = 'e') || decide (c = 'E')) &&
        (charAt? src (pos + 1)).any fun d => d.isDigit || d = '-' || d = '+') =
      ((decide (c = 'e') || decide (c = 'E')) && cs.head?.any fun d => d.isDigit || d = '-' || d = '+') := by
    by_cases hc : c = 'e' ∨ c = 'E'
    · rw [charAt?_succ (fun _ => exponent_lt) h (by obtain rfl | rfl := hc <;> decide)]
    · obtain ⟨he, hE⟩ := not_or.1 hc
      simp [he, hE]
  have hascii {d : Char} (hd : d.toNat < 0x80) : decide (lead c = d) = decide (c = d) :=
    decide_eq_decide.2 (Text.lead_eq_iff hd)
  rw [number, if_pos h.lt, h.charAt_eq, Except.ok_bind, isDigit_lead, hascii (by decide), hascii (by decide),
    hascii (by decide), hascii (by decide), hpoint, hmark]

theorem number_eq {isFloat : Bool} (h : Leaves src pos cs) :
    number src isFloat pos =
      .ok ((Scanned.number isFloat cs).2.1, pos + byteLength (Scanned.number isFloat cs).1) := by
  fun_induction Scanned.number isFloat cs generalizing pos with
  | case1 isFloat =>
    rw [number, if_neg h.not_lt]
    rfl
  | case2 isFloat c hc =>
    have hascii : c.toNat < 0x80 := continuesDigits_lt hc
    rw [number_cons h, if_pos hc, number, if_neg (h.succ hascii).not_lt, byteLength_cons,
      Text.utf8Size_of_ascii hascii]
    rfl
  | case3 isFloat c hc =>
    rw [number_cons h, if_neg hc]
    simp
  | case4 isFloat c d rest hc taken isFloat' rest' hmore ih =>
    have hascii := continuesDigits_lt hc
    rw [number_cons h, if_pos hc, ih (h.succ hascii), hmore, byteLength_cons, Text.utf8Size_of_ascii hascii,
      Nat.add_assoc]
  | case5 isFloat c d rest hc hpoint taken isFloat' rest' hmore ih =>
    have hascii : c.toNat < 0x80 := by
      simp only [Bool.and_eq_true, decide_eq_true_eq] at hpoint
      rw [hpoint.1.1]
      decide
    rw [number_cons h, if_neg hc, List.head?_cons, Option.any_some, if_pos hpoint, ih (h.succ hascii), hmore,
      byteLength_cons, Text.utf8Size_of_ascii hascii, Nat.add_assoc]
  | case6 isFloat c d rest hc hpoint hmark taken isFloat' rest' hmore ih =>
    obtain ⟨hc', hd⟩ := Bool.and_eq_true_iff.1 hmark
    have hascii : c.toNat < 0x80 := by
      simp only [Bool.or_eq_true, decide_eq_true_eq] at hc'
      obtain rfl | rfl := hc' <;> decide
    have hrest : Leaves src (pos + 2) rest := (h.succ hascii).succ (exponent_lt hd)
    rw [number_cons h, if_neg hc, List.head?_cons, Option.any_some, Option.any_some, if_neg hpoint, if_pos hmark,
      ih hrest, hmore, byteLength_cons, byteLength_cons, Text.utf8Size_of_ascii hascii,
      Text.utf8Size_of_ascii (exponent_lt hd), ← Nat.add_assoc 1 1, ← Nat.add_assoc pos]
  | case7 isFloat c d rest hc hpoint hmark =>
    rw [number_cons h, if_neg hc, List.head?_cons, Option.any_some, Option.any_some, if_neg hpoint, if_neg hmark]
    rfl

/-- What a number takes and what it leaves make up the text. -/
theorem number_append (isFloat : Bool) (cs : List Char) :
    (Scanned.number isFloat cs).1 ++ (Scanned.number isFloat cs).2.2 = cs := by
  fun_induction Scanned.number isFloat cs <;> simp_all

theorem word_eq (h : Leaves src pos cs) :
    word src pos = .ok (pos + byteLength (cs.takeWhile Scanned.continuesName)) := by
  induction cs generalizing pos with
  | nil =>
    rw [word, if_neg h.not_lt]
    rfl
  | cons c cs ih =>
    rw [word, if_pos h.lt, h.charAt_eq, Except.ok_bind, continuesName_lead]
    split
    · rename_i hc
      have hascii := continuesName_lt hc
      rw [ih (h.succ hascii), List.takeWhile_cons_of_pos hc, byteLength_cons, Text.utf8Size_of_ascii hascii,
        Nat.add_assoc]
    · rename_i hc
      rw [List.takeWhile_cons_of_neg hc]
      rfl

/-! ### Keys -/

/-- The characters that a key takes and those it leaves make up the text. -/
theorem key_append {start offset : Nat} {cs content taken rest : List Char}
    (h : Scanned.key start offset cs = .ok (content, taken, rest)) : taken ++ rest = cs := by
  fun_induction Scanned.key start offset cs generalizing content taken rest with
  | case1 => cases h
  | case2 =>
    cases h
    rfl
  | case3 => cases h
  | case4 offset c tail _ ih =>
    obtain ⟨⟨content', taken', rest'⟩, hmore, h⟩ := Except.bind_eq_ok_iff.1 h
    cases h
    rw [← ih hmore]
    rfl
  | case5 => cases h
  | case6 offset c tail _ _ _ ih =>
    obtain ⟨⟨content', taken', rest'⟩, hmore, h⟩ := Except.bind_eq_ok_iff.1 h
    cases h
    rw [← ih hmore]
    rfl

theorem key_nil {start : Nat} (h : Leaves src pos []) :
    key src start pos = .error (.refused ⟨start, .unterminatedKey⟩) := by
  have hnone : charAt? src pos = none := h.charAt?_eq
  rw [key]
  split
  · rfl
  · rename_i c hc
    rw [hnone] at hc
    cases hc

/-- One step through a key: an escape takes two bytes, any other character those of its encoding. -/
theorem key_cons {start : Nat} (h : Leaves src pos (c :: cs)) :
    key src start pos =
      if c = '"' then .ok ([], pos + 1)
      else if c = '\\' then
        if cs.head?.any (fun d => d = '"' || d = '\\') then
          (key src start (pos + 2)).map fun r => (cs.head?.getD '\x00' :: r.1, r.2)
        else .error (.refused ⟨pos, .unsupportedEscape⟩)
      else (key src start (pos + c.utf8Size)).map fun r => (c :: r.1, r.2) := by
  have hsome : charAt? src pos = some (lead c) := h.charAt?_eq
  rw [key]
  split
  · rename_i hnone
    rw [hsome] at hnone
    cases hnone
  rename_i c' hc'
  cases hc'.symm.trans hsome
  simp only [Text.lead_eq_iff (c := c) (d := '"') (by decide), Text.lead_eq_iff (c := c) (d := '\\') (by decide)]
  refine if_congr Iff.rfl rfl ?_
  rcases eq_or_ne c '\\' with hc | hc
  · rw [if_pos hc, if_pos hc, (h.succ (by rw [hc]; decide)).charAt?_eq]
    cases cs with
    | nil => rfl
    | cons d ds =>
      have hquote : lead d = '"' ↔ d = '"' := Text.lead_eq_iff (by decide)
      have hslash : lead d = '\\' ↔ d = '\\' := Text.lead_eq_iff (by decide)
      simp only [List.head?_cons, Option.map_some, Option.getD_some, Option.any_some, hquote, hslash]
      refine if_ctx_congr Iff.rfl (fun hd => ?_) fun _ => rfl
      have hascii : d.toNat < 0x80 := by
        simp only [Bool.or_eq_true, decide_eq_true_eq] at hd
        obtain rfl | rfl := hd <;> decide
      rw [Text.lead_of_ascii hascii]
      cases key src start (pos + 2) <;> rfl
  · rw [if_neg hc, if_neg hc, h.slice_end, Except.ok_bind, String.toList_ofList, List.head?_cons, Option.getD_some]
    cases key src start (pos + c.utf8Size) <;> rfl

theorem key_eq {start : Nat} (h : Leaves src pos cs) :
    key src start pos = ((Scanned.key start pos cs).map fun r => (r.1, pos + byteLength r.2.1)).mapError .refused := by
  fun_induction Scanned.key start pos cs with
  | case1 => exact key_nil h
  | case2 offset rest =>
    rw [key_cons h, if_pos rfl]
    rfl
  | case3 offset =>
    rw [key_cons h]
    rfl
  | case4 offset c rest hc ih =>
    have hascii : c.toNat < 0x80 := by
      simp only [Bool.or_eq_true, decide_eq_true_eq] at hc
      obtain rfl | rfl := hc <;> decide
    have hrest : Leaves src (offset + 2) rest := (h.succ (by decide)).succ hascii
    rw [key_cons h, if_neg (by decide), if_pos rfl, List.head?_cons, Option.any_some, if_pos hc, ih hrest]
    cases Scanned.key start (offset + 2) rest with
    | error => rfl
    | ok r =>
      have hlength : byteLength ('\\' :: c :: r.2.1) = 2 + byteLength r.2.1 := by
        rw [byteLength_cons, byteLength_cons, Text.utf8Size_of_ascii hascii, ← Nat.add_assoc]
        rfl
      change Except.ok (c :: r.1, offset + 2 + byteLength r.2.1) =
        Except.ok (c :: r.1, offset + byteLength ('\\' :: c :: r.2.1))
      rw [hlength, Nat.add_assoc]
  | case5 offset c rest hc =>
    rw [key_cons h, if_neg (by decide), if_pos rfl, List.head?_cons, Option.any_some, if_neg hc]
    rfl
  | case6 offset c rest hquote hlast hslash ih =>
    have hplain : c ≠ '\\' := by
      intro hc
      cases rest with
      | nil => exact hlast hc rfl
      | cons d ds => exact hslash d ds hc rfl
    rw [key_cons h, if_neg hquote, if_neg hplain, ih h.tail]
    cases Scanned.key start (offset + c.utf8Size) rest with
    | error => rfl
    | ok r =>
      change Except.ok (c :: r.1, offset + c.utf8Size + byteLength r.2.1) =
        Except.ok (c :: r.1, offset + byteLength (c :: r.2.1))
      rw [byteLength_cons, Nat.add_assoc]

/-! ### Symbols -/

theorem strip?_eq (front cs : List Char) :
    Text.strip? front cs = if front.isPrefixOf cs then some (cs.drop front.length) else none := by
  fun_induction Text.strip? front cs with
  | case1 => rfl
  | case2 => rfl
  | case3 c front cs ih =>
    rw [ih, List.isPrefixOf_cons_cons_self]
    rfl
  | case4 c front d cs hne =>
    rw [List.isPrefixOf_cons_cons, beq_false_of_ne hne]
    rfl

theorem symbol?_eq (cs : List Char) :
    Scanned.symbol? cs = (Symbol.all.find? fun s => s.chars.isPrefixOf cs).map
      fun s => ⟨.symbol s, s.chars, cs.drop s.chars.length⟩ := by
  unfold Scanned.symbol?
  generalize Symbol.all = symbols
  induction symbols with
  | nil => rfl
  | cons s symbols ih =>
    rw [List.findSome?_cons, List.find?_cons, strip?_eq, ih]
    cases s.chars.isPrefixOf cs <;> rfl

theorem symbol_eq (h : Leaves src pos cs) (c : Char) :
    symbol src pos c = (Scanned.symbol? cs).elim (.error (.refused ⟨pos, .unexpectedCharacter c⟩))
      fun s => .ok (s.token, pos + byteLength s.taken) := by
  rw [symbol, h.slice_end, Except.ok_bind, symbol?_eq, String.toList_ofList]
  cases Symbol.all.find? fun s => s.chars.isPrefixOf cs <;> rfl

/-! ### Tokens -/

/-- A token takes characters, and those that it takes and leaves make up the text. -/
theorem next_append {offset : Nat} {s : Scanned} (h : Scanned.next offset c cs = .ok s) :
    s.taken ≠ [] ∧ s.taken ++ s.rest = c :: cs := by
  unfold Scanned.next at h
  split at h
  · obtain ⟨token, -, h⟩ := Except.bind_eq_ok_iff.1 h
    cases h
    exact ⟨List.cons_ne_nil _ _, congrArg (c :: ·) (number_append false cs)⟩
  split at h
  · cases h
    exact ⟨List.cons_ne_nil _ _, congrArg (c :: ·) List.takeWhile_append_dropWhile⟩
  split at h
  · obtain ⟨⟨content, taken, rest⟩, hkey, h⟩ := Except.bind_eq_ok_iff.1 h
    cases h
    exact ⟨List.cons_ne_nil _ _, congrArg (c :: ·) (key_append hkey)⟩
  split at h
  · rename_i scanned hsymbol
    cases h
    rw [symbol?_eq] at hsymbol
    obtain ⟨symbol, hfind, rfl⟩ := Option.map_eq_some_iff.1 hsymbol
    have hopens : symbol.chars.isPrefixOf (c :: cs) = true := by simpa using List.find?_some hfind
    obtain ⟨rest, hrest⟩ := List.isPrefixOf_iff_prefix.1 hopens
    refine ⟨by cases symbol <;> exact List.cons_ne_nil _ _, ?_⟩
    change symbol.chars ++ (c :: cs).drop symbol.chars.length = c :: cs
    rw [← hrest, List.drop_left]
  · cases h

theorem token_eq (h : Leaves src pos (c :: cs)) :
    token src pos (lead c) =
      ((Scanned.next pos c cs).map fun s => (s.token, pos + byteLength s.taken)).mapError .refused := by
  unfold token Scanned.next
  rw [isDigit_lead, opensName_lead]
  split
  · rename_i hdigit
    have hascii := isDigit_lt hdigit
    have hstop : number src false pos = .ok ((Scanned.number false cs).2.1,
        pos + byteLength (c :: (Scanned.number false cs).1)) := by
      rw [number_cons h, if_pos (by rw [hdigit]; rfl), number_eq (h.succ hascii), byteLength_cons,
        Text.utf8Size_of_ascii hascii, Nat.add_assoc]
    have htext : slice src pos (pos + byteLength (c :: (Scanned.number false cs).1)) =
        .ok (String.ofList (c :: (Scanned.number false cs).1)) := by
      have hparts : Leaves src pos ((c :: (Scanned.number false cs).1) ++ (Scanned.number false cs).2.2) := by
        rwa [List.cons_append, number_append]
      exact hparts.slice_eq
    rw [hstop, Except.ok_bind]
    dsimp only
    rw [htext, Except.ok_bind, String.toList_ofList]
    cases Scanned.numberToken pos (c :: (Scanned.number false cs).1) (Scanned.number false cs).2.1 <;> rfl
  split
  · rename_i hopens
    have hcontinues := Scanned.continuesName_of_opensName hopens
    have htext : slice src pos (pos + byteLength ((c :: cs).takeWhile Scanned.continuesName)) =
        .ok (String.ofList ((c :: cs).takeWhile Scanned.continuesName)) := by
      have hparts : Leaves src pos
          ((c :: cs).takeWhile Scanned.continuesName ++ (c :: cs).dropWhile Scanned.continuesName) := by
        rwa [List.takeWhile_append_dropWhile]
      exact hparts.slice_eq
    rw [word_eq h, Except.ok_bind, htext, List.takeWhile_cons_of_pos hcontinues]
    rfl
  simp only [Text.lead_eq_iff (c := c) (d := '"') (by decide)]
  split
  · rename_i hquote
    have hascii : c.toNat < 0x80 := by rw [hquote]; decide
    rw [key_eq (h.succ hascii)]
    cases Scanned.key pos (pos + 1) cs with
    | error => rfl
    | ok r =>
      change Except.ok (Token.key (String.ofList r.1), pos + 1 + byteLength r.2.1) =
        Except.ok (Token.key (String.ofList r.1), pos + byteLength (c :: r.2.1))
      rw [byteLength_cons, Text.utf8Size_of_ascii hascii, Nat.add_assoc]
  · rw [symbol_eq h]
    cases Scanned.symbol? (c :: cs) <;> rfl

/-- The tokens by bytes are the tokens by characters. -/
theorem lexemes_eq (h : Leaves src pos cs) :
    lexemes src pos = (Lexeme.ofChars pos cs).mapError .refused := by
  fun_induction Lexeme.ofChars pos cs with
  | case1 =>
    rw [lexemes, if_neg h.not_lt]
    rfl
  | case2 offset c cs hblank ih =>
    rw [lexemes, if_pos h.lt, h.charAt_eq, Except.ok_bind, isSourceBlank_lead, if_pos hblank,
      ih (h.succ (isSourceBlank_lt hblank))]
  | case3 offset c cs hblank e hnext =>
    rw [lexemes, if_pos h.lt, h.charAt_eq, Except.ok_bind, isSourceBlank_lead, if_neg hblank, token_eq h, hnext]
    rfl
  | case4 offset c cs hblank s hnext ih =>
    obtain ⟨htaken, happend⟩ := next_append hnext
    have hrest : Leaves src (offset + byteLength s.taken) s.rest := Leaves.skip (by rwa [happend])
    have hlt : offset < offset + byteLength s.taken := Nat.lt_add_of_pos_right (byteLength_pos htaken)
    rw [lexemes, if_pos h.lt, h.charAt_eq, Except.ok_bind, isSourceBlank_lead, if_neg hblank, token_eq h, hnext]
    change (if offset < offset + byteLength s.taken then _ else _) = _
    rw [if_pos hlt, ih hrest]
    cases Lexeme.ofChars (offset + byteLength s.taken) s.rest <;> rfl

end ByteScan

/-! ### Places -/

namespace Lexeme

variable {src : String} {pos : Nat} {cs : List Char}

/-- Tokens that start between characters of a text; if they are whole numbers, these have no sign. -/
structure Placed (src : String) (l : Lexeme) : Prop where
  isValid : String.Pos.Raw.IsValid src ⟨l.offset⟩
  unsigned : ∀ n, l.token = .int n → 0 ≤ n.toInt

theorem unsigned_of_numberToken {offset : Nat} {c : Char} {taken : List Char} {isFloat : Bool} {n : Int64}
    (h : Scanned.numberToken offset (c :: taken) isFloat = .ok (.int n)) (hc : c.isDigit = true) : 0 ≤ n.toInt := by
  have hunderscore : c ≠ '_' := Checked.forall_digits (· ≠ '_') (by decide) hc
  have hdigits : (c :: taken).filter (· != '_') = c :: taken.filter (· != '_') :=
    List.filter_cons_of_pos (bne_iff_ne.2 hunderscore)
  unfold Scanned.numberToken at h
  rw [hdigits] at h
  dsimp only at h
  split at h
  · split at h <;> cases h
  · split at h
    · rename_i hword
      cases h
      exact Checked.nonneg_of_ofText? hc hword
    · cases h

theorem placed_of_next {c : Char} {s : Scanned} (h : Leaves src pos (c :: cs))
    (hnext : Scanned.next pos c cs = .ok s) : Placed src ⟨pos, s.token⟩ := by
  refine ⟨h.isValid, fun n hn => ?_⟩
  change s.token = .int n at hn
  unfold Scanned.next at hnext
  split at hnext
  · rename_i hc
    obtain ⟨token, htoken, hnext⟩ := Except.bind_eq_ok_iff.1 hnext
    cases hnext
    cases hn
    exact unsigned_of_numberToken htoken hc
  split at hnext
  · cases hnext
    cases hn
  split at hnext
  · obtain ⟨r, -, hnext⟩ := Except.bind_eq_ok_iff.1 hnext
    cases hnext
    cases hn
  split at hnext
  · rename_i hsymbol
    cases hnext
    obtain ⟨symbol, -, hsymbol⟩ := List.exists_of_findSome?_eq_some hsymbol
    obtain ⟨rest, -, rfl⟩ := Option.map_eq_some_iff.1 hsymbol
    cases hn
  · cases hnext

/-- The tokens of a text start between its characters. -/
theorem placed_of_mem {tokens : List Lexeme} {l : Lexeme} (h : Leaves src pos cs)
    (htokens : ofChars pos cs = .ok tokens) (hl : l ∈ tokens) : Placed src l := by
  fun_induction ofChars pos cs generalizing tokens with
  | case1 =>
    cases htokens
    cases hl
  | case2 offset c cs hblank ih => exact ih (h.succ (ByteScan.isSourceBlank_lt hblank)) htokens hl
  | case3 => cases htokens
  | case4 offset c cs _ s hnext ih =>
    have hrest : Leaves src (offset + byteLength s.taken) s.rest :=
      Leaves.skip (by rwa [(ByteScan.next_append hnext).2])
    cases hmore : ofChars (offset + byteLength s.taken) s.rest with
    | error e =>
      rw [hmore] at htokens
      cases htokens
    | ok more =>
      rw [hmore] at htokens
      cases htokens
      rcases List.mem_cons.1 hl with rfl | hl
      · exact placed_of_next h hnext
      · exact ih hrest hmore hl

theorem isValid_of_key {start : Nat} {e : ParseError} (hstart : String.Pos.Raw.IsValid src ⟨start⟩)
    (h : Leaves src pos cs) (hkey : Scanned.key start pos cs = .error e) :
    String.Pos.Raw.IsValid src ⟨e.offset⟩ := by
  fun_induction Scanned.key start pos cs with
  | case1 =>
    cases hkey
    exact hstart
  | case2 => cases hkey
  | case3 =>
    cases hkey
    exact h.isValid
  | case4 offset c rest hc ih =>
    have hascii : c.toNat < 0x80 := by
      simp only [Bool.or_eq_true, decide_eq_true_eq] at hc
      obtain rfl | rfl := hc <;> decide
    refine ih ((h.succ (by decide)).succ hascii) ?_
    cases hmore : Scanned.key start (offset + 2) rest <;> rw [hmore] at hkey <;> cases hkey
    rfl
  | case5 =>
    cases hkey
    exact h.isValid
  | case6 offset c rest _ _ _ ih =>
    refine ih h.tail ?_
    cases hmore : Scanned.key start (offset + c.utf8Size) rest <;> rw [hmore] at hkey <;> cases hkey
    rfl

theorem isValid_of_next {c : Char} {e : ParseError} (h : Leaves src pos (c :: cs))
    (hnext : Scanned.next pos c cs = .error e) : String.Pos.Raw.IsValid src ⟨e.offset⟩ := by
  unfold Scanned.next at hnext
  split at hnext
  · have hoffset : e.offset = pos := by
      dsimp only at hnext
      cases htoken : Scanned.numberToken pos (c :: (Scanned.number false cs).1) (Scanned.number false cs).2.1 with
      | ok token =>
        rw [htoken] at hnext
        cases hnext
      | error e' =>
        rw [htoken] at hnext
        cases hnext
        unfold Scanned.numberToken at htoken
        dsimp only at htoken
        split at htoken <;> split at htoken <;> cases htoken <;> rfl
    rw [hoffset]
    exact h.isValid
  split at hnext
  · cases hnext
  split at hnext
  · rename_i hquote
    have hinner : Leaves src (pos + 1) cs := h.succ (by rw [hquote]; decide)
    refine isValid_of_key h.isValid hinner ?_
    cases hkey : Scanned.key pos (pos + 1) cs <;> rw [hkey] at hnext <;> cases hnext
    rfl
  split at hnext
  · cases hnext
  · cases hnext
    exact h.isValid

/-- The scanner refuses a text between its characters. -/
theorem isValid_of_error {e : ParseError} (h : Leaves src pos cs) (herror : ofChars pos cs = .error e) :
    String.Pos.Raw.IsValid src ⟨e.offset⟩ := by
  fun_induction ofChars pos cs with
  | case1 => cases herror
  | case2 offset c cs hblank ih => exact ih (h.succ (ByteScan.isSourceBlank_lt hblank)) herror
  | case3 offset c cs _ e' hnext =>
    cases herror
    exact isValid_of_next h hnext
  | case4 offset c cs _ s hnext ih =>
    refine ih (Leaves.skip (by rwa [(ByteScan.next_append hnext).2])) ?_
    cases hmore : ofChars (offset + byteLength s.taken) s.rest <;> rw [hmore] at herror <;> cases herror
    rfl

end Lexeme

end Barrage
