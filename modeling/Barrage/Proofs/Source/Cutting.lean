import Barrage.Proofs.Source.Surfaces

/-!
# Cutting source text

Each token of a part that can be read is cut off the text as it was spelled, provided that a blank or the
end of the text comes after it. Since there is a blank between any two tokens of a part, its text is cut into
exactly its tokens.

## Main definitions

* `Spelling.IsCut` — the spelling of a token is cut into the token

## Main results

* `Lexeme.ofChars_intercalate` — tokens with blanks between them are cut into the tokens
* `Surface.WellFormed.isCut` — every token of a part that can be read is cut
-/

namespace Barrage

open Scanned

/-- Texts at the front of which there is a blank, and the empty text. -/
inductive Parted : List Char → Prop where
  | finish : Parted []
  | blank (rest : List Char) : Parted (' ' :: rest)

/-- Whatever parted text follows, the spelling is cut off as the token. -/
def Spelling.IsCut (s : Spelling) : Prop :=
  ∃ c cs, s.chars = c :: cs ∧ Text.isSourceBlank c = false ∧
    ∀ offset rest, Parted rest → next offset c (cs ++ rest) = .ok ⟨s.token, c :: cs, rest⟩

namespace Scanned

variable {rest cs ds : List Char} {c d : Char}

/-! ### Symbols and words -/

theorem isCut_symbol (s : Symbol) : (Spelling.symbol s).IsCut := by
  cases s
  all_goals
    refine ⟨_, _, rfl, by decide, fun offset rest hrest => ?_⟩
    cases hrest with
    | finish => rfl
    | blank => rfl

theorem not_isDigit_of_opensName (h : opensName c = true) : c.isDigit = false := by
  rw [Bool.eq_false_iff]
  intro hdigit
  have hopens : opensName c = false := Checked.forall_digits (opensName · = false) (by decide) hdigit
  rw [hopens] at h
  cases h

theorem not_isSourceBlank_of_opensName (h : opensName c = true) : Text.isSourceBlank c = false := by
  rw [Bool.eq_false_iff]
  intro hblank
  simp only [Text.isSourceBlank, Bool.or_eq_true, decide_eq_true_eq] at hblank
  rcases hblank with (((rfl | rfl) | rfl) | rfl) | rfl <;> cases h

theorem takeWhile_parted (hcs : ∀ d ∈ cs, continuesName d = true) (hrest : Parted rest) :
    (cs ++ rest).takeWhile continuesName = cs := by
  rw [List.takeWhile_append_of_pos hcs]
  cases hrest with
  | finish => rw [List.takeWhile_nil, List.append_nil]
  | blank => rw [List.takeWhile_cons_of_neg (by decide), List.append_nil]

theorem dropWhile_parted (hcs : ∀ d ∈ cs, continuesName d = true) (hrest : Parted rest) :
    (cs ++ rest).dropWhile continuesName = rest := by
  rw [List.dropWhile_append_of_pos hcs]
  cases hrest with
  | finish => rfl
  | blank => rw [List.dropWhile_cons_of_neg (by decide)]

theorem isCut_word {x : String} (hx : Identifier x) : (Spelling.word x).IsCut := by
  obtain ⟨c, cs, hchars, hopens⟩ := hx.opens
  have hall := hx.continues
  rw [hchars] at hall
  have hcs : ∀ d ∈ cs, continuesName d = true := fun d hd => hall d (List.mem_cons_of_mem _ hd)
  refine ⟨c, cs, hchars, not_isSourceBlank_of_opensName hopens, fun offset rest hrest => ?_⟩
  have htext : String.ofList (c :: cs) = x := by rw [← hchars, String.ofList_toList]
  rw [next, not_isDigit_of_opensName hopens, if_neg Bool.false_ne_true, if_pos hopens,
    takeWhile_parted hcs hrest, dropWhile_parted hcs hrest]
  simp only [htext]
  rfl

/-! ### Keys -/

/-- An escaped key ends at the quote that was put after it. -/
theorem key_keyChars (start offset : Nat) (cs rest : List Char) :
    key start offset (Spelling.keyChars cs ++ '"' :: rest) = .ok (cs, Spelling.keyChars cs ++ ['"'], rest) := by
  induction cs generalizing offset with
  | nil => rfl
  | cons c cs ih =>
    rw [Spelling.keyChars]
    split
    · rename_i hescaped
      rw [List.cons_append, List.cons_append, key, if_pos (by simpa using hescaped), ih]
      rfl
    · rename_i hplain
      obtain ⟨hquote, hslash⟩ : c ≠ '"' ∧ c ≠ '\\' := by simpa using hplain
      rw [List.cons_append, key, ih]
      -- What is left are the patterns that come before that of a plain character.
      · rfl
      · exact hquote
      · exact fun h _ => hslash h
      · exact fun _ _ h _ => hslash h

theorem isCut_key (text : String) : (Spelling.key text).IsCut := by
  refine ⟨'"', Spelling.keyChars text.toList ++ ['"'], rfl, by decide, fun offset rest _ => ?_⟩
  rw [next, if_neg (by decide), if_neg (by decide), if_pos rfl, List.append_assoc, List.singleton_append,
    key_keyChars]
  change Except.ok (⟨.key (String.ofList text.toList), _, rest⟩ : Scanned) = _
  rw [String.ofList_toList]
  rfl

/-! ### Numbers -/

theorem number_parted (isFloat : Bool) (hrest : Parted rest) : number isFloat rest = ([], isFloat, rest) := by
  cases hrest with
  | finish => rfl
  -- The reader looks at two characters at once, so what comes after the blank has to be split too.
  | blank rest => cases rest <;> rfl

/-- Digits are taken, and what follows them goes on as it would alone. -/
theorem number_digits (isFloat : Bool) (h : ∀ d ∈ ds, d.isDigit = true) (rest : List Char) :
    number isFloat (ds ++ rest) = (ds ++ (number isFloat rest).1, (number isFloat rest).2) := by
  induction ds with
  | nil => rfl
  | cons d ds ih =>
    obtain ⟨hd, hds⟩ := List.forall_mem_cons.1 h
    have htail := ih hds
    rw [List.cons_append]
    cases hmore : ds ++ rest with
    | nil =>
      obtain ⟨rfl, rfl⟩ := List.append_eq_nil_iff.1 hmore
      simp [number, hd]
    | cons e more =>
      rw [hmore] at htail
      simp [number, hd, htail]

theorem number_point (hd : d.isDigit = true) (rest : List Char) :
    number false ('.' :: d :: rest) = ('.' :: (number true (d :: rest)).1, (number true (d :: rest)).2) := by
  simp [number, hd]

theorem number_exponentChars (exponent : Option Int) (hrest : Parted rest) :
    number true (FloatText.exponentChars exponent ++ rest) = (FloatText.exponentChars exponent, true, rest) := by
  cases exponent with
  | none => exact number_parted true hrest
  | some k =>
    obtain ⟨sign, d, ds, hk, hall, hsign⟩ := toList_toString k
    have hdigits := number_digits true hall rest
    rw [number_parted true hrest, List.append_nil] at hdigits
    rw [FloatText.exponentChars, hk]
    rcases hsign with ⟨rfl, _⟩ | ⟨rfl, _⟩
    · -- The first digit goes with the mark.
      obtain ⟨hd, hds⟩ := List.forall_mem_cons.1 hall
      have hmore := number_digits true hds rest
      rw [number_parted true hrest, List.append_nil] at hmore
      simp [number, hd, hmore]
    · simp only [List.cons_append, List.nil_append] at hdigits ⊢
      simp [number, hdigits]

/-- All of a number with a point is taken. -/
theorem number_floatText {t : FloatText} (h : t.IsNumeral) (hrest : Parted rest) :
    number false (t.chars ++ rest) = (t.chars, true, rest) := by
  have hwhole : ∀ e ∈ t.whole, e.isDigit = true := fun e he => h.digits e (by simp [he])
  have hfraction : ∀ e ∈ t.fraction, e.isDigit = true := fun e he => h.digits e (by simp [he])
  obtain ⟨f, fs, hfs⟩ := List.exists_cons_of_ne_nil h.fraction
  have htail : number true (t.fraction ++ (FloatText.exponentChars t.exponent ++ rest)) =
      (t.fraction ++ FloatText.exponentChars t.exponent, true, rest) := by
    rw [number_digits true hfraction, number_exponentChars _ hrest]
  -- The point is taken only because a digit follows it.
  have hpoint : number false ('.' :: (t.fraction ++ (FloatText.exponentChars t.exponent ++ rest))) =
      ('.' :: (t.fraction ++ FloatText.exponentChars t.exponent), true, rest) := by
    rw [hfs, List.cons_append] at htail ⊢
    rw [number_point (hfraction f (by simp [hfs])), htail]
  have hchars : t.chars ++ rest =
      t.whole ++ '.' :: (t.fraction ++ (FloatText.exponentChars t.exponent ++ rest)) := by simp [FloatText.chars]
  rw [hchars, number_digits false hwhole, hpoint]
  simp [FloatText.chars]

theorem filter_digits (h : ∀ d ∈ ds, d.isDigit = true) : ds.filter (· != '_') = ds :=
  List.filter_eq_self.2 fun d hd =>
    Checked.forall_digits (fun d => (d != '_') = true) (by decide) (h d hd)

theorem filter_exponentChars (exponent : Option Int) :
    (FloatText.exponentChars exponent).filter (· != '_') = FloatText.exponentChars exponent := by
  cases exponent with
  | none => rfl
  | some k =>
    obtain ⟨sign, d, ds, hk, hall, hsign⟩ := toList_toString k
    rw [FloatText.exponentChars, hk, List.filter_cons_of_pos (by decide), List.filter_append, filter_digits hall]
    rcases hsign with ⟨rfl, _⟩ | ⟨rfl, _⟩ <;> rfl

theorem numberToken_floatText {t : FloatText} (h : t.IsNumeral) (offset : Nat) :
    numberToken offset t.chars true = .ok (.float t.numeral.toFloat) := by
  have hwhole : ∀ e ∈ t.whole, e.isDigit = true := fun e he => h.digits e (by simp [he])
  have hfraction : ∀ e ∈ t.fraction, e.isDigit = true := fun e he => h.digits e (by simp [he])
  have hfilter : t.chars.filter (· != '_') = t.chars := by
    rw [FloatText.chars, List.filter_append, List.filter_append, filter_digits hwhole, filter_exponentChars,
      List.filter_cons_of_pos (by decide), filter_digits hfraction]
  rw [numberToken, hfilter, FloatText.ofChars?_chars h]
  rfl

theorem numberToken_digits {n : Int64} (hall : ∀ d ∈ ds, d.isDigit = true)
    (hword : Checked.ofText? (String.ofList ds) = some n) (offset : Nat) :
    numberToken offset ds false = .ok (.int n) := by
  rw [numberToken, filter_digits hall, if_neg Bool.false_ne_true, hword]

theorem not_isSourceBlank_of_isDigit (hd : d.isDigit = true) : Text.isSourceBlank d = false :=
  Checked.forall_digits (Text.isSourceBlank · = false) (by decide) hd

/-- A digit that opens a number is taken with the rest of it. -/
theorem next_digit {offset : Nat} {taken : List Char} {isFloat : Bool} {token : Token} (hd : d.isDigit = true)
    (hnumber : number false (d :: cs) = (d :: taken, isFloat, rest))
    (htoken : numberToken offset (d :: taken) isFloat = .ok token) :
    next offset d cs = .ok ⟨token, d :: taken, rest⟩ := by
  have hmore : number false cs = (taken, isFloat, rest) := by
    -- Reading the digit as well only puts it in front.
    have hfirst := number_digits false (by simpa using hd : ∀ e ∈ [d], e.isDigit = true) cs
    rw [List.singleton_append, hnumber] at hfirst
    rcases hcs : number false cs with ⟨a, b⟩
    rw [hcs] at hfirst
    cases hfirst
    rfl
  rw [next, if_pos hd, hmore]
  simp only [htoken]
  rfl

theorem isCut_number {text : List Char} (h : IsNumberText text) : (Spelling.number text).IsCut := by
  cases h with
  | @float t ht =>
    obtain ⟨d, ds, hds⟩ := List.exists_cons_of_ne_nil ht.whole
    have hd : d.isDigit = true := ht.digits d (by simp [hds])
    have hchars : t.chars = d :: (ds ++ '.' :: t.fraction ++ FloatText.exponentChars t.exponent) := by
      simp [FloatText.chars, hds]
    have htoken : (Spelling.number t.chars).token = .float t.numeral.toFloat := by
      rw [Spelling.number, Spelling.numberValue_float ht]
    refine ⟨d, _, hchars, not_isSourceBlank_of_isDigit hd, fun offset rest hrest => ?_⟩
    have hnumber := number_floatText ht hrest
    have hvalue := numberToken_floatText ht offset
    rw [htoken]
    rw [hchars] at hnumber hvalue
    exact next_digit hd hnumber hvalue
  | @int _ n hne hdigits hword =>
    obtain ⟨d, ds, rfl⟩ := List.exists_cons_of_ne_nil hne
    have hd : d.isDigit = true := hdigits d (by simp)
    have htoken : (Spelling.number (d :: ds)).token = .int n := by
      rw [Spelling.number, Spelling.numberValue_int hword]
    refine ⟨d, ds, rfl, not_isSourceBlank_of_isDigit hd, fun offset rest hrest => ?_⟩
    have hnumber := number_digits false hdigits rest
    rw [number_parted false hrest, List.append_nil] at hnumber
    rw [htoken]
    exact next_digit hd hnumber (numberToken_digits hdigits hword offset)

end Scanned

/-! ### Texts -/

namespace Lexeme

theorem ofChars_blank (offset : Nat) (cs : List Char) : ofChars offset (' ' :: cs) = ofChars (offset + 1) cs := by
  rw [ofChars, if_pos (by decide)]

theorem ofChars_isCut {s : Spelling} (h : s.IsCut) {rest : List Char} (hrest : Parted rest) (offset : Nat) :
    ofChars offset (s.chars ++ rest) =
      (ofChars (offset + byteLength s.chars) rest).map (⟨offset, s.token⟩ :: ·) := by
  obtain ⟨c, cs, hchars, hblank, hnext⟩ := h
  rw [hchars, List.cons_append, ofChars, if_neg (by simp [hblank])]
  split
  · rename_i heq
    rw [hnext offset rest hrest] at heq
    cases heq
  · rename_i heq
    rw [hnext offset rest hrest] at heq
    cases heq
    rfl

/-- Tokens with blanks between them are cut into the tokens. -/
theorem ofChars_intercalate {ts : List Spelling} (h : ∀ s ∈ ts, s.IsCut) (offset : Nat) :
    ∃ ls, ofChars offset ([' '].intercalate (ts.map (·.chars))) = .ok ls ∧
      ls.map (·.token) = ts.map (·.token) := by
  induction ts generalizing offset with
  | nil => exact ⟨[], by rw [List.map_nil, List.intercalate_nil, ofChars], rfl⟩
  | cons s ts ih =>
    obtain ⟨hs, hts⟩ := List.forall_mem_cons.1 h
    cases ts with
    | nil =>
      have hcut := ofChars_isCut hs .finish offset
      rw [List.append_nil, ofChars] at hcut
      exact ⟨[⟨offset, s.token⟩], by rw [List.map_singleton, List.intercalate_singleton, hcut]; rfl, rfl⟩
    | cons t ts =>
      obtain ⟨ls, hls, htokens⟩ := ih hts (offset + byteLength s.chars + 1)
      refine ⟨⟨offset, s.token⟩ :: ls, ?_, congrArg (s.token :: ·) htokens⟩
      rw [List.map_cons, List.map_cons, List.intercalate_cons_cons, List.append_assoc, List.singleton_append,
        ofChars_isCut hs (.blank _), ofChars_blank, ← List.map_cons, hls]
      rfl

end Lexeme

/-! ### Parts -/

/-- Whether a text is spelled like a word can be checked. -/
theorem Identifier.of_check {x : String}
    (h : (x.toList.head?.any opensName && x.toList.all continuesName) = true) : Identifier x := by
  obtain ⟨hopens, hall⟩ := Bool.and_eq_true_iff.1 h
  obtain ⟨c, hc, hopens⟩ := (Option.any_eq_true _ _).1 hopens
  obtain ⟨cs, hcs⟩ := List.head?_eq_some_iff.1 hc
  exact ⟨⟨c, cs, hcs, hopens⟩, List.all_eq_true.1 hall⟩

theorem Func.identifier_sourceName (f : Func) : Identifier f.sourceName := by
  cases f <;> exact .of_check (by decide)

theorem Member.identifier_name (m : Member) : Identifier m.name := by
  cases m <;> exact .of_check (by decide)

namespace Surface

theorem isCut_enclosed {ts : List Spelling} (h : ∀ t ∈ ts, t.IsCut) : ∀ t ∈ enclosed ts, t.IsCut := by
  rw [enclosed, List.cons_append, List.forall_mem_cons, List.forall_mem_append, List.forall_mem_singleton]
  exact ⟨isCut_symbol _, h, isCut_symbol _⟩

theorem isCut_listed {args : List Surface} (h : ∀ arg ∈ args, ∀ t ∈ arg.tokens, t.IsCut) :
    ∀ t ∈ listed args, t.IsCut := by
  induction args with
  | nil => exact List.forall_mem_singleton.2 (isCut_symbol _)
  | cons arg args ih =>
    obtain ⟨harg, hargs⟩ := List.forall_mem_cons.1 h
    cases args with
    | nil => exact List.forall_mem_append.2 ⟨harg, List.forall_mem_singleton.2 (isCut_symbol _)⟩
    | cons next args =>
      exact List.forall_mem_append.2 ⟨harg, List.forall_mem_cons.2 ⟨isCut_symbol _, ih hargs⟩⟩

/-- Every token of a part that can be read is cut. -/
theorem WellFormed.isCut {hosts : Hosts} {s : Surface} (h : s.WellFormed hosts) : ∀ t ∈ s.tokens, t.IsCut := by
  induction h with
  | number h => exact List.forall_mem_singleton.2 (isCut_number h)
  | bool b =>
    refine List.forall_mem_singleton.2 (isCut_word ?_)
    cases b <;> exact .of_check (by decide)
  | timer | entity =>
    refine List.forall_mem_cons.2 ⟨isCut_word (.of_check (by decide)), isCut_enclosed ?_⟩
    exact List.forall_mem_singleton.2 (isCut_key _)
  | name hx => exact List.forall_mem_singleton.2 (isCut_word hx.toIdentifier)
  | sign _ _ ih => exact List.forall_mem_cons.2 ⟨isCut_symbol _, ih⟩
  | member _ _ ih =>
    refine List.forall_mem_append.2 ⟨ih, List.forall_mem_cons.2 ⟨isCut_symbol _, ?_⟩⟩
    exact List.forall_mem_singleton.2 (isCut_word (Member.identifier_name _))
  | join _ _ _ _ _ ihl ihr => exact List.forall_mem_append.2 ⟨ihl, List.forall_mem_cons.2 ⟨isCut_symbol _, ihr⟩⟩
  | call _ _ ih =>
    exact List.forall_mem_cons.2 ⟨isCut_word (Func.identifier_sourceName _),
      List.forall_mem_cons.2 ⟨isCut_symbol _, isCut_listed ih⟩⟩
  | choice _ _ _ _ ihc ihy ihn =>
    exact List.forall_mem_append.2 ⟨ihc, List.forall_mem_cons.2 ⟨isCut_symbol _,
      List.forall_mem_append.2 ⟨ihy, List.forall_mem_cons.2 ⟨isCut_symbol _, ihn⟩⟩⟩⟩
  | bind hx _ _ ihv ihr =>
    refine List.forall_mem_cons.2 ⟨isCut_word (.of_check (by decide)), List.forall_mem_cons.2
      ⟨isCut_word hx.toIdentifier, List.forall_mem_cons.2 ⟨isCut_symbol _, ?_⟩⟩⟩
    exact List.forall_mem_append.2 ⟨ihv, List.forall_mem_cons.2 ⟨isCut_word (.of_check (by decide)), ihr⟩⟩
  | parens _ ih => exact isCut_enclosed ih

/-- The text of a part that can be read is cut into its tokens. -/
theorem WellFormed.exists_lexemes {hosts : Hosts} {s : Surface} (h : s.WellFormed hosts) (offset : Nat) :
    ∃ ls, Lexeme.ofChars offset s.text.toList = .ok ls ∧ ls.map (·.token) = s.tokens.map (·.token) := by
  rw [text, String.toList_ofList]
  exact Lexeme.ofChars_intercalate h.isCut offset

end Surface

end Barrage
