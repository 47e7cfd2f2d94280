import Barrage.Bake.Artifacts
import Barrage.Proofs.Chunk.Cutting

/-!
# Reading exported chunks

A recorded unit is exported as a function: a comment with its signature, its name and parameters, and the
lines of its body, indented. No printed line runs over its end, so the body falls into the lines it was made
of. A chunk of such functions is read as these functions, in order, and nothing but the levels of a line can
keep it from being read.

## Main definitions

* `RecordedUnit.HasLines` — the body of a unit is made of lines that can be read

## Main results

* `Text.lines_intercalate` — texts joined by line feeds are the lines of the whole
* `RecordedUnit.cuts_definition` — the text of a function is cut into its tokens
* `Artifacts.parse?_chunkText` — a chunk is read as its functions exactly if all of them fit
-/

namespace Barrage

/-! ### Lines of text -/

namespace Text

/-- Texts that stay as they are when they are lines. -/
structure IsLine (text : String) : Prop where
  feed : '\n' ∉ text.toList
  carriage : text.toList.getLast? ≠ some '\r'
  nonempty : text.toList ≠ []

/-- Texts that are joined by line feeds are the lines of what they are joined to. -/
theorem lines_intercalate {texts : List String} (hne : texts ≠ []) (h : ∀ t ∈ texts, IsLine t) :
    lines ("\n".intercalate texts) = texts := by
  have hpieces : ("\n".intercalate texts).toList.splitOn '\n' = texts.map String.toList := by
    rw [String.toList_intercalate]
    exact List.splitOn_intercalate '\n' (by simpa using fun t ht => (h t ht).feed) (by simpa using hne)
  obtain ⟨init, last, rfl⟩ : ∃ init last, texts = init ++ [last] :=
    ⟨_, _, (List.dropLast_append_getLast hne).symm⟩
  have hlast : last.toList.isEmpty = false := by simpa using (h last (by simp)).nonempty
  unfold lines
  simp only [hpieces]
  rw [List.map_append, List.map_singleton, List.getLast?_concat, List.dropLast_concat, Option.getD_some,
    hlast, List.map_map]
  have hstay : ∀ t ∈ init,
      ((fun line : List Char => if line.getLast? = some '\r' then line.dropLast else line) ∘ String.toList) t =
        t.toList := by
    intro t ht
    exact if_neg (h t (by simp [ht])).carriage
  rw [List.map_congr_left hstay]
  simp [Function.comp_def]

end Text

/-! ### No line runs over its end -/

namespace ChunkToken

/-- No character of a name ends a line. -/
theorem newline_notMem_word {x : String} (h : isSpelled x = true) : '\n' ∉ x.toList := by
  simp only [isSpelled, Bool.and_eq_true, List.all_eq_true] at h
  intro hmem
  exact absurd (h.2 _ hmem) (by decide)

theorem newline_notMem_digits {ds : List Char} (h : ∀ d ∈ ds, d.isDigit = true) : '\n' ∉ ds :=
  fun hmem => absurd (h _ hmem) (by decide)

theorem newline_notMem_int (n : Int) : '\n' ∉ (toString n).toList := by
  obtain ⟨sign, d, ds, hn, hall, hsign⟩ := toList_toString n
  have hdigits := newline_notMem_digits hall
  rw [hn, List.mem_append, not_or]
  refine ⟨?_, hdigits⟩
  rcases hsign with ⟨rfl, _⟩ | ⟨rfl, _⟩ <;> simp

theorem newline_notMem_float {x : Float} (h : IsFinite x) :
    '\n' ∉ (FloatLayout.literal.render x).toList := by
  obtain ⟨negative, t, ht, hchars, -⟩ := exists_floatText h
  have hdigits := newline_notMem_digits ht.digits
  rw [List.mem_append, not_or] at hdigits
  have hexponent : '\n' ∉ FloatText.exponentChars t.exponent := by
    cases t.exponent with
    | none => simp [FloatText.exponentChars]
    | some k =>
      have := newline_notMem_int k
      rw [FloatText.exponentChars, List.mem_cons, not_or]
      exact ⟨by decide, this⟩
  rw [hchars]
  simp only [FloatText.chars, List.mem_append, List.mem_cons, not_or]
  exact ⟨by cases negative <;> simp, ⟨hdigits.1, by decide, hdigits.2⟩, hexponent⟩

end ChunkToken

namespace Phrase

open ChunkToken

theorem newline_notMem_signed {text : String} (h : '\n' ∉ text.toList) (signed : Bool) :
    '\n' ∉ (signedText signed text).toList := by
  cases signed <;> simpa [signedText] using h

theorem notMem_intercalate {c : Char} {sep : String} (hsep : c ∉ sep.toList) (texts : List String)
    (h : ∀ t ∈ texts, c ∉ t.toList) : c ∉ (sep.intercalate texts).toList := by
  cases texts with
  | nil => simp
  | cons t texts =>
    rw [toList_intercalate_cons, List.mem_append, List.mem_flatMap, not_or]
    refine ⟨h t (by simp), ?_⟩
    rintro ⟨u, hu, hmem⟩
    rcases List.mem_append.1 hmem with hmem | hmem
    · exact hsep hmem
    · exact h u (by simp [hu]) hmem

theorem toTexts_eq_map (ps : List Phrase) : toTexts ps = ps.map toText := by
  induction ps with
  | nil => rfl
  | cons p ps ih => rw [toTexts, ih, List.map_cons]

theorem newline_notMem {p : Phrase} (h : p.Readable) : '\n' ∉ p.toText.toList := by
  induction h with
  | unit => simp [toText]
  | bool b => cases b <;> simp [toText]
  | int n =>
    rw [toText]
    exact newline_notMem_signed (newline_notMem_int _) _
  | least => simp [toText]
  | float hx =>
    rw [toText]
    exact newline_notMem_signed (newline_notMem_float hx) _
  | text s => exact Text.newline_notMem_literal s
  | name hx => exact newline_notMem_word (isSpelled_of_isFunctionName hx)
  | @chain op first rest hop _ _ _ _ ihfirst ihrest =>
    have hsep : '\n' ∉ (" " ++ op.sign.text ++ " ").toList := by
      rcases op with f | o
      · cases f <;> simp [Operator.sign, Symbol.text, Symbol.chars]
      · cases o <;> simp [Operator.sign, BinOp.sign, Symbol.text, Symbol.chars]
    have hinner := notMem_intercalate hsep (toTexts (first :: rest)) (by
      rw [toTexts_eq_map]
      simpa using ⟨ihfirst, ihrest⟩)
    rw [toTexts] at hinner
    rw [toText, String.toList_append, String.toList_append, List.mem_append, List.mem_append, not_or, not_or]
    exact ⟨⟨by decide, hinner⟩, by decide⟩
  | @call function args hfunction _ ih =>
    have hinner := notMem_intercalate (by decide : '\n' ∉ ", ".toList) (toTexts args) (by
      rw [toTexts_eq_map]
      simpa using ih)
    have hname := newline_notMem_word (isSpelled_of_isFunctionName hfunction)
    simp only [toText, String.toList_append, List.mem_append, not_or]
    exact ⟨⟨⟨hname, by decide⟩, hinner⟩, by decide⟩
  | choice _ _ _ _ ihcond ihyes ihno =>
    simp only [toText, String.toList_append, List.mem_append, not_or]
    exact ⟨⟨⟨⟨⟨⟨by decide, ihcond⟩, by decide⟩, ihyes⟩, by decide⟩, ihno⟩, by decide⟩

end Phrase

namespace Line

open ChunkToken

/-- The text of a line is a line. -/
theorem isLine {line : Line} (h : line.Readable) : Text.IsLine line.toText := by
  have hlast : ∃ front, line.toText.toList = front ++ [';'] := by
    cases line with
    | bind name value => exact ⟨_, by rw [toText, String.toList_append]; rfl⟩
    | guarded name cond value =>
      refine ⟨("let " ++ name ++ " = if " ++ cond.toText ++ " \x7b " ++ value.toText ++
        " \x7d else \x7b () \x7d").toList, ?_⟩
      simp [toText]
    | give value => exact ⟨_, by rw [toText, String.toList_append]; rfl⟩
  obtain ⟨front, hfront⟩ := hlast
  refine ⟨?_, by simp [hfront], by simp [hfront]⟩
  cases h with
  | bind hname hvalue =>
    have hword := newline_notMem_word (isSpelled_of_isFunctionName hname)
    simp only [toText, String.toList_append, List.mem_append, not_or]
    exact ⟨⟨⟨⟨by decide, hword⟩, by decide⟩, Phrase.newline_notMem hvalue⟩, by decide⟩
  | guarded hname hcond hvalue =>
    have hword := newline_notMem_word (isSpelled_of_isFunctionName hname)
    simp only [toText, String.toList_append, List.mem_append, not_or]
    exact ⟨⟨⟨⟨⟨⟨by decide, hword⟩, by decide⟩, Phrase.newline_notMem hcond⟩, by decide⟩,
      Phrase.newline_notMem hvalue⟩, by decide⟩
  | give hvalue =>
    simp only [toText, String.toList_append, List.mem_append, not_or]
    exact ⟨⟨by decide, Phrase.newline_notMem hvalue⟩, by decide⟩

end Line

/-! ### Functions and chunks -/

namespace ChunkToken

variable {whole : List Char} {before : Bool}

theorem cuts_blanks (cs : List Char) (h : cs.all Text.isSourceBlank = true) (rest : List Char) :
    Cuts whole before (cs ++ rest) [] before rest := by
  induction cs with
  | nil => exact Option.map_id'.symm
  | cons c cs ih =>
    rw [List.all_cons, Bool.and_eq_true] at h
    exact (cuts_blank h.1 _).trans (ih h.2)

/-- A comment up to the end of its line. -/
theorem cuts_comment {cs : List Char} (hfeed : '\n' ∉ cs) (hcarriage : '\r' ∉ cs) (rest : List Char) :
    Cuts whole before ('/' :: '/' :: (cs ++ '\n' :: rest)) [] before rest := by
  have hall : ∀ c ∈ cs, (c != '\n' && c != '\r') = true := by
    intro c hc
    have hn : c ≠ '\n' := fun heq => hfeed (heq ▸ hc)
    have hr : c ≠ '\r' := fun heq => hcarriage (heq ▸ hc)
    simp [hn, hr]
  have hdrop : (cs ++ '\n' :: rest).dropWhile (fun c => c != '\n' && c != '\r') = '\n' :: rest := by
    rw [List.dropWhile_append_of_pos hall, List.dropWhile_cons_of_neg (by decide)]
  rw [Cuts, ofChars?, hdrop]
  exact cuts_blank rfl rest

end ChunkToken

namespace Chunk

open ChunkToken

variable {whole : List Char}

/-- Parameters up to the closing parenthesis. -/
theorem cuts_listed {xs : List String} (h : ∀ x ∈ xs, isSpelled x = true) {before : Bool}
    (rest : List Char) : Cuts whole before ((", ".intercalate xs).toList ++ ')' :: rest)
      (listed xs ++ [.symbol .closing]) true rest := by
  induction xs generalizing before with
  | nil => exact cuts_closing rest
  | cons x xs ih =>
    have hx : isSpelled x = true := h x (by simp)
    cases xs with
    | nil =>
      rw [String.intercalate_singleton]
      exact (cuts_word whole before hx rfl _).trans (cuts_closing rest)
    | cons y xs =>
      have hmore : Cuts whole false ((", ".intercalate (y :: xs)).toList ++ ')' :: rest)
          (listed (y :: xs) ++ [.symbol .closing]) true rest := ih fun z hz => h z (by simp [hz])
      have hcomma : Cuts whole (ChunkToken.word x).endsOperand
          (',' :: ' ' :: ((", ".intercalate (y :: xs)).toList ++ ')' :: rest))
          [.symbol .comma] false ((", ".intercalate (y :: xs)).toList ++ ')' :: rest) :=
        (cuts_comma _).trans (cuts_blank rfl _)
      have hall := (cuts_word whole before hx rfl _).trans (hcomma.trans hmore)
      rw [String.intercalate_cons_cons]
      simpa [listed] using hall

end Chunk

namespace Line

open ChunkToken

/-- Indented lines up to the closing brace of their function. -/
theorem cuts_body (whole : List Char) {ls : List Line} (h : ∀ l ∈ ls, l.Readable) (rest : List Char) :
    Cuts whole false
      ((String.join ((ls.map toText).map fun line => "    " ++ line ++ "\n")).toList ++ '\x7d' :: rest)
      (ls.flatMap tokens ++ [.closeBrace]) true rest := by
  induction ls with
  | nil => exact cuts_closeBrace rest
  | cons l ls ih =>
    have hmore := ih fun k hk => h k (by simp [hk])
    obtain ⟨more, hmoreText⟩ : ∃ more, more = (String.join
        ((ls.map toText).map fun line => "    " ++ line ++ "\n")).toList ++ '\x7d' :: rest := ⟨_, rfl⟩
    rw [← hmoreText] at hmore
    have hindent : Cuts whole false (' ' :: ' ' :: ' ' :: ' ' :: (l.toText.toList ++ '\n' :: more)) [] false
        (l.toText.toList ++ '\n' :: more) :=
      cuts_blanks [' ', ' ', ' ', ' '] (by decide) _
    have hfeed : Cuts whole false ('\n' :: more) [] false more := cuts_blank rfl more
    have hall := hindent.trans ((cuts (h l (by simp)) _).trans (hfeed.trans hmore))
    have htext : (String.join (((l :: ls).map toText).map fun line => "    " ++ line ++ "\n")).toList ++
        '\x7d' :: rest = ' ' :: ' ' :: ' ' :: ' ' :: (l.toText.toList ++ '\n' :: more) := by
      rw [hmoreText]
      simp [String.join_cons]
    rw [htext]
    simpa using hall

end Line

theorem ValueType.notMem_name (ty : ValueType) {c : Char} (hc : c = '\n' ∨ c = '\r') : c ∉ ty.name.toList := by
  rcases hc with rfl | rfl <;> cases ty <;> decide

namespace RecordedUnit

open ChunkToken

/-- The function of a unit whose body is made of lines. -/
def printed (unit : RecordedUnit) (ls : List Line) : Printed :=
  ⟨unit.name, unit.params.map (·.name), ls⟩

/-- The body of a unit whose lines can be read falls into these lines. -/
theorem lines_body {unit : RecordedUnit} {ls : List Line} (hne : ls ≠ []) (hls : ∀ l ∈ ls, l.Readable)
    (hbody : unit.body = "\n".intercalate (ls.map Line.toText)) :
    Text.lines unit.body = ls.map Line.toText := by
  rw [hbody]
  refine Text.lines_intercalate (by simpa using hne) fun t ht => ?_
  obtain ⟨l, hl, rfl⟩ := List.mem_map.1 ht
  exact Line.isLine (hls l hl)

theorem notMem_signature (s : Signature) {c : Char} (hc : c = '\n' ∨ c = '\r') : c ∉ s.text.toList := by
  have hparams : c ∉ (ValueType.names s.params).toList := by
    refine Phrase.notMem_intercalate (by rcases hc with rfl | rfl <;> decide) _ fun t ht => ?_
    obtain ⟨ty, -, rfl⟩ := List.mem_map.1 ht
    exact ty.notMem_name hc
  simp only [Signature.text, String.toList_append, List.mem_append, not_or]
  refine ⟨⟨⟨?_, hparams⟩, ?_⟩, s.returns.notMem_name hc⟩
  all_goals rcases hc with rfl | rfl <;> decide

/-- A unit whose body is made of lines, so that its function can be read. -/
structure HasLines (unit : RecordedUnit) (ls : List Line) : Prop where
  nonempty : ls ≠ []
  body : unit.body = "\n".intercalate (ls.map Line.toText)
  readable : (unit.printed ls).Readable

/-- The indented lines of a function, and what follows its brace. -/
def indented (unit : RecordedUnit) (rest : List Char) : List Char :=
  (String.join ((Text.lines unit.body).map fun line => "    " ++ line ++ "\n")).toList ++ '\x7d' :: rest

/-- A function with the comment before it, up to its parameters. -/
theorem cuts_head {unit : RecordedUnit} (hname : Chunk.isFunctionName unit.name = true) (whole : List Char)
    (before : Bool) (rest : List Char) :
    Cuts whole before (unit.definition.toList ++ rest)
      [.word "fn", .word unit.name, .symbol .opening] false
      ((", ".intercalate (unit.params.map (·.name))).toList ++
        ')' :: ' ' :: '\x7b' :: '\n' :: unit.indented rest) := by
  obtain ⟨params, hparams⟩ : ∃ params, params = (", ".intercalate (unit.params.map (·.name))).toList ++
      ')' :: ' ' :: '\x7b' :: '\n' :: unit.indented rest := ⟨_, rfl⟩
  have hopening : Cuts whole true (unit.name.toList ++ '(' :: params)
      [.word unit.name, .symbol .opening] false params :=
    (cuts_name hname rfl _).trans (cuts_opening _)
  have hfn : Cuts whole before ("fn".toList ++ ' ' :: (unit.name.toList ++ '(' :: params)) [.word "fn"] true
      (unit.name.toList ++ '(' :: params) :=
    (cuts_word whole before (by decide) rfl _).trans (cuts_blank rfl _)
  have hcomment : Cuts whole before ('/' :: '/' :: (' ' :: unit.signature.text.toList ++ '\n' ::
      ("fn".toList ++ ' ' :: (unit.name.toList ++ '(' :: params)))) [] before
        ("fn".toList ++ ' ' :: (unit.name.toList ++ '(' :: params)) :=
    cuts_comment (by simpa using notMem_signature _ (.inl rfl))
      (by simpa using notMem_signature _ (.inr rfl)) _
  have hall := hcomment.trans (hfn.trans hopening)
  have htext : unit.definition.toList ++ rest = '/' :: '/' :: (' ' :: unit.signature.text.toList ++ '\n' ::
      ("fn".toList ++ ' ' :: (unit.name.toList ++ '(' :: params))) := by
    rw [hparams]
    simp [definition, indented]
  rw [htext, ← hparams]
  exact hall

/-- A function with the comment before it is cut into the tokens of the function. -/
theorem cuts_definition {unit : RecordedUnit} {ls : List Line} (h : unit.HasLines ls) (whole : List Char)
    (before : Bool) (rest : List Char) :
    Cuts whole before (unit.definition.toList ++ rest) (unit.printed ls).tokens true rest := by
  have hls : ∀ l ∈ ls, l.Readable := h.readable.lines
  have hlines : Cuts whole false (unit.indented rest) (ls.flatMap Line.tokens ++ [.closeBrace]) true rest := by
    rw [indented, lines_body h.nonempty hls h.body]
    exact Line.cuts_body whole hls rest
  have hopen : Cuts whole true (' ' :: '\x7b' :: '\n' :: unit.indented rest) [.openBrace] false
      (unit.indented rest) :=
    (cuts_blank rfl _).trans ((cuts_openBrace _).trans (cuts_blank rfl _))
  have hlisted : Cuts whole false ((", ".intercalate (unit.params.map (·.name))).toList ++
      ')' :: ' ' :: '\x7b' :: '\n' :: unit.indented rest)
      (Chunk.listed (unit.params.map (·.name)) ++ [.symbol .closing]) true
      (' ' :: '\x7b' :: '\n' :: unit.indented rest) :=
    Chunk.cuts_listed (fun x hx => isSpelled_of_isFunctionName (h.readable.params x hx)) _
  have hall := (cuts_head h.readable.name whole before rest).trans (hlisted.trans (hopen.trans hlines))
  simpa [Printed.tokens, printed, Phrase.enclosed, Phrase.braced] using hall

/-- Functions of a chunk, with an empty line before each of them. -/
theorem cuts_definitions {us : List (RecordedUnit × List Line)} (h : ∀ u ∈ us, u.1.HasLines u.2)
    (whole : List Char) (before : Bool) :
    ofChars? whole before
        (String.join ((us.map fun u => u.1.definition).map fun d => "\n" ++ d ++ "\n")).toList =
      some (us.flatMap fun u => (u.1.printed u.2).tokens) := by
  induction us generalizing before with
  | nil => rw [List.map_nil, List.map_nil, List.flatMap_nil, String.join_nil, String.toList_empty, ofChars?]
  | cons u us ih =>
    obtain ⟨more, hmoreText⟩ : ∃ more, more =
      (String.join ((us.map fun u => u.1.definition).map fun d => "\n" ++ d ++ "\n")).toList := ⟨_, rfl⟩
    have hmore := ih (fun v hv => h v (by simp [hv])) true
    rw [← hmoreText] at hmore
    have hbefore : Cuts whole before ('\n' :: (u.1.definition.toList ++ '\n' :: more)) [] before
        (u.1.definition.toList ++ '\n' :: more) := cuts_blank rfl _
    have hafter : Cuts whole true ('\n' :: more) [] true more := cuts_blank rfl _
    have hall := hbefore.trans ((cuts_definition (h u (by simp)) whole before _).trans hafter)
    have htext : (String.join (((u :: us).map fun u => u.1.definition).map fun d => "\n" ++ d ++ "\n")).toList =
        '\n' :: (u.1.definition.toList ++ '\n' :: more) := by
      rw [hmoreText]
      simp [String.join_cons]
    rw [htext, hall, hmore]
    simp

end RecordedUnit

namespace Artifacts

open ChunkToken

/-- The comment at the top of a chunk holds no tokens. -/
theorem cuts_chunkHeader (whole rest : List Char) :
    Cuts whole false (chunkHeader.toList ++ rest) [] false rest := by
  obtain ⟨comment, hcomment⟩ : ∃ comment, comment =
    " Generated expression bodies. Regenerate with bake_expressions.".toList := ⟨_, rfl⟩
  have hheader : chunkHeader.toList = '/' :: '/' :: (comment ++ ['\n']) := by
    rw [hcomment]
    decide +kernel
  have hfeed : '\n' ∉ comment := by
    rw [hcomment]
    decide +kernel
  have hcarriage : '\r' ∉ comment := by
    rw [hcomment]
    decide +kernel
  rw [hheader]
  simpa using cuts_comment hfeed hcarriage rest

/-- The text of a chunk is cut into the tokens of its functions. -/
theorem ofText?_chunkText {us : List (RecordedUnit × List Line)} (h : ∀ u ∈ us, u.1.HasLines u.2) :
    ofText? (chunkText (us.map fun u => u.1.definition)) =
      some (us.flatMap fun u => (u.1.printed u.2).tokens) := by
  unfold ofText? chunkText
  rw [String.toList_append, cuts_chunkHeader, RecordedUnit.cuts_definitions h]
  rfl

/-- The functions of a chunk are read in order exactly if none of them nests too deeply. -/
theorem parse?_chunkText {us : List (RecordedUnit × List Line)} (h : ∀ u ∈ us, u.1.HasLines u.2)
    (hdistinct : (us.map fun u => (u.1.name, u.1.params.length)).Nodup) :
    Chunk.parse? (chunkText (us.map fun u => u.1.definition)) =
      if ∀ u ∈ us, (u.1.printed u.2).Fits then
        some ⟨us.map fun u => (u.1.printed u.2).definition, []⟩
      else none := by
  have hfunctions : (us.flatMap fun u => (u.1.printed u.2).tokens) =
      (us.map fun u => u.1.printed u.2).flatMap Printed.tokens := by
    rw [List.flatMap_map]
  have hreadable : ∀ f ∈ us.map fun u => u.1.printed u.2, f.Readable := by
    intro f hf
    obtain ⟨u, hu, rfl⟩ := List.mem_map.1 hf
    exact (h u hu).readable
  have hread := Printed.chunk?_tokens hreadable
  unfold Chunk.parse?
  rw [ofText?_chunkText h, hfunctions]
  simp only [Option.bind_eq_bind, Option.bind_some, hread]
  by_cases hfits : ∀ u ∈ us, (u.1.printed u.2).Fits
  · have hdistinct' : Chunk.allDistinct (((us.map fun u => u.1.printed u.2).map Printed.definition).map
        fun f => (f.name, f.params.length)) = true := by
      rw [Chunk.allDistinct_iff]
      simpa [Printed.definition, RecordedUnit.printed, Function.comp_def] using hdistinct
    rw [if_pos hfits, if_pos (List.forall_mem_map.2 hfits)]
    simp only [Option.bind_some, hdistinct', if_true]
    simp [Function.comp_def]
  · rw [if_neg hfits, if_neg fun hall => hfits (List.forall_mem_map.1 hall)]
    rfl

end Artifacts

end Barrage
