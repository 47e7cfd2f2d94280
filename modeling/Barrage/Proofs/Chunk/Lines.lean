import Barrage.Proofs.Chunk.Reading

/-!
# Reading printed units

A unit is printed as lines, one for each lookup and binding and one for its result. A function holds the
lines of a unit, and a chunk holds functions. All of them are read as they were meant, if no line nests
too deeply; nothing but the levels of the lines can keep a chunk from being read.

## Main definitions

* `Line` — the lines of a unit, with their text, tokens, statements and levels
* `Linear.lines` — the lines that a linear form is printed as
* `Printed` — printed functions
* `Printed.Fits` — no line of a function nests too deeply

## Main results

* `Linear.print_lines` — a linear form is printed as its lines
* `Printed.chunk?_tokens` — printed functions are read in order exactly if all of them fit
-/

namespace Barrage

/-- The lines of a unit. -/
inductive Line where
  | bind (name : String) (value : Phrase)
  /-- Binds a name if a condition holds, and otherwise binds it to the unit value. -/
  | guarded (name : String) (cond value : Phrase)
  | give (value : Phrase)

namespace Line

/-- The text of a line. -/
def toText : Line → String
  | bind name value => "let " ++ name ++ " = " ++ value.toText ++ ";"
  | guarded name cond value =>
    "let " ++ name ++ " = if " ++ cond.toText ++ " \x7b " ++ value.toText ++ " \x7d else \x7b () \x7d;"
  | give value => "return " ++ value.toText ++ ";"

/-- The tokens of a line. -/
def tokens : Line → List ChunkToken
  | bind name value => .word "let" :: .word name :: .symbol .assign :: value.tokens ++ [.semicolon]
  | guarded name cond value =>
    .word "let" :: .word name :: .symbol .assign :: .word "if" :: cond.tokens ++
      Phrase.braced value.tokens ++ .word "else" :: Phrase.braced Phrase.unit.tokens ++ [.semicolon]
  | give value => .word "return" :: value.tokens ++ [.semicolon]

/-- The statement that a line is read as. -/
def statement : Line → Statement
  | bind name value => .bind name value.term
  | guarded name cond value => .bind name (Phrase.choice cond value .unit).term
  | give value => .give value.term

/-- How many levels reading a line opens. -/
def levels : Line → Nat
  | bind _ value => 3 + value.levels
  | guarded _ cond value => 6 + max cond.levels (2 + max value.levels 1)
  | give value => 2 + value.levels

end Line

/-- Lines that can be read. -/
inductive Line.Readable : Line → Prop
  | bind {name : String} {value : Phrase} (hname : Chunk.isFunctionName name = true)
    (hvalue : value.Readable) : Readable (bind name value)
  | guarded {name : String} {cond value : Phrase} (hname : Chunk.isFunctionName name = true)
    (hcond : cond.Readable) (hvalue : value.Readable) (htruth : cond.term.mayBeTruth = true) :
    Readable (guarded name cond value)
  | give {value : Phrase} (hvalue : value.Readable) : Readable (give value)

/-- The line that looks an object up. -/
def Hoisted.line (h : Hoisted) : Line :=
  .bind h.name (.call ("get_" ++ h.object.kind) [.text h.object.key])

/-- The line of a binding. -/
def Binding.line (b : Binding) : Line :=
  match b.guard with
  | none => .bind b.name b.value.phrase
  | some guard => .guarded b.name guard.phrase b.value.phrase

/-- Bindings that can be printed. -/
structure Binding.Printable (b : Binding) : Prop where
  guard : ∀ cond, b.guard = some cond → cond.Printable
  value : b.value.Printable

namespace Linear

/-- The lines of a unit. -/
def lines (l : Linear) : List Line :=
  l.hoisted.map Hoisted.line ++ l.bindings.map Binding.line ++ [.give l.result.phrase]

/-- Linear forms that can be printed. -/
structure Printable (l : Linear) : Prop where
  bindings : ∀ b ∈ l.bindings, b.Printable
  result : l.result.Printable

end Linear

theorem Hoisted.print_eq (h : Hoisted) : h.print = h.line.toText ++ "\n" := by
  have hget : " = get_" = " = " ++ "get_" := rfl
  simp only [print, line, Line.toText, Phrase.toText, Phrase.toTexts, String.intercalate_singleton,
    String.append_assoc]
  rw [hget]
  simp only [String.append_assoc]
  rfl

theorem Binding.print_eq {b : Binding} (h : b.Printable) : b.print = .ok (b.line.toText ++ "\n") := by
  obtain ⟨name, guard, value⟩ := b
  cases guard with
  | none =>
    have hvalue : value.print = .ok value.phrase.toText := Expr.print_phrase h.value
    simp [print, line, Line.toText, hvalue, String.append_assoc]
  | some cond =>
    have hvalue : value.print = .ok value.phrase.toText := Expr.print_phrase h.value
    have hcond : cond.print = .ok cond.phrase.toText := Expr.print_phrase (h.guard cond rfl)
    simp [print, line, Line.toText, hvalue, hcond, String.append_assoc]

theorem Binding.mapM_print {bs : List Binding} (h : ∀ b ∈ bs, b.Printable) :
    bs.mapM Binding.print = .ok (bs.map fun b => b.line.toText ++ "\n") := by
  induction bs with
  | nil => rfl
  | cons b bs ih =>
    rw [List.mapM_cons, print_eq (h b (by simp)), Except.ok_bind, ih fun c hc => h c (by simp [hc]),
      Except.ok_bind]
    rfl

/-- Texts that each end in a line feed, before a last one. -/
theorem join_lineFeeds (texts : List String) (last : String) :
    String.join (texts.map (· ++ "\n")) ++ last = "\n".intercalate (texts ++ [last]) := by
  induction texts with
  | nil => simp
  | cons text texts ih =>
    rw [List.cons_append, String.intercalate_cons_of_ne_nil (by simp), ← ih]
    simp [String.append_assoc]

/-- A unit is printed as its lines. -/
theorem Linear.print_lines {l : Linear} (h : l.Printable) :
    l.print = .ok ("\n".intercalate (l.lines.map Line.toText)) := by
  have hresult : l.result.print = .ok l.result.phrase.toText := Expr.print_phrase h.result
  have hhoisted : l.hoisted.map Hoisted.print = l.hoisted.map fun o => o.line.toText ++ "\n" :=
    List.map_congr_left fun o _ => o.print_eq
  have hlines : l.lines.map Line.toText =
      (l.hoisted.map (fun o => o.line.toText) ++ l.bindings.map fun b => b.line.toText) ++
        [(Line.give l.result.phrase).toText] := by
    simp [lines, Function.comp_def]
  rw [print, Binding.mapM_print h.bindings, Except.ok_bind, hresult, Except.ok_bind, hhoisted, hlines,
    ← join_lineFeeds]
  simp [Line.toText, String.append_assoc, Function.comp_def]

/-! ### Reading lines -/

namespace Chunk

open ChunkToken

namespace Reading

variable {room : Nat} {ts : Rest}

theorem statement_let {name : String} (hname : isFree name = true) {x : Term} (value : Rest)
    (levels room : Nat) (ts : Rest) (hterm : ∀ room, Reading.term room (value ++ .semicolon :: ts) =
      if levels ≤ room then some (x, .semicolon :: ts) else none) :
    statement room (.word "let" :: .word name :: .symbol .assign :: (value ++ .semicolon :: ts)) =
      if 2 + levels ≤ room then some (.bind name x, false, .semicolon :: ts) else none := by
  match room with
  | 0 => rw [statement, if_neg (by omega)]
  | 1 =>
    rw [statement, if_neg (by omega)]
    simp [name?, hname]
  | room + 2 =>
    rw [statement]
    simp only [name?, hname, if_true, Option.bind_eq_bind, Option.bind_some]
    change (Reading.term room (value ++ .semicolon :: ts)).bind _ = _
    rw [hterm]
    by_cases hlevels : levels ≤ room
    · rw [if_pos hlevels, if_pos (by omega)]
      rfl
    · rw [if_neg hlevels, if_neg (by omega)]
      rfl

/-- A choice with the unit value in its second branch, as the value of a binding. -/
theorem term_guard {cond value : Phrase} (hcond : cond.Readable) (hvalue : value.Readable)
    (htruth : cond.term.mayBeTruth = true) (room : Nat) (ts : Rest) :
    Reading.term room ((.word "if" :: cond.tokens ++ Phrase.braced value.tokens ++ .word "else" ::
        Phrase.braced Phrase.unit.tokens) ++ .semicolon :: ts) =
      if 4 + max cond.levels (2 + max value.levels 1) ≤ room then
        some ((Phrase.choice cond value .unit).term, .semicolon :: ts)
      else none := by
  have hlevels : 4 + max cond.levels (2 + max value.levels 1) =
      max cond.levels (2 + max value.levels Phrase.unit.levels) + 3 + 1 := by
    change _ = max cond.levels (2 + max value.levels 1) + 3 + 1
    omega
  rw [hlevels]
  exact term_choice (reads hcond) hcond (reads hvalue) hvalue (reads .unit) .unit htruth rfl room ts

/-- A line up to its semicolon. -/
theorem statement_line {line : Line} (h : line.Readable) (room : Nat) (ts : Rest) :
    statement room (line.tokens ++ ts) =
      if line.levels ≤ room then some (line.statement, false, .semicolon :: ts) else none := by
  cases h with
  | @bind name value hname hvalue =>
    have hfree := isFree_of_isFunctionName hname
    have hlet := statement_let hfree value.tokens (value.levels + 1) room ts fun room =>
      (reads hvalue).term hvalue (t := .semicolon) rfl room ts
    have hlevels : (Line.bind name value).levels = 2 + (value.levels + 1) := by
      change 3 + _ = _
      omega
    rw [hlevels]
    simpa [Line.tokens, Line.statement] using hlet
  | @guarded name cond value hname hcond hvalue htruth =>
    have hfree := isFree_of_isFunctionName hname
    have hlet := statement_let hfree _ _ room ts fun room => term_guard hcond hvalue htruth room ts
    have hlevels : (Line.guarded name cond value).levels =
        2 + (4 + max cond.levels (2 + max value.levels 1)) := by
      change 6 + _ = _
      omega
    rw [hlevels]
    simpa [Line.tokens, Line.statement] using hlet
  | @give value hvalue =>
    have htokens : (Line.give value).tokens ++ ts =
        .word "return" :: (value.tokens ++ .semicolon :: ts) := by
      simp [Line.tokens]
    have hlevels : (Line.give value).levels = 2 + value.levels := rfl
    have hterm := fun room => (reads hvalue).term hvalue (t := .semicolon) rfl room ts
    obtain ⟨u, us, hvalueTokens, hu⟩ := exists_tokens hvalue
    rw [htokens]
    rw [hvalueTokens, List.cons_append] at hterm ⊢
    cases room with
    | zero => rw [statement, if_neg (by omega)]
    | succ room =>
      have hgive : statement (room + 1) (.word "return" :: u :: (us ++ .semicolon :: ts)) =
          (Reading.term room (u :: (us ++ .semicolon :: ts))).bind fun r => some (.give r.1, false, r.2) := by
        rw [statement]
        · rfl
        · exact List.cons_ne_nil _ _
        all_goals
          rintro _ heq
          cases heq
          cases hu
      rw [hgive, hterm]
      by_cases hroom : value.levels + 1 ≤ room
      · rw [if_pos hroom, if_pos (by omega)]
        rfl
      · rw [if_neg hroom, if_neg (by omega)]
        rfl

/-- Lines up to the closing brace of their function. -/
theorem statements_lines {lines : List Line} (h : ∀ l ∈ lines, l.Readable) :
    statements room (lines.flatMap Line.tokens ++ .closeBrace :: ts) =
      if ∀ l ∈ lines, l.levels ≤ room then some (lines.map Line.statement, ts) else none := by
  induction lines with
  | nil =>
    rw [if_pos (by simp)]
    exact statements_closeBrace
  | cons line lines ih =>
    obtain ⟨w, us, htokens⟩ : ∃ w us, line.tokens = .word w :: us := by
      cases line <;> exact ⟨_, _, rfl⟩
    have hline := statement_line (h line (by simp)) room
      (lines.flatMap Line.tokens ++ .closeBrace :: ts)
    rw [List.flatMap_cons, List.append_assoc, htokens, List.cons_append] at *
    rw [statements_eq (by simp) (by simp), hline]
    by_cases hroom : line.levels ≤ room
    · rw [if_pos hroom]
      have hshorter : (lines.flatMap Line.tokens ++ .closeBrace :: ts).length <
          (ChunkToken.word w :: (us ++ (lines.flatMap Line.tokens ++ .closeBrace :: ts))).length := by
        simp only [List.length_cons, List.length_append]
        omega
      simp only [Option.bind_some, separated?, if_pos hshorter, ih fun l hl => h l (by simp [hl])]
      by_cases hrest : ∀ l ∈ lines, l.levels ≤ room
      · rw [if_pos hrest, if_pos (by simpa using ⟨hroom, hrest⟩)]
        rfl
      · rw [if_neg hrest, if_neg fun hall => hrest fun l hl => hall l (by simp [hl])]
        rfl
    · rw [if_neg hroom, if_neg fun hall => hroom (hall line (by simp))]
      rfl

end Reading

/-! ### Functions and chunks -/

/-- Parameters with commas between them. -/
def listed : List String → List ChunkToken
  | [] => []
  | [x] => [.word x]
  | x :: y :: xs => .word x :: .symbol .comma :: listed (y :: xs)

theorem params?_listed {xs : List String} {ts : Rest} (h : ∀ x ∈ xs, isFree x = true) :
    params? (listed xs ++ .symbol .closing :: ts) = some (xs, ts) := by
  induction xs with
  | nil => rw [params?]; rfl
  | cons x xs ih =>
    cases xs with
    | nil =>
      rw [params?]
      simp [listed, eat?, name?, h x (by simp)]
    | cons y xs =>
      have hshorter : (listed (y :: xs) ++ .symbol .closing :: ts).length <
          (.word x :: .symbol .comma :: (listed (y :: xs) ++ .symbol .closing :: ts)).length := by
        simp only [List.length_cons]
        omega
      change params? (.word x :: .symbol .comma :: (listed (y :: xs) ++ .symbol .closing :: ts)) = _
      rw [params?]
      simp only [eat?, name?, h x (by simp), if_true, Option.bind_eq_bind, Option.bind_some,
        if_neg (by decide : ¬ Symbol.comma = Symbol.closing), if_pos hshorter,
        ih fun z hz => h z (by simp [hz])]

theorem allDistinct_iff {α : Type} [BEq α] [LawfulBEq α] (l : List α) : allDistinct l = true ↔ l.Nodup := by
  induction l with
  | nil => simp [allDistinct]
  | cons a l ih => simp [allDistinct, ih]

end Chunk

/-- A printed function. -/
structure Printed where
  name : String
  params : List String
  lines : List Line

namespace Printed

/-- The tokens of a function. -/
def tokens (f : Printed) : List ChunkToken :=
  .word "fn" :: .word f.name :: Phrase.enclosed (Chunk.listed f.params) ++
    Phrase.braced (f.lines.flatMap Line.tokens)

/-- What a function is read as. -/
def definition (f : Printed) : Definition := ⟨f.name, f.params, f.lines.map Line.statement⟩

/-- Functions that can be read. -/
structure Readable (f : Printed) : Prop where
  name : Chunk.isFunctionName f.name = true
  params : ∀ x ∈ f.params, Chunk.isFunctionName x = true
  distinct : f.params.Nodup
  lines : ∀ l ∈ f.lines, l.Readable

/-- Whether a function nests no deeper than chunks may. The function and its body open a level each. -/
def Fits (f : Printed) : Prop := ∀ l ∈ f.lines, l.levels ≤ Chunk.maxLevels - 2

instance (f : Printed) : Decidable f.Fits :=
  inferInstanceAs (Decidable (∀ l ∈ f.lines, l.levels ≤ Chunk.maxLevels - 2))

/-- A function after its first word is read as it was meant, if it does not nest too deeply. -/
theorem definition?_tokens {f : Printed} (h : f.Readable) (ts : List ChunkToken) :
    Chunk.definition? (.word f.name :: (Phrase.enclosed (Chunk.listed f.params) ++
        (Phrase.braced (f.lines.flatMap Line.tokens) ++ ts))) =
      if f.Fits then some (f.definition, ts) else none := by
  have htokens : Phrase.enclosed (Chunk.listed f.params) ++
      (Phrase.braced (f.lines.flatMap Line.tokens) ++ ts) =
      .symbol .opening :: (Chunk.listed f.params ++ .symbol .closing ::
        (.openBrace :: (f.lines.flatMap Line.tokens ++ .closeBrace :: ts))) := by
    simp [Phrase.enclosed, Phrase.braced]
  have hdistinct : Chunk.allDistinct f.params = true := (Chunk.allDistinct_iff f.params).2 h.distinct
  have hopen : Chunk.eat? .opening (.symbol .opening :: (Chunk.listed f.params ++ .symbol .closing ::
      (.openBrace :: (f.lines.flatMap Line.tokens ++ .closeBrace :: ts)))) =
      some (Chunk.listed f.params ++ .symbol .closing ::
        (.openBrace :: (f.lines.flatMap Line.tokens ++ .closeBrace :: ts))) := rfl
  unfold Chunk.definition?
  simp only [Chunk.name?, Chunk.isFree_of_isFunctionName h.name, if_true, Option.bind_eq_bind, Option.bind_some,
    htokens, hopen, Chunk.params?_listed fun x hx => Chunk.isFree_of_isFunctionName (h.params x hx),
    Chunk.eatOpen?, Chunk.Reading.statements_lines h.lines]
  by_cases hfits : f.Fits
  · rw [if_pos hfits, if_pos (show ∀ l ∈ f.lines, l.levels ≤ Chunk.maxLevels - 2 from hfits)]
    simp only [Option.bind_some, hdistinct, if_true]
    rfl
  · rw [if_neg hfits, if_neg (show ¬ ∀ l ∈ f.lines, l.levels ≤ Chunk.maxLevels - 2 from hfits)]
    rfl

/-- A function at the front of a chunk is read if it does not nest too deeply, and then what follows it is. -/
theorem chunk?_append {f : Printed} (h : f.Readable) (ts : List ChunkToken) :
    Chunk.chunk? (f.tokens ++ ts) =
      if f.Fits then
        (Chunk.chunk? ts).map fun more => { more with definitions := f.definition :: more.definitions }
      else none := by
  have hdefinition := definition?_tokens h ts
  have htokens : f.tokens ++ ts = .word "fn" :: .word f.name :: (Phrase.enclosed (Chunk.listed f.params) ++
      (Phrase.braced (f.lines.flatMap Line.tokens) ++ ts)) := by
    simp [tokens]
  rw [htokens, Chunk.chunk?]
  simp only [hdefinition]
  by_cases hfits : f.Fits
  · have hshorter : ts.length ≤ (ChunkToken.word f.name ::
        (Phrase.enclosed (Chunk.listed f.params) ++
          (Phrase.braced (f.lines.flatMap Line.tokens) ++ ts))).length := by
      simp only [List.length_cons, List.length_append]
      omega
    simp only [if_pos hfits, Option.bind_eq_bind, Option.bind_some, if_pos hshorter]
    cases Chunk.chunk? ts <;> rfl
  · rw [if_neg hfits, if_neg hfits]
    rfl

/-- The functions of a chunk are read in order, if none of them nests too deeply. -/
theorem chunk?_tokens {fs : List Printed} (h : ∀ f ∈ fs, f.Readable) :
    Chunk.chunk? (fs.flatMap tokens) =
      if ∀ f ∈ fs, f.Fits then some ⟨fs.map definition, []⟩ else none := by
  induction fs with
  | nil =>
    rw [if_pos (by simp)]
    rw [List.flatMap_nil, Chunk.chunk?]
    rfl
  | cons f fs ih =>
    rw [List.flatMap_cons, chunk?_append (h f (by simp)), ih fun g hg => h g (by simp [hg])]
    by_cases hfits : f.Fits
    · rw [if_pos hfits]
      by_cases hrest : ∀ g ∈ fs, g.Fits
      · rw [if_pos hrest, if_pos (by simpa using ⟨hfits, hrest⟩)]
        rfl
      · rw [if_neg hrest, if_neg fun hall => hrest fun g hg => hall g (by simp [hg])]
        rfl
    · rw [if_neg hfits, if_neg fun hall => hfits (hall f (by simp))]

end Printed

end Barrage
