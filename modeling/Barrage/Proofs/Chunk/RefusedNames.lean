import Barrage.Proofs.Chunk.Functions
import Barrage.Proofs.Expr.SourceNames

/-!
# Names that keep a chunk from being loaded

A name of source need not be a name of the serving language: behind its underscores there may be a digit, or
it may be a word that the language keeps for itself. The functions of a chunk are read in order, and so are
the parameters of a function and then its lines. So the first name that is refused ends the reading, however
the text goes on, and a chunk that is loaded has no such name.

## Main definitions

* `Line.ReadsOn` — lines that can be read up to the first name that is no word
* `RecordedUnit.Spelled` — a unit that can be read up to the first name that is refused
* `RecordedUnit.Worded` — the same of a unit whose own name may be refused

## Main results

* `RecordedUnit.hasLines_of_parse?` — the units of a chunk that is loaded can be read
-/

namespace Barrage

/-- Words are spelled like words. -/
theorem Identifier.of_isWord {x : String} (hword : ChunkToken.isWord x.toList = true)
    (hall : ∀ c ∈ x.toList, Scanned.continuesName c = true) : Identifier x := by
  refine ⟨?_, hall⟩
  unfold ChunkToken.isWord at hword
  cases hx : x.toList with
  | nil =>
    rw [hx] at hword
    cases hword
  | cons c cs =>
    rw [hx] at hword
    refine ⟨c, cs, rfl, ?_⟩
    by_cases hbar : c = '_'
    · rw [hbar]
      rfl
    · have halpha : c.isAlpha = true := by simpa [hbar] using hword
      simp [Scanned.opensName, halpha]

/-! ### The end of the tokens -/

namespace ChunkToken

variable {whole cs rest : List Char} {before after : Bool} {ts : List ChunkToken}

/-- Text that is not cut behind some tokens is not cut with them. -/
theorem Cuts.eq_none (h : Cuts whole before cs ts after rest) (hnone : ofChars? whole after rest = none) :
    ofChars? whole before cs = none := by
  rw [h, hnone]
  rfl

/-- A word that is spelled like one, but is none, is not cut. -/
theorem ofChars?_eq_none {x : String} (hx : Identifier x) (hword : isWord x.toList = false) {c : Char}
    (hc : Scanned.continuesName c = false) (rest : List Char) :
    ofChars? whole before (x.toList ++ c :: rest) = none := by
  obtain ⟨d, ds, hds, hopens⟩ := hx.opens
  have hall := hx.continues
  rw [hds] at hall hword
  have hds' : ∀ e ∈ ds, Scanned.continuesName e = true := fun e he => hall e (List.mem_cons_of_mem _ he)
  -- A word opens with a letter or an underscore, and here it is an underscore.
  have hbar : d = '_' := by
    by_contra hne
    have halpha : d.isAlpha = true := by simpa [Scanned.opensName, hne] using hopens
    simp [isWord, hne, halpha] at hword
  subst hbar
  have hnext : next? whole before '_' (ds ++ c :: rest) = none := by
    have hdigit : Char.isDigit '_' = false := by decide
    rw [next?, hdigit, if_neg (by decide), if_pos (by decide)]
    simp only [takeWhile_continues hds' hc, hword, Bool.false_eq_true, if_false]
  rw [hds, List.cons_append, ofChars?]
  · rw [if_neg (by decide)]
    split
    · rfl
    · rename_i t rest' heq
      rw [hnext] at heq
      cases heq
  · rintro _ ⟨⟩
  · rintro _ ⟨⟩

theorem isSpelled_of_identifier {x : String} (hx : Identifier x) :
    isSpelled x = isWord x.toList := by
  have hall : x.toList.all Scanned.continuesName = true := List.all_eq_true.2 hx.continues
  rw [isSpelled, hall, Bool.and_true]

end ChunkToken

namespace Chunk

open ChunkToken

variable {whole : List Char} {before : Bool}

/-- A parameter that is no word ends the tokens. -/
theorem ofChars?_listed_eq_none {xs : List String} (hxs : ∀ x ∈ xs, Identifier x)
    (h : ∃ x ∈ xs, isWord x.toList = false) (rest : List Char) :
    ofChars? whole before ((", ".intercalate xs).toList ++ ')' :: rest) = none := by
  induction xs generalizing before with
  | nil =>
    obtain ⟨x, hx, -⟩ := h
    cases hx
  | cons x xs ih =>
    obtain ⟨hx, hxs⟩ := List.forall_mem_cons.1 hxs
    have htext : ∃ c more, Scanned.continuesName c = false ∧
        (", ".intercalate (x :: xs)).toList ++ ')' :: rest = x.toList ++ c :: more ∧
          (isWord x.toList = true → (∃ y ∈ xs, isWord y.toList = false) → ∀ before,
            ofChars? whole before (c :: more) = none) := by
      cases xs with
      | nil =>
        refine ⟨')', rest, by decide, by rw [String.intercalate_singleton], ?_⟩
        rintro - ⟨y, hy, -⟩
        cases hy
      | cons y xs =>
        refine ⟨',', ' ' :: ((", ".intercalate (y :: xs)).toList ++ ')' :: rest), by decide,
          by simp [String.intercalate_cons_cons], fun _ hmore before => ?_⟩
        have hcomma : Cuts whole before (',' :: ' ' :: ((", ".intercalate (y :: xs)).toList ++ ')' :: rest))
            [.symbol .comma] false ((", ".intercalate (y :: xs)).toList ++ ')' :: rest) :=
          (cuts_comma _).trans (cuts_blank rfl _)
        exact hcomma.eq_none (ih hxs hmore)
    obtain ⟨c, more, hc, htext, hmore⟩ := htext
    rw [htext]
    cases hword : isWord x.toList with
    | false => exact ofChars?_eq_none hx hword hc more
    | true =>
      have hrest : ∃ y ∈ xs, isWord y.toList = false := by
        obtain ⟨y, hy, hnone⟩ := h
        rcases List.mem_cons.1 hy with rfl | hy
        · rw [hword] at hnone
          cases hnone
        · exact ⟨y, hy, hnone⟩
      exact (cuts_word whole before (by rw [isSpelled_of_identifier hx, hword]) hc more).eq_none
        (hmore hword hrest _)

/-- Parameters are read if the language leaves their names free. -/
theorem params?_listed_eq_none {xs : List String} {ts : Rest} (h : ¬ ∀ x ∈ xs, isFree x = true) :
    params? (listed xs ++ .symbol .closing :: ts) = none := by
  induction xs with
  | nil => exact absurd (by simp) h
  | cons x xs ih =>
    by_cases hx : isFree x = true
    · have hxs : ¬ ∀ y ∈ xs, isFree y = true := fun hall => h (List.forall_mem_cons.2 ⟨hx, hall⟩)
      cases xs with
      | nil => exact absurd (by simp) hxs
      | cons y xs =>
        change params? (.word x :: .symbol .comma :: (listed (y :: xs) ++ .symbol .closing :: ts)) = none
        rw [params?]
        simp [eat?, name?, hx, ih hxs]
    · have hword : ∃ us, listed (x :: xs) ++ .symbol .closing :: ts = .word x :: us := by
        cases xs <;> exact ⟨_, rfl⟩
      obtain ⟨us, hus⟩ := hword
      rw [hus, params?]
      simp [eat?, name?, hx]

/-- A function is read only if the names of its parameters are free and distinct. -/
theorem definition?_eq_none {name : String} {xs : List String} {ts : Rest}
    (h : ¬ ((∀ x ∈ xs, isFree x = true) ∧ xs.Nodup)) :
    definition? (.word name :: .symbol .opening :: (listed xs ++ .symbol .closing :: ts)) = none := by
  unfold definition?
  by_cases hname : isFree name = true
  · simp only [name?, hname, if_true, Option.bind_eq_bind, Option.bind_some, eat?]
    by_cases hfree : ∀ x ∈ xs, isFree x = true
    · have hdistinct : allDistinct xs = false := by
        rw [← Bool.not_eq_true, allDistinct_iff]
        exact fun hnodup => h ⟨hfree, hnodup⟩
      simp [params?_listed hfree, hdistinct]
    · simp [params?_listed_eq_none hfree]
  · simp [name?, hname]

end Chunk

/-! ### Lines -/

namespace Text

/-- A line at the front of a text. -/
theorem lines_cons {t : String} (h : IsLine t) (s : String) : lines (t ++ "\n" ++ s) = t :: lines s := by
  have hpieces : (t ++ "\n" ++ s).toList.splitOn '\n' = t.toList :: s.toList.splitOn '\n' := by
    have htext : (t ++ "\n" ++ s).toList = t.toList ++ '\n' :: s.toList := by simp
    rw [htext, List.splitOn_append_cons_self, List.splitOn_eq_singleton h.feed]
    rfl
  have hne := List.splitOn_ne_nil '\n' s.toList
  unfold lines
  simp only [hpieces, List.getLast?_cons_of_ne_nil hne, List.dropLast_cons_of_ne_nil hne, List.map_cons,
    if_neg h.carriage]
  split <;> simp

/-- The first line of a text that opens with something that no line ends in. -/
theorem exists_lines_append {front : List Char} (hne : front ≠ []) (hfeed : '\n' ∉ front)
    (hcarriage : front.getLast? ≠ some '\r') (more : List Char) :
    ∃ more' rest, lines (String.ofList (front ++ more)) = String.ofList (front ++ more') :: rest := by
  obtain ⟨p, ps, hmore⟩ := List.exists_cons_of_ne_nil (List.splitOn_ne_nil '\n' more)
  have hpieces : (front ++ more).splitOn '\n' = (front ++ p) :: ps := by
    have hfront : ∀ front : List Char, '\n' ∉ front →
        (front ++ more).splitOn '\n' = (front ++ p) :: ps := by
      intro front
      induction front with
      | nil => exact fun _ => hmore
      | cons c front ih =>
        intro hfeed
        rw [List.mem_cons, not_or] at hfeed
        have hc : (c == '\n') = false := by simpa using Ne.symm hfeed.1
        rw [List.cons_append, List.splitOn_cons_eq_if_modifyHead, hc, ih hfeed.2]
        rfl
    exact hfront front hfeed
  unfold lines
  simp only [String.toList_ofList, hpieces]
  cases ps with
  | nil =>
    refine ⟨p, [], ?_⟩
    have hempty : (front ++ p).isEmpty = false := by simp [hne]
    simp [hempty]
  | cons q ps =>
    obtain ⟨more', hmore'⟩ : ∃ more', (if (front ++ p).getLast? = some '\r' then (front ++ p).dropLast
        else front ++ p) = front ++ more' := by
      split
      · rename_i hlast
        rcases List.eq_nil_or_concat p with rfl | ⟨p', c, rfl⟩
        · rw [List.append_nil] at hlast
          exact absurd hlast hcarriage
        · exact ⟨p', by rw [List.concat_eq_append, ← List.append_assoc, List.dropLast_concat]⟩
      · exact ⟨p, rfl⟩
    rw [List.dropLast_cons_of_ne_nil (List.cons_ne_nil q ps), List.map_cons, hmore']
    split
    · exact ⟨more', _, rfl⟩
    · exact ⟨more', _, rfl⟩

end Text

namespace Line

/-- The name that a line binds. -/
def bound? : Line → Option String
  | bind name _ | guarded name _ _ => some name
  | give _ => none

/-- Lines that can be read, or can be up to a line whose name is spelled like a word and is none. -/
inductive ReadsOn : List Line → Prop
  | nil : ReadsOn []
  | cons {l : Line} {ls : List Line} : l.Readable → ReadsOn ls → ReadsOn (l :: ls)
  | refused {l : Line} {ls : List Line} {x : String} : l.bound? = some x → Identifier x →
      ChunkToken.isWord x.toList = false → ReadsOn (l :: ls)

theorem exists_toText {l : Line} {x : String} (h : l.bound? = some x) :
    ∃ more, l.toText.toList = "let ".toList ++ x.toList ++ ' ' :: more := by
  cases l with
  | bind name value =>
    cases h
    exact ⟨("= " ++ value.toText ++ ";").toList, by simp [toText]⟩
  | guarded name cond value =>
    cases h
    exact ⟨("= if " ++ cond.toText ++ " \x7b " ++ value.toText ++ " \x7d else \x7b () \x7d;").toList,
      by simp [toText]⟩
  | give value => cases h

/-- Indented lines, one of which has a name that is refused. -/
theorem ofChars?_lines_eq_none (whole : List Char) {ls : List Line} (hls : ReadsOn ls)
    (hnot : ¬ ∀ l ∈ ls, l.Readable) (rest : List Char) :
    ChunkToken.ofChars? whole false ((String.join ((Text.lines ("\n".intercalate (ls.map toText))).map
      fun line => "    " ++ line ++ "\n")).toList ++ rest) = none := by
  open ChunkToken in
  induction hls with
  | nil => exact absurd (by simp) hnot
  | @cons l ls hl hls ih =>
    have hnot' : ¬ ∀ k ∈ ls, k.Readable := fun hall => hnot (List.forall_mem_cons.2 ⟨hl, hall⟩)
    cases ls with
    | nil => exact absurd (by simp) hnot'
    | cons k ls =>
      have hlines : Text.lines ("\n".intercalate ((l :: k :: ls).map toText)) =
          l.toText :: Text.lines ("\n".intercalate ((k :: ls).map toText)) := by
        rw [List.map_cons, List.map_cons, String.intercalate_cons_cons]
        exact Text.lines_cons (isLine hl) _
      have hmore := ih hnot'
      obtain ⟨more, hmoreText⟩ : ∃ more, more = (String.join ((Text.lines ("\n".intercalate
          ((k :: ls).map toText))).map fun line => "    " ++ line ++ "\n")).toList ++ rest := ⟨_, rfl⟩
      rw [← hmoreText] at hmore
      have hindent : Cuts whole false (' ' :: ' ' :: ' ' :: ' ' :: (l.toText.toList ++ '\n' :: more)) []
          false (l.toText.toList ++ '\n' :: more) :=
        cuts_blanks [' ', ' ', ' ', ' '] (by decide) _
      have hfeed : Cuts whole false ('\n' :: more) [] false more := cuts_blank rfl more
      have hall := (hindent.trans ((cuts hl _).trans hfeed)).eq_none hmore
      rw [hlines]
      rw [hmoreText] at hall
      simpa [String.join_cons] using hall
  | @refused l ls x hbound hx hword =>
    obtain ⟨more, hmore⟩ := exists_toText hbound
    obtain ⟨front, hfront⟩ : ∃ front, front = "let ".toList ++ x.toList ++ [' '] := ⟨_, rfl⟩
    have hchars : ∃ more', ("\n".intercalate ((l :: ls).map toText)) = String.ofList (front ++ more') := by
      refine ⟨more ++ ((ls.map toText).flatMap fun t => "\n".toList ++ t.toList), ?_⟩
      rw [← String.toList_inj, List.map_cons, Phrase.toList_intercalate_cons, hmore, hfront,
        String.toList_ofList]
      simp
    obtain ⟨more', hmore'⟩ := hchars
    have hfeed : '\n' ∉ front := by
      rw [hfront, List.mem_append, List.mem_append, not_or, not_or]
      exact ⟨⟨by decide, fun hmem => absurd (hx.continues _ hmem) (by decide)⟩, by decide⟩
    obtain ⟨shown, others, hlines⟩ := Text.exists_lines_append (by simp [hfront]) hfeed
      (by rw [hfront, List.getLast?_concat]; decide) more'
    rw [hmore', hlines, List.map_cons, String.join_cons, hfront]
    obtain ⟨behind, hbehind⟩ : ∃ behind, behind = shown ++ '\n' :: ((String.join (others.map
      fun line => "    " ++ line ++ "\n")).toList ++ rest) := ⟨_, rfl⟩
    have htext : ("    " ++ String.ofList ("let ".toList ++ x.toList ++ [' '] ++ shown) ++ "\n" ++
        String.join (others.map fun line => "    " ++ line ++ "\n")).toList ++ rest =
          ' ' :: ' ' :: ' ' :: ' ' :: ("let".toList ++ ' ' :: (x.toList ++ ' ' :: behind)) := by
      rw [hbehind]
      simp
    have hindent : Cuts whole false
        (' ' :: ' ' :: ' ' :: ' ' :: ("let".toList ++ ' ' :: (x.toList ++ ' ' :: behind))) [] false
        ("let".toList ++ ' ' :: (x.toList ++ ' ' :: behind)) :=
      cuts_blanks [' ', ' ', ' ', ' '] (by decide) _
    have hlet : Cuts whole false ("let".toList ++ ' ' :: (x.toList ++ ' ' :: behind)) [.word "let"] true
        (x.toList ++ ' ' :: behind) :=
      (cuts_word whole false (by decide) rfl _).trans (cuts_blank rfl _)
    rw [htext]
    exact (hindent.trans hlet).eq_none (ofChars?_eq_none hx hword (by decide) behind)

end Line

/-! ### Functions and chunks -/

namespace RecordedUnit

open ChunkToken

/-- A unit whose function can be read up to the first name that is refused. -/
structure Spelled (unit : RecordedUnit) (ls : List Line) : Prop where
  nonempty : ls ≠ []
  body : unit.body = "\n".intercalate (ls.map Line.toText)
  name : Chunk.isFunctionName unit.name = true
  params : ∀ p ∈ unit.params, Identifier p.name
  lines : (∀ p ∈ unit.params, Chunk.isFunctionName p.name = true) → Line.ReadsOn ls

variable {unit : RecordedUnit} {ls : List Line}

theorem isFunctionName_of_identifier {x : String} (hx : Identifier x) :
    Chunk.isFunctionName x = true ↔ isWord x.toList = true ∧ Chunk.isFree x = true := by
  have hall : x.toList.all Scanned.continuesName = true := List.all_eq_true.2 hx.continues
  simp [Chunk.isFunctionName, hall, and_comm]

/-- A unit can be read if no name is refused. -/
theorem Spelled.hasLines (h : unit.Spelled ls) (hwords : ∀ p ∈ unit.params, isWord p.name.toList = true)
    (hfree : ∀ p ∈ unit.params, Chunk.isFree p.name = true) (hdistinct : (unit.params.map (·.name)).Nodup)
    (hlines : ∀ l ∈ ls, l.Readable) : unit.HasLines ls := by
  refine ⟨h.nonempty, h.body, h.name, ?_, hdistinct, hlines⟩
  exact List.forall_mem_map.2 fun p hp =>
    (isFunctionName_of_identifier (h.params p hp)).2 ⟨hwords p hp, hfree p hp⟩

/-- A chunk in which a unit comes first is read only if no name of the unit is refused. -/
theorem Spelled.hasLines_of_chunk? (h : unit.Spelled ls) {whole : List Char} {before : Bool} {rest : List Char}
    {ts : List ChunkToken} {chunk : Chunk}
    (hcut : ofChars? whole before (unit.definition.toList ++ rest) = some ts)
    (hread : Chunk.chunk? ts = some chunk) : unit.HasLines ls := by
  have hnames : ∀ x ∈ unit.params.map (·.name), Identifier x := List.forall_mem_map.2 h.params
  have hhead := cuts_head h.name whole before rest
  -- The tokens would end at a parameter that is no word.
  have hwords : ∀ x ∈ unit.params.map (·.name), isWord x.toList = true := by
    by_contra hnot
    have hrefused : ∃ x ∈ unit.params.map (·.name), isWord x.toList = false := by simpa using hnot
    rw [hhead.eq_none (Chunk.ofChars?_listed_eq_none hnames hrefused _)] at hcut
    cases hcut
  have hlisted : Cuts whole false ((", ".intercalate (unit.params.map (·.name))).toList ++
      ')' :: ' ' :: '\x7b' :: '\n' :: unit.indented rest)
      (Chunk.listed (unit.params.map (·.name)) ++ [.symbol .closing]) true
      (' ' :: '\x7b' :: '\n' :: unit.indented rest) :=
    Chunk.cuts_listed (fun x hx => by rw [isSpelled_of_identifier (hnames x hx), hwords x hx]) _
  have hopen : Cuts whole true (' ' :: '\x7b' :: '\n' :: unit.indented rest) [.openBrace] false
      (unit.indented rest) :=
    (cuts_blank rfl _).trans ((cuts_openBrace _).trans (cuts_blank rfl _))
  -- The function would not be read with a parameter that is kept or named twice.
  have hparams : (∀ x ∈ unit.params.map (·.name), Chunk.isFree x = true) ∧
      (unit.params.map (·.name)).Nodup := by
    by_contra hnot
    rw [hhead.trans hlisted] at hcut
    obtain ⟨more, -, rfl⟩ := Option.map_eq_some_iff.1 hcut
    have htokens : [.word "fn", .word unit.name, .symbol .opening] ++
        (Chunk.listed (unit.params.map (·.name)) ++ [.symbol .closing]) ++ more =
          .word "fn" :: .word unit.name :: .symbol .opening ::
            (Chunk.listed (unit.params.map (·.name)) ++ .symbol .closing :: more) := by
      simp
    rw [htokens, Chunk.chunk?, Chunk.definition?_eq_none hnot] at hread
    cases hread
  have hfunction : ∀ p ∈ unit.params, Chunk.isFunctionName p.name = true := fun p hp =>
    (isFunctionName_of_identifier (h.params p hp)).2
      ⟨hwords _ (List.mem_map_of_mem hp), hparams.1 _ (List.mem_map_of_mem hp)⟩
  refine h.hasLines (fun p hp => hwords _ (List.mem_map_of_mem hp))
    (fun p hp => hparams.1 _ (List.mem_map_of_mem hp)) hparams.2 ?_
  by_contra hnot
  have hlines := Line.ofChars?_lines_eq_none whole (h.lines hfunction) hnot ('\x7d' :: rest)
  rw [← h.body] at hlines
  rw [(hhead.trans (hlisted.trans hopen)).eq_none hlines] at hcut
  cases hcut

/-- A unit with a name that is spelled like a word. If it is one, the unit can be read up to the first name that is
refused. -/
structure Worded (unit : RecordedUnit) (ls : List Line) : Prop where
  name : Identifier unit.name
  spelled : isWord unit.name.toList = true → unit.Spelled ls

theorem Spelled.worded (h : unit.Spelled ls) : unit.Worded ls := by
  have hname := h.name
  simp only [Chunk.isFunctionName, Bool.and_eq_true, List.all_eq_true] at hname
  exact ⟨.of_isWord hname.1.2 hname.2, fun _ => h⟩

/-- A function whose name is no word ends the tokens. -/
theorem Worded.spelled_of_cut (h : unit.Worded ls) {whole : List Char} {before : Bool} {rest : List Char}
    {ts : List ChunkToken} (hcut : ofChars? whole before (unit.definition.toList ++ rest) = some ts) :
    unit.Spelled ls := by
  refine h.spelled ?_
  by_contra hnot
  obtain ⟨behind, htext⟩ : ∃ behind, unit.definition.toList ++ rest = '/' :: '/' :: (' ' ::
      unit.signature.text.toList ++ '\n' :: ("fn".toList ++ ' ' :: (unit.name.toList ++ '(' :: behind))) :=
    ⟨(", ".intercalate (unit.params.map (·.name))).toList ++ ')' :: ' ' :: '\x7b' :: '\n' :: unit.indented rest,
      by simp [definition, indented]⟩
  have hcomment : Cuts whole before ('/' :: '/' :: (' ' :: unit.signature.text.toList ++ '\n' ::
      ("fn".toList ++ ' ' :: (unit.name.toList ++ '(' :: behind)))) [] before
        ("fn".toList ++ ' ' :: (unit.name.toList ++ '(' :: behind)) :=
    cuts_comment (by simpa using notMem_signature _ (.inl rfl)) (by simpa using notMem_signature _ (.inr rfl)) _
  have hfn : Cuts whole before ("fn".toList ++ ' ' :: (unit.name.toList ++ '(' :: behind)) [.word "fn"] true
      (unit.name.toList ++ '(' :: behind) :=
    (cuts_word whole before (by decide) rfl _).trans (cuts_blank rfl _)
  rw [htext, (hcomment.trans hfn).eq_none
    (ofChars?_eq_none h.name (Bool.eq_false_iff.2 hnot) (by decide) behind)] at hcut
  cases hcut

/-- The units of some functions that are read can be read. -/
theorem hasLines_of_chunk? {us : List (RecordedUnit × List Line)} (h : ∀ u ∈ us, u.1.Worded u.2)
    {whole : List Char} {before : Bool} {ts : List ChunkToken} {chunk : Chunk}
    (hcut : ofChars? whole before
      (String.join ((us.map fun u => u.1.definition).map fun d => "\n" ++ d ++ "\n")).toList = some ts)
    (hread : Chunk.chunk? ts = some chunk) : ∀ u ∈ us, u.1.HasLines u.2 := by
  induction us generalizing before ts chunk with
  | nil => exact fun u hu => nomatch hu
  | cons u us ih =>
    obtain ⟨hu, hus⟩ := List.forall_mem_cons.1 h
    obtain ⟨more, hmore⟩ : ∃ more, more =
      (String.join ((us.map fun u => u.1.definition).map fun d => "\n" ++ d ++ "\n")).toList := ⟨_, rfl⟩
    have hbefore : Cuts whole before ('\n' :: (u.1.definition.toList ++ '\n' :: more)) [] before
        (u.1.definition.toList ++ '\n' :: more) := cuts_blank rfl _
    have htext : (String.join (((u :: us).map fun u => u.1.definition).map fun d =>
        "\n" ++ d ++ "\n")).toList = '\n' :: (u.1.definition.toList ++ '\n' :: more) := by
      rw [hmore]
      simp [String.join_cons]
    rw [htext, hbefore] at hcut
    obtain ⟨ts', hunits, rfl⟩ := Option.map_eq_some_iff.1 hcut
    rw [List.nil_append] at hread
    have hlines := (hu.spelled_of_cut hunits).hasLines_of_chunk? hunits hread
    -- Behind a unit that is read come the tokens of the others.
    have hafter : Cuts whole true ('\n' :: more) [] true more := cuts_blank rfl _
    rw [(cuts_definition hlines whole before _).trans hafter] at hunits
    obtain ⟨ts'', hothers, rfl⟩ := Option.map_eq_some_iff.1 hunits
    rw [List.append_nil, Printed.chunk?_append hlines.readable] at hread
    split at hread
    · obtain ⟨chunk', hread, -⟩ := Option.map_eq_some_iff.1 hread
      rw [hmore] at hothers
      exact List.forall_mem_cons.2 ⟨hlines, ih hus hothers hread⟩
    · cases hread

/-- The units of a chunk that is loaded can be read. -/
theorem hasLines_of_parse? {us : List (RecordedUnit × List Line)} (h : ∀ u ∈ us, u.1.Worded u.2)
    {chunk : Chunk}
    (hparse : Chunk.parse? (Artifacts.chunkText (us.map fun u => u.1.definition)) = some chunk) :
    ∀ u ∈ us, u.1.HasLines u.2 := by
  unfold Chunk.parse? ofText? Artifacts.chunkText at hparse
  rw [String.toList_append, Artifacts.cuts_chunkHeader] at hparse
  obtain ⟨ts, hcut, hparse⟩ := Option.bind_eq_some_iff.1 hparse
  obtain ⟨ts', hunits, rfl⟩ := Option.map_eq_some_iff.1 hcut
  obtain ⟨chunk', hread, -⟩ := Option.bind_eq_some_iff.1 hparse
  exact hasLines_of_chunk? h hunits hread

end RecordedUnit

end Barrage
