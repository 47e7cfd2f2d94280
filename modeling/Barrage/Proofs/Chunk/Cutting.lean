import Barrage.Proofs.Chunk.Lines
import Barrage.Proofs.Chunk.Numerals
import Barrage.Proofs.Text.Literals

/-!
# Cutting printed text

The text of a phrase is cut into the tokens of the phrase, whatever else the text it stands in holds, as
long as it stands where an operand is expected and is followed by what can follow an operand. So is the text
of a line, after which anything can stand.

## Main definitions

* `ChunkToken.Cuts` — some tokens are cut off the front of a text
* `Phrase.IsCut` — a text is cut into tokens wherever an operand can stand

## Main results

* `Phrase.isCut` — every phrase that can be read is cut into its tokens
* `Line.cuts` — every line that can be read is cut into its tokens
-/

namespace Barrage

namespace ChunkToken

variable {whole cs rest : List Char} {ts : List ChunkToken} {before after : Bool} {c : Char}

/-- Some tokens are cut off, and the rest is cut as what comes after them. -/
def Cuts (whole : List Char) (before : Bool) (cs : List Char) (ts : List ChunkToken) (after : Bool)
    (rest : List Char) : Prop :=
  ofChars? whole before cs = (ofChars? whole after rest).map (ts ++ ·)

theorem Cuts.trans {mid : List Char} {us : List ChunkToken} {between : Bool}
    (h : Cuts whole before cs ts between mid) (h' : Cuts whole between mid us after rest) :
    Cuts whole before cs (ts ++ us) after rest := by
  rw [Cuts, h, h', Option.map_map]
  congr 1
  funext vs
  simp

theorem cuts_blank (hc : Text.isSourceBlank c = true) (rest : List Char) :
    Cuts whole before (c :: rest) [] before rest := by
  have hslash : c ≠ '/' := by
    rintro rfl
    cases hc
  rw [Cuts, ofChars?]
  · simp [hc]
  all_goals exact fun _ heq => absurd heq hslash

theorem cuts_next {t : ChunkToken} (hblank : Text.isSourceBlank c = false)
    (hslash : c ≠ '/' ∨ cs.head? = some ' ') (h : next? whole before c cs = some (t, rest)) :
    Cuts whole before (c :: cs) [t] t.endsOperand rest := by
  rw [Cuts, ofChars?]
  · rw [if_neg (by simp [hblank])]
    split
    · rename_i hnone
      rw [h] at hnone
      cases hnone
    · rename_i hsome
      rw [h] at hsome
      cases hsome
      rfl
  all_goals
    rintro _ rfl rfl
    simp at hslash

theorem cuts_opening (rest : List Char) : Cuts whole before ('(' :: rest) [.symbol .opening] false rest :=
  cuts_next rfl (.inl (by decide)) rfl

theorem cuts_closing (rest : List Char) : Cuts whole before (')' :: rest) [.symbol .closing] true rest :=
  cuts_next rfl (.inl (by decide)) rfl

/-- Parentheses around what is cut. -/
theorem Cuts.parenthesized (h : Cuts whole false cs ts true (')' :: rest)) (before : Bool) :
    Cuts whole before ('(' :: cs) (Phrase.enclosed ts) true rest :=
  (cuts_opening cs).trans (h.trans (cuts_closing rest))

theorem cuts_comma (rest : List Char) : Cuts whole before (',' :: rest) [.symbol .comma] false rest :=
  cuts_next rfl (.inl (by decide)) rfl

theorem cuts_sign (op : Operator) (rest : List Char) :
    Cuts whole true (op.sign.chars ++ ' ' :: rest) [.symbol op.sign] false (' ' :: rest) := by
  rcases op with f | o
  · cases f
    all_goals exact cuts_next rfl (.inl (by decide)) rfl
  · cases o
    case div => exact cuts_next rfl (.inr rfl) rfl
    all_goals exact cuts_next rfl (.inl (by decide)) rfl

theorem takeWhile_continues {x : List Char} (hx : ∀ d ∈ x, Scanned.continuesName d = true)
    (hc : Scanned.continuesName c = false) (rest : List Char) :
    (x ++ c :: rest).takeWhile Scanned.continuesName = x := by
  rw [List.takeWhile_append_of_pos hx, List.takeWhile_cons_of_neg (by simp [hc]), List.append_nil]

theorem dropWhile_continues {x : List Char} (hx : ∀ d ∈ x, Scanned.continuesName d = true)
    (hc : Scanned.continuesName c = false) (rest : List Char) :
    (x ++ c :: rest).dropWhile Scanned.continuesName = c :: rest := by
  rw [List.dropWhile_append_of_pos hx, List.dropWhile_cons_of_neg (by simp [hc])]

/-- Whether a text is spelled like a word. -/
def isSpelled (x : String) : Bool := isWord x.toList && x.toList.all Scanned.continuesName

theorem opensName_of_isWord {d : Char} {ds : List Char} (h : isWord (d :: ds) = true) :
    Scanned.opensName d = true := by
  by_cases hbar : d = '_'
  · simp [Scanned.opensName, hbar]
  · simp only [isWord] at h
    rw [List.dropWhile_cons_of_neg (by simpa using hbar)] at h
    simp only [List.head?_cons, Option.map_some, Option.getD_some] at h
    simp [Scanned.opensName, h]

/-- A word is cut off before a character that no name goes on with. -/
theorem cuts_word (whole : List Char) (before : Bool) {x : String} (hx : isSpelled x = true)
    (hc : Scanned.continuesName c = false) (rest : List Char) :
    Cuts whole before (x.toList ++ c :: rest) [.word x] (ChunkToken.word x).endsOperand (c :: rest) := by
  simp only [isSpelled, Bool.and_eq_true, List.all_eq_true] at hx
  obtain ⟨hword, hall⟩ := hx
  obtain ⟨d, ds, hds⟩ : ∃ d ds, x.toList = d :: ds := by
    refine List.exists_cons_of_ne_nil fun hnil => ?_
    rw [hnil] at hword
    cases hword
  rw [hds, List.cons_append]
  rw [hds] at hword hall
  have hopens : Scanned.opensName d = true := opensName_of_isWord hword
  have hrest : ∀ e ∈ ds, Scanned.continuesName e = true := fun e he => hall e (by simp [he])
  have hdigit : d.isDigit = false := by
    rw [Bool.eq_false_iff]
    intro hdigit
    have : Scanned.opensName d = false :=
      Checked.forall_digits (Scanned.opensName · = false) (by decide) hdigit
    simp [hopens] at this
  have hblank : Text.isSourceBlank d = false := by
    rw [Bool.eq_false_iff]
    intro hblank
    have hmem : d ∈ [' ', '\t', '\n', '\x0c', '\r'] := by
      simpa [Text.isSourceBlank, or_assoc] using hblank
    have hblanks : [' ', '\t', '\n', '\x0c', '\r'].all (fun e => !Scanned.opensName e) = true := by decide
    simpa [hopens] using List.all_eq_true.1 hblanks d hmem
  have hslash : d ≠ '/' := by
    rintro rfl
    cases hopens
  have hname : x = String.ofList (d :: ds) := by rw [← hds, String.ofList_toList]
  refine cuts_next hblank (.inl hslash) ?_
  rw [next?, if_neg (by simp [hdigit]), if_pos hopens]
  simp only [takeWhile_continues hrest hc, dropWhile_continues hrest hc, if_pos hword, hname]

theorem isSpelled_of_isFunctionName {x : String} (h : Chunk.isFunctionName x = true) :
    isSpelled x = true := by
  simp only [Chunk.isFunctionName, Bool.and_eq_true] at h
  simp only [isSpelled, Bool.and_eq_true]
  exact ⟨h.1.2, h.2⟩

/-- A name ends an operand. -/
theorem cuts_name {x : String} (hx : Chunk.isFunctionName x = true)
    (hc : Scanned.continuesName c = false) (rest : List Char) :
    Cuts whole before (x.toList ++ c :: rest) [.word x] true (c :: rest) := by
  have hfree := Chunk.isFree_of_isFunctionName hx
  have hends : (ChunkToken.word x).endsOperand = true := by
    have hreturn : x ≠ "return" := Chunk.ne_of_isFree hfree (by decide)
    have hif : x ≠ "if" := Chunk.ne_of_isFree hfree (by decide)
    simp [endsOperand, hreturn, hif]
  have hword := cuts_word whole before (isSpelled_of_isFunctionName hx) hc rest
  rwa [hends] at hword

/-- A quoted key. A quote behind it would go on with the literal. -/
theorem cuts_quoted (key : String) (hquote : c ≠ '"') (rest : List Char) :
    Cuts whole before ((Text.literal key).toList ++ c :: rest) [.text key] true (c :: rest) := by
  have hcontent := content?_literal whole (key.toList.flatMap Text.literalChar ++ '"' :: c :: rest)
    key.toList hquote rest
  rw [Text.toList_literal]
  simp only [List.cons_append, List.append_assoc, List.nil_append]
  refine cuts_next rfl (.inl (by decide)) ?_
  change (content? whole _ _).map _ = _
  rw [hcontent]
  simp

theorem cuts_literal (key : String) (hc : ends c = true) (rest : List Char) :
    Cuts whole before ((Text.literal key).toList ++ c :: rest) [.text key] true (c :: rest) :=
  cuts_quoted key (forall_ends (· ≠ '"') (by decide) hc) rest

theorem ends_blank {d : Char} (hd : d = '-' ∨ d.isDigit = true) :
    Text.isSourceBlank d = false ∧ d ≠ '/' := by
  rcases hd with rfl | hd
  · decide
  · exact ⟨Checked.forall_digits (Text.isSourceBlank · = false) (by decide) hd,
      Checked.forall_digits (· ≠ '/') (by decide) hd⟩

theorem cuts_int (whole : List Char) (n : Int64) (hc : ends c = true) (rest : List Char) :
    Cuts whole false ((toString n.toInt).toList ++ c :: rest) [.int n] true (c :: rest) := by
  obtain ⟨d, ds, hn, hd, hnext⟩ := next?_int whole n hc rest
  obtain ⟨hblank, hslash⟩ := ends_blank hd
  rw [hn]
  exact cuts_next hblank (.inl hslash) hnext

theorem cuts_float {x : Float} (hx : IsFinite x) (hc : ends c = true) (rest : List Char) :
    Cuts whole false ((FloatLayout.literal.render x).toList ++ c :: rest) [.float x] true (c :: rest) := by
  obtain ⟨d, ds, hn, hd, hnext⟩ := next?_float whole hx hc rest
  obtain ⟨hblank, hslash⟩ := ends_blank hd
  rw [hn]
  exact cuts_next hblank (.inl hslash) hnext

theorem cuts_openBrace (rest : List Char) :
    Cuts whole before ('\x7b' :: rest) [.openBrace] false rest :=
  cuts_next rfl (.inl (by decide)) rfl

theorem cuts_closeBrace (rest : List Char) :
    Cuts whole before ('\x7d' :: rest) [.closeBrace] true rest :=
  cuts_next rfl (.inl (by decide)) rfl

theorem cuts_semicolon (rest : List Char) : Cuts whole before (';' :: rest) [.semicolon] false rest :=
  cuts_next rfl (.inl (by decide)) rfl

end ChunkToken

namespace Phrase

open ChunkToken

/-- Text that is followed by the end of an operand is cut into tokens. -/
def IsCut (text : List Char) (ts : List ChunkToken) : Prop :=
  ∀ (whole : List Char) (c : Char) (rest : List Char), ends c = true →
    Cuts whole false (text ++ c :: rest) ts true (c :: rest)

variable {text : List Char} {ts : List ChunkToken}

/-- Text in parentheses, whatever stands before and after them. -/
theorem IsCut.cuts_enclosed (h : IsCut text ts) (whole : List Char) (before : Bool) (rest : List Char) :
    Cuts whole before ('(' :: text ++ ')' :: rest) (Phrase.enclosed ts) true rest := by
  have hall := (h whole ')' rest rfl).parenthesized before
  simpa using hall

theorem IsCut.enclosed (h : IsCut text ts) : IsCut ('(' :: text ++ [')']) (Phrase.enclosed ts) := by
  intro whole c rest _
  have hall := h.cuts_enclosed whole false (c :: rest)
  simpa using hall

theorem IsCut.signed {text : String} {t : ChunkToken} (h : IsCut text.toList [t]) (signed : Bool) :
    IsCut (signedText signed text).toList (signedToken signed t) := by
  cases signed with
  | false => exact h
  | true =>
    have htext : (signedText true text).toList = '(' :: text.toList ++ [')'] := by simp [signedText]
    rw [htext]
    exact h.enclosed

theorem isCut_unit : IsCut unit.toText.toList unit.tokens := by
  intro whole c rest _
  exact (cuts_opening _).trans (cuts_closing _)

theorem isCut_bool (b : Bool) : IsCut (bool b).toText.toList (bool b).tokens := by
  intro whole c rest hc
  have hname : Scanned.continuesName c = false := forall_ends (Scanned.continuesName · = false) (by decide) hc
  cases b
  · exact cuts_word whole false (x := "false") (by decide) hname rest
  · exact cuts_word whole false (x := "true") (by decide) hname rest

theorem isCut_least : IsCut least.toText.toList least.tokens := by
  have hfirst : (toString (-9223372036854775807 : Int64).toInt).toList = "-9223372036854775807".toList := by
    decide
  have hsecond : (toString (1 : Int64).toInt).toList = ['1'] := by decide
  have htext : least.toText.toList = '(' :: ("-9223372036854775807".toList ++ " - 1".toList) ++ [')'] := by
    decide
  rw [htext]
  refine IsCut.enclosed fun whole c rest hc => ?_
  have hleft := cuts_int whole (-9223372036854775807) (c := ' ') rfl ('-' :: ' ' :: '1' :: c :: rest)
  have hright := cuts_int whole 1 hc rest
  rw [hfirst] at hleft
  rw [hsecond] at hright
  have hsign : Cuts whole true ('-' :: ' ' :: '1' :: c :: rest) [.symbol .minus] false
      (' ' :: '1' :: c :: rest) := cuts_sign (.op .sub) ('1' :: c :: rest)
  have hall := hleft.trans ((cuts_blank rfl _).trans (hsign.trans ((cuts_blank rfl _).trans hright)))
  simpa using hall

/-- Further operands, each after the text of the token that joins it to the one before. -/
theorem cuts_linked {link : ChunkToken} {s : Char} {sep : List Char} (hs : ends s = true)
    (hlink : ∀ whole rest, Cuts whole true (s :: sep ++ rest) [link] false rest) {ps : List Phrase}
    (hps : ∀ p ∈ ps, IsCut p.toText.toList p.tokens) (whole : List Char) {c : Char} (hc : ends c = true)
    (rest : List Char) :
    Cuts whole true ((toTexts ps).flatMap (fun text => s :: sep ++ text.toList) ++ c :: rest)
      (linked link ps) true (c :: rest) := by
  induction ps with
  | nil => exact Option.map_id'.symm
  | cons p ps ih =>
    have hmore := ih fun q hq => hps q (by simp [hq])
    obtain ⟨d, ds, hnext, hd⟩ : ∃ d ds,
        (toTexts ps).flatMap (fun text => s :: sep ++ text.toList) ++ c :: rest = d :: ds ∧ ends d = true := by
      cases ps with
      | nil => exact ⟨c, rest, rfl, hc⟩
      | cons q qs => exact ⟨s, _, rfl, hs⟩
    rw [hnext] at hmore
    have hp := hps p (by simp) whole d ds hd
    have hall := (hlink whole _).trans (hp.trans hmore)
    rw [← hnext] at hall
    simpa [toTexts, linked] using hall

theorem toList_intercalate_cons (sep text : String) (texts : List String) :
    (sep.intercalate (text :: texts)).toList =
      text.toList ++ texts.flatMap fun t => sep.toList ++ t.toList := by
  induction texts generalizing text with
  | nil => simp
  | cons t texts ih =>
    rw [String.intercalate_cons_cons, String.toList_append, String.toList_append, ih]
    simp

/-- Operands with the text of a token between them. -/
theorem isCut_linked (link : ChunkToken) (sep : String) {s : Char} {ss : List Char}
    (hsep : sep.toList = s :: ss) (hs : ends s = true)
    (hlink : ∀ whole rest, Cuts whole true (s :: ss ++ rest) [link] false rest)
    {p : Phrase} {ps : List Phrase} (hp : IsCut p.toText.toList p.tokens)
    (hps : ∀ q ∈ ps, IsCut q.toText.toList q.tokens) :
    IsCut (sep.intercalate (toTexts (p :: ps))).toList (p.tokens ++ linked link ps) := by
  intro whole c rest hc
  have hmore := cuts_linked hs hlink hps whole hc rest
  obtain ⟨d, ds, hnext, hd⟩ : ∃ d ds,
      (toTexts ps).flatMap (fun text => s :: ss ++ text.toList) ++ c :: rest = d :: ds ∧ ends d = true := by
    cases ps with
    | nil => exact ⟨c, rest, rfl, hc⟩
    | cons q qs => exact ⟨s, _, rfl, hs⟩
  rw [hnext] at hmore
  have hall := (hp whole d ds hd).trans hmore
  rw [← hnext] at hall
  rw [toTexts, toList_intercalate_cons, hsep, List.append_assoc]
  exact hall

theorem isCut_chain (op : Operator) {first : Phrase} {rest : List Phrase}
    (hfirst : IsCut first.toText.toList first.tokens) (hrest : ∀ p ∈ rest, IsCut p.toText.toList p.tokens) :
    IsCut (chain op first rest).toText.toList (chain op first rest).tokens := by
  have hsep : (" " ++ op.sign.text ++ " ").toList = ' ' :: (op.sign.chars ++ [' ']) := by
    simp [Symbol.text]
  have hlink : ∀ whole rest,
      Cuts whole true (' ' :: (op.sign.chars ++ [' ']) ++ rest) [.symbol op.sign] false rest := by
    intro whole rest
    have hall : Cuts whole true (' ' :: (op.sign.chars ++ ' ' :: rest)) [.symbol op.sign] false rest :=
      (cuts_blank rfl _).trans ((cuts_sign op rest).trans (cuts_blank rfl rest))
    simpa using hall
  have hinner := isCut_linked _ _ hsep rfl hlink hfirst hrest
  have htext : (chain op first rest).toText.toList =
      '(' :: ((" " ++ op.sign.text ++ " ").intercalate (toTexts (first :: rest))).toList ++ [')'] := by
    simp [toText, toTexts]
  rw [htext, tokens]
  exact hinner.enclosed

theorem isCut_call {function : String} {args : List Phrase} (hfunction : Chunk.isFunctionName function = true)
    (hargs : ∀ p ∈ args, IsCut p.toText.toList p.tokens) :
    IsCut (call function args).toText.toList (call function args).tokens := by
  intro whole c rest hc
  cases args with
  | nil =>
    have hname : Cuts whole false (function.toList ++ '(' :: ')' :: c :: rest) [.word function] true
        ('(' :: ')' :: c :: rest) := cuts_name hfunction rfl _
    have hall := hname.trans ((cuts_opening _).trans (cuts_closing _))
    have htext : (call function []).toText.toList = function.toList ++ ['(', ')'] := by
      simp [toText, toTexts]
    rw [htext, tokens, List.append_assoc]
    exact hall
  | cons p ps =>
    have hcomma : ∀ whole rest, Cuts whole true (',' :: [' '] ++ rest) [.symbol .comma] false rest :=
      fun whole rest => (cuts_comma _).trans (cuts_blank rfl rest)
    have hmore : ∀ q ∈ ps, IsCut q.toText.toList q.tokens := fun q hq => hargs q (by simp [hq])
    have hinner := isCut_linked (.symbol .comma) ", " rfl rfl hcomma (hargs p (by simp)) hmore
    obtain ⟨inner, hinnerText⟩ : ∃ inner, inner = (", ".intercalate (toTexts (p :: ps))).toList := ⟨_, rfl⟩
    rw [← hinnerText] at hinner
    have hname : Cuts whole false (function.toList ++ '(' :: (inner ++ ')' :: c :: rest)) [.word function] true
        ('(' :: (inner ++ ')' :: c :: rest)) := cuts_name hfunction rfl _
    have hall := hname.trans (hinner.cuts_enclosed whole true (c :: rest))
    have htext : (call function (p :: ps)).toText.toList = function.toList ++ '(' :: inner ++ [')'] := by
      rw [hinnerText]
      simp [toText]
    rw [htext, tokens]
    simpa using hall

/-- Text in braces, with a blank on either side. -/
theorem IsCut.cuts_braced (h : IsCut text ts) (whole : List Char) (before : Bool) (rest : List Char) :
    Cuts whole before ('\x7b' :: ' ' :: (text ++ ' ' :: '\x7d' :: rest)) (Phrase.braced ts) true rest := by
  have hinner := h whole ' ' ('\x7d' :: rest) rfl
  have hclose : Cuts whole true (' ' :: '\x7d' :: rest) [.closeBrace] true rest :=
    (cuts_blank rfl _).trans (cuts_closeBrace rest)
  have hopen : Cuts whole before ('\x7b' :: ' ' :: (text ++ ' ' :: '\x7d' :: rest)) [.openBrace] false
      (text ++ ' ' :: '\x7d' :: rest) := (cuts_openBrace _).trans (cuts_blank rfl _)
  have hall := hopen.trans (hinner.trans hclose)
  simpa [Phrase.braced] using hall

/-- A choice from its first word to its closing brace. -/
theorem cuts_choice {cond yes no : Phrase} (hcond : IsCut cond.toText.toList cond.tokens)
    (hyes : IsCut yes.toText.toList yes.tokens) (hno : IsCut no.toText.toList no.tokens)
    (whole rest : List Char) :
    Cuts whole false ("if ".toList ++ cond.toText.toList ++ " \x7b ".toList ++ yes.toText.toList ++
        " \x7d else \x7b ".toList ++ no.toText.toList ++ " \x7d".toList ++ rest)
      (.word "if" :: cond.tokens ++ braced yes.tokens ++ .word "else" :: braced no.tokens) true rest := by
  obtain ⟨others, hothers⟩ : ∃ others,
      others = '\x7b' :: ' ' :: (no.toText.toList ++ ' ' :: '\x7d' :: rest) := ⟨_, rfl⟩
  obtain ⟨mid, hmid⟩ : ∃ mid, mid = '\x7b' :: ' ' :: (yes.toText.toList ++ ' ' :: '\x7d' ::
      (' ' :: ("else".toList ++ ' ' :: others))) := ⟨_, rfl⟩
  have hif : Cuts whole false ("if".toList ++ ' ' :: (cond.toText.toList ++ ' ' :: mid)) [.word "if"] false
      (cond.toText.toList ++ ' ' :: mid) :=
    (cuts_word whole false (by decide) rfl _).trans (cuts_blank rfl _)
  have hbranch : Cuts whole true (' ' :: mid) (braced yes.tokens) true
      (' ' :: ("else".toList ++ ' ' :: others)) := by
    rw [hmid]
    exact (cuts_blank rfl _).trans (hyes.cuts_braced whole true _)
  have helse : Cuts whole true (' ' :: ("else".toList ++ ' ' :: others)) [.word "else"] true others :=
    (cuts_blank rfl _).trans ((cuts_word whole true (by decide) rfl _).trans (cuts_blank rfl _))
  have hlast : Cuts whole true others (braced no.tokens) true rest := by
    rw [hothers]
    exact hno.cuts_braced whole true rest
  have hall := hif.trans ((hcond whole ' ' mid rfl).trans (hbranch.trans (helse.trans hlast)))
  rw [hmid, hothers] at hall
  simpa using hall

/-- Every phrase that can be read is cut into its tokens. -/
theorem isCut {p : Phrase} (h : p.Readable) : IsCut p.toText.toList p.tokens := by
  induction h with
  | unit => exact isCut_unit
  | bool b => exact isCut_bool b
  | int n =>
    rw [toText, tokens]
    exact IsCut.signed (fun whole c rest hc => cuts_int whole n hc rest) _
  | least => exact isCut_least
  | float hx =>
    rw [toText, tokens]
    exact IsCut.signed (fun whole c rest hc => cuts_float hx hc rest) _
  | text s => exact fun whole c rest hc => cuts_literal s hc rest
  | name hx =>
    intro whole c rest hc
    exact cuts_name hx (forall_ends (Scanned.continuesName · = false) (by decide) hc) rest
  | chain _ _ _ _ _ ihfirst ihrest => exact isCut_chain _ ihfirst ihrest
  | call hfunction _ ih => exact isCut_call hfunction ih
  | @choice cond yes no _ _ _ _ ihcond ihyes ihno =>
    intro whole c rest _
    have hinner := cuts_choice ihcond ihyes ihno whole (')' :: c :: rest)
    have hall := hinner.parenthesized false
    have htext : (choice cond yes no).toText.toList = '(' :: ("if ".toList ++ cond.toText.toList ++
        " \x7b ".toList ++ yes.toText.toList ++ " \x7d else \x7b ".toList ++ no.toText.toList ++
          " \x7d".toList) ++ [')'] := by
      simp [toText]
    rw [htext, tokens]
    simpa using hall

end Phrase

namespace Line

open ChunkToken

variable {whole : List Char} {before : Bool}

theorem cuts_assign (rest : List Char) :
    Cuts whole before ('=' :: ' ' :: rest) [.symbol .assign] false rest :=
  (cuts_next rfl (.inl (by decide)) rfl : Cuts whole before ('=' :: ' ' :: rest) [.symbol .assign] false
    (' ' :: rest)).trans (cuts_blank rfl rest)

/-- A name with what binds it. -/
theorem cuts_let (whole : List Char) (before : Bool) {name : String} (hname : Chunk.isFunctionName name = true)
    (rest : List Char) :
    Cuts whole before ("let ".toList ++ name.toList ++ " = ".toList ++ rest)
      [.word "let", .word name, .symbol .assign] false rest := by
  have hlet : Cuts whole before ("let".toList ++ ' ' :: (name.toList ++ ' ' :: '=' :: ' ' :: rest))
      [.word "let"] true (name.toList ++ ' ' :: '=' :: ' ' :: rest) :=
    (cuts_word whole before (by decide) rfl _).trans (cuts_blank rfl _)
  have hassign : Cuts whole true (' ' :: '=' :: ' ' :: rest) [.symbol .assign] false rest :=
    (cuts_blank rfl _).trans (cuts_assign rest)
  have hall := hlet.trans ((cuts_name hname rfl _).trans hassign)
  simpa using hall

/-- Every line that can be read is cut into its tokens. -/
theorem cuts {line : Line} (h : line.Readable) (rest : List Char) :
    Cuts whole before (line.toText.toList ++ rest) line.tokens false rest := by
  cases h with
  | @bind name value hname hvalue =>
    have hinner := Phrase.isCut hvalue whole ';' rest rfl
    have hall := (cuts_let whole before hname _).trans (hinner.trans (cuts_semicolon rest))
    have htext : (bind name value).toText.toList ++ rest =
        "let ".toList ++ name.toList ++ " = ".toList ++ (value.toText.toList ++ ';' :: rest) := by
      simp [toText]
    rw [htext]
    simpa [tokens] using hall
  | @guarded name cond value hname hcond hvalue htruth =>
    have hinner := Phrase.cuts_choice (Phrase.isCut hcond) (Phrase.isCut hvalue) Phrase.isCut_unit whole
      (';' :: rest)
    have hall := (cuts_let whole before hname _).trans (hinner.trans (cuts_semicolon rest))
    have htext : (guarded name cond value).toText.toList ++ rest =
        "let ".toList ++ name.toList ++ " = ".toList ++ ("if ".toList ++ cond.toText.toList ++
          " \x7b ".toList ++ value.toText.toList ++ " \x7d else \x7b ".toList ++ Phrase.unit.toText.toList ++
            " \x7d".toList ++ ';' :: rest) := by
      simp [toText, Phrase.toText]
    rw [htext]
    simpa [tokens] using hall
  | @give value hvalue =>
    have hreturn : Cuts whole before ("return".toList ++ ' ' :: (value.toText.toList ++ ';' :: rest))
        [.word "return"] false (value.toText.toList ++ ';' :: rest) :=
      (cuts_word whole before (by decide) rfl _).trans (cuts_blank rfl _)
    have hinner := Phrase.isCut hvalue whole ';' rest rfl
    have hall := hreturn.trans (hinner.trans (cuts_semicolon rest))
    have htext : (give value).toText.toList ++ rest =
        "return".toList ++ ' ' :: (value.toText.toList ++ ';' :: rest) := by
      simp [toText]
    rw [htext]
    simpa [tokens] using hall

end Line

end Barrage
