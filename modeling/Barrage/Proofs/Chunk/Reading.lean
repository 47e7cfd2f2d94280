import Barrage.Proofs.Chunk.Phrases
import Barrage.Proofs.Number.FloatTexts

/-!
# Reading printed expressions

The tokens of a phrase are read as its term. A reader that is given some number of levels succeeds exactly
if the phrase opens no more of them, whatever the phrase is made of: a call opens two, one for itself and
one for each of its arguments, and so do parentheses; every operand of a chain stands one level below the
operand before it.

## Main definitions

* `Phrase.Readable` — phrases whose names are names and whose conditions may be truth values
* `Chunk.Reading.Reads` — a phrase is read as its term, given enough levels

## Main results

* `Chunk.Reading.reads` — every phrase that is readable is read as its term
-/

namespace Barrage

/-- Whether an operator can be printed: a function is only if it is written with one. -/
def Operator.isWritten : Operator → Bool
  | func f => f.joiner?.isSome
  | op _ => true

/-- The level of an operator. -/
def Operator.level : Operator → Nat
  | func .mul | op .div | op .rem => 0
  | func .and => 4
  | func .or => 5
  | func _ | op .sub => 1
  | op .eq | op .ne => 3
  | op _ => 2

/-- Whether an operator joins truth values. -/
def Operator.isLogical (op : Operator) : Bool := op = .func .and || op = .func .or

/-- Phrases that can be read: names and functions have names of their own, doubles are numbers, and what is
used as a truth value may be one. -/
inductive Phrase.Readable : Phrase → Prop
  | unit : Readable unit
  | bool (b : Bool) : Readable (bool b)
  | int (n : Int64) : Readable (int n)
  | least : Readable least
  | float {x : Float} (hx : IsFinite x) : Readable (float x)
  | text (s : String) : Readable (text s)
  | name {x : String} (hx : Chunk.isFunctionName x = true) : Readable (name x)
  | chain {op : Operator} {first : Phrase} {rest : List Phrase} (hop : op.isWritten = true)
    (hrest : rest ≠ []) (hfirst : Readable first) (hmore : ∀ p ∈ rest, Readable p)
    (htruth : op.isLogical = true → ∀ p ∈ first :: rest, p.term.mayBeTruth = true) :
    Readable (chain op first rest)
  | call {function : String} {args : List Phrase} (hfunction : Chunk.isFunctionName function = true)
    (hargs : ∀ p ∈ args, Readable p) : Readable (call function args)
  | choice {cond yes no : Phrase} (hcond : Readable cond) (hyes : Readable yes) (hno : Readable no)
    (htruth : cond.term.mayBeTruth = true) : Readable (choice cond yes no)

namespace ChunkToken

/-- Whether a token ends the term before it. -/
def stops : ChunkToken → Bool
  | symbol .closing | symbol .comma | openBrace | closeBrace | semicolon => true
  | _ => false

/-- Whether a token can follow an operand. -/
def follows : ChunkToken → Bool
  | symbol s => s == .closing || s == .comma || (Chunk.operatorOf? s).isSome
  | openBrace | closeBrace | semicolon => true
  | _ => false

/-- Whether a token opens a term, and no other statement. -/
def opens : ChunkToken → Bool
  | word w => w != "let" && w != "return" && w != "if"
  | int _ | float _ | text _ => true
  | symbol s => s == .opening
  | _ => false

theorem follows_of_stops {t : ChunkToken} (h : t.stops = true) : t.follows = true := by
  cases t with
  | symbol s => cases s <;> first | rfl | cases h
  | _ => first | rfl | cases h

end ChunkToken

namespace Chunk

open ChunkToken

theorem exists_operatorOf? {op : Operator} (h : op.isWritten = true) :
    ∃ level, level < Operator.levels ∧ operatorOf? op.sign = some (level, op) := by
  have hlevel : op.level < Operator.levels := by
    cases op with
    | func f => cases f <;> decide
    | op o => cases o <;> decide
  refine ⟨op.level, hlevel, ?_⟩
  cases op with
  | func f => cases f <;> first | rfl | cases h
  | op o => cases o <;> rfl

theorem isFree_of_isFunctionName {x : String} (h : isFunctionName x = true) : isFree x = true := by
  simp only [isFunctionName, Bool.and_eq_true] at h
  exact h.1.1

theorem ne_of_isFree {x y : String} (hx : isFree x = true) (hy : isFree y = false) : x ≠ y := by
  rintro rfl
  rw [hx] at hy
  cases hy

theorem opens_word {w : String} (hw : isFree w = true) : (word w).opens = true := by
  have hlet : w ≠ "let" := ne_of_isFree hw (by decide)
  have hreturn : w ≠ "return" := ne_of_isFree hw (by decide)
  have hif : w ≠ "if" := ne_of_isFree hw (by decide)
  simp [opens, hlet, hreturn, hif]

theorem exists_tokens {p : Phrase} (h : p.Readable) :
    ∃ t ts, p.tokens = t :: ts ∧ t.opens = true := by
  cases h with
  | int n =>
    unfold Phrase.tokens Phrase.signedToken
    split <;> exact ⟨_, _, rfl, rfl⟩
  | float x =>
    unfold Phrase.tokens Phrase.signedToken
    split <;> exact ⟨_, _, rfl, rfl⟩
  | bool b => cases b <;> exact ⟨_, _, rfl, by decide⟩
  | name hx => exact ⟨_, _, rfl, opens_word (isFree_of_isFunctionName hx)⟩
  | @call function args hfunction _ => cases args <;> exact ⟨_, _, rfl, opens_word (isFree_of_isFunctionName hfunction)⟩
  | _ => exact ⟨_, _, rfl, rfl⟩

namespace Reading

theorem signed_of_opens {t : ChunkToken} (h : t.opens = true ∨ t = .word "if") (room : Nat) (ts : Rest) :
    signed room (t :: ts) = (primary room (t :: ts)).bind fun r => parts room r.1 r.2 := by
  cases t with
  | symbol s =>
    cases s with
    | opening =>
      rw [signed]
      · rfl
      all_goals simp
    | _ => simp [opens] at h
  | word _ | int _ | float _ | text _ =>
    rw [signed]
    · rfl
    all_goals simp
  | _ => simp [opens] at h

theorem parts_of_follows {t : ChunkToken} (h : t.follows = true) (room : Nat) (object : Term) (ts : Rest) :
    parts room object (t :: ts) = some (object, t :: ts) := by
  rw [parts]
  rintro room w rest - heq
  cases heq
  cases h


theorem not_reserved {x : String} (hx : isFree x = true) : reservedWords.contains x = false := by
  unfold isFree at hx
  cases h : reservedWords.contains x with
  | false => rfl
  | true =>
    rw [h] at hx
    cases hx

theorem eat?_opening_of_follows {t : ChunkToken} (h : t.follows = true) (ts : Rest) :
    eat? .opening (t :: ts) = none := by
  cases t with
  | symbol s => cases s <;> first | rfl | cases h
  | _ => rfl

theorem primary_word {w : String} (hw : isFree w = true) (room : Nat) (ts : Rest) :
    primary room (.word w :: ts) =
      match eat? .opening ts with
      | none => some (.name w, ts)
      | some rest =>
        match eat? .closing rest with
        | some rest => some (.call w [], rest)
        | none =>
          match room with
          | 0 => none
          | room + 1 => (arguments room rest).bind fun r => some (.call w r.1, r.2) := by
  rw [primary]
  · simp only [hw, not_reserved hw]
    rfl
  all_goals exact ne_of_isFree hw (by decide)


/-- What a phrase that a token follows is read as, given enough levels. -/
def Reads (p : Phrase) : Prop :=
  ∀ (room : Nat) (t : ChunkToken) (ts : Rest), t.follows = true →
    primary room (p.tokens ++ t :: ts) = if p.levels ≤ room then some (p.term, t :: ts) else none

variable {p : Phrase} {t : ChunkToken} {room : Nat} {ts : Rest}

theorem Reads.signed (hp : Reads p) (h : p.Readable) (ht : t.follows = true) (room : Nat) (ts : Rest) :
    signed room (p.tokens ++ t :: ts) = if p.levels ≤ room then some (p.term, t :: ts) else none := by
  have hprimary := hp room t ts ht
  obtain ⟨u, us, htokens, hu⟩ := exists_tokens h
  rw [htokens] at hprimary ⊢
  rw [List.cons_append, signed_of_opens (.inl hu)]
  rw [List.cons_append] at hprimary
  rw [hprimary]
  split
  · exact parts_of_follows ht room p.term ts
  · rfl

theorem operator?_of_stops (ht : t.stops = true) (below : Nat) : operator? below (t :: ts) = none := by
  cases t with
  | symbol s => cases s <;> first | rfl | cases ht
  | _ => rfl

theorem chain_of_stops (ht : t.stops = true) (below : Nat) (left : Term) :
    chain below room left (t :: ts) = some (left, t :: ts) := by
  rw [chain, operator?_of_stops ht]

theorem Reads.term (hp : Reads p) (h : p.Readable) (ht : t.stops = true) (room : Nat) (ts : Rest) :
    term room (p.tokens ++ t :: ts) =
      if p.levels + 1 ≤ room then some (p.term, t :: ts) else none := by
  cases room with
  | zero => rw [Reading.term, if_neg (by omega)]
  | succ room =>
    rw [Reading.term, hp.signed h (follows_of_stops ht)]
    by_cases hlevels : p.levels ≤ room
    · rw [if_pos hlevels, if_pos (by omega)]
      exact chain_of_stops ht _ _
    · rw [if_neg hlevels, if_neg (by omega)]
      rfl

theorem statement_of_opens (ht : t.opens = true) :
    statement (room + 1) (t :: ts) =
      (Reading.term room (t :: ts)).bind fun r => some (.eval r.1, false, r.2) := by
  cases t with
  | word w =>
    have hw : w ≠ "let" ∧ w ≠ "return" ∧ w ≠ "if" := by
      simpa [opens, and_assoc] using ht
    rw [statement]
    · rfl
    all_goals simp [hw]
  | symbol _ | int _ | float _ | text _ =>
    rw [statement]
    · rfl
    all_goals simp
  | _ => cases ht

/-- A body that starts with a statement is that statement and the rest of the body. -/
theorem statements_eq {u : ChunkToken} {us : Rest} (hclose : u ≠ .closeBrace) (hsemi : u ≠ .semicolon) :
    statements room (u :: us) = (statement room (u :: us)).bind fun r =>
      (separated? r.2.1 r.2.2).bind fun rest =>
        if rest.length < (u :: us).length then
          (statements room rest).bind fun more => some (r.1 :: more.1, more.2)
        else none := by
  rw [Reading.statements]
  · rfl
  · rintro rest heq
    cases heq
    exact hclose rfl
  · rintro rest heq
    cases heq
    exact hsemi rfl

theorem statements_closeBrace : statements room (.closeBrace :: ts) = some ([], ts) := by
  rw [Reading.statements]

theorem Reads.statements (hp : Reads p) (h : p.Readable) :
    statements room (p.tokens ++ .closeBrace :: ts) =
      if p.levels + 2 ≤ room then some ([.eval p.term], ts) else none := by
  obtain ⟨u, us, htokens, hu⟩ := exists_tokens h
  have hterm := fun room => hp.term h (t := .closeBrace) rfl room ts
  rw [htokens, List.cons_append] at hterm ⊢
  rw [statements_eq (by rintro rfl; cases hu) (by rintro rfl; cases hu)]
  cases room with
  | zero => rw [if_neg (by omega), statement]; rfl
  | succ room =>
    rw [statement_of_opens hu, hterm]
    by_cases hlevels : p.levels + 1 ≤ room
    · have hshorter : (.closeBrace :: ts : Rest).length < (u :: (us ++ .closeBrace :: ts)).length := by
        simp only [List.length_cons, List.length_append]
        omega
      have hseparated : separated? false (.closeBrace :: ts) = some (.closeBrace :: ts) := rfl
      rw [if_pos hlevels, if_pos (by omega)]
      simp only [Option.bind_some, hseparated, if_pos hshorter, statements_closeBrace]
    · rw [if_neg hlevels, if_neg (by omega)]
      rfl

/-- Further operands of a chain, read from the left. -/
theorem chain_linked {op : Operator} (hop : op.isWritten = true) {rest : List Phrase}
    (hrest : ∀ p ∈ rest, Reads p ∧ p.Readable) (ht : t.stops = true) (left : Term)
    (htruth : op.isLogical = true → left.mayBeTruth = true ∧ ∀ p ∈ rest, p.term.mayBeTruth = true)
    (room : Nat) (ts : Rest) :
    chain Operator.levels room left (Phrase.linked (.symbol op.sign) rest ++ t :: ts) =
      if Phrase.chainLevels rest ≤ room then
        some ((Phrase.terms rest).foldl (.binary op) left, t :: ts)
      else none := by
  obtain ⟨level, hlevel, hop'⟩ := exists_operatorOf? hop
  have hfollows : (ChunkToken.symbol op.sign).follows = true := by simp [follows, hop']
  induction rest generalizing room left with
  | nil =>
    rw [if_pos (show Phrase.chainLevels [] ≤ room from Nat.zero_le _)]
    exact chain_of_stops ht _ _
  | cons p rest ih =>
    have hmost : Phrase.chainLevels (p :: rest) = max (max p.levels 1) (1 + Phrase.chainLevels rest) := rfl
    obtain ⟨hp, hreadable⟩ := hrest p (by simp)
    have hnext : operator? Operator.levels (Phrase.linked (.symbol op.sign) (p :: rest) ++ t :: ts) =
        some (⟨level, hlevel⟩, op, p.tokens ++ (Phrase.linked (.symbol op.sign) rest ++ t :: ts)) := by
      simp [Phrase.linked, operator?, hop', hlevel]
    -- What follows the operand is the next operator, which binds no tighter, or the end of the chain.
    obtain ⟨u, us, hus, hu, hloose⟩ : ∃ u us, Phrase.linked (.symbol op.sign) rest ++ t :: ts = u :: us ∧
        u.follows = true ∧ operator? level (u :: us) = none := by
      cases rest with
      | nil => exact ⟨t, ts, rfl, follows_of_stops ht, operator?_of_stops ht level⟩
      | cons q rest => exact ⟨_, _, rfl, hfollows, by simp [operator?, hop']⟩
    have hjoined : joined? op left p.term = some (.binary op left p.term) := by
      unfold joined?
      by_cases hlogical : op.isLogical = true
      · have := htruth hlogical
        simp [this.1, this.2 p (by simp)]
      · have : (op = .func .and || op = .func .or) = false := by simpa [Operator.isLogical] using hlogical
        simp only [this]
        rfl
    rw [chain, hnext]
    simp only [hus, hp.signed hreadable hu]
    by_cases hlevels : p.levels ≤ room
    · rw [if_pos hlevels]
      have hright : chain level room p.term (u :: us) = some (p.term, u :: us) := by
        rw [chain, hloose]
      cases room with
      | zero =>
        rw [if_neg (by omega)]
        simp
      | succ room =>
        simp only [Option.bind_eq_bind, Option.bind_some, hright, hjoined]
        have hmore := ih (fun q hq => hrest q (by simp [hq])) (.binary op left p.term)
          (fun hlogical => ⟨rfl, fun q hq => (htruth hlogical).2 q (by simp [hq])⟩) room
        rw [← hus, hmore]
        by_cases hroom : Phrase.chainLevels rest ≤ room
        · rw [if_pos hroom, if_pos (by omega)]
          rfl
        · rw [if_neg hroom, if_neg (by omega)]
    · rw [if_neg hlevels, if_neg (by omega)]
      rfl

/-- Further arguments of a call up to its closing parenthesis. -/
theorem arguments_linked {rest : List Phrase} (hp : Reads p) (h : p.Readable)
    (hrest : ∀ p ∈ rest, Reads p ∧ p.Readable) (room : Nat) (ts : Rest) :
    arguments room (p.tokens ++ (Phrase.linked (.symbol .comma) rest ++ .symbol .closing :: ts)) =
      if max p.levels (Phrase.mostLevels rest) + 1 ≤ room then some (Phrase.terms (p :: rest), ts)
      else none := by
  induction rest generalizing p with
  | nil =>
    have hmost : Phrase.mostLevels [] = 0 := rfl
    have hterm := hp.term h (t := .symbol .closing) rfl room ts
    rw [arguments]
    simp only [Phrase.linked, List.nil_append, hterm]
    by_cases hlevels : p.levels + 1 ≤ room
    · rw [if_pos hlevels, if_pos (by omega)]
      rfl
    · rw [if_neg hlevels, if_neg (by omega)]
      rfl
  | cons q rest ih =>
    have hmost : Phrase.mostLevels (q :: rest) = max q.levels (Phrase.mostLevels rest) := rfl
    obtain ⟨hq, hreadable⟩ := hrest q (by simp)
    have hterm := hp.term h (t := .symbol .comma) rfl room
      (q.tokens ++ (Phrase.linked (.symbol .comma) rest ++ .symbol .closing :: ts))
    have hlinked : Phrase.linked (.symbol .comma) (q :: rest) ++ .symbol .closing :: ts =
        .symbol .comma :: (q.tokens ++ (Phrase.linked (.symbol .comma) rest ++ .symbol .closing :: ts)) := by
      simp [Phrase.linked]
    -- A closing parenthesis after the comma would end the arguments.
    have hopen : eat? .closing (q.tokens ++ (Phrase.linked (.symbol .comma) rest ++ .symbol .closing :: ts)) =
        none := by
      obtain ⟨u, us, htokens, hu⟩ := exists_tokens hreadable
      rw [htokens, List.cons_append]
      cases u with
      | symbol s => cases s <;> first | rfl | cases hu
      | _ => rfl
    rw [arguments, hlinked, hterm]
    by_cases hlevels : p.levels + 1 ≤ room
    · rw [if_pos hlevels]
      have hcomma : eat? .comma (.symbol .comma :: (q.tokens ++
          (Phrase.linked (.symbol .comma) rest ++ .symbol .closing :: ts))) =
          some (q.tokens ++ (Phrase.linked (.symbol .comma) rest ++ .symbol .closing :: ts)) := rfl
      have hnone : eat? .closing (.symbol .comma :: (q.tokens ++
          (Phrase.linked (.symbol .comma) rest ++ .symbol .closing :: ts))) = none := rfl
      simp only [Option.bind_eq_bind, Option.bind_some, hnone, hcomma, hopen]
      rw [ih hq hreadable fun r hr => hrest r (by simp [hr]), if_pos (by simp; omega)]
      by_cases hmore : max q.levels (Phrase.mostLevels rest) + 1 ≤ room
      · rw [if_pos hmore, if_pos (by omega)]
        rfl
      · rw [if_neg hmore, if_neg (by omega)]
        rfl
    · rw [if_neg hlevels, if_neg (by omega)]
      rfl

/-- A choice with both of its branches. -/
theorem choice_braced {cond yes no : Phrase} (hc : Reads cond) (hcond : cond.Readable) (hy : Reads yes)
    (hyes : yes.Readable) (hn : Reads no) (hno : no.Readable) (htruth : cond.term.mayBeTruth = true) :
    choice room (cond.tokens ++ (.openBrace :: (yes.tokens ++ (.closeBrace :: .word "else" ::
        .openBrace :: (no.tokens ++ .closeBrace :: ts))))) =
      if max cond.levels (2 + max yes.levels no.levels) + 2 ≤ room then
        some (.choice cond.term [.eval yes.term] [.eval no.term], ts)
      else none := by
  match room with
  | 0 => rw [choice, if_neg (by omega)]
  | 1 => rw [choice, if_neg (by omega)]
  | room + 2 =>
    have hopen : (eatOpen? (cond.tokens ++ (.openBrace :: (yes.tokens ++ (.closeBrace :: .word "else" ::
        .openBrace :: (no.tokens ++ .closeBrace :: ts)))))).isSome = false := by
      obtain ⟨u, us, htokens, hu⟩ := exists_tokens hcond
      rw [htokens, List.cons_append]
      cases u <;> first | rfl | cases hu
    rw [choice, hopen, if_neg (by decide), hc.term hcond rfl]
    by_cases hlevels : cond.levels + 1 ≤ room + 1
    · rw [if_pos hlevels]
      simp only [Option.bind_eq_bind, Option.bind_some, htruth, if_true,
        eatOpen?, hy.statements hyes]
      by_cases hyesLevels : yes.levels + 2 ≤ room
      · rw [if_pos hyesLevels]
        simp only [Option.bind_some, hn.statements hno]
        by_cases hnoLevels : no.levels + 2 ≤ room
        · rw [if_pos hnoLevels, if_pos (by omega)]
          rfl
        · rw [if_neg hnoLevels, if_neg (by omega)]
          rfl
      · rw [if_neg hyesLevels, if_neg (by omega)]
        rfl
    · rw [if_neg hlevels, if_neg (by omega)]
      rfl

theorem primary_int (n : Int64) : primary room (.int n :: ts) = some (.int n, ts) := by rw [primary]

theorem primary_float (x : Float) : primary room (.float x :: ts) = some (.float x, ts) := by rw [primary]

theorem primary_text (s : String) : primary room (.text s :: ts) = some (.text s, ts) := by rw [primary]

theorem primary_bool (b : Bool) :
    primary room (.word (if b then "true" else "false") :: ts) = some (.bool b, ts) := by
  cases b with
  | false =>
    rw [if_neg (by decide), primary]
  | true =>
    rw [if_pos rfl, primary]

theorem primary_if : primary (room + 1) (.word "if" :: ts) =
    (choice room ts).bind fun r => some (.block [.eval r.1], r.2) := by
  rw [primary]
  rfl

/-- A term in parentheses. -/
theorem primary_enclosed {x : Term} (inner : Rest) (levels room : Nat) (ts : Rest)
    (hopen : eat? .closing (inner ++ .symbol .closing :: ts) = none)
    (hterm : ∀ room, Reading.term room (inner ++ .symbol .closing :: ts) =
      if levels + 1 ≤ room then some (x, .symbol .closing :: ts) else none) :
    primary room (Phrase.enclosed inner ++ ts) = if levels + 2 ≤ room then some (x, ts) else none := by
  have htokens : Phrase.enclosed inner ++ ts = .symbol .opening :: (inner ++ .symbol .closing :: ts) := by
    simp [Phrase.enclosed]
  rw [htokens]
  cases room with
  | zero => rw [primary, if_neg (by omega)]
  | succ room =>
    rw [primary]
    simp only [hopen, hterm]
    by_cases hlevels : levels + 1 ≤ room
    · rw [if_pos hlevels, if_pos (by omega)]
      rfl
    · rw [if_neg hlevels, if_neg (by omega)]
      rfl

/-- A number, in parentheses if it has a sign. -/
theorem primary_signedToken {u : ChunkToken} {x : Term} (hu : u.opens = true)
    (hprimary : ∀ room ts, primary room (u :: ts) = some (x, ts)) (signed : Bool) (room : Nat) (ts : Rest) :
    primary room (Phrase.signedToken signed u ++ t :: ts) =
      if (if signed then 2 else 0) ≤ room then some (x, t :: ts) else none := by
  cases signed with
  | false =>
    simpa [Phrase.signedToken] using hprimary room (t :: ts)
  | true =>
    have hopen : eat? .closing ([u] ++ .symbol .closing :: t :: ts) = none := by
      cases u with
      | symbol s => cases s <;> first | rfl | cases hu
      | _ => rfl
    refine primary_enclosed [u] 0 room (t :: ts) hopen fun room => ?_
    cases room with
    | zero => rw [Reading.term, if_neg (by omega)]
    | succ room =>
      have hsigned : Reading.signed room ([u] ++ .symbol .closing :: t :: ts) =
          some (x, .symbol .closing :: t :: ts) := by
        rw [List.cons_append, signed_of_opens (.inl hu), hprimary]
        exact parts_of_follows rfl room x _
      rw [Reading.term, hsigned, if_pos (by omega)]
      exact chain_of_stops rfl _ _

theorem primary_unit :
    primary room (Phrase.enclosed [] ++ ts) = if 1 ≤ room then some (.unit, ts) else none := by
  change primary room (.symbol .opening :: .symbol .closing :: ts) = _
  cases room with
  | zero => rw [primary, if_neg (by decide)]
  | succ room =>
    rw [primary, if_pos (by omega)]
    rfl

theorem reads_int (n : Int64) : Reads (.int n) := by
  intro room t ts ht
  have hint := primary_signedToken (t := t) rfl (fun _ _ => primary_int n) (n < 0) room ts
  simp only [decide_eq_true_eq] at hint
  exact hint

/-- The least whole number is read as a difference. -/
theorem primary_least : primary room (Phrase.least.tokens ++ ts) =
    if 3 ≤ room then some (Phrase.least.term, ts) else none := by
  refine primary_enclosed [.int (-9223372036854775807), .symbol .minus, .int 1] 1 room ts rfl fun room => ?_
  change Reading.term room (.int (-9223372036854775807) ::
    (Phrase.linked (.symbol .minus) [.int 1] ++ .symbol .closing :: ts)) = _
  cases room with
  | zero => rw [Reading.term, if_neg (by omega)]
  | succ room =>
    have hchain := @chain_linked (.symbol .closing) (.op .sub) rfl [.int 1]
      (by simpa using ⟨reads_int 1, .int 1⟩) rfl (.int (-9223372036854775807))
      (by simp [Operator.isLogical]) room ts
    have hparts : Reading.signed room (.int (-9223372036854775807) ::
        (Phrase.linked (.symbol .minus) [.int 1] ++ .symbol .closing :: ts)) =
        some (.int (-9223372036854775807),
          Phrase.linked (.symbol .minus) [.int 1] ++ .symbol .closing :: ts) := by
      rw [signed_of_opens (.inl rfl), primary_int]
      exact parts_of_follows rfl room _ _
    rw [Reading.term, hparts]
    by_cases hroom : 1 ≤ room
    · rw [if_pos (by omega)]
      rw [if_pos (show Phrase.chainLevels [.int 1] ≤ room from hroom)] at hchain
      exact hchain
    · rw [if_neg (by omega)]
      rw [if_neg (show ¬ Phrase.chainLevels [.int 1] ≤ room from hroom)] at hchain
      exact hchain

/-- Operands of a chain, read as a term. -/
theorem term_chain {op : Operator} {rest : List Phrase} (hop : op.isWritten = true) (hrest : rest ≠ [])
    (hp : Reads p) (h : p.Readable) (hmore : ∀ q ∈ rest, Reads q ∧ q.Readable)
    (htruth : op.isLogical = true → ∀ q ∈ p :: rest, q.term.mayBeTruth = true) (ht : t.stops = true)
    (room : Nat) (ts : Rest) :
    Reading.term room (p.tokens ++ (Phrase.linked (.symbol op.sign) rest ++ t :: ts)) =
      if max p.levels (Phrase.chainLevels rest) + 1 ≤ room then
        some ((Phrase.chain op p rest).term, t :: ts)
      else none := by
  obtain ⟨q, rest, rfl⟩ := List.exists_cons_of_ne_nil hrest
  obtain ⟨level, hlevel, hop'⟩ := exists_operatorOf? hop
  have hfollows : (ChunkToken.symbol op.sign).follows = true := by simp [follows, hop']
  cases room with
  | zero => rw [Reading.term, if_neg (by omega)]
  | succ room =>
    have hsigned := hp.signed h hfollows room
      (q.tokens ++ Phrase.linked (.symbol op.sign) rest ++ t :: ts)
    have hchain := chain_linked hop hmore ht p.term (fun hlogical =>
      ⟨htruth hlogical p (by simp), fun r hr => htruth hlogical r (by simp [hr])⟩) room ts
    rw [Reading.term]
    simp only [Phrase.linked, List.cons_append] at hchain ⊢
    rw [hsigned]
    by_cases hlevels : p.levels ≤ room
    · rw [if_pos hlevels]
      by_cases hroom : Phrase.chainLevels (q :: rest) ≤ room
      · rw [if_pos (by omega)]
        rw [if_pos hroom] at hchain
        exact hchain
      · rw [if_neg (by omega)]
        rw [if_neg hroom] at hchain
        exact hchain
    · rw [if_neg hlevels, if_neg (by omega)]
      rfl

theorem eat?_closing_tokens (h : p.Readable) (ts : Rest) : eat? .closing (p.tokens ++ ts) = none := by
  obtain ⟨u, us, htokens, hu⟩ := exists_tokens h
  rw [htokens, List.cons_append]
  cases u with
  | symbol s => cases s <;> first | rfl | cases hu
  | _ => rfl

/-- A choice, read as a term. -/
theorem term_choice {cond yes no : Phrase} (hc : Reads cond) (hcond : cond.Readable) (hy : Reads yes)
    (hyes : yes.Readable) (hn : Reads no) (hno : no.Readable) (htruth : cond.term.mayBeTruth = true)
    (ht : t.stops = true) (room : Nat) (ts : Rest) :
    Reading.term room ((.word "if" :: cond.tokens ++ Phrase.braced yes.tokens ++ .word "else" ::
        Phrase.braced no.tokens) ++ t :: ts) =
      if max cond.levels (2 + max yes.levels no.levels) + 3 + 1 ≤ room then
        some ((Phrase.choice cond yes no).term, t :: ts)
      else none := by
  have htokens : (.word "if" :: cond.tokens ++ Phrase.braced yes.tokens ++ .word "else" ::
      Phrase.braced no.tokens) ++ t :: ts =
      .word "if" :: (cond.tokens ++ (.openBrace :: (yes.tokens ++ (.closeBrace :: .word "else" ::
        .openBrace :: (no.tokens ++ .closeBrace :: t :: ts))))) := by
    simp [Phrase.braced]
  rw [htokens]
  match room with
  | 0 => rw [Reading.term, if_neg (by omega)]
  | 1 =>
    rw [Reading.term, signed_of_opens (.inr rfl), primary, if_neg (by omega)]
    rfl
  | room + 2 =>
    rw [Reading.term, signed_of_opens (.inr rfl), primary_if,
      choice_braced hc hcond hy hyes hn hno htruth]
    by_cases hlevels : max cond.levels (2 + max yes.levels no.levels) + 2 ≤ room
    · rw [if_pos hlevels, if_pos (by omega)]
      simp only [Option.bind_eq_bind, Option.bind_some, parts_of_follows (follows_of_stops ht)]
      exact chain_of_stops ht _ _
    · rw [if_neg hlevels, if_neg (by omega)]
      rfl

/-- Every phrase is read as its term, if there are enough levels. -/
theorem reads (h : p.Readable) : Reads p := by
  induction h with
  | unit =>
    intro room t ts ht
    exact primary_unit
  | bool b =>
    intro room t ts ht
    exact primary_bool b
  | int n => exact reads_int n
  | least =>
    intro room t ts ht
    exact primary_least
  | @float x _ =>
    intro room t ts ht
    exact primary_signedToken rfl (fun _ _ => primary_float x) (hasSign x) room ts
  | text s =>
    intro room t ts ht
    exact primary_text s
  | @name x hx =>
    intro room t ts ht
    change primary room (.word x :: t :: ts) = some (.name x, t :: ts)
    rw [primary_word (isFree_of_isFunctionName hx), eat?_opening_of_follows ht]
  | @chain op first rest hop hrest hfirst hmore htruth ihf ihm =>
    intro room t ts ht
    have hterm := fun room => term_chain hop hrest ihf hfirst (fun q hq => ⟨ihm q hq, hmore q hq⟩) htruth
      (t := .symbol .closing) rfl room (t :: ts)
    have henclosed := primary_enclosed (first.tokens ++ Phrase.linked (.symbol op.sign) rest) _ room (t :: ts)
      (by rw [List.append_assoc]; exact eat?_closing_tokens hfirst _)
      (by simpa only [List.append_assoc] using hterm)
    simp only [Nat.add_comm _ 2] at henclosed
    exact henclosed
  | @call function args hfunction hargs ih =>
    intro room t ts ht
    cases args with
    | nil =>
      change primary room (.word function :: .symbol .opening :: .symbol .closing :: t :: ts) =
        some (.call function [], t :: ts)
      rw [primary_word (isFree_of_isFunctionName hfunction)]
      rfl
    | cons first rest =>
      have hlevels : (Phrase.call function (first :: rest)).levels =
        2 + max first.levels (Phrase.mostLevels rest) := rfl
      have htokens : (Phrase.call function (first :: rest)).tokens ++ t :: ts =
          .word function :: .symbol .opening :: (first.tokens ++ (Phrase.linked (.symbol .comma) rest ++
            .symbol .closing :: t :: ts)) := by
        simp [Phrase.tokens, Phrase.enclosed]
      rw [htokens, primary_word (isFree_of_isFunctionName hfunction)]
      change (match eat? .closing (first.tokens ++ _) with | some _ => _ | none => _) = _
      rw [eat?_closing_tokens (hargs first (by simp))]
      cases room with
      | zero => rw [if_neg (by omega)]
      | succ room =>
        have hrest : ∀ q ∈ rest, Reads q ∧ q.Readable := fun q hq =>
          ⟨ih q (by simp [hq]), hargs q (by simp [hq])⟩
        have harguments := arguments_linked (ih first (by simp)) (hargs first (by simp)) hrest room (t :: ts)
        dsimp only
        rw [harguments]
        by_cases hroom : max first.levels (Phrase.mostLevels rest) + 1 ≤ room
        · rw [if_pos hroom, if_pos (by omega)]
          rfl
        · rw [if_neg hroom, if_neg (by omega)]
          rfl
  | @choice cond yes no hcond hyes hno htruth ihc ihy ihn =>
    intro room t ts ht
    have henclosed := primary_enclosed (.word "if" :: cond.tokens ++ Phrase.braced yes.tokens ++ .word "else" ::
      Phrase.braced no.tokens) _ room (t :: ts) rfl fun room =>
        term_choice ihc hcond ihy hyes ihn hno htruth rfl room (t :: ts)
    have hlevels : max cond.levels (2 + max yes.levels no.levels) + 3 + 2 =
        (Phrase.choice cond yes no).levels := by
      change _ = 5 + _
      omega
    rw [hlevels] at henclosed
    exact henclosed

/-! ### Lines and functions -/

end Reading

end Chunk

end Barrage
